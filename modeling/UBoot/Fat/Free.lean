import UBoot.Fat.Cluster

/-!
# The search for a free cluster

`find_empty_cluster` and `determine_fatent` in `fs/fat/fat_write.c` both look for the
first entry that `get_fatent_value` gives as 0. Reading another part of the FAT writes
back the part that was held, so the FAT is what is held together with the rest of the
table on the device.
-/

namespace UBoot.Fat

open Verification

/-- What does not change while a file is written. -/
structure Volume where
  fs : FsData
  start : UInt32
  lba : Nat
  blksz : Nat
  totalSector : UInt32
  numOfFats : UInt8

/-- The bytes of the device, and the part of the FAT that is held. -/
structure FatState where
  bytes : Ptr
  buf : FatBuf

section

variable (v : Volume)

def Volume.disk (bytes : Ptr) : Disk := ⟨v.start, v.lba, v.blksz, bytes⟩

/-- `disk_write`: a negative number, or the number of blocks that are written. -/
def diskWrite (bytes : Ptr) (block nrBlocks : UInt32) (buf : Ptr) : Int × Ptr :=
  let blk := (v.start + block).toNat
  if v.start + block + nrBlocks > v.start + v.totalSector then (-1, bytes)
  else if blk + nrBlocks.toNat ≤ v.lba then
    (nrBlocks.toNat, bytes.write (blk * v.blksz) (nrBlocks.toNat * v.blksz) buf)
  else (0, bytes)

/-- The blocks that are read and written at once. -/
def getsize : UInt32 :=
  if FATBUFBLOCKS > v.fs.fatlength then v.fs.fatlength else FATBUFBLOCKS

/-- `flush_fat_buffer` -/
def flushFatBuffer (s : FatState) : Int × Ptr :=
  let startblock := s.buf.fatbufnum * FATBUFBLOCKS + v.fs.fatSect.toUInt32
  let first := diskWrite v s.bytes startblock (getsize v) s.buf.fatbuf
  if first.1 < 0 then (-1, first.2)
  else if v.numOfFats = 2 then
    let second := diskWrite v first.2 (startblock + v.fs.fatlength) (getsize v) s.buf.fatbuf
    if second.1 < 0 then (-1, second.2) else (0, second.2)
  else (0, first.2)

/-- Read a part into the cache. A read that fails is not noticed. -/
def loadFat (bufnum getsize : UInt32) (bytes fatbuf : Ptr) : FatState :=
  let startblock := bufnum * FATBUFBLOCKS + v.fs.fatSect.toUInt32
  ⟨bytes, (diskRead (v.disk bytes) startblock getsize fatbuf 0).2, bufnum⟩

/-- `get_fatent_value` -/
def getFatentValue (s : FatState) (entry : UInt32) : UInt32 × FatState :=
  if CHECK_CLUST v.fs entry then (0, s)
  else if v.fs.fatsize ≠ 32 ∧ v.fs.fatsize ≠ 16 ∧ v.fs.fatsize ≠ 12 then (0, s)
  else
    let bufnum := entry / bufEntries v.fs
    let offset := entry - bufnum * bufEntries v.fs
    if bufnum = s.buf.fatbufnum then
      (UInt32.ofNat (bufEntry v.fs s.buf.fatbuf offset.toNat), s)
    else
      let flushed := if s.buf.fatbufnum ≠ -1 then flushFatBuffer v s else (0, s.bytes)
      if flushed.1 < 0 then (-1, ⟨flushed.2, s.buf⟩)
      else
        let s := loadFat v bufnum (getsize v) flushed.2 s.buf.fatbuf
        (UInt32.ofNat (bufEntry v.fs s.buf.fatbuf offset.toNat), s)

/-- `set_fatent_value`; its result is not looked at. The length of the FAT is
compared in bytes. -/
def setFatentValue (s : FatState) (entry entryValue : UInt32) : FatState :=
  let width := if v.fs.fatsize = 32 then 4 else 2
  let bufnum := entry / bufEntries v.fs
  let offset := entry - bufnum * bufEntries v.fs
  let fatlength := v.fs.fatlength * v.fs.sectSize.toUInt32
  let getsize := if FATBUFBLOCKS > fatlength then fatlength else FATBUFBLOCKS
  let store (s : FatState) : FatState :=
    ⟨s.bytes, s.buf.fatbuf.write (width * offset.toNat) width
      (Ptr.ofList (leBytes width entryValue.toNat)), s.buf.fatbufnum⟩
  if v.fs.fatsize ≠ 32 ∧ v.fs.fatsize ≠ 16 then s
  else if bufnum = s.buf.fatbufnum then store s
  else
    let flushed := if s.buf.fatbufnum ≠ -1 then flushFatBuffer v s else (0, s.bytes)
    if flushed.1 < 0 then ⟨flushed.2, s.buf⟩
    else store (loadFat v bufnum getsize flushed.2 s.buf.fatbuf)

end

/-! ### The loops -/

theorem not_checkClust_of_ne_zero {v : Volume} {s : FatState} {entry : UInt32}
    (h : (getFatentValue v s entry).1 ≠ 0) : ¬CHECK_CLUST v.fs entry := by
  intro hinvalid
  rw [getFatentValue, if_pos hinvalid] at h
  exact h rfl

theorem succ_toNat_of_valid {fs : FsData} {entry : UInt32} (h : ¬CHECK_CLUST fs entry) :
    (entry + 1).toNat = entry.toNat + 1 := by
  have hlt := lt_of_valid h
  rw [UInt32.toNat_add, show (1 : UInt32).toNat = 1 from rfl]
  omega

/-- The loop of both functions. It ends at the latest where numbers are no clusters
any more. -/
def searchFree (v : Volume) (s : FatState) (entry : UInt32) : UInt32 × FatState :=
  if (getFatentValue v s entry).1 = 0 then (entry, (getFatentValue v s entry).2)
  else searchFree v (getFatentValue v s entry).2 (entry + 1)
  termination_by 2 ^ 32 - entry.toNat
  decreasing_by
    rename_i h
    have hvalid := not_checkClust_of_ne_zero h
    have hlt := lt_of_valid hvalid
    rw [succ_toNat_of_valid hvalid]
    omega

/-- `find_empty_cluster` -/
def findEmptyCluster (v : Volume) (s : FatState) : UInt32 × FatState := searchFree v s 3

/-- `determine_fatent` -/
def determineFatent (v : Volume) (s : FatState) (entry : UInt32) : UInt32 × FatState :=
  let found := searchFree v s (entry + 1)
  (found.1, setFatentValue v found.2 entry found.1)

/-! ### The FAT while it is written -/

section

variable (v : Volume)

/-- Copies of the FAT that are written. -/
def copies : Nat := if v.numOfFats = 2 then 2 else 1

/-- A volume on its device: the FATs are followed by at least five sectors. -/
structure Volume.Ok : Prop where
  fatsize : v.fs.fatsize = 16 ∨ v.fs.fatsize = 32
  sectSize : v.fs.sectSize.toNat = v.blksz
  sect_pos : 0 < v.blksz
  sect_four : 4 ∣ v.blksz
  lba : v.lba < 2 ^ 32
  room : v.fs.fatSect.toNat + copies v * v.fs.fatlength.toNat + 5 ≤ v.totalSector.toNat
  device : v.start.toNat + v.totalSector.toNat ≤ v.lba

/-- The bytes of the FAT: those that are held, and the others on the device. -/
def fatBytes (s : FatState) : Ptr := fun i =>
  if i / (6 * v.blksz) = s.buf.fatbufnum.toNat then s.buf.fatbuf (i % (6 * v.blksz))
  else table v.fs (v.disk s.bytes) i

def fatValue (s : FatState) (n : Nat) : Nat := entryAt v.fs (fatBytes v s) n

/-- Nothing is held, or a part of the FAT. -/
def Held (s : FatState) : Prop :=
  s.buf.fatbufnum = -1 ∨ s.buf.fatbufnum.toNat * 6 < v.fs.fatlength.toNat

/-- No byte of the FAT is another one. -/
def SameFat (s s' : FatState) : Prop :=
  ∀ i < v.fs.fatlength.toNat * v.blksz, fatBytes v s' i = fatBytes v s i

end

section

variable {v : Volume} {s : FatState}

theorem getsize_toNat (v : Volume) : (getsize v).toNat = min 6 v.fs.fatlength.toNat := by
  rw [getsize]
  split_ifs with h
  · rw [gt_iff_lt, UInt32.lt_iff_toNat_lt, show FATBUFBLOCKS.toNat = 6 from rfl] at h
    omega
  · rw [gt_iff_lt, UInt32.lt_iff_toNat_lt, show FATBUFBLOCKS.toNat = 6 from rfl] at h
    rw [show FATBUFBLOCKS.toNat = 6 from rfl]
    omega

theorem diskWrite_ok (ok : v.Ok) {block nrBlocks : UInt32}
    (h : block.toNat + nrBlocks.toNat ≤ v.totalSector.toNat) (bytes buf : Ptr) :
    diskWrite v bytes block nrBlocks buf = ((nrBlocks.toNat : Int), bytes.write
      ((v.start.toNat + block.toNat) * v.blksz) (nrBlocks.toNat * v.blksz) buf) := by
  have hlba := ok.lba
  have hdevice := ok.device
  have hblk : (v.start + block).toNat = v.start.toNat + block.toNat := by
    rw [UInt32.toNat_add]
    omega
  have hfits : ¬v.start + block + nrBlocks > v.start + v.totalSector := by
    rw [gt_iff_lt, UInt32.lt_iff_toNat_lt, UInt32.toNat_add, UInt32.toNat_add (v.start + block),
      hblk]
    omega
  simp only [diskWrite]
  rw [if_neg hfits, hblk, if_pos (by omega)]

/-- The block of a part that lies at least partly in the FAT. -/
theorem startblock_toNat (ok : v.Ok) {bufnum : UInt32}
    (h : bufnum.toNat * 6 < v.fs.fatlength.toNat) :
    (bufnum * FATBUFBLOCKS + v.fs.fatSect.toUInt32).toNat =
      v.fs.fatSect.toNat + bufnum.toNat * 6 := by
  have hroom := ok.room
  have hdevice := ok.device
  have hlba := ok.lba
  have hone : 1 * v.fs.fatlength.toNat ≤ copies v * v.fs.fatlength.toNat :=
    Nat.mul_le_mul_right _ (by rw [copies]; split_ifs <;> decide)
  rw [UInt32.toNat_add, UInt32.toNat_mul, show FATBUFBLOCKS.toNat = 6 from rfl,
    UInt16.toNat_toUInt32]
  omega

/-- The bytes of a part that lie in the FAT are among those that are read at once. -/
theorem lt_of_part {b i : Nat} (hi : i < v.fs.fatlength.toNat * v.blksz) (hpart : i / (6 * v.blksz) = b) :
    i = b * (6 * v.blksz) + i % (6 * v.blksz) ∧
      i % (6 * v.blksz) < min 6 v.fs.fatlength.toNat * v.blksz := by
  have hsplit := Nat.div_add_mod' i (6 * v.blksz)
  rw [hpart] at hsplit
  refine ⟨hsplit.symm, ?_⟩
  rcases Nat.le_total 6 v.fs.fatlength.toNat with hle | hle
  · rw [Nat.min_eq_left hle]
    have hpos : 0 < 6 * v.blksz := by
      rcases Nat.eq_zero_or_pos v.blksz with h0 | h0
      · rw [h0, Nat.mul_zero] at hi
        exact absurd hi (Nat.not_lt_zero i)
      · omega
    exact Nat.mod_lt _ hpos
  · rw [Nat.min_eq_right hle]
    exact Nat.lt_of_le_of_lt (Nat.mod_le ..) hi

theorem fatBytes_of_part {i : Nat} (h : i / (6 * v.blksz) = s.buf.fatbufnum.toNat) :
    fatBytes v s i = s.buf.fatbuf (i % (6 * v.blksz)) :=
  if_pos h

theorem fatBytes_of_not_part {i : Nat} (h : ¬i / (6 * v.blksz) = s.buf.fatbufnum.toNat) :
    fatBytes v s i = table v.fs (v.disk s.bytes) i :=
  if_neg h

/-- The part that is held, written to its place. -/
theorem table_write_held {b : Nat} (hb : s.buf.fatbufnum.toNat = b) {i : Nat}
    (hi : i < v.fs.fatlength.toNat * v.blksz) :
    table v.fs (v.disk (s.bytes.write ((v.start.toNat + (v.fs.fatSect.toNat + b * 6)) * v.blksz)
      (min 6 v.fs.fatlength.toNat * v.blksz) s.buf.fatbuf)) i = fatBytes v s i := by
  have hplace : (v.start.toNat + (v.fs.fatSect.toNat + b * 6)) * v.blksz =
      (v.start.toNat + v.fs.fatSect.toNat) * v.blksz + b * (6 * v.blksz) := by ring
  have hsix : min 6 v.fs.fatlength.toNat * v.blksz ≤ 6 * v.blksz :=
    Nat.mul_le_mul_right _ (Nat.min_le_left ..)
  rw [fatBytes, hb, table, Volume.disk, hplace]
  simp only [Ptr.add, Ptr.write, table]
  by_cases hpart : i / (6 * v.blksz) = b
  · obtain ⟨hsplit, hlt⟩ := lt_of_part hi hpart
    rw [if_pos (by omega), if_pos hpart]
    congr 1
    omega
  · rw [if_neg hpart, if_neg]
    · rfl
    · rintro ⟨hle, hlt⟩
      refine hpart (Nat.div_eq_of_lt_le (by omega) ?_)
      rw [Nat.succ_mul]
      omega

theorem flush_ok (ok : v.Ok) (held : s.buf.fatbufnum.toNat * 6 < v.fs.fatlength.toNat) :
    ∃ bytes, flushFatBuffer v s = (0, bytes) ∧
      ∀ i < v.fs.fatlength.toNat * v.blksz, table v.fs (v.disk bytes) i = fatBytes v s i := by
  have hroom := ok.room
  have hdevice := ok.device
  have hlba := ok.lba
  have hstart := startblock_toNat ok held
  have hsize := getsize_toNat v
  generalize hblock : s.buf.fatbufnum * FATBUFBLOCKS + v.fs.fatSect.toUInt32 = startblock at hstart
  generalize hb : s.buf.fatbufnum.toNat = b at held hstart
  have hone : v.fs.fatlength.toNat ≤ copies v * v.fs.fatlength.toNat :=
    Nat.le_mul_of_pos_left _ (by rw [copies]; split_ifs <;> decide)
  have hfirst : diskWrite v s.bytes startblock (getsize v) s.buf.fatbuf = _ :=
    diskWrite_ok ok (by omega) s.bytes s.buf.fatbuf
  rw [hstart, hsize] at hfirst
  have hpos : ¬((min 6 v.fs.fatlength.toNat : Nat) : Int) < 0 := by omega
  simp only [flushFatBuffer]
  rw [hblock, hfirst, if_neg hpos]
  by_cases htwo : v.numOfFats = 2
  · rw [copies, if_pos htwo] at hroom
    have hnext : (startblock + v.fs.fatlength).toNat =
        v.fs.fatSect.toNat + b * 6 + v.fs.fatlength.toNat := by
      rw [UInt32.toNat_add, hstart]
      omega
    have hsecond (bytes : Ptr) :
        diskWrite v bytes (startblock + v.fs.fatlength) (getsize v) s.buf.fatbuf = _ :=
      diskWrite_ok ok (by omega) bytes s.buf.fatbuf
    rw [hnext, hsize] at hsecond
    rw [if_pos htwo, hsecond, if_neg hpos]
    refine ⟨_, rfl, fun i hi => ?_⟩
    rw [← table_write_held hb hi]
    -- the second copy lies behind the first
    have hbehind : (v.start.toNat + (v.fs.fatSect.toNat + b * 6 + v.fs.fatlength.toNat)) * v.blksz =
        (v.start.toNat + v.fs.fatSect.toNat) * v.blksz + b * 6 * v.blksz +
          v.fs.fatlength.toNat * v.blksz := by ring
    simp only [table, Volume.disk, Ptr.add]
    rw [Ptr.write, if_neg]
    rw [hbehind]
    omega
  · rw [if_neg htwo]
    exact ⟨_, rfl, fun i hi => table_write_held hb hi⟩

/-- A part that is read is what the FAT has there. -/
theorem loadFat_ok (ok : v.Ok) {bufnum : UInt32} (h : bufnum.toNat * 6 < v.fs.fatlength.toNat)
    (bytes fatbuf : Ptr) {i : Nat} (hi : i < v.fs.fatlength.toNat * v.blksz) :
    fatBytes v (loadFat v bufnum (getsize v) bytes fatbuf) i = table v.fs (v.disk bytes) i := by
  have hroom := ok.room
  have hdevice := ok.device
  have hstart := startblock_toNat ok h
  have hone : v.fs.fatlength.toNat ≤ copies v * v.fs.fatlength.toNat :=
    Nat.le_mul_of_pos_left _ (by rw [copies]; split_ifs <;> decide)
  have hread : diskRead (v.disk bytes) (bufnum * FATBUFBLOCKS + v.fs.fatSect.toUInt32)
      (getsize v) fatbuf 0 = _ :=
    diskRead_ok ok.lba (by rw [getsize_toNat, hstart]; simp only [Volume.disk]; omega) fatbuf 0
  rw [hstart, getsize_toNat] at hread
  by_cases hpart : i / (6 * v.blksz) = bufnum.toNat
  · obtain ⟨hsplit, hlt⟩ := lt_of_part hi hpart
    refine (fatBytes_of_part (s := loadFat v bufnum (getsize v) bytes fatbuf) hpart).trans ?_
    simp only [loadFat, hread]
    have hinside : 0 ≤ i % (6 * v.blksz) ∧
        i % (6 * v.blksz) < 0 + min 6 v.fs.fatlength.toNat * v.blksz :=
      ⟨Nat.zero_le _, by rwa [Nat.zero_add]⟩
    refine (if_pos hinside).trans ?_
    simp only [Ptr.add, table, Volume.disk]
    congr 1
    have hplace : (v.start.toNat + (v.fs.fatSect.toNat + bufnum.toNat * 6)) * v.blksz =
        (v.start.toNat + v.fs.fatSect.toNat) * v.blksz + bufnum.toNat * (6 * v.blksz) := by ring
    rw [hplace]
    omega
  · exact fatBytes_of_not_part (s := loadFat v bufnum (getsize v) bytes fatbuf) hpart

theorem bufEntry_held (ok : v.Ok) {entry : UInt32}
    (h : entry / bufEntries v.fs = s.buf.fatbufnum) :
    bufEntry v.fs s.buf.fatbuf (entry - entry / bufEntries v.fs * bufEntries v.fs).toNat =
      fatValue v s entry.toNat := by
  obtain ⟨m, hm⟩ := ok.sect_four
  have hpos := ok.sect_pos
  have hsix : 6 * v.blksz = 24 * m := by omega
  have hentries := bufEntries_toNat (ok.sectSize.trans hm)
  have hbufnum : s.buf.fatbufnum.toNat = entry.toNat / partEntries v.fs m := by
    rw [← h, UInt32.toNat_div, hentries]
  have hparts : 0 < partEntries v.fs m := by
    rw [partEntries]
    split_ifs <;> omega
  have hoffset := offset_toNat hentries entry
  have hsplit := Nat.div_add_mod' entry.toNat (partEntries v.fs m)
  have hvalue : fatValue v s entry.toNat = entryAt v.fs
      ((fatBytes v s).add (entry.toNat / partEntries v.fs m * (24 * m)))
      (entry.toNat % partEntries v.fs m) := by
    rw [entryAt_part, hsplit, fatValue]
  rw [bufEntry_eq, hoffset, hvalue]
  apply entryAt_congr
  intro i hi
  have hlt := Nat.lt_of_lt_of_le hi (entryEnd_le v.fs (Nat.mod_lt entry.toNat hparts))
  have hpart : (entry.toNat / partEntries v.fs m * (24 * m) + i) / (6 * v.blksz) =
      s.buf.fatbufnum.toNat := by
    rw [hbufnum, hsix]
    refine Nat.div_eq_of_lt_le (by omega) ?_
    rw [Nat.add_mul, Nat.one_mul]
    omega
  rw [Ptr.add, fatBytes_of_part hpart, hsix, Nat.mul_add_mod_self_right, Nat.mod_eq_of_lt hlt]

theorem fatValue_congr (ok : v.Ok) {s' : FatState} (same : SameFat v s s') {n : Nat}
    (hinside : EntryInside v.fs n) : fatValue v s' n = fatValue v s n := by
  rw [EntryInside, ok.sectSize] at hinside
  exact entryAt_congr v.fs fun i hi => same i (Nat.lt_of_lt_of_le hi hinside)

/-- The part of an entry lies at least partly in the FAT. -/
theorem part_lt (ok : v.Ok) {entry : UInt32} (hinside : EntryInside v.fs entry.toNat) :
    (entry / bufEntries v.fs).toNat * 6 < v.fs.fatlength.toNat := by
  obtain ⟨m, hm⟩ := ok.sect_four
  have hpos := ok.sect_pos
  have hentries := bufEntries_toNat (ok.sectSize.trans hm)
  have hsplit := Nat.div_add_mod' entry.toNat (partEntries v.fs m)
  have hpositive : 0 < entryEnd v.fs (entry.toNat % partEntries v.fs m) := by
    rw [entryEnd]
    split_ifs <;> omega
  rw [EntryInside, ok.sectSize, ← hsplit, entryEnd_part] at hinside
  have hbytes : entry.toNat / partEntries v.fs m * (24 * m) =
      entry.toNat / partEntries v.fs m * 6 * v.blksz := by
    rw [hm]
    ring
  rw [UInt32.toNat_div, hentries]
  apply Nat.lt_of_mul_lt_mul_right (a := v.blksz)
  omega

theorem part_mul_lt {i : Nat} (h : i < v.fs.fatlength.toNat * v.blksz) :
    i / (6 * v.blksz) * 6 < v.fs.fatlength.toNat := by
  have hle := Nat.div_mul_le_self i (6 * v.blksz)
  apply Nat.lt_of_mul_lt_mul_right (a := v.blksz)
  rw [Nat.mul_assoc]
  omega

/-- An entry of the FAT is read right, and reading it changes no entry. -/
theorem getFatentValue_ok (ok : v.Ok) (held : Held v s) {entry : UInt32}
    (hvalid : ¬CHECK_CLUST v.fs entry) (hinside : EntryInside v.fs entry.toNat) :
    (getFatentValue v s entry).1.toNat = fatValue v s entry.toNat ∧
      Held v (getFatentValue v s entry).2 ∧ SameFat v s (getFatentValue v s entry).2 := by
  have hsupported : ¬(v.fs.fatsize ≠ 32 ∧ v.fs.fatsize ≠ 16 ∧ v.fs.fatsize ≠ 12) := by
    rcases ok.fatsize with h | h <;> simp [h]
  have hlt := part_lt ok hinside
  have hfat := v.fs.fatlength.toNat_lt
  have hofNat (n : Nat) (h : n < 2 ^ 32) : (UInt32.ofNat n).toNat = n := by
    rw [UInt32.toNat_ofNat', Nat.mod_eq_of_lt h]
  simp only [getFatentValue]
  rw [if_neg hvalid, if_neg hsupported]
  by_cases hcached : entry / bufEntries v.fs = s.buf.fatbufnum
  · rw [if_pos hcached, bufEntry_held ok hcached]
    exact ⟨hofNat _ (entryAt_lt ..), held, fun _ _ => rfl⟩
  · rw [if_neg hcached]
    obtain ⟨bytes, hflush, hbytes⟩ : ∃ bytes,
        (if s.buf.fatbufnum ≠ -1 then flushFatBuffer v s else (0, s.bytes)) = (0, bytes) ∧
          ∀ i < v.fs.fatlength.toNat * v.blksz,
            table v.fs (v.disk bytes) i = fatBytes v s i := by
      rcases held with hnone | hpart
      · refine ⟨s.bytes, if_neg (not_not.mpr hnone), fun i hi => ?_⟩
        refine (fatBytes_of_not_part ?_).symm
        have hpart := part_mul_lt hi
        rw [hnone, show (-1 : UInt32).toNat = 2 ^ 32 - 1 from rfl]
        omega
      · rw [if_pos]
        · exact flush_ok ok hpart
        · intro hnone
          rw [hnone, show (-1 : UInt32).toNat = 2 ^ 32 - 1 from rfl] at hpart
          omega
    have same : SameFat v s
        (loadFat v (entry / bufEntries v.fs) (getsize v) bytes s.buf.fatbuf) :=
      fun i hi => (loadFat_ok ok hlt bytes s.buf.fatbuf hi).trans (hbytes i hi)
    rw [hflush, if_neg (Int.lt_irrefl 0)]
    refine ⟨?_, .inr hlt, same⟩
    rw [← fatValue_congr ok same hinside, ← @bufEntry_held v _ ok entry rfl]
    exact hofNat _ (by rw [bufEntry_eq]; exact entryAt_lt ..)

/-! ### What the search finds -/

/-- The cluster lies inside the data area, which starts with cluster 2. -/
def InData (v : Volume) (c : UInt32) : Prop :=
  2 ≤ c.toNat ∧ sector v.fs c + v.fs.clustSize.toNat ≤ v.totalSector.toNat

/-- A number that may be returned: its entry lies inside the FAT and is free, and the
cluster lies inside the data area. -/
def Usable (v : Volume) (s : FatState) (c : UInt32) : Prop :=
  EntryInside v.fs c.toNat ∧ fatValue v s c.toNat = 0 ∧ InData v c

/-- The first number from `start` on that is free can be used; all before it are
numbers of clusters. -/
def UsableFrom (v : Volume) (s : FatState) (start : UInt32) : Prop :=
  ∃ c, Usable v s c ∧ start.toNat ≤ c.toNat ∧
    ∀ e : UInt32, start.toNat ≤ e.toNat → e.toNat < c.toNat →
      ¬CHECK_CLUST v.fs e ∧ fatValue v s e.toNat ≠ 0

theorem le_searchFree (v : Volume) (s : FatState) (start : UInt32) :
    start.toNat ≤ (searchFree v s start).1.toNat := by
  induction s, start using searchFree.induct (v := v) with
  | case1 s start h =>
    rw [searchFree, if_pos h]
  | case2 s start h ih =>
    rw [searchFree, if_neg h]
    rw [succ_toNat_of_valid (not_checkClust_of_ne_zero h)] at ih
    omega

theorem inside_of_le {fs : FsData} {m n : Nat} (h : m ≤ n) (hn : EntryInside fs n) :
    EntryInside fs m := by
  rw [EntryInside, entryEnd] at hn ⊢
  split_ifs at hn ⊢ <;> omega

theorem usable_congr (ok : v.Ok) {s' : FatState} (same : SameFat v s s') (c : UInt32) :
    Usable v s' c ↔ Usable v s c := by
  refine and_congr_right fun hinside => ?_
  rw [fatValue_congr ok same hinside]

theorem usable_searchFree_iff (ok : v.Ok) (held : Held v s) (start : UInt32) :
    Usable v s (searchFree v s start).1 ↔ UsableFrom v s start := by
  induction s, start using searchFree.induct (v := v) with
  | case1 s start h =>
    rw [searchFree, if_pos h]
    constructor
    · intro husable
      exact ⟨start, husable, Nat.le_refl _, fun e hle hlt => absurd hle (Nat.not_le.mpr hlt)⟩
    · rintro ⟨c, husable, hle, hbefore⟩
      rcases Nat.eq_or_lt_of_le hle with heq | hlt
      · rwa [UInt32.toNat_inj.mp heq]
      · obtain ⟨hvalid, hne⟩ := hbefore start (Nat.le_refl _) hlt
        have hvalue := (getFatentValue_ok ok held hvalid (inside_of_le hle husable.1)).1
        rw [h] at hvalue
        exact absurd hvalue.symm hne
  | case2 s start h ih =>
    rw [searchFree, if_neg h]
    have hvalid := not_checkClust_of_ne_zero h
    have hle := le_searchFree v (getFatentValue v s start).2 (start + 1)
    rw [succ_toNat_of_valid hvalid] at hle
    have hnext (hinside : EntryInside v.fs start.toNat) : fatValue v s start.toNat ≠ 0 ∧
        Held v (getFatentValue v s start).2 ∧ SameFat v s (getFatentValue v s start).2 := by
      obtain ⟨hvalue, hrest⟩ := getFatentValue_ok ok held hvalid hinside
      refine ⟨fun h0 => h (UInt32.toNat_inj.mp (hvalue.trans h0)), hrest⟩
    constructor
    · intro husable
      obtain ⟨hne, held', same⟩ := hnext (inside_of_le (by omega) husable.1)
      obtain ⟨c, hc, hlec, hbefore⟩ := (ih held').mp ((usable_congr ok same _).mpr husable)
      rw [succ_toNat_of_valid hvalid] at hlec hbefore
      refine ⟨c, (usable_congr ok same c).mp hc, by omega, fun e hlee hlt => ?_⟩
      rcases Nat.eq_or_lt_of_le hlee with heq | hgt
      · rw [← UInt32.toNat_inj.mp heq]
        exact ⟨hvalid, hne⟩
      · rw [← fatValue_congr ok same (inside_of_le (Nat.le_of_lt hlt) hc.1)]
        exact hbefore e hgt hlt
    · rintro ⟨c, hc, hlec, hbefore⟩
      obtain ⟨hne, held', same⟩ := hnext (inside_of_le hlec hc.1)
      refine (usable_congr ok same _).mp ((ih held').mpr
        ⟨c, (usable_congr ok same c).mpr hc, ?_, fun e hlee hlt => ?_⟩)
      · rw [succ_toNat_of_valid hvalid]
        refine Nat.lt_of_le_of_ne hlec fun heq => hne ?_
        rw [heq]
        exact hc.2.1
      · rw [succ_toNat_of_valid hvalid] at hlee
        rw [fatValue_congr ok same (inside_of_le (Nat.le_of_lt hlt) hc.1)]
        exact hbefore e (by omega) hlt

/-- No number is found behind those of clusters, but the one that the search starts with. -/
theorem searchFree_le (v : Volume) (s : FatState) (start : UInt32) :
    (searchFree v s start).1.toNat ≤ max start.toNat (2 ^ 28) := by
  induction s, start using searchFree.induct (v := v) with
  | case1 s start h =>
    rw [searchFree, if_pos h]
    exact Nat.le_max_left ..
  | case2 s start h ih =>
    have hvalid := not_checkClust_of_ne_zero h
    have hlt := lt_of_valid hvalid
    rw [searchFree, if_neg h]
    rw [succ_toNat_of_valid hvalid] at ih
    omega

/-- `find_empty_cluster` returns a number that may be used, or a negative one for a
failure, with the FAT as it is. -/
def FindRight (v : Volume) (s : FatState) : Prop :=
  let found := findEmptyCluster v s
  Usable v s found.1 ∨ 2 ^ 31 ≤ found.1.toNat ∧ SameFat v s found.2

/-- `determine_fatent`, which links its cluster to the number in any case, returns one
that may be used. -/
def DetermineRight (v : Volume) (s : FatState) (entry : UInt32) : Prop :=
  Usable v s (determineFatent v s entry).1

theorem findRight_iff (ok : v.Ok) (held : Held v s) : FindRight v s ↔ UsableFrom v s 3 := by
  rw [← usable_searchFree_iff ok held]
  refine or_iff_left fun h => ?_
  have hle := searchFree_le v s 3
  rw [show (3 : UInt32).toNat = 3 from rfl] at hle
  have hneg : 2 ^ 31 ≤ (searchFree v s 3).1.toNat := h.1
  omega

theorem determineRight_iff (ok : v.Ok) (held : Held v s) (entry : UInt32) :
    DetermineRight v s entry ↔ UsableFrom v s (entry + 1) :=
  usable_searchFree_iff ok held (entry + 1)

/-- Both functions return right numbers exactly where the first free entry from the
start of their search on lies inside the FAT, with its cluster inside the data area. -/
theorem search_right_iff (ok : v.Ok) (held : Held v s) :
    (FindRight v s ↔ UsableFrom v s 3) ∧
      ∀ entry, DetermineRight v s entry ↔ UsableFrom v s (entry + 1) :=
  ⟨findRight_iff ok held, determineRight_iff ok held⟩

end

/-! ### Full volumes -/

/-- A FAT16 volume with 4094 clusters of one sector. -/
def smallVolume : Volume where
  fs :=
    { fatsize := 16, fatlength := 16, fatSect := 1, rootdirSect := 33, sectSize := 512,
      clustSize := 1, dataBegin := 63 }
  start := 0
  lba := 4159
  blksz := 512
  totalSector := 4159
  numOfFats := 2

theorem smallVolume_ok : smallVolume.Ok where
  fatsize := .inl rfl
  sectSize := rfl
  sect_pos := by decide
  sect_four := by decide
  lba := by decide
  room := by decide
  device := by decide

/-- A device full of one byte. -/
def filled (b : UInt8) : FatState := ⟨fun _ => b, fun _ => b, -1⟩

theorem fatValue_filled (b : UInt8) (n : Nat) :
    fatValue smallVolume (filled b) n = leValue [b, b] := by
  have hbytes : fatBytes smallVolume (filled b) = fun _ => b := by
    funext i
    rw [fatBytes]
    split_ifs <;> rfl
  rw [fatValue, hbytes]
  rfl

/-- Clusters 3 and 4 are taken, and the others are free. -/
def twoTaken : FatState :=
  ⟨fun q => if 518 ≤ q ∧ q < 522 then 0xff else 0, ⟨fun _ => 0, -1⟩⟩
theorem search_right_twoTaken :
    FindRight smallVolume twoTaken ∧ DetermineRight smallVolume twoTaken 3 := by
  have hright := search_right_iff smallVolume_ok (s := twoTaken) (.inl rfl)
  have husable : Usable smallVolume twoTaken 5 := by
    refine ⟨?_, by decide, by decide, ?_⟩
    · show 2 * 5 + 2 ≤ 16 * 512
      decide
    · show (63 : Int32).toInt + (5 : Int) * (1 : Nat) + (1 : Nat) ≤ (4159 : Nat)
      decide
  have htaken : ∀ e : UInt32, 3 ≤ e.toNat → e.toNat < 5 →
      ¬CHECK_CLUST smallVolume.fs e ∧ fatValue smallVolume twoTaken e.toNat ≠ 0 := by
    intro e hle hlt
    obtain rfl | rfl : e = 3 ∨ e = 4 := by
      rw [← UInt32.toNat_inj, ← UInt32.toNat_inj]
      change e.toNat = 3 ∨ e.toNat = 4
      omega
    · decide
    · decide
  refine ⟨hright.1.mpr ⟨5, husable, by decide, htaken⟩,
    (hright.2 3).mpr ⟨5, husable, by decide, fun e hle hlt => ?_⟩⟩
  exact htaken e (Nat.le_of_succ_le hle) hlt

/-- With no free cluster, `determine_fatent` links the last cluster to a number behind
the FAT. -/
theorem full_volume_number_returned :
    ¬∀ (v : Volume) (s : FatState), v.Ok → Held v s →
      FindRight v s ∧ ∀ entry, DetermineRight v s entry := by
  intro claim
  obtain ⟨c, hc, -⟩ := (determineRight_iff smallVolume_ok (s := filled 0xff) (.inl rfl) 4095).mp
    ((claim smallVolume (filled 0xff) smallVolume_ok (.inl rfl)).2 4095)
  rw [Usable, fatValue_filled] at hc
  exact absurd hc.2.1 (by decide)

end UBoot.Fat
