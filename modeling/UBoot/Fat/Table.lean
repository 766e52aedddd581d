import Mathlib.Data.UInt
import Mathlib.Data.Nat.Bitwise
import UBoot.Fat.Basic

/-!
# The entries of a FAT

What the table on the device says, with entries of 12, 16 or 32 bits, and that `get_fatent`
finds it there whichever part of the table is held.
-/

namespace UBoot.Fat

open Verification

section

variable (fs : FsData) (disk : Disk)

/-- The entry of a table. Two entries of 12 bits share three bytes. -/
def entryAt (table : Ptr) (n : Nat) : Nat :=
  if fs.fatsize = 32 then leValue ((table.add (4 * n)).bytes 4)
  else if fs.fatsize = 16 then leValue ((table.add (2 * n)).bytes 2)
  else
    let value := leValue ((table.add (3 * n / 2)).bytes 2)
    if n % 2 = 0 then value % 2 ^ 12 else value / 2 ^ 4

def entryEnd (n : Nat) : Nat :=
  if fs.fatsize = 32 then 4 * n + 4
  else if fs.fatsize = 16 then 2 * n + 2
  else 3 * n / 2 + 2

def table : Ptr := disk.bytes.add ((disk.start.toNat + fs.fatSect.toNat) * disk.blksz)

def EntryInside (n : Nat) : Prop := entryEnd fs n ≤ fs.fatlength.toNat * fs.sectSize.toNat

/-- A file system as it is opened: a FAT of one of the three kinds, sectors of the size of the
blocks, and a FAT that lies on the device. -/
structure Opened : Prop where
  fatsize : fs.fatsize = 12 ∨ fs.fatsize = 16 ∨ fs.fatsize = 32
  sectSize : fs.sectSize.toNat = disk.blksz
  sect_pos : 0 < disk.blksz
  sect_four : 4 ∣ disk.blksz
  clust_pos : 0 < fs.clustSize.toNat
  lba : disk.lba < 2 ^ 32
  fat : disk.start.toNat + fs.fatSect.toNat + fs.fatlength.toNat ≤ disk.lba

/-- The part of the FAT that is held is the one that it is said to be. -/
def CacheOk (buf : FatBuf) : Prop :=
  ∀ i < 6 * disk.blksz,
    buf.fatbufnum.toNat * (6 * disk.blksz) + i < fs.fatlength.toNat * disk.blksz →
      buf.fatbuf i = table fs disk (buf.fatbufnum.toNat * (6 * disk.blksz) + i)

end

/-! ### Packed entries -/

theorem leValue_two (p : Ptr) : leValue (p.bytes 2) = (p 0).toNat + 256 * (p 1).toNat := by
  simp only [leValue, beValue, Ptr.bytes]
  simp [List.range_succ]
  omega

theorem u16At_eq (p : Ptr) (i : Nat) :
    u16At p i = (p (2 * i)).toNat + 256 * (p (2 * i + 1)).toNat := leValue_two _

/-- The high bits of a number, by a mask. -/
theorem and_shift (v k n : Nat) : (v &&& (2 ^ n - 1) <<< k) >>> k = v / 2 ^ k % 2 ^ n := by
  rw [Nat.shiftRight_and_distrib, Nat.shiftLeft_shiftRight, Nat.shiftRight_eq_div_pow,
    Nat.and_two_pow_sub_one_eq_mod]

/-- The low `m` bits of a word above `n` bits of the word before it. -/
theorem join_words (v1 v2 k n m : Nat) :
    (v2 &&& (2 ^ m - 1)) <<< n ||| (v1 &&& (2 ^ n - 1) <<< k) >>> k =
      v2 % 2 ^ m * 2 ^ n + v1 / 2 ^ k % 2 ^ n := by
  rw [and_shift, Nat.and_two_pow_sub_one_eq_mod,
    ← Nat.shiftLeft_add_eq_or_of_lt (Nat.mod_lt _ (Nat.two_pow_pos n)), Nat.shiftLeft_eq]

/-- The bytes of a packed entry, in the 16-bit words that `get_fatent` reads. -/
theorem bufEntry_eq (fs : FsData) (p : Ptr) (n : Nat) : bufEntry fs p n = entryAt fs p n := by
  rw [bufEntry, entryAt]
  split
  · rfl
  split
  · rfl
  have hvalue : leValue ((p.add (3 * n / 2)).bytes 2) =
      (p (3 * n / 2)).toNat + 256 * (p (3 * n / 2 + 1)).toNat := leValue_two _
  have hand : n &&& 3 = n % 4 := Nat.and_two_pow_sub_one_eq_mod n 2
  rw [hvalue, hand]
  have hlt := Nat.mod_lt n (show 4 > 0 by decide)
  obtain ⟨k, hk⟩ : ∃ k, n = 4 * k + n % 4 := ⟨n / 4, by omega⟩
  generalize n % 4 = r at hlt hk
  subst hk
  obtain rfl | rfl | rfl | rfl : r = 0 ∨ r = 1 ∨ r = 2 ∨ r = 3 := by omega
  · -- the low bits of the first word
    rw [if_pos (by omega), show (4 * k + 0) * 3 / 4 = 3 * k by omega,
      show 3 * (4 * k + 0) / 2 = 2 * (3 * k) by omega]
    refine (Nat.and_two_pow_sub_one_eq_mod (u16At p (3 * k)) 12).trans ?_
    rw [u16At_eq]
  · rw [if_neg (by omega), show (4 * k + 1) * 3 / 4 = 3 * k by omega,
      show 3 * (4 * k + 1) / 2 = 2 * (3 * k) + 1 by omega]
    refine (join_words (u16At p (3 * k)) (u16At p (3 * k + 1)) 12 4 8).trans ?_
    have h1 := (p (2 * (3 * k))).toNat_lt
    have h2 := (p (2 * (3 * k) + 1)).toNat_lt
    have h3 := (p (2 * (3 * k + 1))).toNat_lt
    rw [u16At_eq, u16At_eq, show 2 * (3 * k) + 1 + 1 = 2 * (3 * k + 1) by omega]
    omega
  · rw [if_pos (by omega), show (4 * k + 2) * 3 / 4 = 3 * k + 1 by omega,
      show 3 * (4 * k + 2) / 2 = 2 * (3 * k + 1) + 1 by omega]
    refine (join_words (u16At p (3 * k + 1)) (u16At p (3 * k + 1 + 1)) 8 8 4).trans ?_
    have h1 := (p (2 * (3 * k + 1))).toNat_lt
    have h2 := (p (2 * (3 * k + 1) + 1)).toNat_lt
    have h3 := (p (2 * (3 * k + 1 + 1))).toNat_lt
    rw [u16At_eq, u16At_eq, show 2 * (3 * k + 1) + 1 + 1 = 2 * (3 * k + 1 + 1) by omega]
    omega
  · -- the high bits of the last word
    rw [if_neg (by omega), show (4 * k + 3) * 3 / 4 = 3 * k + 2 by omega,
      show 3 * (4 * k + 3) / 2 = 2 * (3 * k + 2) by omega]
    refine (and_shift (u16At p (3 * k + 2)) 4 12).trans ?_
    have h1 := (p (2 * (3 * k + 2))).toNat_lt
    have h2 := (p (2 * (3 * k + 2) + 1)).toNat_lt
    rw [u16At_eq]
    omega

/-! ### Parts of the table -/

/-- An entry is found in the bytes up to its end. -/
theorem entryAt_congr (fs : FsData) {p q : Ptr} {n : Nat} (h : ∀ i < entryEnd fs n, p i = q i) :
    entryAt fs p n = entryAt fs q n := by
  have hbytes (k l : Nat) (hend : k + l ≤ entryEnd fs n) :
      (p.add k).bytes l = (q.add k).bytes l :=
    Ptr.bytes_congr fun i hi => h (k + i) (by omega)
  rw [entryEnd] at hbytes
  rw [entryAt, entryAt]
  split_ifs at hbytes ⊢
  · rw [hbytes (4 * n) 4 (Nat.le_refl _)]
  · rw [hbytes (2 * n) 2 (Nat.le_refl _)]
  · rw [hbytes (3 * n / 2) 2 (Nat.le_refl _)]
  · rw [hbytes (3 * n / 2) 2 (Nat.le_refl _)]

theorem entryAt_lt (fs : FsData) (p : Ptr) (n : Nat) : entryAt fs p n < 2 ^ 32 := by
  have hbytes (q : Ptr) (k : Nat) : leValue (q.bytes k) < 256 ^ k := by
    have := beValue_lt (q.bytes k).reverse
    rwa [List.length_reverse, Ptr.length_bytes] at this
  rw [entryAt]
  split_ifs
  · exact hbytes _ 4
  · exact Nat.lt_trans (hbytes _ 2) (by decide)
  · exact Nat.lt_trans (Nat.mod_lt _ (by decide)) (by decide)
  · exact Nat.lt_of_le_of_lt (Nat.div_le_self ..) (Nat.lt_trans (hbytes _ 2) (by decide))

/-- The entries of a part, for blocks of `4 * m` bytes. -/
def partEntries (fs : FsData) (m : Nat) : Nat :=
  if fs.fatsize = 32 then 6 * m else if fs.fatsize = 16 then 12 * m else 16 * m

theorem bufEntries_toNat {fs : FsData} {m : Nat} (hm : fs.sectSize.toNat = 4 * m) :
    (bufEntries fs).toNat = partEntries fs m := by
  have hlt := fs.sectSize.toNat_lt
  have hsize : (FATBUFSIZE fs).toNat = 24 * m := by
    rw [FATBUFSIZE, UInt32.toNat_mul, UInt16.toNat_toUInt32, hm,
      show FATBUFBLOCKS.toNat = 6 from rfl]
    omega
  rw [bufEntries, partEntries]
  split_ifs
  · rw [UInt32.toNat_div, hsize, show (4 : UInt32).toNat = 4 from rfl]
    omega
  · rw [UInt32.toNat_div, hsize, show (2 : UInt32).toNat = 2 from rfl]
    omega
  · rw [UInt32.toNat_div, UInt32.toNat_mul, hsize, show (2 : UInt32).toNat = 2 from rfl,
      show (3 : UInt32).toNat = 3 from rfl]
    omega

/-- The place of an entry in its part. -/
theorem offset_toNat {fs : FsData} {k : Nat} (h : (bufEntries fs).toNat = k) (entry : UInt32) :
    (entry - entry / bufEntries fs * bufEntries fs).toNat = entry.toNat % k := by
  have hmul : (entry / bufEntries fs * bufEntries fs).toNat = entry.toNat / k * k := by
    rw [UInt32.toNat_mul, UInt32.toNat_div, h]
    exact Nat.mod_eq_of_lt (Nat.lt_of_le_of_lt (Nat.div_mul_le_self ..) entry.toNat_lt)
  rw [UInt32.toNat_sub_of_le _ _ (UInt32.le_iff_toNat_le.mpr (by
    rw [hmul]
    exact Nat.div_mul_le_self ..)), hmul]
  have := Nat.mod_add_div' entry.toNat k
  omega

theorem entryEnd_part (fs : FsData) (m b n : Nat) :
    entryEnd fs (b * partEntries fs m + n) = b * (24 * m) + entryEnd fs n := by
  rw [entryEnd, entryEnd, partEntries]
  split_ifs
  · ring
  · ring
  · have : 3 * (b * (16 * m) + n) = 3 * n + 2 * (b * (24 * m)) := by ring
    rw [this, Nat.add_mul_div_left _ _ (by decide)]
    omega

theorem entryEnd_le (fs : FsData) {m n : Nat} (h : n < partEntries fs m) :
    entryEnd fs n ≤ 24 * m := by
  rw [partEntries] at h
  rw [entryEnd]
  split_ifs at h ⊢ <;> omega

theorem entryAt_part (fs : FsData) (p : Ptr) (m b n : Nat) :
    entryAt fs (p.add (b * (24 * m))) n = entryAt fs p (b * partEntries fs m + n) := by
  rw [entryAt, entryAt, partEntries]
  by_cases h32 : fs.fatsize = 32
  · rw [if_pos h32, if_pos h32, if_pos h32, Ptr.add_add,
      show b * (24 * m) + 4 * n = 4 * (b * (6 * m) + n) by ring]
  by_cases h16 : fs.fatsize = 16
  · rw [if_neg h32, if_neg h32, if_neg h32, if_pos h16, if_pos h16, if_pos h16, Ptr.add_add,
      show b * (24 * m) + 2 * n = 2 * (b * (12 * m) + n) by ring]
  · have hbyte : 3 * (b * (16 * m) + n) / 2 = b * (24 * m) + 3 * n / 2 := by
      rw [show 3 * (b * (16 * m) + n) = 3 * n + 2 * (b * (24 * m)) by ring,
        Nat.add_mul_div_left _ _ (by decide), Nat.add_comm]
    have hparity : (b * (16 * m) + n) % 2 = n % 2 := by
      rw [show b * (16 * m) + n = n + 2 * (b * (8 * m)) by ring, Nat.add_mul_mod_self_left]
    rw [if_neg h32, if_neg h32, if_neg h32, if_neg h16, if_neg h16, if_neg h16]
    simp only [Ptr.add_add, hbyte, hparity]

/-! ### The entry that is asked for -/

section

variable {fs : FsData} {disk : Disk} {buf : FatBuf}

/-- The part that is read is held then. -/
theorem readFat_ok (opened : Opened fs disk) {bufnum : UInt32} (hlt : bufnum.toNat * 6 < 2 ^ 28)
    (hinside : bufnum.toNat * 6 < fs.fatlength.toNat) :
    CacheOk fs disk (readFat fs disk bufnum buf) := by
  have hfat := opened.fat
  have hlba := opened.lba
  have hstart : (bufnum * FATBUFBLOCKS).toNat = bufnum.toNat * 6 := by
    rw [UInt32.toNat_mul, show FATBUFBLOCKS.toNat = 6 from rfl]
    omega
  have hend : (bufnum * FATBUFBLOCKS + FATBUFBLOCKS).toNat = bufnum.toNat * 6 + 6 := by
    rw [UInt32.toNat_add, hstart, show FATBUFBLOCKS.toNat = 6 from rfl]
    omega
  have hsize : (if bufnum * FATBUFBLOCKS + FATBUFBLOCKS > fs.fatlength then
      fs.fatlength - bufnum * FATBUFBLOCKS else FATBUFBLOCKS).toNat =
        min 6 (fs.fatlength.toNat - bufnum.toNat * 6) := by
    split
    · rename_i hgt
      rw [gt_iff_lt, UInt32.lt_iff_toNat_lt, hend] at hgt
      rw [UInt32.toNat_sub_of_le _ _ (UInt32.le_iff_toNat_le.mpr (by omega)), hstart]
      omega
    · rename_i hle
      rw [gt_iff_lt, UInt32.lt_iff_toNat_lt, hend] at hle
      rw [show FATBUFBLOCKS.toNat = 6 from rfl]
      omega
  have hblk : (disk.start + (bufnum * FATBUFBLOCKS + fs.fatSect.toUInt32)).toNat =
      disk.start.toNat + fs.fatSect.toNat + bufnum.toNat * 6 := by
    rw [UInt32.toNat_add, UInt32.toNat_add, hstart, UInt16.toNat_toUInt32]
    omega
  intro i hi hlen
  have hlast : i < min 6 (fs.fatlength.toNat - bufnum.toNat * 6) * disk.blksz := by
    have hassoc : (readFat fs disk bufnum buf).fatbufnum.toNat * (6 * disk.blksz) =
        bufnum.toNat * 6 * disk.blksz := (Nat.mul_assoc ..).symm
    rw [hassoc] at hlen
    rcases Nat.le_total 6 (fs.fatlength.toNat - bufnum.toNat * 6) with hle | hle
    · rwa [Nat.min_eq_left hle]
    · rw [Nat.min_eq_right hle, Nat.sub_mul]
      omega
  have hread : (readFat fs disk bufnum buf).fatbuf = buf.fatbuf.write 0
      (min 6 (fs.fatlength.toNat - bufnum.toNat * 6) * disk.blksz)
      (disk.bytes.add ((disk.start.toNat + fs.fatSect.toNat + bufnum.toNat * 6) *
        disk.blksz)) := by
    simp only [readFat, diskRead]
    rw [hsize, hblk, if_pos (by omega)]
  rw [hread, Ptr.write, if_pos (by omega)]
  simp only [table, Ptr.add, readFat]
  congr 1
  rw [Nat.sub_zero]
  ring

/-- Before the first entry is asked for, nothing is held. -/
theorem cacheOk_init (fs : FsData) (disk : Disk) (fatbuf : Ptr) :
    CacheOk fs disk ⟨fatbuf, -1⟩ := by
  intro i _ hlt
  have hnum : (-1 : UInt32).toNat = 2 ^ 32 - 1 := rfl
  have hlength := Nat.mul_le_mul_right disk.blksz (Nat.le_sub_one_of_lt fs.fatlength.toNat_lt)
  rw [hnum] at hlt
  omega

/-- The entry of the table on the device. -/
def fatEntry (fs : FsData) (disk : Disk) (n : Nat) : Nat := entryAt fs (table fs disk) n

/-- A part that is held gives the entries of the table. -/
theorem entryAt_fatbuf {m n : Nat} (hm : disk.blksz = 4 * m) (hcache : CacheOk fs disk buf)
    (hn : n < partEntries fs m)
    (hinside : entryEnd fs (buf.fatbufnum.toNat * partEntries fs m + n) ≤
      fs.fatlength.toNat * disk.blksz) :
    entryAt fs buf.fatbuf n = fatEntry fs disk (buf.fatbufnum.toNat * partEntries fs m + n) := by
  have hend := entryEnd_le fs hn
  have hpart : 6 * disk.blksz = 24 * m := by omega
  rw [entryEnd_part] at hinside
  rw [fatEntry, ← entryAt_part]
  apply entryAt_congr
  intro i hi
  have hheld := hcache i (by omega)
  rw [hpart] at hheld
  exact hheld (by omega)

/-- `get_fatent` gives the entry of the table, whichever part of it is held before. -/
theorem getFatent_spec (opened : Opened fs disk) (hcache : CacheOk fs disk buf) {entry : UInt32}
    (hlt : entry.toNat < 2 ^ 28) (hinside : EntryInside fs entry.toNat) :
    (getFatent fs disk buf entry).1.toNat = fatEntry fs disk entry.toNat ∧
      CacheOk fs disk (getFatent fs disk buf entry).2 := by
  obtain ⟨m, hm⟩ := opened.sect_four
  have hpos := opened.sect_pos
  have hentries := bufEntries_toNat (opened.sectSize.trans hm)
  have hsix : 6 ≤ partEntries fs m := by
    rw [partEntries]
    split_ifs <;> omega
  have hbufnum : (entry / bufEntries fs).toNat = entry.toNat / partEntries fs m := by
    rw [UInt32.toNat_div, hentries]
  have hoffset := offset_toNat hentries entry
  have hsplit : entry.toNat / partEntries fs m * partEntries fs m +
      entry.toNat % partEntries fs m = entry.toNat := Nat.div_add_mod' ..
  have hinside' := hinside
  rw [EntryInside, opened.sectSize, ← hsplit, entryEnd_part] at hinside'
  have hheld : ∀ held : FatBuf, held.fatbufnum = entry / bufEntries fs → CacheOk fs disk held →
      (UInt32.ofNat (bufEntry fs held.fatbuf
        (entry - entry / bufEntries fs * bufEntries fs).toNat)).toNat =
          fatEntry fs disk entry.toNat := by
    intro held hnum hok
    rw [UInt32.toNat_ofNat', bufEntry_eq, Nat.mod_eq_of_lt (entryAt_lt ..), hoffset]
    have heq := entryAt_fatbuf hm hok (Nat.mod_lt entry.toNat (by omega : partEntries fs m > 0))
    rw [hnum, hbufnum, hsplit] at heq
    apply heq
    rw [← opened.sectSize]
    exact hinside
  have hsupported : ¬(fs.fatsize ≠ 32 ∧ fs.fatsize ≠ 16 ∧ fs.fatsize ≠ 12) := by
    rintro ⟨h32, h16, h12⟩
    rcases opened.fatsize with h | h | h
    · exact h12 h
    · exact h16 h
    · exact h32 h
  simp only [getFatent]
  rw [if_neg hsupported]
  by_cases hcached : entry / bufEntries fs ≠ buf.fatbufnum
  · have hread : CacheOk fs disk (readFat fs disk (entry / bufEntries fs) buf) := by
      apply readFat_ok opened
      · rw [hbufnum]
        have := Nat.div_mul_le_self entry.toNat (partEntries fs m)
        have := Nat.mul_le_mul_left (entry.toNat / partEntries fs m) hsix
        omega
      · rw [hbufnum]
        have hpositive : 0 < entryEnd fs (entry.toNat % partEntries fs m) := by
          rw [entryEnd]
          split_ifs <;> omega
        have hbytes : entry.toNat / partEntries fs m * (24 * m) =
            entry.toNat / partEntries fs m * 6 * disk.blksz := by
          rw [hm]
          ring
        apply Nat.lt_of_mul_lt_mul_right (a := disk.blksz)
        omega
    simp only [if_pos hcached]
    exact ⟨hheld _ rfl hread, hread⟩
  · simp only [if_neg hcached]
    exact ⟨hheld buf (not_not.mp hcached).symm hcache, hcache⟩

end

end UBoot.Fat
