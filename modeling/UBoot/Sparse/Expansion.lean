import UBoot.Sparse.Parse

/-!
# The expansion of a sparse image

When the loop leaves the expansion of the image on the device. A size in bytes
has 32 bits in the loop, so that a FILL or DONT_CARE chunk of 4 GiB or more
moves everything behind it, and a CRC32 chunk ends the loop.
-/

namespace UBoot.Sparse

open Verification

def Chunk.Writes (c : Chunk) : Prop :=
  c.chunkSz ≠ 0 ∧ match c.content with
    | .raw _ | .fill _ => True
    | _ => False

/-- Chunks that write nothing. -/
def Quiet (chunks : List Chunk) : Prop := ∀ c ∈ chunks, ¬c.Writes

/-- Nothing is written behind a CRC32 chunk, nor by or behind a chunk whose size
in bytes has more than 32 bits. -/
def Regular (blkSz : Nat) : List Chunk → Prop
  | [] => True
  | c :: chunks =>
    match c.content with
    | .raw _ => Regular blkSz chunks
    | .crc32 _ => Quiet chunks
    | .fill _ | .dontCare =>
      if c.span blkSz < 2 ^ 32 then Regular blkSz chunks else Quiet (c :: chunks)

/-! ### Writing blocks -/

/-- A fill pattern repeats after every multiple of four bytes. -/
theorem fillBuf_add (value : List UInt8) {n : Nat} (h : n % 4 = 0) :
    (fillBuf value).add n = fillBuf value := by
  funext i
  have : (n + i) % 4 = i % 4 := by omega
  simp only [Ptr.add, fillBuf, this]

theorem fillLoop_eq (info : Partition) (value : List UInt8) {n : Nat} {blk : UInt32}
    (h : blk.toNat + n < 2 ^ 32) (disk : Disk) :
    fillLoop info (fillBuf value) n blk disk =
      disk.write (blk.toNat * info.blksz.toNat) (n * info.blksz.toNat) (fillBuf value) := by
  induction n generalizing blk disk with
  | zero => rw [fillLoop, Nat.zero_mul, Ptr.write_zero]
  | succ n ih =>
    have hnext : (blk + 1).toNat = blk.toNat + 1 := by
      rw [UInt32.toNat_add]
      exact Nat.mod_eq_of_lt (by simp; omega)
    have hfour : info.blksz.toNat % 4 = 0 := by
      obtain ⟨k, hk, hpow⟩ := info.blksz_pow
      obtain ⟨j, rfl⟩ := Nat.exists_eq_add_of_le hk
      rw [hpow, Nat.pow_add]
      omega
    rw [fillLoop, ih (by rw [hnext]; omega), hnext, blockWrite]
    have hone : (1 : UInt32).toNat = 1 := rfl
    rw [hone, Nat.one_mul, Nat.add_mul, Nat.one_mul, Nat.succ_mul, Nat.add_comm (n * _),
      ← Ptr.write_write, fillBuf_add value hfour]

/-! ### Sizes -/

/-- The blocks of the device that the loop counts for a chunk. -/
def Chunk.blkcnt (info : Partition) (blkSz : UInt32) (c : Chunk) : Nat :=
  (blkSz * c.chunkSz / info.blksz).toNat

/-- The bytes that some chunks cover. -/
def spans (blkSz : Nat) (chunks : List Chunk) : Nat := (chunks.map (Chunk.span blkSz)).sum

theorem spans_cons (blkSz : Nat) (c : Chunk) (chunks : List Chunk) :
    spans blkSz (c :: chunks) = c.span blkSz + spans blkSz chunks := by
  rw [spans, List.map_cons, List.sum_cons, spans]

section

variable (info : Partition) (blkSz : UInt32)

theorem blkcnt_mul_le_mod (c : Chunk) :
    c.blkcnt info blkSz * info.blksz.toNat ≤ c.span blkSz.toNat % 2 ^ 32 := by
  have h := toNat_blkcnt_mul_le info (blkSz * c.chunkSz)
  rw [UInt32.toNat_mul] at h
  exact h

theorem blkcnt_mul_le (c : Chunk) :
    c.blkcnt info blkSz * info.blksz.toNat ≤ c.span blkSz.toNat :=
  (blkcnt_mul_le_mod info blkSz c).trans (Nat.mod_le ..)

/-- The count is exact for a chunk of less than 4 GiB. -/
theorem blkcnt_mul_eq (hdvd : info.blksz.toNat ∣ blkSz.toNat) {c : Chunk}
    (h : c.span blkSz.toNat < 2 ^ 32) :
    c.blkcnt info blkSz * info.blksz.toNat = c.span blkSz.toNat := by
  have hmul : (blkSz * c.chunkSz).toNat = c.span blkSz.toNat := by
    rw [UInt32.toNat_mul]
    exact Nat.mod_eq_of_lt h
  rw [Chunk.blkcnt, UInt32.toNat_div, hmul]
  exact Nat.div_mul_cancel (Dvd.dvd.mul_right hdvd _)

/-- The count is too small for a larger chunk. -/
theorem blkcnt_mul_lt {c : Chunk} (h : ¬c.span blkSz.toNat < 2 ^ 32) :
    c.blkcnt info blkSz * info.blksz.toNat < c.span blkSz.toNat := by
  have hle := blkcnt_mul_le_mod info blkSz c
  have hmod := Nat.mod_lt (c.span blkSz.toNat) (Nat.two_pow_pos 32)
  omega

end

/-! ### One chunk -/

/-- The bytes that a chunk repeats or holds. -/
def Content.buf : Content → Ptr
  | .raw data => Ptr.ofList data
  | .fill value => fillBuf value.toList
  | _ => 0

/-- RAW and FILL chunks. -/
def Content.isData : Content → Bool
  | .raw _ | .fill _ => true
  | _ => false

theorem writes_iff (c : Chunk) : c.Writes ↔ c.chunkSz ≠ 0 ∧ c.content.isData = true := by
  rw [Chunk.Writes]
  cases c.content <;> simp [Content.isData]

theorem put_of_isData {c : Chunk} (h : c.content.isData = true) (blkSz pos : Nat) (disk : Disk) :
    c.put blkSz pos disk = disk.write pos (c.span blkSz) c.content.buf := by
  rw [Chunk.put]
  cases hc : c.content <;> simp_all [Content.isData, Content.buf]

theorem put_of_not_isData {c : Chunk} (h : c.content.isData = false) (blkSz pos : Nat)
    (disk : Disk) : c.put blkSz pos disk = disk := by
  rw [Chunk.put]
  cases hc : c.content <;> simp_all [Content.isData]

/-- The end of the partition, in blocks. -/
def Partition.stop (info : Partition) : Nat := info.start.toNat + info.size.toNat

section

variable {info : Partition} {blkSz : UInt32} {c : Chunk} {chunks : List Chunk} {blk : UInt32}

theorem toNat_add_blkcnt (h : blk.toNat + c.blkcnt info blkSz ≤ info.stop) :
    (blk + blkSz * c.chunkSz / info.blksz).toNat = blk.toNat + c.blkcnt info blkSz := by
  have hend := info.end_lt
  rw [Partition.stop] at h
  rw [UInt32.toNat_add]
  exact Nat.mod_eq_of_lt (by rw [Chunk.blkcnt] at h; omega)

/-- A chunk inside the partition is not refused. -/
theorem not_exceeds (h : blk.toNat + c.blkcnt info blkSz ≤ info.stop) :
    ¬blk + blkSz * c.chunkSz / info.blksz > info.start + info.size := by
  have hend := info.end_lt
  have hsum : (info.start + info.size).toNat = info.stop := by
    rw [UInt32.toNat_add]
    exact Nat.mod_eq_of_lt hend
  rw [gt_iff_lt, UInt32.lt_iff_toNat_lt, toNat_add_blkcnt h, hsum]
  omega

theorem flash_data (h : blk.toNat + c.blkcnt info blkSz ≤ info.stop)
    (hdata : c.content.isData = true) (disk : Disk) :
    flash info blkSz (c :: chunks) blk disk =
      flash info blkSz chunks (blk + blkSz * c.chunkSz / info.blksz)
        (disk.write (blk.toNat * info.blksz.toNat) (c.blkcnt info blkSz * info.blksz.toNat)
          c.content.buf) := by
  have hend := info.end_lt
  rw [flash]
  cases hc : c.content with
  | raw data =>
    simp only [if_neg (not_exceeds h)]
    rfl
  | fill value =>
    simp only [if_neg (not_exceeds h)]
    rw [fillLoop_eq info value.toList (by rw [Chunk.blkcnt, Partition.stop] at h; omega)]
    rfl
  | dontCare => simp [hc, Content.isData] at hdata
  | crc32 value => simp [hc, Content.isData] at hdata

theorem flash_dontCare (hc : c.content = .dontCare) (disk : Disk) :
    flash info blkSz (c :: chunks) blk disk =
      flash info blkSz chunks (blk + blkSz * c.chunkSz / info.blksz) disk := by
  rw [flash, hc]

theorem flash_crc32 {value : Vector UInt8 4} (hc : c.content = .crc32 value) (disk : Disk) :
    flash info blkSz (c :: chunks) blk disk = disk := by
  rw [flash, hc]

end

/-! ### Chunks that write nothing -/

theorem Quiet.tail {c : Chunk} {chunks : List Chunk} (h : Quiet (c :: chunks)) : Quiet chunks :=
  fun d hd => h d (List.mem_cons_of_mem _ hd)

theorem expand_quiet {blkSz : Nat} {chunks : List Chunk} (h : Quiet chunks) (pos : Nat)
    (disk : Disk) : expand blkSz chunks pos disk = disk := by
  induction chunks generalizing pos disk with
  | nil => rfl
  | cons c chunks ih =>
    have hput : c.put blkSz pos disk = disk := by
      have hc := h c (List.mem_cons_self ..)
      rw [writes_iff] at hc
      cases hdata : c.content.isData with
      | false => exact put_of_not_isData hdata ..
      | true =>
        have hzero : c.chunkSz = 0 := by
          by_contra hne
          exact hc ⟨hne, hdata⟩
        rw [put_of_isData hdata, Chunk.span, hzero]
        exact Ptr.write_zero ..
    rw [expand, hput, ih h.tail]

theorem flash_quiet {info : Partition} {blkSz : UInt32} {chunks : List Chunk} (h : Quiet chunks)
    (blk : UInt32) (disk : Disk) : flash info blkSz chunks blk disk = disk := by
  induction chunks generalizing blk disk with
  | nil => rfl
  | cons c chunks ih =>
    have hzero : c.content.isData = true → blkSz * c.chunkSz / info.blksz = 0 := by
      intro hdata
      have hsz : c.chunkSz = 0 := by
        by_contra hne
        exact h c (List.mem_cons_self ..) ((writes_iff c).mpr ⟨hne, hdata⟩)
      rw [hsz, UInt32.mul_zero, UInt32.zero_div]
    cases hc : c.content with
    | raw data =>
      rw [flash, hc, hzero (by rw [hc]; rfl)]
      dsimp only
      split_ifs
      · rfl
      · rw [ih h.tail]
        exact (congrArg (disk.write _ · _) (Nat.zero_mul _)).trans (Ptr.write_zero ..)
    | fill value =>
      rw [flash, hc, hzero (by rw [hc]; rfl)]
      dsimp only
      split_ifs
      · rfl
      · rw [ih h.tail]
        rfl
    | dontCare => rw [flash_dontCare hc, ih h.tail]
    | crc32 value => rw [flash_crc32 hc]

/-! ### Regular images -/

theorem Partition.blksz_pos (info : Partition) : 0 < info.blksz.toNat := by
  obtain ⟨k, -, hk⟩ := info.blksz_pow
  rw [hk]
  exact Nat.two_pow_pos k

section

variable {info : Partition} {blkSz : UInt32}

/-- The count of a chunk inside the partition. -/
theorem add_blkcnt_le {c : Chunk} {chunks : List Chunk} {blk : UInt32} {pos : Nat}
    (hblk : blk.toNat * info.blksz.toNat ≤ pos)
    (fits : pos + spans blkSz.toNat (c :: chunks) ≤ info.stop * info.blksz.toNat) :
    blk.toNat + c.blkcnt info blkSz ≤ info.stop := by
  rw [spans_cons] at fits
  have hle := blkcnt_mul_le info blkSz c
  apply Nat.le_of_mul_le_mul_right (c := info.blksz.toNat) _ info.blksz_pos
  rw [Nat.add_mul]
  omega

/-- On a regular list of chunks the loop leaves the expansion. -/
theorem flash_eq_expand (hdvd : info.blksz.toNat ∣ blkSz.toNat) {chunks : List Chunk}
    (hraw : ∀ c ∈ chunks, ∀ data, c.content = .raw data → c.span blkSz.toNat < 2 ^ 32)
    (regular : Regular blkSz.toNat chunks) {blk : UInt32}
    (fits : blk.toNat * info.blksz.toNat + spans blkSz.toNat chunks ≤
      info.stop * info.blksz.toNat) (disk : Disk) :
    flash info blkSz chunks blk disk =
      expand blkSz.toNat chunks (blk.toNat * info.blksz.toNat) disk := by
  induction chunks generalizing blk disk with
  | nil => rfl
  | cons c chunks ih =>
    have hle := add_blkcnt_le le_rfl fits
    -- the rest of the list, behind a chunk of less than 4 GiB
    have hrest : c.span blkSz.toNat < 2 ^ 32 → Regular blkSz.toNat chunks → ∀ disk,
        flash info blkSz chunks (blk + blkSz * c.chunkSz / info.blksz) disk =
          expand blkSz.toNat chunks
            (blk.toNat * info.blksz.toNat + c.span blkSz.toNat) disk := by
      intro hlt hreg disk
      have hpos : (blk + blkSz * c.chunkSz / info.blksz).toNat * info.blksz.toNat =
          blk.toNat * info.blksz.toNat + c.span blkSz.toNat := by
        rw [toNat_add_blkcnt hle, Nat.add_mul, blkcnt_mul_eq info blkSz hdvd hlt]
      rw [ih (fun d hd => hraw d (List.mem_cons_of_mem _ hd)) hreg, hpos]
      rw [hpos, Nat.add_assoc, ← spans_cons]
      exact fits
    have hdata : c.span blkSz.toNat < 2 ^ 32 → Regular blkSz.toNat chunks →
        c.content.isData = true → flash info blkSz (c :: chunks) blk disk =
          expand blkSz.toNat (c :: chunks) (blk.toNat * info.blksz.toNat) disk := by
      intro hlt hreg hd
      rw [flash_data hle hd, expand, put_of_isData hd, blkcnt_mul_eq info blkSz hdvd hlt,
        hrest hlt hreg]
    rw [Regular] at regular
    cases hc : c.content with
    | raw data =>
      rw [hc] at regular
      exact hdata (hraw c (List.mem_cons_self ..) data hc) regular (by rw [hc]; rfl)
    | fill value =>
      rw [hc] at regular
      dsimp only at regular
      split_ifs at regular with hlt
      · exact hdata hlt regular (by rw [hc]; rfl)
      · rw [flash_quiet regular, expand_quiet regular]
    | dontCare =>
      rw [hc] at regular
      dsimp only at regular
      split_ifs at regular with hlt
      · rw [flash_dontCare hc, expand, put_of_not_isData (by rw [hc]; rfl),
          hrest hlt regular]
      · rw [flash_quiet regular, expand_quiet regular]
    | crc32 value =>
      rw [hc] at regular
      rw [flash_crc32 hc, expand, put_of_not_isData (by rw [hc]; rfl), expand_quiet regular]

/-! ### Other images -/

theorem writes_of_not_quiet {c : Chunk} {chunks : List Chunk} (h : ¬Quiet (c :: chunks))
    (hrest : Quiet chunks) : c.Writes := by
  by_contra hw
  refine h fun d hd => ?_
  obtain rfl | hd := List.mem_cons.mp hd
  · exact hw
  · exact hrest d hd

theorem Chunk.Writes.span_pos {c : Chunk} (hw : c.Writes) {blkSz : Nat} (hpos : 0 < blkSz) :
    0 < c.span blkSz :=
  Nat.mul_pos hpos (Nat.pos_of_ne_zero fun h => hw.1 (UInt32.toNat_inj.mp h))

theorem expand_last {c : Chunk} {chunks : List Chunk} {blkSz : Nat} (hpos : 0 < blkSz)
    (hw : c.Writes) (quiet : Quiet chunks) (pos : Nat) (disk : Disk) :
    expand blkSz (c :: chunks) pos disk (pos + c.span blkSz - 1) =
      c.content.buf (c.span blkSz - 1) := by
  have hspan := hw.span_pos hpos
  have hsub : pos + c.span blkSz - 1 - pos = c.span blkSz - 1 := by omega
  rw [expand, expand_quiet quiet, put_of_isData ((writes_iff c).mp hw).2]
  simp only [Ptr.write, hsub]
  exact if_pos (by omega)

/-- Chunks that write something fix a byte, whatever was on the device. -/
theorem expand_settled {chunks : List Chunk} {blkSz : Nat} (hpos : 0 < blkSz)
    (h : ¬Quiet chunks) (pos : Nat) :
    ∃ q v, pos ≤ q ∧ ∀ disk, expand blkSz chunks pos disk q = v := by
  induction chunks generalizing pos with
  | nil => exact absurd nofun h
  | cons c chunks ih =>
    by_cases hrest : Quiet chunks
    · have hw := writes_of_not_quiet h hrest
      have hspan := hw.span_pos hpos
      exact ⟨pos + c.span blkSz - 1, _, by omega, expand_last hpos hw hrest pos⟩
    · obtain ⟨q, v, hq, hexpand⟩ := ih hrest (pos + c.span blkSz)
      exact ⟨q, v, by omega, fun disk => hexpand _⟩

/-- A byte of the expansion that the loop does not write. -/
def Missed (info : Partition) (blkSz : UInt32) (chunks : List Chunk) (blk : UInt32)
    (pos : Nat) : Prop :=
  ∃ q v, pos ≤ q ∧ (∀ disk, expand blkSz.toNat chunks pos disk q = v) ∧
    ∀ disk, flash info blkSz chunks blk disk q = disk q

/-- What is missed behind a chunk is missed, when the loop is not ahead. -/
theorem Missed.cons {c : Chunk} {chunks : List Chunk} {blk : UInt32} {pos : Nat}
    (hblk : blk.toNat * info.blksz.toNat ≤ pos)
    (fits : pos + spans blkSz.toNat (c :: chunks) ≤ info.stop * info.blksz.toNat)
    (h : Missed info blkSz chunks (blk + blkSz * c.chunkSz / info.blksz)
      (pos + c.span blkSz.toNat)) : Missed info blkSz (c :: chunks) blk pos := by
  obtain ⟨q, v, hq, hexpand, hflash⟩ := h
  have hle := add_blkcnt_le hblk fits
  have hcnt := blkcnt_mul_le info blkSz c
  refine ⟨q, v, by omega, ?_, ?_⟩
  · intro disk
    rw [expand]
    exact hexpand _
  · intro disk
    cases hc : c.content with
    | raw data | fill value =>
      rw [flash_data hle (by rw [hc]; rfl), hflash]
      exact if_neg (by omega)
    | dontCare => rw [flash_dontCare hc, hflash]
    | crc32 value => rw [flash_crc32 hc]

/-- The last byte of a chunk is missed when the loop stops before it. -/
theorem missed_last {c : Chunk} {chunks : List Chunk} {blk : UInt32} {pos : Nat}
    (hpos : 0 < blkSz.toNat) (hw : c.Writes) (quiet : Quiet chunks)
    (hblk : blk.toNat * info.blksz.toNat ≤ pos)
    (hless : blk.toNat * info.blksz.toNat + c.blkcnt info blkSz * info.blksz.toNat <
      pos + c.span blkSz.toNat)
    (fits : pos + spans blkSz.toNat (c :: chunks) ≤ info.stop * info.blksz.toNat) :
    Missed info blkSz (c :: chunks) blk pos := by
  have hspan := hw.span_pos hpos
  refine ⟨pos + c.span blkSz.toNat - 1, _, by omega, expand_last hpos hw quiet pos, ?_⟩
  intro disk
  rw [flash_data (add_blkcnt_le hblk fits) ((writes_iff c).mp hw).2, flash_quiet quiet]
  exact if_neg (by omega)

/-- A loop that lags behind the expansion misses something. -/
theorem missed_of_lag {chunks : List Chunk} (hpos : 0 < blkSz.toNat) (h : ¬Quiet chunks)
    {blk : UInt32} {pos : Nat} (hlag : blk.toNat * info.blksz.toNat < pos)
    (fits : pos + spans blkSz.toNat chunks ≤ info.stop * info.blksz.toNat) :
    Missed info blkSz chunks blk pos := by
  induction chunks generalizing blk pos with
  | nil => exact absurd nofun h
  | cons c chunks ih =>
    have hle := add_blkcnt_le hlag.le fits
    have hcnt := blkcnt_mul_le info blkSz c
    by_cases hrest : Quiet chunks
    · exact missed_last hpos (writes_of_not_quiet h hrest) hrest hlag.le (by omega) fits
    · refine .cons hlag.le fits (ih hrest ?_ ?_)
      · rw [toNat_add_blkcnt hle, Nat.add_mul]
        omega
      · rw [Nat.add_assoc, ← spans_cons]
        exact fits

/-- On a list that is not regular the loop misses something. -/
theorem missed_of_not_regular {chunks : List Chunk} (hpos : 0 < blkSz.toNat)
    (h : ¬Regular blkSz.toNat chunks) {blk : UInt32} {pos : Nat}
    (hblk : blk.toNat * info.blksz.toNat ≤ pos)
    (fits : pos + spans blkSz.toNat chunks ≤ info.stop * info.blksz.toNat) :
    Missed info blkSz chunks blk pos := by
  induction chunks generalizing blk pos with
  | nil => exact absurd trivial h
  | cons c chunks ih =>
    have hle := add_blkcnt_le hblk fits
    have hcnt := blkcnt_mul_le info blkSz c
    have hblk' : (blk + blkSz * c.chunkSz / info.blksz).toNat * info.blksz.toNat ≤
        pos + c.span blkSz.toNat := by
      rw [toNat_add_blkcnt hle, Nat.add_mul]
      omega
    have fits' : pos + c.span blkSz.toNat + spans blkSz.toNat chunks ≤
        info.stop * info.blksz.toNat := by
      rw [Nat.add_assoc, ← spans_cons]
      exact fits
    -- a chunk whose size does not fit 32 bits
    have hlarge : ¬c.span blkSz.toNat < 2 ^ 32 → ¬Quiet (c :: chunks) →
        Missed info blkSz (c :: chunks) blk pos := by
      intro hspan hloud
      have hlt := blkcnt_mul_lt info blkSz hspan
      by_cases hrest : Quiet chunks
      · exact missed_last hpos (writes_of_not_quiet hloud hrest) hrest hblk (by omega) fits
      · refine .cons hblk fits (missed_of_lag hpos hrest ?_ fits')
        rw [toNat_add_blkcnt hle, Nat.add_mul]
        omega
    rw [Regular] at h
    cases hc : c.content with
    | raw data =>
      rw [hc] at h
      exact .cons hblk fits (ih h hblk' fits')
    | fill value | dontCare =>
      rw [hc] at h
      dsimp only at h
      split_ifs at h with hspan
      · exact .cons hblk fits (ih h hblk' fits')
      · exact hlarge hspan h
    | crc32 value =>
      rw [hc] at h
      obtain ⟨q, v, hq, hexpand⟩ := expand_settled hpos h (pos + c.span blkSz.toNat)
      refine ⟨q, v, by omega, ?_, ?_⟩
      · intro disk
        rw [expand]
        exact hexpand _
      · intro disk
        rw [flash_crc32 hc]

end

/-! ### The image as a whole -/

theorem spans_eq (blkSz : Nat) (chunks : List Chunk) :
    spans blkSz chunks = blkSz * (chunks.map fun c => c.chunkSz.toNat).sum := by
  induction chunks with
  | nil => rfl
  | cons c chunks ih =>
    rw [spans_cons, ih, List.map_cons, List.sum_cons, Nat.mul_add, Chunk.span]

/-- The partition holds the expansion of the image, and everything else is as it
was. -/
def Expanded (info : Partition) (img : Image) (disk disk' : Disk) : Prop :=
  disk' = expand img.blkSz.toNat img.chunks (info.start.toNat * info.blksz.toNat) disk

/-- The expansion of an image is left in the partition if and only if its blocks are
whole blocks of the device and its list of chunks is regular, or if there is nothing to
write. Where the loop runs, the header is one of 28 bytes. -/
theorem sparse_image_expanded_iff {img : Image} (wf : img.WellFormed) {p : Ptr}
    (loaded : img.LoadedAt p) {info : Partition} (fits : img.Fits info)
    (hhdr : info.blksz.toNat ∣ img.blkSz.toNat → img.chunks ≠ [] →
      img.fileHdrSz = sparseHeaderSize) :
    (∀ disk, Expanded info img disk (writeSparseImage info p disk).1) ↔
      (info.blksz.toNat ∣ img.blkSz.toNat ∧ Regular img.blkSz.toNat img.chunks) ∨
        Quiet img.chunks := by
  have hpad : info.blksz.toNat ∣ img.blkSz.toNat → img.chunks ≠ [] → img.padding = [] := by
    intro hdvd hne
    have hfile := hhdr hdvd hne
    rw [Image.fileHdrSz] at hfile
    exact List.length_eq_zero_iff.mp (by omega)
  have hfits : info.start.toNat * info.blksz.toNat + spans img.blkSz.toNat img.chunks ≤
      info.stop * info.blksz.toNat := by
    rw [Image.Fits, Image.totalBlks] at fits
    rw [spans_eq, Partition.stop, Nat.add_mul]
    omega
  have hraw : ∀ c ∈ img.chunks, ∀ data, c.content = .raw data →
      c.span img.blkSz.toNat < 2 ^ 32 := by
    intro c hc data hdata
    have hwf := wf.chunks c hc
    have hlen := hwf.raw data hdata
    have hlt := hwf.total_lt
    rw [hdata, Content.data] at hlt
    rw [Chunk.span]
    omega
  simp only [Expanded, writeSparseImage_eq wf loaded hpad]
  constructor
  · intro h
    by_contra hcond
    obtain ⟨hnot, hloud⟩ := not_or.mp hcond
    by_cases hdvd : info.blksz.toNat ∣ img.blkSz.toNat
    · have hmissed : Missed info img.blkSz img.chunks info.start
          (info.start.toNat * info.blksz.toNat) :=
        missed_of_not_regular wf.blkSz_pos (fun hreg => hnot ⟨hdvd, hreg⟩) le_rfl hfits
      obtain ⟨q, v, -, hexpand, hflash⟩ := hmissed
      have hq := congrFun (h fun _ => v + 1) q
      rw [if_pos hdvd, hflash, hexpand] at hq
      exact absurd hq (by simp)
    · obtain ⟨q, v, -, hexpand⟩ := expand_settled wf.blkSz_pos hloud
        (info.start.toNat * info.blksz.toNat)
      have hq := congrFun (h fun _ => v + 1) q
      rw [if_neg hdvd, hexpand] at hq
      exact absurd hq (by simp)
  · rintro (⟨hdvd, hreg⟩ | hquiet) disk
    · rw [if_pos hdvd, flash_eq_expand hdvd hraw hreg hfits]
    · rw [expand_quiet hquiet, flash_quiet hquiet, ite_self]

/-- A partition of 1024 blocks of 512 bytes. -/
def smallPartition : Partition := ⟨64, 1024, 512, by decide, 9, by decide, by decide⟩

/-- Chunk headers of 16 bytes: a block of data, a gap and two filled blocks. -/
def smallImage : Image where
  version := ⟨#[1, 0, 0, 0], rfl⟩
  blkSz := 512
  checksum := ⟨#[0, 0, 0, 0], rfl⟩
  padding := []
  chunkHdrSz := 16
  chunks := [
    ⟨.raw (List.replicate 512 7), 1, ⟨#[0, 0], rfl⟩, [0, 0, 0, 0]⟩,
    ⟨.dontCare, 3, ⟨#[0, 0], rfl⟩, [0, 0, 0, 0]⟩,
    ⟨.fill ⟨#[1, 2, 3, 4], rfl⟩, 2, ⟨#[0, 0], rfl⟩, [0, 0, 0, 0]⟩]

theorem sparse_image_expanded_small : smallImage.WellFormed ∧
    ∀ disk, Expanded smallPartition smallImage disk
      (writeSparseImage smallPartition (Ptr.ofList smallImage.toBytes) disk).1 := by
  have wf : smallImage.WellFormed := by
    refine ⟨by decide, by decide, by decide, by decide, by decide, by decide, by decide, ?_⟩
    intro c hc
    simp only [smallImage, List.mem_cons, List.not_mem_nil, or_false] at hc
    obtain rfl | rfl | rfl := hc
    · exact ⟨rfl, by decide +kernel, fun data h => by cases h; decide +kernel, nofun⟩
    · exact ⟨rfl, by decide, nofun, nofun⟩
    · exact ⟨rfl, by decide, nofun, nofun⟩
  exact ⟨wf, (sparse_image_expanded_iff wf (Ptr.bytes_ofList _) (by decide) fun _ _ => rfl).mpr
    (.inl ⟨by decide, by simp [smallImage, Regular, Chunk.span, -List.reduceReplicate]⟩)⟩

/-- A checksum, and one filled block behind it. -/
def checkedImage : Image where
  version := ⟨#[1, 0, 0, 0], rfl⟩
  blkSz := 512
  checksum := ⟨#[0, 0, 0, 0], rfl⟩
  padding := []
  chunkHdrSz := 12
  chunks := [
    ⟨.crc32 ⟨#[0, 0, 0, 0], rfl⟩, 0, ⟨#[0, 0], rfl⟩, []⟩,
    ⟨.fill ⟨#[17, 17, 17, 17], rfl⟩, 1, ⟨#[0, 0], rfl⟩, []⟩]

/-- An image is not written behind its CRC32 chunk. -/
theorem sparse_image_not_expanded :
    ¬∀ (img : Image) (p : Ptr) (info : Partition) (disk : Disk), img.WellFormed →
      img.LoadedAt p → img.Fits info → Expanded info img disk (writeSparseImage info p disk).1 := by
  intro claim
  have wf : checkedImage.WellFormed := by
    refine ⟨by decide, by decide, by decide, by decide, by decide, by decide, by decide, ?_⟩
    intro c hc
    simp only [checkedImage, List.mem_cons, List.not_mem_nil, or_false] at hc
    obtain rfl | rfl := hc
    · exact ⟨rfl, by decide, nofun, fun _ _ => rfl⟩
    · exact ⟨rfl, by decide, nofun, nofun⟩
  have hexpanded := claim checkedImage (Ptr.ofList checkedImage.toBytes) smallPartition 0 wf
    (Ptr.bytes_ofList _) (by decide)
  have hbyte := congrFun hexpanded (64 * 512)
  exact absurd hbyte (by decide)

end UBoot.Sparse
