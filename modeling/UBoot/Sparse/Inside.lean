import Mathlib.Data.UInt
import UBoot.Sparse.Round

/-!
# The accesses of `write_sparse_image`

Blocks are compared with the end of the partition only, in 32 bits, and after DONT_CARE
chunks have moved the pointer without a check. The place in the image is compared with
nothing, and two divisors come from outside. What the chunks have to say is stated here for
the chunks that the function comes to when the device and the heap refuse nothing.
-/

namespace UBoot.Sparse

open Verification

/-- A block of the partition. -/
def Info.Contains (info : Info) (blk : UInt32) : Prop :=
  info.start.toNat ≤ blk.toNat ∧ blk.toNat < info.start.toNat + info.size.toNat

/-- The access stays in an image of `sz` bytes, in the partition, and divides by no zero. -/
def Event.Safe (info : Info) (sz : Nat) : Event → Prop
  | .read offset len => len = 0 ∨ offset + len ≤ sz
  | .write blk blkcnt => ∀ i < blkcnt.toNat, info.Contains (blk + UInt32.ofNat i)
  | .divide divisor => divisor ≠ 0

section

variable (info : Info) (image : Ptr) (h : Header) (sz : Nat)

/-- The chunk lies in the image, and its blocks in the partition: those of the range from
the block pointer on, which is counted without a wrap. -/
structure ChunkInside (p : Spot) : Prop where
  blksz : info.blksz ≠ 0
  head : p.data + 8 ≤ sz
  total : chunkType image p.data = CHUNK_TYPE_RAW ∨ chunkType image p.data = CHUNK_TYPE_FILL ∨
    chunkType image p.data = CHUNK_TYPE_CRC32 → p.data + 12 ≤ sz
  value : chunkType image p.data = CHUNK_TYPE_FILL →
    totalSz image p.data = UInt32.ofNat h.chunkHdrSz + 4 → chunkData h p.data + 4 ≤ sz
  data : chunkType image p.data = CHUNK_TYPE_RAW → Accepted info image h p →
    (blkcnt info image h p.data).toNat * info.blksz.toNat = 0 ∨
      chunkData h p.data + (blkcnt info image h p.data).toNat * info.blksz.toNat ≤ sz
  blocks : chunkType image p.data = CHUNK_TYPE_RAW ∨ chunkType image p.data = CHUNK_TYPE_FILL →
    Accepted info image h p → blkcnt info image h p.data = 0 ∨
      info.start ≤ p.blk ∧
        p.blk.toNat + (blkcnt info image h p.data).toNat ≤ info.start.toNat + info.size.toNat ∧
          p.blk.toNat + (blkcnt info image h p.data).toNat ≤ 2 ^ 32
  blkSz : chunkType image p.data = CHUNK_TYPE_FILL → Accepted info image h p → h.blkSz ≠ 0

/-- So do all chunks that are come to. -/
def ChunksInside : Nat → Spot → Prop
  | 0, _ => True
  | chunks + 1, p =>
    ChunkInside info image h sz p ∧
      (Accepted info image h p → ChunksInside chunks (p.next info image h))

end

/-! ### Blocks of a partition -/

theorem toNat_add_ofNat (blk : UInt32) {i : Nat} (h : blk.toNat + i < 2 ^ 32) :
    (blk + UInt32.ofNat i).toNat = blk.toNat + i := by
  have hi : (UInt32.ofNat i).toNat = i := UInt32.toNat_ofNat_of_lt' (Nat.lt_of_le_of_lt
    (Nat.le_add_left ..) h)
  rw [UInt32.toNat_add, hi, Nat.mod_eq_of_lt h]

/-- Some blocks lie in a partition when their range does, and the pointer does not wrap. -/
theorem contains_all_iff (info : Info) (blk blkcnt : UInt32) :
    (∀ i < blkcnt.toNat, info.Contains (blk + UInt32.ofNat i)) ↔
      blkcnt = 0 ∨ info.start ≤ blk ∧
        blk.toNat + blkcnt.toNat ≤ info.start.toNat + info.size.toNat ∧
          blk.toNat + blkcnt.toNat ≤ 2 ^ 32 := by
  have hlt := blk.toNat_lt
  have hcnt := blkcnt.toNat_lt
  have hsize := info.size.toNat_lt
  rw [UInt32.le_iff_toNat_le]
  constructor
  · intro hall
    by_cases hzero : blkcnt.toNat = 0
    · exact .inl (UInt32.toNat_inj.mp hzero)
    have hfirst := hall 0 (by omega)
    rw [show UInt32.ofNat 0 = 0 from rfl, UInt32.add_zero] at hfirst
    have hroom : blk.toNat + blkcnt.toNat ≤ 2 ^ 32 := by
      by_contra hwrap
      -- the last block before the wrap and the first one behind it
      have hlast := hall (2 ^ 32 - 1 - blk.toNat) (by omega)
      have hnext := hall (2 ^ 32 - blk.toNat) (by omega)
      have htop : (blk + UInt32.ofNat (2 ^ 32 - 1 - blk.toNat)).toNat = 2 ^ 32 - 1 := by
        rw [toNat_add_ofNat blk (by omega)]
        omega
      have hbottom : (blk + UInt32.ofNat (2 ^ 32 - blk.toNat)).toNat = 0 := by
        rw [UInt32.toNat_add, UInt32.toNat_ofNat']
        omega
      have hstart := hnext.1
      have hend := hlast.2
      rw [hbottom] at hstart
      rw [htop] at hend
      omega
    have hlast := hall (blkcnt.toNat - 1) (by omega)
    rw [Info.Contains, toNat_add_ofNat blk (by omega)] at hlast
    exact .inr ⟨hfirst.1, by omega, hroom⟩
  · rintro (rfl | ⟨hstart, hend, hroom⟩) i hi
    · exact absurd hi (Nat.not_lt_zero i)
    · rw [Info.Contains, toNat_add_ofNat blk (by omega)]
      omega

/-! ### One chunk -/

section

variable {info : Info} {image : Ptr} {env : Env} {h : Header} {sz : Nat} {s s' : Vars}

theorem safe_write_one (blk : UInt32) :
    (Event.write blk 1).Safe info sz ↔ info.Contains blk := by
  constructor
  · intro hsafe
    have := hsafe 0 (by decide)
    rwa [show UInt32.ofNat 0 = 0 from rfl, UInt32.add_zero] at this
  · intro hblk i hi
    obtain rfl : i = 0 := Nat.lt_one_iff.mp hi
    rwa [show UInt32.ofNat 0 = 0 from rfl, UInt32.add_zero]

theorem add_one_add_ofNat (blk : UInt32) (j : Nat) :
    blk + 1 + UInt32.ofNat j = blk + UInt32.ofNat (j + 1) := by
  rw [UInt32.ofNat_add, UInt32.add_assoc, UInt32.add_comm 1]
  rfl

/-- A filled buffer goes to blocks of the range. -/
theorem mem_fillWrites {left writes : Nat} {blk : UInt32} {e : Event}
    (he : e ∈ (fillWrites env left writes blk).1) :
    ∃ j < left, e = .write (blk + UInt32.ofNat j) 1 := by
  induction left generalizing writes blk with
  | zero => cases he
  | succ left ih =>
    have hfirst : blk = blk + UInt32.ofNat 0 := (UInt32.add_zero blk).symm
    rw [fillWrites] at he
    split at he
    · exact ⟨0, Nat.succ_pos _, (List.mem_singleton.mp he).trans (by rw [← hfirst])⟩
    · rcases List.mem_cons.mp he with rfl | he
      · exact ⟨0, Nat.succ_pos _, by rw [← hfirst]⟩
      · obtain ⟨j, hj, rfl⟩ := ih he
        exact ⟨j + 1, Nat.succ_lt_succ hj, by rw [add_one_add_ofNat]⟩

/-- The device and the heap refuse nothing. -/
def willing : Env := ⟨fun _ _ blkcnt => blkcnt, fun _ => true⟩

theorem fillWrites_willing (left writes : Nat) (blk : UInt32) :
    (fillWrites willing left writes blk).2 = true ∧
      ∀ j < left, .write (blk + UInt32.ofNat j) 1 ∈ (fillWrites willing left writes blk).1 := by
  induction left generalizing writes blk with
  | zero => exact ⟨rfl, fun j hj => absurd hj (Nat.not_lt_zero j)⟩
  | succ left ih =>
    obtain ⟨htaken, hall⟩ := ih (writes + 1) (blk + 1)
    have hstep : fillWrites willing (left + 1) writes blk =
        (.write blk 1 :: (fillWrites willing left (writes + 1) (blk + 1)).1,
          (fillWrites willing left (writes + 1) (blk + 1)).2) := if_neg (by simp [willing])
    rw [hstep]
    refine ⟨htaken, fun j hj => ?_⟩
    cases j with
    | zero => exact List.mem_cons.mpr (.inl (by rw [show UInt32.ofNat 0 = 0 from rfl,
        UInt32.add_zero]))
    | succ j =>
      rw [← add_one_add_ofNat]
      exact List.mem_cons_of_mem _ (hall j (Nat.lt_of_succ_lt_succ hj))

theorem rawChunk_safe (htype : chunkType image s.data = CHUNK_TYPE_RAW)
    (inside : ChunkInside info image h sz s.spot) :
    ∀ e ∈ (rawChunk info image env h s).1, e.Safe info sz := by
  have hread : (Event.read (s.data + 8) 4).Safe info sz := .inr (inside.total (.inl htype))
  rw [rawChunk]
  split
  · exact List.forall_mem_singleton.mpr hread
  rename_i htotal
  split
  · exact List.forall_mem_singleton.mpr hread
  rename_i hexceeds
  have haccepted : Accepted info image h s.spot :=
    (accepted_raw htype).mpr ⟨not_not.mp htotal, hexceeds⟩
  have hall : ∀ e ∈ [.read (s.data + 8) 4, .read (chunkData h s.data)
      ((blkcnt info image h s.data).toNat * info.blksz.toNat),
        .write s.blk (blkcnt info image h s.data)], Event.Safe info sz e := by
    rw [List.forall_mem_cons, List.forall_mem_cons, List.forall_mem_singleton]
    exact ⟨hread, inside.data htype haccepted,
      (contains_all_iff info _ _).mpr (inside.blocks (.inl htype) haccepted)⟩
  split <;> exact hall

theorem fillChunk_safe (htype : chunkType image s.data = CHUNK_TYPE_FILL)
    (inside : ChunkInside info image h sz s.spot) :
    ∀ e ∈ (fillChunk info image env h s).1, e.Safe info sz := by
  have hread : (Event.read (s.data + 8) 4).Safe info sz :=
    .inr (inside.total (.inr (.inl htype)))
  simp only [fillChunk]
  split
  · exact List.forall_mem_singleton.mpr hread
  rename_i htotal
  split
  · exact List.forall_mem_singleton.mpr hread
  have hvalue : ∀ e ∈ [.read (s.data + 8) 4, .read (chunkData h s.data) 4],
      Event.Safe info sz e :=
    List.forall_mem_cons.mpr ⟨hread, List.forall_mem_singleton.mpr
      (.inr (inside.value htype (not_not.mp htotal)))⟩
  split
  · exact hvalue
  rename_i hexceeds
  have haccepted : Accepted info image h s.spot :=
    (accepted_fill htype).mpr ⟨not_not.mp htotal, hexceeds⟩
  have hfill : ∀ e ∈ (fillWrites env (blkcnt info image h s.data).toNat s.writes s.blk).1,
      e.Safe info sz := by
    intro e he
    obtain ⟨j, hj, rfl⟩ := mem_fillWrites he
    exact (safe_write_one _).mpr
      ((contains_all_iff info _ _).mpr (inside.blocks (.inr htype) haccepted) j hj)
  split
  · exact List.forall_mem_append.mpr ⟨hvalue, hfill⟩
  have hall : ∀ e ∈ [.read (s.data + 8) 4, .read (chunkData h s.data) 4] ++
      ((fillWrites env (blkcnt info image h s.data).toNat s.writes s.blk).1 ++
        [.divide h.blkSz]), Event.Safe info sz e :=
    List.forall_mem_append.mpr ⟨hvalue, List.forall_mem_append.mpr
      ⟨hfill, List.forall_mem_singleton.mpr (inside.blkSz htype haccepted)⟩⟩
  split <;> exact hall

theorem crc32Chunk_safe (htype : chunkType image s.data = CHUNK_TYPE_CRC32)
    (inside : ChunkInside info image h sz s.spot) :
    ∀ e ∈ (crc32Chunk image h s).1, e.Safe info sz := by
  have hread : (Event.read (s.data + 8) 4).Safe info sz :=
    .inr (inside.total (.inr (.inr htype)))
  rw [crc32Chunk]
  split <;> exact List.forall_mem_singleton.mpr hread

theorem chunkStep_safe (inside : ChunkInside info image h sz s.spot) :
    ∀ e ∈ (chunkStep info image env h s).1, e.Safe info sz := by
  have hhead : ∀ e ∈ chunkHead info s, e.Safe info sz := by
    have := inside.head
    rw [chunkHead, List.forall_mem_cons, List.forall_mem_cons, List.forall_mem_singleton]
    exact ⟨.inr (Nat.le_trans (by simp [Vars.spot]) this), .inr this, inside.blksz⟩
  rw [chunkStep, if_neg inside.blksz]
  refine List.forall_mem_append.mpr ⟨hhead, ?_⟩
  rw [chunkCase]
  split
  · rename_i htype
    exact rawChunk_safe htype inside
  split
  · rename_i htype
    exact fillChunk_safe htype inside
  split
  · intro e he
    cases he
  split
  · rename_i htype
    exact crc32Chunk_safe htype inside
  · intro e he
    cases he

/-! ### From chunk to chunk -/

/-- All accesses of the loop are safe when the chunks that it comes to lie inside. -/
theorem chunkRun_safe {chunks : Nat} (inside : ChunksInside info image h sz chunks s.spot) :
    ∀ e ∈ (chunkRun info image env h chunks s).1, e.Safe info sz := by
  induction chunks generalizing s with
  | zero =>
    intro e he
    cases he
  | succ chunks ih =>
    have hstep : ∀ e ∈ (chunkStep info image env h s).1, e.Safe info sz :=
      chunkStep_safe inside.1
    rw [chunkRun]
    cases hnext : (chunkStep info image env h s).2 with
    | next s' =>
      obtain ⟨done, rfl⟩ := chunkStep_next hnext
      exact List.forall_mem_append.mpr ⟨hstep, ih (inside.2 done.accepted)⟩
    | stop why => exact hstep
    | hang => exact hstep

/-! ### Where nothing is refused -/

theorem le_of_safe {offset len : Nat} (hsafe : (Event.read offset len).Safe info sz)
    (hlen : len ≠ 0) : offset + len ≤ sz :=
  hsafe.resolve_left hlen

theorem taken_willing : Taken info image willing h s :=
  ⟨fun _ => rfl, fun _ => rfl, fun _ => (fillWrites_willing ..).1⟩

theorem rawChunk_inside (htype : chunkType image s.data = CHUNK_TYPE_RAW)
    (hblksz : info.blksz ≠ 0) (head : s.data + 8 ≤ sz)
    (hsafe : ∀ e ∈ (rawChunk info image willing h s).1, e.Safe info sz) :
    ChunkInside info image h sz s.spot := by
  have htotal : s.data + 8 + 4 ≤ sz := by
    refine le_of_safe (hsafe _ ?_) (by decide)
    simp only [rawChunk]
    split
    · exact List.mem_cons_self
    split
    · exact List.mem_cons_self
    split <;> exact List.mem_cons_self
  have hfill : chunkType image s.data ≠ CHUNK_TYPE_FILL := by rw [htype]; decide
  have hevents : Accepted info image h s.spot → (rawChunk info image willing h s).1 =
      [.read (s.data + 8) 4, .read (chunkData h s.data)
        ((blkcnt info image h s.data).toNat * info.blksz.toNat),
          .write s.blk (blkcnt info image h s.data)] := by
    intro haccepted
    obtain ⟨htotal, hexceeds⟩ := (accepted_raw htype).mp haccepted
    simp only [rawChunk]
    rw [if_neg (not_not.mpr htotal), if_neg hexceeds, if_neg (not_not.mpr (taken_willing.raw htype))]
  have haccepted : Accepted info image h s.spot →
      (Event.read (chunkData h s.data)
        ((blkcnt info image h s.data).toNat * info.blksz.toNat)).Safe info sz ∧
      (Event.write s.blk (blkcnt info image h s.data)).Safe info sz := by
    intro haccepted
    rw [hevents haccepted, List.forall_mem_cons, List.forall_mem_cons,
      List.forall_mem_singleton] at hsafe
    exact hsafe.2
  exact {
    blksz := hblksz
    head := head
    total := fun _ => htotal
    value := fun htype => absurd htype hfill
    data := fun _ h => (haccepted h).1
    blocks := fun _ h => (contains_all_iff info _ _).mp (haccepted h).2
    blkSz := fun htype => absurd htype hfill }

theorem fillChunk_inside (htype : chunkType image s.data = CHUNK_TYPE_FILL)
    (hblksz : info.blksz ≠ 0) (head : s.data + 8 ≤ sz)
    (hsafe : ∀ e ∈ (fillChunk info image willing h s).1, e.Safe info sz) :
    ChunkInside info image h sz s.spot := by
  have hmem : ¬(!willing.memalign s.allocs) = true := Bool.false_ne_true
  have htotal : s.data + 8 + 4 ≤ sz := by
    refine le_of_safe (hsafe _ ?_) (by decide)
    simp only [fillChunk]
    rw [if_neg hmem]
    split
    · exact List.mem_cons_self
    split
    · exact List.mem_cons_self
    split
    · exact List.mem_cons_self
    split <;> exact List.mem_cons_self
  have hvalue : totalSz image s.data = UInt32.ofNat h.chunkHdrSz + 4 →
      chunkData h s.data + 4 ≤ sz := by
    intro htotal
    refine le_of_safe (hsafe _ ?_) (by decide)
    have hsecond (rest : List Event) : Event.read (chunkData h s.data) 4 ∈
        [.read (s.data + 8) 4, .read (chunkData h s.data) 4] ++ rest :=
      List.mem_append_left _ (List.mem_cons_of_mem _ List.mem_cons_self)
    simp only [fillChunk]
    rw [if_neg (not_not.mpr htotal), if_neg hmem]
    split
    · exact hsecond []
    split
    · exact hsecond _
    split <;> exact hsecond _
  have hraw : chunkType image s.data ≠ CHUNK_TYPE_RAW := by rw [htype]; decide
  have hevents : Accepted info image h s.spot → (fillChunk info image willing h s).1 =
      [.read (s.data + 8) 4, .read (chunkData h s.data) 4] ++
        ((fillWrites willing (blkcnt info image h s.data).toNat s.writes s.blk).1 ++
          [.divide h.blkSz]) := by
    intro haccepted
    obtain ⟨htotal, hexceeds⟩ := (accepted_fill htype).mp haccepted
    simp only [fillChunk]
    rw [if_neg (not_not.mpr htotal), if_neg hmem, if_neg hexceeds,
      if_neg (by rw [taken_willing.fill htype]; decide)]
    split <;> rfl
  have haccepted : Accepted info image h s.spot →
      (∀ i < (blkcnt info image h s.data).toNat, info.Contains (s.blk + UInt32.ofNat i)) ∧
        h.blkSz ≠ 0 := by
    intro haccepted
    rw [hevents haccepted, List.forall_mem_append, List.forall_mem_append,
      List.forall_mem_singleton] at hsafe
    have hwrites := (fillWrites_willing (blkcnt info image h s.data).toNat s.writes s.blk).2
    exact ⟨fun i hi => (safe_write_one _).mp (hsafe.2.1 _ (hwrites i hi)), hsafe.2.2⟩
  exact {
    blksz := hblksz
    head := head
    total := fun _ => htotal
    value := fun _ => hvalue
    data := fun htype => absurd htype hraw
    blocks := fun _ h => (contains_all_iff info _ _).mp (haccepted h).1
    blkSz := fun _ h => (haccepted h).2 }

/-- A chunk lies inside when all accesses to it are safe where nothing is refused. -/
theorem chunkStep_inside (hsafe : ∀ e ∈ (chunkStep info image willing h s).1, e.Safe info sz) :
    ChunkInside info image h sz s.spot := by
  have hhead : ∀ e ∈ chunkHead info s, e ∈ (chunkStep info image willing h s).1 := by
    intro e he
    rw [chunkStep]
    split
    · exact he
    · exact List.mem_append_left _ he
  have hblksz : info.blksz ≠ 0 :=
    hsafe (.divide info.blksz) (hhead _ (by rw [chunkHead]; simp))
  have head : s.data + 4 + 4 ≤ sz :=
    le_of_safe (hsafe (.read (s.data + 4) 4) (hhead _ (by rw [chunkHead]; simp))) (by decide)
  rw [chunkStep, if_neg hblksz] at hsafe
  have hcase := (List.forall_mem_append.mp hsafe).2
  simp only [chunkCase] at hcase
  by_cases hraw : chunkType image s.data = CHUNK_TYPE_RAW
  · rw [if_pos hraw] at hcase
    exact rawChunk_inside hraw hblksz head hcase
  by_cases hfill : chunkType image s.data = CHUNK_TYPE_FILL
  · rw [if_neg hraw, if_pos hfill] at hcase
    exact fillChunk_inside hfill hblksz head hcase
  rw [if_neg hraw, if_neg hfill] at hcase
  have htotal (hcrc : chunkType image s.data = CHUNK_TYPE_CRC32) : s.data + 8 + 4 ≤ sz := by
    rw [if_neg (by rw [hcrc]; decide), if_pos hcrc] at hcase
    refine le_of_safe (hcase _ ?_) (by decide)
    rw [crc32Chunk]
    split <;> exact List.mem_cons_self
  exact {
    blksz := hblksz
    head := head
    total := fun htype => htotal ((htype.resolve_left hraw).resolve_left hfill)
    value := fun htype => absurd htype hfill
    data := fun htype => absurd htype hraw
    blocks := fun htype => absurd htype (not_or.mpr ⟨hraw, hfill⟩)
    blkSz := fun htype => absurd htype hfill }

/-- Where nothing is refused, a chunk that lies inside and is accepted leads to the next. -/
theorem chunkStep_willing (inside : ChunkInside info image h sz s.spot)
    (haccepted : Accepted info image h s.spot) :
    (chunkStep info image willing h s).2 = .next (s.next info image h) := by
  have hended : Ended info image willing h s (chunkStep info image willing h s).2 :=
    chunkStep_ended inside.blksz
  generalize (chunkStep info image willing h s).2 = outcome at hended
  cases hended with
  | next => rfl
  | hang done fill zero => exact absurd zero (inside.blkSz fill haccepted)
  | stop refused why => exact absurd ⟨haccepted, taken_willing⟩ refused

theorem chunksInside_of_safe {chunks : Nat}
    (hsafe : ∀ e ∈ (chunkRun info image willing h chunks s).1, e.Safe info sz) :
    ChunksInside info image h sz chunks s.spot := by
  induction chunks generalizing s with
  | zero => trivial
  | succ chunks ih =>
    have inside : ChunkInside info image h sz s.spot := by
      apply chunkStep_inside
      intro e he
      apply hsafe
      rw [chunkRun]
      cases (chunkStep info image willing h s).2 with
      | next s' => exact List.mem_append_left _ he
      | stop why => exact he
      | hang => exact he
    refine ⟨inside, fun haccepted => ih (s := s.next info image h) ?_⟩
    intro e he
    apply hsafe
    rw [chunkRun]
    simp only [chunkStep_willing inside haccepted]
    exact List.mem_append_right _ he

/-! ### The whole image -/

/-- The chunks that the function comes to lie inside, from the first one on. -/
def ImageInside (info : Info) (image : Ptr) (sz : Nat) : Prop :=
  ChunksInside info image (readHeader image) sz (readHeader image).totalChunks
    ⟨firstChunk (readHeader image), info.start⟩

/-- Whatever the device and the heap answer, all accesses are safe exactly when the fields of
the header that are needed, and the chunks that are come to, lie inside. -/
theorem accesses_safe_iff (info : Info) (image : Ptr) (sz : Nat) :
    (∀ env, ∀ e ∈ (writeSparseImageEvents info image env).1, e.Safe info sz) ↔
      16 ≤ sz ∧ (BlkSzOk info (readHeader image) → 24 ≤ sz ∧ ImageInside info image sz) := by
  by_cases hok : BlkSzOk info (readHeader image)
  · have hevents (env : Env) : (writeSparseImageEvents info image env).1 =
        [.read 8 2, .read 12 4, .read 20 4, .read 10 2, .read 16 4] ++
          (chunkRun info image env (readHeader image) (readHeader image).totalChunks
            (startVars info (readHeader image))).1 := by
      simp only [writeSparseImageEvents]
      rw [if_neg (not_not.mpr hok)]
      split <;> rfl
    constructor
    · intro hsafe
      have hwilling := hsafe willing
      rw [hevents, List.forall_mem_append] at hwilling
      have hchunks : 20 + 4 ≤ sz := le_of_safe (hwilling.1 (.read 20 4) (by simp)) (by decide)
      exact ⟨Nat.le_trans (by decide) hchunks, fun _ =>
        ⟨hchunks, chunksInside_of_safe (s := startVars info _) hwilling.2⟩⟩
    · rintro ⟨_, himage⟩ env
      obtain ⟨hsz, inside⟩ := himage hok
      rw [hevents]
      refine List.forall_mem_append.mpr ⟨?_, chunkRun_safe (s := startVars info _) inside⟩
      intro e he
      simp only [List.mem_cons, List.not_mem_nil, or_false] at he
      rcases he with rfl | rfl | rfl | rfl | rfl <;> exact .inr (Nat.le_trans (by decide) hsz)
  · have hevents (env : Env) :
        (writeSparseImageEvents info image env).1 = [.read 8 2, .read 12 4] := by
      simp only [writeSparseImageEvents]
      rw [if_pos hok]
    constructor
    · intro hsafe
      have hwilling := hsafe willing
      rw [hevents, List.forall_mem_cons, List.forall_mem_singleton] at hwilling
      exact ⟨le_of_safe hwilling.2 (by decide), fun h => absurd h hok⟩
    · rintro ⟨hsz, _⟩ env
      rw [hevents]
      refine List.forall_mem_cons.mpr ⟨?_, List.forall_mem_singleton.mpr (.inr hsz)⟩
      exact .inr (Nat.le_trans (by decide) hsz)

/-- An image of one chunk of one block, without its data. -/
def oneChunk (blkSz totalBlks type totalSz : Nat) : List UInt8 :=
  leBytes 4 SPARSE_HEADER_MAGIC ++ leBytes 2 1 ++ leBytes 2 0 ++ leBytes 2 28 ++ leBytes 2 12 ++
    leBytes 4 blkSz ++ leBytes 4 totalBlks ++ leBytes 4 1 ++ leBytes 4 0 ++
      leBytes 2 type ++ leBytes 2 0 ++ leBytes 4 1 ++ leBytes 4 totalSz

/-- The data of a RAW chunk are read behind an image that ends with the header of the chunk,
and a FILL chunk of blocks of no bytes is divided by zero. -/
theorem truncated_image :
    (¬∀ e ∈ (writeSparseImageEvents ⟨64, 16, 512⟩ (Ptr.ofList (oneChunk 512 1 CHUNK_TYPE_RAW 524))
      willing).1, e.Safe ⟨64, 16, 512⟩ 40) ∧
    ¬∀ e ∈ (writeSparseImageEvents ⟨64, 16, 512⟩
      (Ptr.ofList (oneChunk 0 1 CHUNK_TYPE_FILL 16 ++ [0, 0, 0, 0])) willing).1,
        e.Safe ⟨64, 16, 512⟩ 44 := by
  constructor
  · intro hsafe
    have hread := hsafe (.read 40 512) (by decide)
    exact absurd hread (by simp [Event.Safe])
  · intro hsafe
    exact hsafe (.divide 0) (by decide) rfl

end

end UBoot.Sparse
