import UBoot.Lmb.Alloc

/-!
# The two membership tests

`lmb_is_reserved` compares an address with the last one of a region, while
`lmb_overlaps_region` compares it with the first one behind. Both are computed
modulo `2 ^ 32`, so they part where the end of a region is 0: for the dummy
region of `lmb_init`, and for a region up to the end of the address space.
-/

namespace UBoot.Lmb

open Verification

/-- The test `lmb_is_reserved` makes for one region. -/
def regionHolds (region : LmbProperty) (addr : Nat) : Bool :=
  let upper := sub32 (add32 region.base region.size) 1
  addr ≥ region.base && addr ≤ upper

/-- The loop of `lmb_is_reserved`, with `fuel` iterations left at `i`. -/
def isReservedLoop (addr : Nat) (region : Nat → LmbProperty) : Nat → Nat → Bool
  | 0, _ => false
  | fuel + 1, i =>
    if regionHolds (region i) addr then true else isReservedLoop addr region fuel (i + 1)

/-- `lmb_is_reserved` on the reserved table. -/
def lmbIsReserved (reserved : LmbRegion) (addr : Nat) : Bool :=
  isReservedLoop addr reserved.region reserved.cnt 0

/-- The two tests give the same answer for one address. -/
def TestsAgree (reserved : LmbRegion) (a : Nat) : Prop :=
  lmbIsReserved reserved a = true ↔ (lmbOverlapsRegion reserved a 1).isSome = true

/-- A region that starts at or below `a` and whose end is 0 modulo `2 ^ 32`
comes with one that holds `a` and has an end above it. -/
def EndsAbove (reserved : LmbRegion) (a : Nat) : Prop :=
  ∀ x ∈ reserved.entries, x.base ≤ a → add32 x.base x.size = 0 →
    ∃ y ∈ reserved.entries, y.base ≤ a ∧ a < add32 y.base y.size

/-- `lmb_reserve` on a table that is still there. -/
def reserveStep (table : Option LmbRegion) (block : LmbProperty) : Option LmbRegion :=
  table.bind fun rgn => (lmbReserve rgn block.base block.size).map Prod.snd

/-- The block has a length, ends before the address space does and is free. -/
def Placed (table : Option LmbRegion) (block : LmbProperty) : Prop :=
  0 < block.size ∧ block.base + block.size < 4294967296 ∧
    ∀ rgn, table = some rgn → Free rgn.regions block.base block.size

/-! ## One table -/

theorem isReservedLoop_iff (addr : Nat) (region : Nat → LmbProperty) :
    ∀ fuel i, isReservedLoop addr region fuel i = true ↔
      ∃ j, i ≤ j ∧ j < i + fuel ∧ regionHolds (region j) addr = true := by
  intro fuel
  induction fuel with
  | zero =>
    intro i
    refine iff_of_false (by simp [isReservedLoop]) ?_
    rintro ⟨j, hij, hj, -⟩
    omega
  | succ fuel ih =>
    intro i
    by_cases hi : regionHolds (region i) addr = true
    · exact iff_of_true (by simp [isReservedLoop, hi]) ⟨i, Nat.le_refl i, by omega, hi⟩
    · have hnext : isReservedLoop addr region (fuel + 1) i =
          isReservedLoop addr region fuel (i + 1) := by
        simp [isReservedLoop, hi]
      rw [hnext, ih (i + 1)]
      constructor
      · rintro ⟨j, hij, hj, hholds⟩
        exact ⟨j, by omega, by omega, hholds⟩
      · rintro ⟨j, hij, hj, hholds⟩
        have hne : i ≠ j := by
          rintro rfl
          exact hi hholds
        exact ⟨j, by omega, by omega, hholds⟩

section Table

variable {reserved : LmbRegion} {a : Nat}

theorem lmbIsReserved_iff : lmbIsReserved reserved a = true ↔
    ∃ x ∈ reserved.entries, regionHolds x a = true := by
  rw [lmbIsReserved, isReservedLoop_iff]
  constructor
  · rintro ⟨j, -, hj, hholds⟩
    exact ⟨_, mem_entries.mpr ⟨j, by omega, rfl⟩, hholds⟩
  · rintro ⟨x, hx, hholds⟩
    obtain ⟨j, hj, rfl⟩ := mem_entries.mp hx
    exact ⟨j, Nat.zero_le j, by omega, hholds⟩

theorem lmbOverlapsRegion_isSome {base size : Nat} :
    (lmbOverlapsRegion reserved base size).isSome = true ↔
      ∃ x ∈ reserved.entries, lmbAddrsOverlap base size x.base x.size = true := by
  rw [lmbOverlapsRegion]
  rcases overlapsLoop_cases base size reserved.region reserved.cnt 0 with
    ⟨hnone, hall⟩ | ⟨j, -, hj, hsome, htrue⟩
  · refine iff_of_false (by simp [hnone]) ?_
    rintro ⟨x, hx, hover⟩
    obtain ⟨j, hj, rfl⟩ := mem_entries.mp hx
    simp [hall j (Nat.zero_le j) (by omega)] at hover
  · exact iff_of_true (by simp [hsome]) ⟨_, mem_entries.mpr ⟨j, by omega, rfl⟩, htrue⟩

/-- One address overlaps a region when it lies below the end of the region. -/
theorem overlap_one_iff (ha : a < 4294967296) (x : LmbProperty) :
    lmbAddrsOverlap a 1 x.base x.size = true ↔ x.base ≤ a ∧ a < add32 x.base x.size := by
  have hend : add32 x.base x.size < 4294967296 := Nat.mod_lt _ (by decide)
  rw [lmbAddrsOverlap, Bool.and_eq_true, decide_eq_true_eq, decide_eq_true_eq]
  by_cases hlast : a + 1 < 4294967296
  · rw [add32_of_lt hlast]
    omega
  · omega

/-- The other test also holds from the start of a region whose end is 0 on. -/
theorem regionHolds_iff (ha : a < 4294967296) (x : LmbProperty) :
    regionHolds x a = true ↔
      x.base ≤ a ∧ (a < add32 x.base x.size ∨ add32 x.base x.size = 0) := by
  have hend : add32 x.base x.size < 4294967296 := Nat.mod_lt _ (by decide)
  rw [regionHolds, Bool.and_eq_true, decide_eq_true_eq, decide_eq_true_eq]
  unfold sub32
  omega

theorem testsAgree_iff (ha : a < 4294967296) : TestsAgree reserved a ↔ EndsAbove reserved a := by
  simp only [TestsAgree, lmbIsReserved_iff, lmbOverlapsRegion_isSome, overlap_one_iff ha,
    regionHolds_iff ha]
  constructor
  · exact fun h x hx hbase hend => h.mp ⟨x, hx, hbase, Or.inr hend⟩
  · intro h
    constructor
    · rintro ⟨x, hx, hbase, hlt | hend⟩
      · exact ⟨x, hx, hbase, hlt⟩
      · exact h x hx hbase hend
    · rintro ⟨x, hx, hbase, hlt⟩
      exact ⟨x, hx, hbase, Or.inl hlt⟩

end Table

/-! ## Runs of `lmb_reserve` -/

/-- The table holds regions, and they are sorted, disjoint and do not wrap. -/
def Filled (table : Option LmbRegion) : Prop :=
  ∃ rgn L, table = some rgn ∧ Table rgn L ∧ Good L ∧ L ≠ [] ∧ L.length ≤ MAX_LMB_REGIONS

theorem Filled.testsAgree {table : Option LmbRegion} (h : Filled table) :
    ∃ rgn, table = some rgn ∧ ∀ a < 4294967296, TestsAgree rgn a := by
  obtain ⟨rgn, L, htable, ht, hg, -, -⟩ := h
  refine ⟨rgn, htable, fun a ha => (testsAgree_iff ha).mpr fun x hx _ hend => ?_⟩
  obtain ⟨i, hi, rfl⟩ := mem_entries.mp hx
  rw [ht.cnt] at hi
  have hentry := ht.entry i _ (List.getElem?_eq_getElem hi)
  have hmem : L[i] ∈ L := List.getElem_mem hi
  have hfit := hg.fits _ hmem
  have hpos := hg.pos _ hmem
  rw [hentry, add32_of_lt hfit] at hend
  omega

theorem filled_first {block : LmbProperty} (h : Placed (some lmbInit) block) :
    Filled (reserveStep (some lmbInit) block) := by
  obtain ⟨hsize, hend, -⟩ := h
  refine ⟨lmbInit.set 0 block, [block], rfl, ⟨rfl, ?_⟩, ?_, by simp, by simp [MAX_LMB_REGIONS]⟩
  · intro i x hx
    cases i with
    | zero => simpa [LmbRegion.set] using hx
    | succ i => simp at hx
  · exact ⟨by simp, by simpa using hsize, by simpa using hend⟩

/-- A free block keeps a filled table filled. -/
theorem filled_step {table : Option LmbRegion} {block : LmbProperty} (h : Filled table)
    (hplaced : Placed table block) : Filled (reserveStep table block) := by
  obtain ⟨rgn, L, rfl, ht, hg, hne, hmax⟩ := h
  obtain ⟨hsize, hend, hfree⟩ := hplaced
  have hfree : Free L block.base block.size := ht.regions_eq hg ▸ hfree rgn rfl
  obtain ⟨ret, rgn', hadd, hleaves⟩ := lmbAddRegion_spec ht hg hne hmax hfree hsize hend
  have hstep : reserveStep (some rgn) block = some rgn' := by
    simp [reserveStep, lmbReserve, hadd]
  by_cases hret : ret = -1
  · obtain rfl : rgn' = rgn := (lmbAddRegion_error hadd (by omega)).1
    exact ⟨rgn', L, hstep, ht, hg, hne, hmax⟩
  · obtain ⟨L', ht', hg', hmax', hcov⟩ := hleaves hret
    refine ⟨rgn', L', hstep, ht', hg', ?_, hmax'⟩
    rintro rfl
    exact absurd ((hcov block.base).mpr (Or.inr ⟨Nat.le_refl _, by omega⟩)) (covers_nil _)

/-- The tests agree on an address exactly when no region whose end is 0 speaks
for it alone. Along every run whose blocks are free, have a length and end
before the address space does, they agree on every address from the first block
on. -/
theorem lmb_is_reserved_agrees_iff (block : LmbProperty) (blocks : List LmbProperty)
    (hplaced : Guarded reserveStep Placed (some lmbInit) (block :: blocks)) :
    (∀ reserved a, a < 4294967296 → (TestsAgree reserved a ↔ EndsAbove reserved a)) ∧
      ∃ rgn, run reserveStep (some lmbInit) (block :: blocks) = some rgn ∧
        ∀ a < 4294967296, TestsAgree rgn a := by
  refine ⟨fun _ _ ha => testsAgree_iff ha, ?_⟩
  obtain ⟨hfirst, hrest⟩ := hplaced
  have hfilled : Filled (run reserveStep (some lmbInit) (block :: blocks)) :=
    hrest.invariant (I := Filled) (fun _ _ => filled_step) (filled_first hfirst)
  exact hfilled.testsAgree

/-- Two blocks that touch. -/
theorem lmb_is_reserved_agrees_touching :
    ∃ rgn, run reserveStep (some lmbInit) [⟨0x1000, 0x100⟩, ⟨0x1100, 0x100⟩] = some rgn ∧
      ∀ a < 4294967296, TestsAgree rgn a := by
  refine (lmb_is_reserved_agrees_iff _ _ ?_).2
  refine ⟨⟨by decide, by decide, ?_⟩, ⟨by decide, by decide, ?_⟩, trivial⟩
  · rintro rgn ⟨⟩
    simp [Free, LmbRegion.regions, lmbInit]
  · rintro rgn ⟨⟩
    simp [Free, LmbRegion.regions, lmbInit, LmbRegion.set]

/-- Nothing has been reserved yet, but every address counts as reserved for one
of the tests; so does the last page, once reserved, for that test only. -/
theorem lmb_is_reserved_disagrees :
    ¬∀ blocks : List LmbProperty, (∀ x ∈ blocks, x.base + x.size ≤ 4294967296) →
      ∀ rgn, run reserveStep (some lmbInit) blocks = some rgn →
        ∀ a < 4294967296, TestsAgree rgn a := by
  intro h
  have hagree := h [] (by simp) lmbInit rfl 0x1000 (by decide)
  exact absurd (hagree.mp (by decide)) (by decide)

end UBoot.Lmb
