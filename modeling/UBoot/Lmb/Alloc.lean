import Mathlib.Data.Nat.Bitwise
import Mathlib.Order.Bounds.Basic
import UBoot.Lmb.Operations
import UBoot.Lmb.Reserved

/-!
# Allocation from the top of the memory

`__lmb_alloc_base` goes through the memory regions from the last one down. In
each it starts at the highest aligned address and jumps below the first
reserved region in its way. The search is specified by the greatest address
that is free; recording the block in the reserved table is `lmb_add_region`.
-/

namespace UBoot.Lmb

/-- `struct lmb` -/
structure LmbTables where
  memory : LmbRegion
  reserved : LmbRegion

def LMB_ALLOC_ANYWHERE : Nat := 0

/-- `lmb_addrs_overlap` -/
def lmbAddrsOverlap (base1 size1 base2 size2 : Nat) : Bool :=
  base1 < add32 base2 size2 && base2 < add32 base1 size1

/-- The loop of `lmb_overlaps_region`, with `fuel` iterations left at `i`. -/
def overlapsLoop (base size : Nat) (region : Nat → LmbProperty) : Nat → Nat → Option Nat
  | 0, _ => none
  | fuel + 1, i =>
    if lmbAddrsOverlap base size (region i).base (region i).size then some i
    else overlapsLoop base size region fuel (i + 1)

/-- `lmb_overlaps_region`: the first region in the way; `none` is the -1. -/
def lmbOverlapsRegion (rgn : LmbRegion) (base size : Nat) : Option Nat :=
  overlapsLoop base size rgn.region rgn.cnt 0

/-- `lmb_align_down`; the complement is the one of a 32-bit word. -/
def lmbAlignDown (addr size : Nat) : Nat :=
  addr &&& (4294967295 - sub32 size 1)

/-- `lmb_align_up` -/
def lmbAlignUp (addr size : Nat) : Nat :=
  add32 addr (sub32 size 1) &&& (4294967295 - sub32 size 1)

/-- Where the search starts in one memory region, if it looks there at all. -/
def startBase (lmbbase lmbsize size align maxAddr : Nat) : Option Nat :=
  if lmbsize < size then none
  else if maxAddr = LMB_ALLOC_ANYWHERE then
    some (lmbAlignDown (sub32 (add32 lmbbase lmbsize) size) align)
  else if lmbbase < maxAddr then
    let base := add32 lmbbase lmbsize
    let base := if base < lmbbase then 4294967295 else base
    let base := min base maxAddr
    some (lmbAlignDown (sub32 base size) align)
  else none

/-- The `while` loop of `__lmb_alloc_base`. The address falls in every round,
so `base + 1` rounds are enough. -/
def findBase (reserved : LmbRegion) (lmbbase size align : Nat) : Nat → Nat → Option Nat
  | 0, _ => none
  | fuel + 1, base =>
    if base ≠ 0 ∧ lmbbase ≤ base then
      match lmbOverlapsRegion reserved base size with
      | none => some base
      | some j =>
        let resBase := (reserved.region j).base
        if resBase < size then none
        else findBase reserved lmbbase size align fuel (lmbAlignDown (sub32 resBase size) align)
    else none

/-- The `for` loop of `__lmb_alloc_base`, from entry `n - 1` down. -/
def searchLoop (lmb : LmbTables) (size align maxAddr : Nat) : Nat → Option Nat
  | 0 => none
  | i + 1 =>
    let lmbbase := (lmb.memory.region i).base
    let lmbsize := (lmb.memory.region i).size
    match startBase lmbbase lmbsize size align maxAddr with
    | none => searchLoop lmb size align maxAddr i
    | some base =>
      match findBase lmb.reserved lmbbase size align (base + 1) base with
      | none => searchLoop lmb size align maxAddr i
      | some base => some base

/-- `lmb_alloc_base`, the address it returns and the tables it leaves. -/
def lmbAllocBase (lmb : LmbTables) (size align maxAddr : Nat) : Option (Nat × LmbTables) :=
  match searchLoop lmb size align maxAddr lmb.memory.cnt with
  | none => some (0, lmb)
  | some base =>
    (lmbAddRegion lmb.reserved base (lmbAlignUp size align)).map fun (ret, reserved) =>
      (if ret < 0 then 0 else base, { lmb with reserved := reserved })

/-- `lmb_alloc` -/
def lmbAlloc (lmb : LmbTables) (size align : Nat) : Option (Nat × LmbTables) :=
  lmbAllocBase lmb size align LMB_ALLOC_ANYWHERE

/-- The entries of a table below `cnt`. -/
def LmbRegion.entries (rgn : LmbRegion) : List LmbProperty :=
  (List.range rgn.cnt).map rgn.region

/-- No region of the table wraps around the end of the address space. -/
def Fits (rgn : LmbRegion) : Prop :=
  ∀ x ∈ rgn.entries, x.base + x.size < 4294967296

theorem mem_entries {rgn : LmbRegion} {x : LmbProperty} :
    x ∈ rgn.entries ↔ ∃ i < rgn.cnt, rgn.region i = x := by
  simp [LmbRegion.entries]

/-! ## Alignment -/

theorem sub_one_two_pow {k : Nat} (hk : k < 32) : sub32 (2 ^ k) 1 = 2 ^ k - 1 := by
  have hlt : 2 ^ k < 4294967296 := Nat.pow_lt_pow_right (by omega) hk
  exact sub32_of_le Nat.one_le_two_pow hlt

theorem lmbAlignDown_eq {addr k : Nat} (hk : k < 32) (haddr : addr < 4294967296) :
    lmbAlignDown addr (2 ^ k) = 2 ^ k * (addr / 2 ^ k) := by
  have hlt : 2 ^ k < 2 ^ 32 := Nat.pow_lt_pow_right (by omega) hk
  have hpos : 0 < 2 ^ k := Nat.two_pow_pos k
  have hmask : 4294967295 - (2 ^ k - 1) = 2 ^ 32 - (2 ^ k - 1 + 1) := by omega
  rw [lmbAlignDown, sub_one_two_pow hk, hmask]
  apply Nat.eq_of_testBit_eq
  intro i
  rw [Nat.testBit_and, Nat.testBit_two_pow_sub_succ (by omega), Nat.testBit_two_pow_sub_one,
    Nat.testBit_two_pow_mul, Nat.testBit_div_two_pow]
  by_cases hi : i < 32
  · by_cases hki : k ≤ i
    · simp [hi, hki]
    · simp [hki, Nat.lt_of_not_le hki]
  · have hbit : addr.testBit i = false :=
      Nat.testBit_lt_two_pow (haddr.trans_le (Nat.pow_le_pow_right (n := 2) (by omega)
        (Nat.le_of_not_lt hi)))
    simp only [hbit, Bool.false_and]
    by_cases hki : k ≤ i
    · simp [Nat.sub_add_cancel hki, hbit]
    · simp [hki]

/-- Aligning down gives the greatest multiple that is not above the address. -/
theorem le_alignDown {addr k b : Nat} (hk : k < 32) (haddr : addr < 4294967296)
    (hb : 2 ^ k ∣ b) : b ≤ lmbAlignDown addr (2 ^ k) ↔ b ≤ addr := by
  rw [lmbAlignDown_eq hk haddr]
  obtain ⟨c, rfl⟩ := hb
  rw [Nat.mul_le_mul_left_iff (Nat.two_pow_pos k), Nat.le_div_iff_mul_le (Nat.two_pow_pos k),
    Nat.mul_comm]

theorem alignDown_dvd {addr k : Nat} (hk : k < 32) (haddr : addr < 4294967296) :
    2 ^ k ∣ lmbAlignDown addr (2 ^ k) := by
  rw [lmbAlignDown_eq hk haddr]
  exact Nat.dvd_mul_right _ _

theorem alignDown_le {addr k : Nat} (hk : k < 32) (haddr : addr < 4294967296) :
    lmbAlignDown addr (2 ^ k) ≤ addr :=
  (le_alignDown hk haddr (alignDown_dvd hk haddr)).mp (Nat.le_refl _)

/-! ## The search in one memory region -/

theorem overlaps_iff {base size : Nat} {x : LmbProperty} (hblock : base + size < 4294967296)
    (hx : x.base + x.size < 4294967296) :
    lmbAddrsOverlap base size x.base x.size = true ↔
      base < x.base + x.size ∧ x.base < base + size := by
  simp [lmbAddrsOverlap, add32_of_lt hblock, add32_of_lt hx]

theorem overlapsLoop_cases (base size : Nat) (region : Nat → LmbProperty) :
    ∀ fuel i, (overlapsLoop base size region fuel i = none ∧ ∀ j, i ≤ j → j < i + fuel →
        lmbAddrsOverlap base size (region j).base (region j).size = false) ∨
      ∃ j, i ≤ j ∧ j < i + fuel ∧ overlapsLoop base size region fuel i = some j ∧
        lmbAddrsOverlap base size (region j).base (region j).size = true := by
  intro fuel
  induction fuel with
  | zero => intro i; exact Or.inl ⟨rfl, by intros; omega⟩
  | succ fuel ih =>
    intro i
    by_cases hover : lmbAddrsOverlap base size (region i).base (region i).size = true
    · exact Or.inr ⟨i, by omega, by omega, by simp [overlapsLoop, hover], hover⟩
    · have hnext : overlapsLoop base size region (fuel + 1) i =
          overlapsLoop base size region fuel (i + 1) := by
        simp [overlapsLoop, hover]
      rw [hnext]
      rcases ih (i + 1) with ⟨hnone, hall⟩ | ⟨j, hij, hj, hsome, htrue⟩
      · refine Or.inl ⟨hnone, fun j hij hj => ?_⟩
        rcases Nat.eq_or_lt_of_le hij with rfl | hlt
        · simpa using hover
        · exact hall j hlt (by omega)
      · exact Or.inr ⟨j, by omega, by omega, hsome, htrue⟩

/-- A block that does not wrap is either free, or some region is in its way. -/
theorem lmbOverlapsRegion_cases {rgn : LmbRegion} {base size : Nat} (hfits : Fits rgn)
    (hblock : base + size < 4294967296) :
    (lmbOverlapsRegion rgn base size = none ∧ Free rgn.entries base size) ∨
      ∃ j x, lmbOverlapsRegion rgn base size = some j ∧ rgn.region j = x ∧ x ∈ rgn.entries ∧
        base < x.base + x.size ∧ x.base < base + size := by
  rcases overlapsLoop_cases base size rgn.region rgn.cnt 0 with
    ⟨hnone, hall⟩ | ⟨j, -, hj, hsome, htrue⟩
  · refine Or.inl ⟨hnone, fun x hx => ?_⟩
    obtain ⟨i, hi, rfl⟩ := mem_entries.mp hx
    have hfalse := hall i (Nat.zero_le _) (by omega)
    have hnot := (overlaps_iff hblock (hfits _ hx)).not.mp (by simp [hfalse])
    omega
  · have hmem : rgn.region j ∈ rgn.entries := mem_entries.mpr ⟨j, by omega, rfl⟩
    exact Or.inr ⟨j, _, hsome, rfl, hmem, (overlaps_iff hblock (hfits _ hmem)).mp htrue⟩

/-- A non-zero aligned address, not below the region, whose block is free. -/
structure Candidate (reserved : LmbRegion) (lmbbase size align b : Nat) : Prop where
  ne_zero : b ≠ 0
  aligned : align ∣ b
  above : lmbbase ≤ b
  free : Free reserved.entries b size

section Search

variable {reserved : LmbRegion} {size k : Nat}

/-- The loop ends at the greatest candidate that is not above its start. No
candidate is skipped: one between two rounds would meet the region in the way. -/
theorem findBase_spec (lmbbase : Nat) (hfits : Fits reserved) (hsize : 0 < size) (hk : k < 32) :
    ∀ fuel base, base < fuel → base + size < 4294967296 → 2 ^ k ∣ base →
      (findBase reserved lmbbase size (2 ^ k) fuel base = none ∧
          ∀ b ≤ base, ¬Candidate reserved lmbbase size (2 ^ k) b) ∨
        ∃ b, findBase reserved lmbbase size (2 ^ k) fuel base = some b ∧
          IsGreatest {b | b ≤ base ∧ Candidate reserved lmbbase size (2 ^ k) b} b := by
  intro fuel
  induction fuel with
  | zero => intro base h; omega
  | succ fuel ih =>
    intro base hfuel hblock haligned
    by_cases hcond : base ≠ 0 ∧ lmbbase ≤ base
    · rcases lmbOverlapsRegion_cases hfits hblock with
        ⟨hnone, hfree⟩ | ⟨j, x, hsome, hj, hx, hlow, hhigh⟩
      · refine Or.inr ⟨base, by simp [findBase, hcond, hnone],
          ⟨Nat.le_refl _, hcond.1, haligned, hcond.2, hfree⟩, fun b hb => hb.1⟩
      · -- A candidate below `base` ends before the region in the way.
        have hbelow : ∀ b ≤ base, Candidate reserved lmbbase size (2 ^ k) b →
            b + size ≤ x.base := by
          intro b hb hc
          have := hc.free x hx
          omega
        have hxfit := hfits x hx
        by_cases hres : x.base < size
        · refine Or.inl ⟨by simp [findBase, hcond, hsome, hj, hres], fun b hb hc => ?_⟩
          have := hbelow b hb hc
          omega
        · have hsub : sub32 x.base size = x.base - size := sub32_of_le (by omega) (by omega)
          have hlt : x.base - size < 4294967296 := by omega
          have hle := alignDown_le hk hlt
          have hnext : findBase reserved lmbbase size (2 ^ k) (fuel + 1) base =
              findBase reserved lmbbase size (2 ^ k) fuel
                (lmbAlignDown (x.base - size) (2 ^ k)) := by
            simp [findBase, hcond, hsome, hj, hres, hsub]
          have hiff : ∀ b, Candidate reserved lmbbase size (2 ^ k) b →
              b ≤ base → b ≤ lmbAlignDown (x.base - size) (2 ^ k) := by
            intro b hc hb
            have := hbelow b hb hc
            exact (le_alignDown hk hlt hc.aligned).mpr (by omega)
          rw [hnext]
          rcases ih _ (by omega) (by omega) (alignDown_dvd hk hlt) with
            ⟨hnone, hall⟩ | ⟨b, hfound, ⟨hb, hc⟩, hmax⟩
          · exact Or.inl ⟨hnone, fun b hb hc => hall b (hiff b hc hb) hc⟩
          · refine Or.inr ⟨b, hfound, ⟨by omega, hc⟩, fun c hc' => ?_⟩
            exact hmax ⟨hiff c hc'.2 hc'.1, hc'.2⟩
    · refine Or.inl ⟨by simp only [findBase, if_neg hcond], fun b hb hc => ?_⟩
      have := hc.ne_zero
      have := hc.above
      omega

end Search

/-! ## Recording the block -/

/-- `lmb_add_region` takes the block. -/
def Records (rgn : LmbRegion) (base size : Nat) : Prop :=
  ∃ ret rgn', lmbAddRegion rgn base size = some (ret, rgn') ∧ 0 ≤ ret

theorem lmbCoalesceRegions_some {rgn : LmbRegion} (hpos : 0 < rgn.cnt)
    (hmax : rgn.cnt ≤ MAX_LMB_REGIONS) (r1 r2 : Nat) :
    ∃ rgn', lmbCoalesceRegions rgn r1 r2 = some rgn' := by
  have hmax' : rgn.cnt ≤ 8 := hmax
  have hcnt : sub32 rgn.cnt 1 = rgn.cnt - 1 := sub32_of_le hpos (by omega)
  have hbound : rgn.cnt - 1 ≤ MAX_LMB_REGIONS := by omega
  obtain ⟨region', hr, -⟩ := removeLoop_spec (rgn.cnt - 1) hbound (MAX_LMB_REGIONS + 2) r2
    (rgn.set r1 ⟨(rgn.region r1).base,
      add32 (rgn.region r1).size (rgn.region r2).size⟩).region (by omega)
  simp only [LmbRegion.set] at hr
  refine ⟨⟨rgn.cnt - 1, region'⟩, ?_⟩
  simp [lmbCoalesceRegions, lmbRemoveRegion, LmbRegion.set, hcnt, hr]

/-- A table with a free entry takes every block, unless it has been emptied and
its first two stale entries touch each other. -/
theorem records_of_room {rgn : LmbRegion} (hmax : rgn.cnt < MAX_LMB_REGIONS)
    (h : rgn.cnt ≠ 0 ∨ lmbRegionsAdjacent rgn.region 0 1 = 0) (base size : Nat) :
    Records rgn base size := by
  have hroom : ¬rgn.cnt ≥ MAX_LMB_REGIONS := Nat.not_le_of_lt hmax
  unfold Records lmbAddRegion
  split
  · exact ⟨0, _, rfl, by decide⟩
  · split
    · exact ⟨0, _, rfl, by decide⟩
    next i region hscan =>
      have hpos : 0 < rgn.cnt := by
        apply Nat.pos_of_ne_zero
        intro h0
        simp [h0, coalesceLoop] at hscan
      obtain ⟨rgn', hrgn'⟩ := @lmbCoalesceRegions_some { rgn with region := region }
        hpos (Nat.le_of_lt hmax) i (i + 1)
      dsimp only
      split
      · exact ⟨2, rgn', by rw [hrgn']; rfl, by decide⟩
      · exact ⟨1, _, rfl, by decide⟩
    · have hnot : ¬(rgn.cnt < sub32 rgn.cnt 1 ∧
          lmbRegionsAdjacent rgn.region rgn.cnt (rgn.cnt + 1) ≠ 0) := by
        rintro ⟨hlt, hadj⟩
        rcases h with h | h
        · have hmax' : rgn.cnt < 8 := hmax
          rw [sub32_of_le (by omega) (by omega)] at hlt
          omega
        · by_cases h0 : rgn.cnt = 0
          · rw [h0] at hadj
            exact hadj h
          · have hmax' : rgn.cnt < 8 := hmax
            rw [sub32_of_le (by omega) (by omega)] at hlt
            omega
      rw [if_neg hnot]
      exact ⟨0, _, rfl, by decide⟩

/-- Otherwise the merge of the stale entries runs off the array. -/
theorem lmbAddRegion_emptied {rgn : LmbRegion} (hcnt : rgn.cnt = 0)
    (hadj : lmbRegionsAdjacent rgn.region 0 1 ≠ 0) (base size : Nat) :
    lmbAddRegion rgn base size = none := by
  have hbound : sub32 0 1 = 4294967295 := rfl
  simp [lmbAddRegion, hcnt, coalesceLoop, hbound, hadj, lmbCoalesceRegions, lmbRemoveRegion,
    LmbRegion.set, removeLoop, MAX_LMB_REGIONS]

/-! ## Allocation anywhere -/

/-- The table is the one `lmb_init` sets up, or its regions are sorted,
disjoint, non-empty and do not wrap. -/
def WellFormed (rgn : LmbRegion) : Prop :=
  rgn.entries = [⟨0, 0⟩] ∨ Good rgn.entries

theorem WellFormed.fits {rgn : LmbRegion} (h : WellFormed rgn) : Fits rgn := by
  rcases h with h | h
  · simp [Fits, h]
  · exact h.fits

/-- The block at `b` lies inside one memory region. -/
def Inside (memory : LmbRegion) (size b : Nat) : Prop :=
  ∃ x ∈ memory.entries, x.base ≤ b ∧ b + size ≤ x.base + x.size

/-- A non-zero aligned address whose block lies inside one memory region and
meets no reserved region. -/
structure Suitable (lmb : LmbTables) (size align b : Nat) : Prop where
  ne_zero : b ≠ 0
  aligned : align ∣ b
  inside : Inside lmb.memory size b
  free : Free lmb.reserved.entries b size

/-- Suitable with respect to the memory regions below entry `n`. -/
structure SuitableBelow (lmb : LmbTables) (size align n b : Nat) : Prop where
  ne_zero : b ≠ 0
  aligned : align ∣ b
  inside : ∃ i < n, (lmb.memory.region i).base ≤ b ∧
    b + size ≤ (lmb.memory.region i).base + (lmb.memory.region i).size
  free : Free lmb.reserved.entries b size

theorem suitable_iff {lmb : LmbTables} {size align b : Nat} :
    Suitable lmb size align b ↔ SuitableBelow lmb size align lmb.memory.cnt b := by
  constructor
  · rintro ⟨ne_zero, aligned, ⟨x, hx, hin⟩, free⟩
    obtain ⟨i, hi, rfl⟩ := mem_entries.mp hx
    exact ⟨ne_zero, aligned, ⟨i, hi, hin⟩, free⟩
  · rintro ⟨ne_zero, aligned, ⟨i, hi, hin⟩, free⟩
    exact ⟨ne_zero, aligned, ⟨_, mem_entries.mpr ⟨i, hi, rfl⟩, hin⟩, free⟩

/-- A memory region ends below the ones behind it. -/
theorem WellFormed.below {rgn : LmbRegion} (h : WellFormed rgn) {i j : Nat} (hij : i < j)
    (hj : j < rgn.cnt) :
    (rgn.region i).base + (rgn.region i).size ≤ (rgn.region j).base := by
  rcases h with h | h
  · have hlen := congrArg List.length h
    simp only [LmbRegion.entries, List.length_map, List.length_range, List.length_cons,
      List.length_nil] at hlen
    omega
  · have hlen : rgn.entries.length = rgn.cnt := by simp [LmbRegion.entries]
    have := List.pairwise_iff_getElem.mp h.sorted i j (by omega) (by omega) hij
    simpa [LmbRegion.entries] using this

section Loop

variable {lmb : LmbTables} {size align maxAddr n : Nat}

theorem searchLoop_unlooked (h : startBase (lmb.memory.region n).base (lmb.memory.region n).size
      size align maxAddr = none) :
    searchLoop lmb size align maxAddr (n + 1) = searchLoop lmb size align maxAddr n := by
  simp only [searchLoop, h]

theorem searchLoop_unfound {base : Nat}
    (h : startBase (lmb.memory.region n).base (lmb.memory.region n).size size align maxAddr =
      some base)
    (hnone : findBase lmb.reserved (lmb.memory.region n).base size align (base + 1) base = none) :
    searchLoop lmb size align maxAddr (n + 1) = searchLoop lmb size align maxAddr n := by
  simp only [searchLoop, h, hnone]

theorem searchLoop_found {base b : Nat}
    (h : startBase (lmb.memory.region n).base (lmb.memory.region n).size size align maxAddr =
      some base)
    (hsome : findBase lmb.reserved (lmb.memory.region n).base size align (base + 1) base =
      some b) :
    searchLoop lmb size align maxAddr (n + 1) = some b := by
  simp only [searchLoop, h, hsome]

end Loop

/-- The search over the memory regions ends at the greatest suitable address. -/
theorem searchLoop_anywhere {lmb : LmbTables} {size k : Nat} (hmem : WellFormed lmb.memory)
    (hfits : Fits lmb.reserved) (hsize : 0 < size) (hk : k < 32) :
    ∀ n ≤ lmb.memory.cnt,
      (searchLoop lmb size (2 ^ k) LMB_ALLOC_ANYWHERE n = none ∧
          ∀ b, ¬SuitableBelow lmb size (2 ^ k) n b) ∨
        ∃ b, searchLoop lmb size (2 ^ k) LMB_ALLOC_ANYWHERE n = some b ∧
          IsGreatest {b | SuitableBelow lmb size (2 ^ k) n b} b := by
  intro n
  induction n with
  | zero =>
    intro _
    refine Or.inl ⟨rfl, fun b hb => ?_⟩
    obtain ⟨i, hi, -⟩ := hb.inside
    omega
  | succ n ih =>
    intro hn
    have hfit : (lmb.memory.region n).base + (lmb.memory.region n).size < 4294967296 :=
      hmem.fits _ (mem_entries.mpr ⟨n, by omega, rfl⟩)
    set lmbbase := (lmb.memory.region n).base
    set lmbsize := (lmb.memory.region n).size
    -- A suitable address is one of the lower regions, or a candidate here.
    have hsplit : ∀ b, SuitableBelow lmb size (2 ^ k) (n + 1) b ↔
        SuitableBelow lmb size (2 ^ k) n b ∨
          (Candidate lmb.reserved lmbbase size (2 ^ k) b ∧ b + size ≤ lmbbase + lmbsize) := by
      intro b
      constructor
      · rintro ⟨ne_zero, aligned, ⟨i, hi, hlow, hhigh⟩, free⟩
        rcases Nat.lt_succ_iff_lt_or_eq.mp hi with hlt | rfl
        · exact Or.inl ⟨ne_zero, aligned, ⟨i, hlt, hlow, hhigh⟩, free⟩
        · exact Or.inr ⟨⟨ne_zero, aligned, hlow, free⟩, hhigh⟩
      · rintro (⟨ne_zero, aligned, ⟨i, hi, hin⟩, free⟩ | ⟨⟨ne_zero, aligned, hlow, free⟩, hhigh⟩)
        · exact ⟨ne_zero, aligned, ⟨i, by omega, hin⟩, free⟩
        · exact ⟨ne_zero, aligned, ⟨n, by omega, hlow, hhigh⟩, free⟩
    have hskip : (∀ b, Candidate lmb.reserved lmbbase size (2 ^ k) b →
          ¬b + size ≤ lmbbase + lmbsize) →
        searchLoop lmb size (2 ^ k) LMB_ALLOC_ANYWHERE (n + 1) =
          searchLoop lmb size (2 ^ k) LMB_ALLOC_ANYWHERE n →
        (searchLoop lmb size (2 ^ k) LMB_ALLOC_ANYWHERE (n + 1) = none ∧
            ∀ b, ¬SuitableBelow lmb size (2 ^ k) (n + 1) b) ∨
          ∃ b, searchLoop lmb size (2 ^ k) LMB_ALLOC_ANYWHERE (n + 1) = some b ∧
            IsGreatest {b | SuitableBelow lmb size (2 ^ k) (n + 1) b} b := by
      intro hno heq
      have hiff : ∀ b, SuitableBelow lmb size (2 ^ k) (n + 1) b ↔
          SuitableBelow lmb size (2 ^ k) n b := by
        intro b
        rw [hsplit b, or_iff_left]
        exact fun hb => hno b hb.1 hb.2
      simp only [heq, hiff]
      exact ih (by omega)
    by_cases hsmall : lmbsize < size
    · apply hskip
      · intro b hc
        have := hc.above
        omega
      · exact searchLoop_unlooked (by rw [startBase, if_pos hsmall])
    · have hadd : add32 lmbbase lmbsize = lmbbase + lmbsize := add32_of_lt hfit
      have hsub : sub32 (lmbbase + lmbsize) size = lmbbase + lmbsize - size :=
        sub32_of_le (by omega) hfit
      have hlt : lmbbase + lmbsize - size < 4294967296 := by omega
      set base := lmbAlignDown (lmbbase + lmbsize - size) (2 ^ k) with hbase
      have hle : base ≤ lmbbase + lmbsize - size := alignDown_le hk hlt
      have hstart : startBase lmbbase lmbsize size (2 ^ k) LMB_ALLOC_ANYWHERE = some base := by
        simp [startBase, hsmall, hadd, hsub, hbase]
      have hin : ∀ b, Candidate lmb.reserved lmbbase size (2 ^ k) b →
          (b + size ≤ lmbbase + lmbsize ↔ b ≤ base) := by
        intro b hc
        rw [hbase, le_alignDown hk hlt hc.aligned]
        omega
      rcases findBase_spec lmbbase hfits hsize hk (base + 1) base (by omega) (by omega)
        (alignDown_dvd hk hlt) with ⟨hnone, hall⟩ | ⟨b, hfound, ⟨hb, hc⟩, hgreatest⟩
      · apply hskip
        · intro b hc hb
          exact hall b ((hin b hc).mp hb) hc
        · exact searchLoop_unfound hstart hnone
      · refine Or.inr ⟨b, searchLoop_found hstart hfound, ?_, ?_⟩
        · exact (hsplit b).mpr (Or.inr ⟨hc, (hin b hc).mpr hb⟩)
        · intro c hcs
          rcases (hsplit c).mp hcs with hlower | ⟨hcc, hcb⟩
          · obtain ⟨i, hi, -, hend⟩ := hlower.inside
            have := hmem.below hi (by omega)
            have := hc.above
            omega
          · exact hgreatest ⟨(hin c hcc).mp hcb, hcc⟩

/-- The allocation returns the greatest suitable address, and 0 exactly when
there is none. -/
def AllocatesGreatest (lmb : LmbTables) (size align : Nat) : Prop :=
  ∃ b lmb', lmbAlloc lmb size align = some (b, lmb') ∧
    (b ≠ 0 → IsGreatest {b | Suitable lmb size align b} b) ∧
    (b = 0 ↔ ∀ c, ¬Suitable lmb size align c)

/-- What `lmb_alloc_base` returns, from what the search found. -/
theorem lmbAllocBase_of_records {lmb : LmbTables} {size align maxAddr b : Nat}
    (hfound : searchLoop lmb size align maxAddr lmb.memory.cnt = some b)
    (hrec : Records lmb.reserved b (lmbAlignUp size align)) :
    ∃ lmb', lmbAllocBase lmb size align maxAddr = some (b, lmb') := by
  obtain ⟨ret, reserved, hadd, hret⟩ := hrec
  refine ⟨{ lmb with reserved := reserved }, ?_⟩
  simp [lmbAllocBase, hfound, hadd, Int.not_lt.mpr hret]

/-- The allocation keeps its promise, except on a reserved table that has been
emptied and whose first two stale entries touch each other. -/
theorem lmb_alloc_greatest_iff (lmb : LmbTables) (hmem : WellFormed lmb.memory)
    (hres : WellFormed lmb.reserved) (hcnt : lmb.reserved.cnt < MAX_LMB_REGIONS)
    (size k : Nat) (hsize : 0 < size) (hk : k < 32) :
    AllocatesGreatest lmb size (2 ^ k) ↔
      lmb.reserved.cnt ≠ 0 ∨ lmbRegionsAdjacent lmb.reserved.region 0 1 = 0 ∨
        ∀ b, ¬Suitable lmb size (2 ^ k) b := by
  have hsearch := searchLoop_anywhere hmem hres.fits hsize hk lmb.memory.cnt (Nat.le_refl _)
  simp only [← suitable_iff] at hsearch
  rcases hsearch with ⟨hnone, hall⟩ | ⟨b, hfound, hgreatest⟩
  · refine iff_of_true ⟨0, lmb, ?_, fun h => absurd rfl h, iff_of_true rfl hall⟩
      (Or.inr (Or.inr hall))
    simp [lmbAlloc, lmbAllocBase, hnone]
  · by_cases hroom : lmb.reserved.cnt ≠ 0 ∨ lmbRegionsAdjacent lmb.reserved.region 0 1 = 0
    · obtain ⟨lmb', halloc⟩ := lmbAllocBase_of_records hfound
        (records_of_room hcnt hroom b (lmbAlignUp size (2 ^ k)))
      have hb : b ≠ 0 := hgreatest.1.ne_zero
      refine iff_of_true ⟨b, lmb', halloc, fun _ => hgreatest, iff_of_false hb ?_⟩ ?_
      · exact fun hall => hall b hgreatest.1
      · rw [← or_assoc]
        exact Or.inl hroom
    · simp only [not_or, not_not] at hroom
      have hnone : lmbAlloc lmb size (2 ^ k) = none := by
        simp [lmbAlloc, lmbAllocBase, hfound, lmbAddRegion_emptied hroom.1 hroom.2]
      refine iff_of_false ?_ ?_
      · rintro ⟨c, lmb', hsome, -⟩
        simp [hnone] at hsome
      · rintro (h | h | h)
        exacts [h hroom.1, hroom.2 h, h b hgreatest.1]

/-- One memory region of 256 MiB with its upper half reserved. -/
def halfReserved : LmbTables where
  memory := ⟨1, fun _ => ⟨0x10000000, 0x10000000⟩⟩
  reserved := ⟨1, fun _ => ⟨0x18000000, 0x8000000⟩⟩

theorem halfReserved_wellFormed :
    WellFormed halfReserved.memory ∧ WellFormed halfReserved.reserved :=
  ⟨Or.inr ⟨by simp [halfReserved, LmbRegion.entries], by decide, by decide⟩,
    Or.inr ⟨by simp [halfReserved, LmbRegion.entries], by decide, by decide⟩⟩

/-- The allocation from half reserved memory returns the greatest address. -/
theorem lmb_alloc_below_reserved :
    AllocatesGreatest halfReserved 0x1000 (2 ^ 12) ∧
      (lmbAlloc halfReserved 0x1000 (2 ^ 12)).map Prod.fst = some 0x17FFF000 :=
  ⟨(lmb_alloc_greatest_iff halfReserved halfReserved_wellFormed.1 halfReserved_wellFormed.2
    (by decide) 0x1000 12 (by decide) (by decide)).mpr (Or.inl (by decide)), by decide⟩

/-- Reservations and frees that empty the table and leave two stale entries
that touch each other. -/
def emptyingCalls : List Call :=
  [.reserve 0x1000 0x1000, .reserve 0x3000 0x1000, .free 0x1000 0x1000,
    .reserve 0x4000 0x1000, .free 0x3000 0x1000, .free 0x4000 0x1000]

/-- The tables after `emptyingCalls`: memory is free, nothing is reserved. -/
def emptiedTables : LmbTables where
  memory := ⟨1, fun _ => ⟨0, 0x10000⟩⟩
  reserved := ((Verification.run History.step History.start emptyingCalls).table).getD lmbInit

/-- All of 64 KiB is free again after a few reservations, but the allocation
runs off the reserved table. -/
theorem lmb_alloc_runs_off_emptied :
    ¬∀ (lmb : LmbTables), WellFormed lmb.memory → WellFormed lmb.reserved →
      lmb.reserved.cnt < MAX_LMB_REGIONS → ∀ size k, 0 < size → k < 32 →
        AllocatesGreatest lmb size (2 ^ k) := by
  intro h
  have hmem : WellFormed emptiedTables.memory :=
    Or.inr ⟨by simp [emptiedTables, LmbRegion.entries], by decide, by decide⟩
  have hcnt : emptiedTables.reserved.cnt = 0 := by decide
  have hres : WellFormed emptiedTables.reserved :=
    Or.inr (by simpa [LmbRegion.entries, hcnt] using Good.nil)
  have hnone : lmbAlloc emptiedTables 0x1000 (2 ^ 12) = none := by
    have hfound : searchLoop emptiedTables 0x1000 (2 ^ 12) LMB_ALLOC_ANYWHERE
        emptiedTables.memory.cnt = some 0xF000 := by decide
    have hadj : lmbRegionsAdjacent emptiedTables.reserved.region 0 1 ≠ 0 := by decide
    rw [lmbAlloc, lmbAllocBase, hfound]
    simp only [lmbAddRegion_emptied hcnt hadj, Option.map_none]
  obtain ⟨b, lmb', halloc, -⟩ := h emptiedTables hmem hres (by rw [hcnt]; decide) 0x1000 12
    (by decide) (by decide)
  rw [hnone] at halloc
  cases halloc

end UBoot.Lmb
