import UBoot.Lmb.Operations

/-!
# `lmb_free` in the middle of a region

A hole in a region is made in two steps: the region is cut short, and what
follows the hole is added as a region of its own. A full table refuses the
second step, unless that block touches another region; the first step is not
taken back.
-/

namespace UBoot.Lmb

/-- An error leaves the count and all regions as they were. -/
def KeepsOnError (rgn : LmbRegion) (base size : Nat) : Prop :=
  ∀ ret rgn', lmbFree rgn base size = some (ret, rgn') → ret < 0 →
    rgn'.cnt = rgn.cnt ∧ ∀ j < rgn.cnt, rgn'.region j = rgn.region j

/-- `lmb_add_region` finds no region to extend and no free entry. -/
def Refused (rgn : LmbRegion) (base size : Nat) : Prop :=
  rgn.cnt ≥ MAX_LMB_REGIONS ∧ ∀ j < rgn.cnt, rgn.region j ≠ ⟨base, size⟩ ∧
    lmbAddrsAdjacent base size (rgn.region j).base (rgn.region j).size = 0

/-- The range leaves something on both sides of the region found for it, the
region really gets shorter, and what follows the range is refused. -/
def SplitRefused (rgn : LmbRegion) (base size : Nat) : Prop :=
  ∃ i, findRegion base (add32 base size) rgn.region rgn.cnt 0 = some i ∧
    (rgn.region i).base ≠ base ∧
    add32 (rgn.region i).base (rgn.region i).size ≠ add32 base size ∧
    base ≠ (rgn.region i).base + (rgn.region i).size ∧
    Refused (rgn.set i ⟨(rgn.region i).base, base - (rgn.region i).base⟩) (add32 base size)
      (sub32 (add32 (rgn.region i).base (rgn.region i).size) (add32 base size))

/-! ## What is refused -/

theorem coalesceLoop_apart_iff (base size : Nat) (region : Nat → LmbProperty) :
    ∀ fuel i, coalesceLoop base size region fuel i = .apart ↔
      ∀ j, i ≤ j → j < i + fuel → region j ≠ ⟨base, size⟩ ∧
        lmbAddrsAdjacent base size (region j).base (region j).size = 0 := by
  intro fuel
  induction fuel with
  | zero =>
    intro i
    exact iff_of_true rfl fun j hij hj => by omega
  | succ fuel ih =>
    intro i
    have hself : region i = ⟨base, size⟩ ↔ (region i).base = base ∧ (region i).size = size := by
      cases region i
      simp
    by_cases hsame : (region i).base = base ∧ (region i).size = size
    · refine iff_of_false (by simp [coalesceLoop, hsame]) fun h => ?_
      exact (h i (Nat.le_refl i) (by omega)).1 (hself.mpr hsame)
    · by_cases hadj : lmbAddrsAdjacent base size (region i).base (region i).size = 0
      · have hnext : coalesceLoop base size region (fuel + 1) i =
            coalesceLoop base size region fuel (i + 1) := by
          simp [coalesceLoop, hsame, hadj]
        rw [hnext, ih (i + 1)]
        constructor
        · intro h j hij hj
          rcases Nat.eq_or_lt_of_le hij with rfl | hlt
          · exact ⟨fun heq => hsame (hself.mp heq), hadj⟩
          · exact h j hlt (by omega)
        · exact fun h j hij hj => h j (by omega) (by omega)
      · refine iff_of_false ?_ fun h => hadj (h i (Nat.le_refl i) (by omega)).2
        by_cases hpos : lmbAddrsAdjacent base size (region i).base (region i).size > 0
        · simp [coalesceLoop, hsame, hpos]
        · have hneg : lmbAddrsAdjacent base size (region i).base (region i).size < 0 := by
            omega
          simp [coalesceLoop, hsame, hpos, hneg]

theorem lmbAddRegion_error_iff (rgn : LmbRegion) {base size : Nat}
    (hpos : 0 < rgn.cnt) (hmax : rgn.cnt ≤ MAX_LMB_REGIONS) :
    (∃ ret rgn', lmbAddRegion rgn base size = some (ret, rgn') ∧ ret < 0) ↔
      Refused rgn base size := by
  have hscan := coalesceLoop_apart_iff base size rgn.region rgn.cnt 0
  simp only [Nat.zero_le, forall_const, Nat.zero_add] at hscan
  constructor
  · rintro ⟨ret, rgn', hadd, hret⟩
    obtain ⟨-, hfull, happart⟩ := lmbAddRegion_error hadd hret
    exact ⟨hfull, hscan.mp happart⟩
  · rintro ⟨hfull, happart⟩
    refine ⟨-1, rgn, ?_, by decide⟩
    have hone : ¬(rgn.cnt = 1 ∧ (rgn.region 0).size = 0) := by
      simp only [MAX_LMB_REGIONS] at hfull
      omega
    have hnot : ¬rgn.cnt < sub32 rgn.cnt 1 := by
      simp only [MAX_LMB_REGIONS] at hmax
      rw [sub32_of_le hpos (by omega)]
      omega
    rw [lmbAddRegion, if_neg hone, hscan.mpr happart]
    simp only [hnot, false_and, if_false, if_pos hfull]

/-! ## The hole -/

section Hole

variable {rgn : LmbRegion} {base size : Nat}

/-- The region found starts at or below the range. -/
theorem findRegion_some {end_ : Nat} (region : Nat → LmbProperty) :
    ∀ fuel i j, findRegion base end_ region fuel i = some j →
      j < i + fuel ∧ (region j).base ≤ base := by
  intro fuel
  induction fuel with
  | zero => intro i j h; cases h
  | succ fuel ih =>
    intro i j h
    rw [findRegion] at h
    split at h
    next hin =>
      obtain rfl : i = j := Option.some.inj h
      exact ⟨by omega, hin.1⟩
    · obtain ⟨hj, hbase⟩ := ih (i + 1) j h
      exact ⟨by omega, hbase⟩

/-- Only the second step of a hole can fail after the first has been done. -/
theorem lmbFree_error {i : Nat} {ret : Int} {rgn' : LmbRegion} (hbase : base < 4294967296)
    (hfound : findRegion base (add32 base size) rgn.region rgn.cnt 0 = some i)
    (h : lmbFree rgn base size = some (ret, rgn')) (hret : ret < 0) :
    (rgn.region i).base ≠ base ∧
      add32 (rgn.region i).base (rgn.region i).size ≠ add32 base size ∧
      lmbAddRegion (rgn.set i ⟨(rgn.region i).base, base - (rgn.region i).base⟩) (add32 base size)
        (sub32 (add32 (rgn.region i).base (rgn.region i).size) (add32 base size)) =
          some (ret, rgn') := by
  obtain ⟨-, hle⟩ := findRegion_some _ _ _ _ hfound
  simp only [lmbFree, hfound] at h
  split at h
  · simp only [Option.map_eq_some_iff, Prod.mk.injEq] at h
    obtain ⟨-, -, h, -⟩ := h
    omega
  · split at h
    · simp only [Option.some.injEq, Prod.mk.injEq] at h
      omega
    next hfront =>
      split at h
      · simp only [Option.some.injEq, Prod.mk.injEq] at h
        omega
      next hback =>
        rw [sub32_of_le hle hbase] at h
        exact ⟨hfront, hback, h⟩

theorem lmbFree_hole {i : Nat} (hbase : base < 4294967296)
    (hfound : findRegion base (add32 base size) rgn.region rgn.cnt 0 = some i)
    (hfront : (rgn.region i).base ≠ base)
    (hback : add32 (rgn.region i).base (rgn.region i).size ≠ add32 base size) :
    lmbFree rgn base size =
      lmbAddRegion (rgn.set i ⟨(rgn.region i).base, base - (rgn.region i).base⟩) (add32 base size)
        (sub32 (add32 (rgn.region i).base (rgn.region i).size) (add32 base size)) := by
  obtain ⟨-, hle⟩ := findRegion_some _ _ _ _ hfound
  simp [lmbFree, hfound, hfront, hback, sub32_of_le hle hbase]

end Hole

/-- An error of `lmb_free` leaves the table as it was, except when the region
has been cut short and what follows the hole is refused. -/
theorem lmb_free_keeps_iff (rgn : LmbRegion) (hmax : rgn.cnt ≤ MAX_LMB_REGIONS) (base size : Nat)
    (hbase : base < 4294967296) :
    KeepsOnError rgn base size ↔ ¬SplitRefused rgn base size := by
  constructor
  · rintro hkeeps ⟨i, hfound, hfront, hback, hshort, hrefused⟩
    obtain ⟨hi, hle⟩ := findRegion_some _ _ _ _ hfound
    obtain ⟨ret, rgn', hadd, hret⟩ :=
      (lmbAddRegion_error_iff (rgn.set i _) (by simp only [LmbRegion.set]; omega) hmax).mpr hrefused
    obtain ⟨rfl, -, -⟩ := lmbAddRegion_error hadd hret
    obtain ⟨-, hregions⟩ :=
      hkeeps ret _ ((lmbFree_hole hbase hfound hfront hback).trans hadd) hret
    have hsame := congrArg LmbProperty.size (hregions i (by omega))
    simp only [LmbRegion.set, Function.update_self] at hsame
    omega
  · intro hsplit ret rgn' hfree hret
    cases hfound : findRegion base (add32 base size) rgn.region rgn.cnt 0 with
    | none =>
      simp only [lmbFree, hfound, Option.some.injEq, Prod.mk.injEq] at hfree
      obtain ⟨-, rfl⟩ := hfree
      exact ⟨rfl, fun _ _ => rfl⟩
    | some i =>
      obtain ⟨hi, hle⟩ := findRegion_some _ _ _ _ hfound
      obtain ⟨hfront, hback, hadd⟩ := lmbFree_error hbase hfound hfree hret
      obtain ⟨rfl, -, -⟩ := lmbAddRegion_error hadd hret
      refine ⟨rfl, fun j _ => ?_⟩
      by_cases hj : j = i
      · subst hj
        -- The region has not been cut short, or the split would be refused.
        have hshort : base = (rgn.region j).base + (rgn.region j).size := by
          by_contra hshort
          exact hsplit ⟨j, hfound, hfront, hback, hshort,
            (lmbAddRegion_error_iff (rgn.set j _) (by simp only [LmbRegion.set]; omega) hmax).mp ⟨ret, _, hadd, hret⟩⟩
        simp only [LmbRegion.set, Function.update_self]
        rw [hshort, Nat.add_sub_cancel_left]
      · exact Function.update_of_ne hj _ _

/-- Eight regions of 0x200 bytes, 0x1000 apart. -/
def fullTable : LmbRegion where
  cnt := 8
  region := fun i => ⟨0x1000 * (i + 1), 0x200⟩

/-- The front of a region can be freed in a full table, and what belongs to no
region is refused as a whole. -/
theorem lmb_free_keeps_front :
    KeepsOnError fullTable 0x3000 0x100 ∧ KeepsOnError fullTable 0x3300 0x100 := by
  constructor
  · apply (lmb_free_keeps_iff fullTable (by decide) 0x3000 0x100 (by decide)).mpr
    rintro ⟨i, hfound, hfront, -⟩
    have hi : findRegion 0x3000 (add32 0x3000 0x100) fullTable.region fullTable.cnt 0 = some 2 := by
      decide
    obtain rfl : i = 2 := Option.some.inj (hfound.symm.trans hi)
    exact hfront rfl
  · apply (lmb_free_keeps_iff fullTable (by decide) 0x3300 0x100 (by decide)).mpr
    rintro ⟨i, hfound, -⟩
    have hnone : findRegion 0x3300 (add32 0x3300 0x100) fullTable.region fullTable.cnt 0 = none := by
      decide
    simp [hnone] at hfound

/-- 0x80 bytes in the middle of the third of eight regions: the call fails, and
the end of that region is no longer reserved. -/
theorem lmb_free_loses_tail :
    ¬∀ (rgn : LmbRegion) (L : List LmbProperty), Table rgn L → Good L →
      L.length ≤ MAX_LMB_REGIONS → ∀ base size, base < 4294967296 → size < 4294967296 →
        KeepsOnError rgn base size := by
  intro h
  have hkeeps := h fullTable ((List.range 8).map fullTable.region)
    ⟨rfl, fun i x hx => by
      obtain ⟨hi, rfl⟩ := List.getElem?_eq_some_iff.mp hx
      simp⟩
    ⟨by decide, by decide, by decide⟩ (by decide) 0x3080 0x80 (by decide) (by decide)
  have hfree : (lmbFree fullTable 0x3080 0x80).map
      (fun result => (result.1, (result.2.region 2).size)) = some (-1, 0x80) := by
    decide
  obtain ⟨⟨ret, rgn'⟩, hsome, hresult⟩ := Option.map_eq_some_iff.mp hfree
  simp only [Prod.mk.injEq] at hresult
  obtain ⟨-, hregions⟩ := hkeeps ret rgn' hsome (by omega)
  have := congrArg LmbProperty.size (hregions 2 (by decide))
  rw [hresult.2] at this
  exact absurd this (by decide)

end UBoot.Lmb
