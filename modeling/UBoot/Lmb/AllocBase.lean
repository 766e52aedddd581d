import UBoot.Lmb.Alloc

/-!
# Allocation below a given address

With a `max_addr`, the search starts at `min(end, max_addr) - size`. The source
tests `res_base < size` before it subtracts from a reserved region, but not
here: a `max_addr` below `size` makes the search start near the end of the
address space. `WrappedChoice` is the address it then comes to.
-/

namespace UBoot.Lmb

/-- A returned address keeps the block below `maxAddr` and inside one memory
region. -/
def StaysBelow (lmb : LmbTables) (size align maxAddr : Nat) : Prop :=
  ∀ b lmb', lmbAllocBase lmb size align maxAddr = some (b, lmb') → b ≠ 0 →
    b + size ≤ maxAddr ∧ Inside lmb.memory size b

/-- Where the search starts when `max_addr - size` wraps. -/
def wrappedStart (size align maxAddr : Nat) : Nat :=
  lmbAlignDown (sub32 maxAddr size) align

/-- The search looks at memory regions that could hold the block and that start
below `maxAddr`. -/
def Eligible (size maxAddr : Nat) (x : LmbProperty) : Prop :=
  size ≤ x.size ∧ x.base < maxAddr

/-- A non-zero aligned address that is not above the start of the search, whose
block is free; the block at the start itself is free for the source when
`lmb_overlaps_region` finds nothing, its end taken modulo `2 ^ 32`. -/
structure WrappedFree (reserved : LmbRegion) (size align start b : Nat) : Prop where
  le_start : b ≤ start
  ne_zero : b ≠ 0
  aligned : align ∣ b
  free : Free reserved.entries b size ∨
    (b = start ∧ lmbOverlapsRegion reserved start size = none)

/-- The greatest such address, when the memory region looked at starts below. -/
def WrappedChoice (lmb : LmbTables) (size align maxAddr b : Nat) : Prop :=
  IsGreatest {b | WrappedFree lmb.reserved size align (wrappedStart size align maxAddr) b} b ∧
    ∃ x ∈ lmb.memory.entries, Eligible size maxAddr x ∧ x.base ≤ b

section

variable {lmb : LmbTables} {reserved : LmbRegion} {size k maxAddr lmbbase lmbsize : Nat}

/-- A non-zero address is returned with the tables that took the block there. -/
theorem lmbAllocBase_eq_some {align b : Nat} (hb : b ≠ 0) {lmb' : LmbTables} :
    lmbAllocBase lmb size align maxAddr = some (b, lmb') ↔
      searchLoop lmb size align maxAddr lmb.memory.cnt = some b ∧
        ∃ ret rgn, lmbAddRegion lmb.reserved b (lmbAlignUp size align) = some (ret, rgn) ∧
          0 ≤ ret ∧ lmb' = { lmb with reserved := rgn } := by
  constructor
  · intro h
    unfold lmbAllocBase at h
    cases hsearch : searchLoop lmb size align maxAddr lmb.memory.cnt with
    | none =>
      simp only [hsearch, Option.some.injEq, Prod.mk.injEq] at h
      exact absurd h.1.symm hb
    | some base =>
      simp only [hsearch, Option.map_eq_some_iff, Prod.mk.injEq, Prod.exists] at h
      obtain ⟨ret, rgn, hadd, hret, htables⟩ := h
      by_cases hneg : ret < 0
      · rw [if_pos hneg] at hret
        exact absurd hret.symm hb
      · rw [if_neg hneg] at hret
        subst hret
        exact ⟨rfl, ret, rgn, hadd, Int.not_lt.mp hneg, htables.symm⟩
  · rintro ⟨hfound, ret, rgn, hadd, hret, rfl⟩
    simp [lmbAllocBase, hfound, hadd, Int.not_lt.mpr hret]

/-- A non-zero address is returned when the search found it and the table took
the block. -/
theorem lmbAllocBase_returns {align b : Nat} (hb : b ≠ 0) :
    (∃ lmb', lmbAllocBase lmb size align maxAddr = some (b, lmb')) ↔
      searchLoop lmb size align maxAddr lmb.memory.cnt = some b ∧
        Records lmb.reserved b (lmbAlignUp size align) := by
  simp only [lmbAllocBase_eq_some hb, Records]
  constructor
  · rintro ⟨lmb', hfound, ret, rgn, hadd, hret, -⟩
    exact ⟨hfound, ret, rgn, hadd, hret⟩
  · rintro ⟨hfound, ret, rgn, hadd, hret⟩
    exact ⟨_, hfound, ret, rgn, hadd, hret, rfl⟩

/-! ## Without a wrap -/

theorem startBase_below (hfit : lmbbase + lmbsize < 4294967296) (hmax : 0 < maxAddr)
    (hle : size ≤ maxAddr) (hmaxlt : maxAddr < 4294967296) {base : Nat}
    (h : startBase lmbbase lmbsize size (2 ^ k) maxAddr = some base) :
    base = lmbAlignDown (min (lmbbase + lmbsize) maxAddr - size) (2 ^ k) ∧
      size ≤ min (lmbbase + lmbsize) maxAddr := by
  have hany : maxAddr ≠ LMB_ALLOC_ANYWHERE := Nat.ne_of_gt hmax
  unfold startBase at h
  by_cases hsmall : lmbsize < size
  · simp [hsmall] at h
  · have hmin : size ≤ min (lmbbase + lmbsize) maxAddr := by omega
    by_cases hbelow : lmbbase < maxAddr
    · rw [if_neg hsmall, if_neg hany, if_pos hbelow, add32_of_lt hfit] at h
      dsimp only at h
      rw [if_neg (by omega), sub32_of_le hmin (by omega)] at h
      exact ⟨(Option.some.inj h).symm, hmin⟩
    · simp [hsmall, hany, hbelow] at h

theorem searchLoop_below (hmem : Fits lmb.memory) (hfits : Fits lmb.reserved) (hsize : 0 < size)
    (hk : k < 32) (hmax : 0 < maxAddr) (hle : size ≤ maxAddr) (hmaxlt : maxAddr < 4294967296)
    {b : Nat} : ∀ n ≤ lmb.memory.cnt, searchLoop lmb size (2 ^ k) maxAddr n = some b →
      b + size ≤ maxAddr ∧ Inside lmb.memory size b := by
  intro n
  induction n with
  | zero => intro _ h; cases h
  | succ n ih =>
    intro hn h
    have hx : lmb.memory.region n ∈ lmb.memory.entries := mem_entries.mpr ⟨n, hn, rfl⟩
    have hfit := hmem _ hx
    cases hstart : startBase (lmb.memory.region n).base (lmb.memory.region n).size size (2 ^ k)
      maxAddr with
    | none =>
      rw [searchLoop_unlooked hstart] at h
      exact ih (by omega) h
    | some base =>
      obtain ⟨hbase, hmin⟩ := startBase_below hfit hmax hle hmaxlt hstart
      have hlt : min ((lmb.memory.region n).base + (lmb.memory.region n).size) maxAddr - size <
          4294967296 := by omega
      have hbasele : base ≤ min ((lmb.memory.region n).base + (lmb.memory.region n).size)
          maxAddr - size := hbase ▸ alignDown_le hk hlt
      rcases findBase_spec (lmb.memory.region n).base hfits hsize hk (base + 1)
        base (by omega) (by omega) (hbase ▸ alignDown_dvd hk hlt) with
        ⟨hnone, -⟩ | ⟨c, hfound, ⟨hc, hcand⟩, -⟩
      · rw [searchLoop_unfound hstart hnone] at h
        exact ih (by omega) h
      · rw [searchLoop_found hstart hfound, Option.some.injEq] at h
        subst h
        exact ⟨by omega, _, hx, hcand.above, by omega⟩

/-! ## With a wrap -/

theorem sub32_lt (a b : Nat) : sub32 a b < 4294967296 :=
  Nat.mod_lt _ (by decide)

theorem wrappedStart_dvd (hk : k < 32) : 2 ^ k ∣ wrappedStart size (2 ^ k) maxAddr :=
  alignDown_dvd hk (sub32_lt _ _)

theorem wrappedStart_end (hk : k < 32) (h : maxAddr < size) (hsize : size < 4294967296) :
    wrappedStart size (2 ^ k) maxAddr + size ≤ maxAddr + 4294967296 := by
  have hle : wrappedStart size (2 ^ k) maxAddr ≤ sub32 maxAddr size :=
    alignDown_le hk (sub32_lt _ _)
  have hsub : sub32 maxAddr size + size = maxAddr + 4294967296 := by
    unfold sub32
    omega
  calc wrappedStart size (2 ^ k) maxAddr + size ≤ sub32 maxAddr size + size :=
        Nat.add_le_add_right hle size
    _ = maxAddr + 4294967296 := hsub

theorem startBase_wrapped (hfit : lmbbase + lmbsize < 4294967296) (hmax : 0 < maxAddr)
    (hlt : maxAddr < size) :
    startBase lmbbase lmbsize size (2 ^ k) maxAddr =
      if size ≤ lmbsize ∧ lmbbase < maxAddr then some (wrappedStart size (2 ^ k) maxAddr)
      else none := by
  have hany : maxAddr ≠ LMB_ALLOC_ANYWHERE := Nat.ne_of_gt hmax
  unfold startBase
  by_cases hsmall : lmbsize < size
  · rw [if_pos hsmall, if_neg (by omega)]
  · rw [if_neg hsmall, if_neg hany]
    by_cases hbelow : lmbbase < maxAddr
    · rw [if_pos hbelow, if_pos ⟨by omega, hbelow⟩, add32_of_lt hfit]
      dsimp only
      rw [if_neg (by omega), Nat.min_eq_right (by omega), wrappedStart]
    · rw [if_neg hbelow, if_neg (by omega)]

/-- A region in the way of the block at a start whose end wraps begins below
`size`, so that the loop gives up, and it is in the way of every lower block. -/
theorem overlap_wrapped {start : Nat} (hfits : Fits reserved)
    (hwrap : 4294967296 ≤ start + size) (hend : start + size ≤ maxAddr + 4294967296)
    (hlt : maxAddr < size) :
    lmbOverlapsRegion reserved start size = none ∨
      ∃ j x, lmbOverlapsRegion reserved start size = some j ∧ reserved.region j = x ∧
        x ∈ reserved.entries ∧ x.base < size ∧ start < x.base + x.size := by
  rcases overlapsLoop_cases start size reserved.region reserved.cnt 0 with
    ⟨hnone, -⟩ | ⟨j, -, hj, hsome, htrue⟩
  · exact Or.inl hnone
  · have hmem : reserved.region j ∈ reserved.entries := mem_entries.mpr ⟨j, by omega, rfl⟩
    have hx := hfits _ hmem
    refine Or.inr ⟨j, _, hsome, rfl, hmem, ?_⟩
    simp only [lmbAddrsOverlap, add32_of_lt hx, Bool.and_eq_true, decide_eq_true_eq] at htrue
    unfold add32 at htrue
    omega

/-- The loop from a wrapped start, in a region that starts at `lmbbase`. -/
theorem findBase_wrapped {start : Nat} (lmbbase : Nat) (hfits : Fits reserved) (hk : k < 32)
    (hdvd : 2 ^ k ∣ start) (hend : start + size ≤ maxAddr + 4294967296) (hlt : maxAddr < size) :
    (findBase reserved lmbbase size (2 ^ k) (start + 1) start = none ∧
        ∀ b, WrappedFree reserved size (2 ^ k) start b → ¬lmbbase ≤ b) ∨
      ∃ b, findBase reserved lmbbase size (2 ^ k) (start + 1) start = some b ∧ lmbbase ≤ b ∧
        IsGreatest {b | WrappedFree reserved size (2 ^ k) start b} b := by
  by_cases hwrap : start + size < 4294967296
  · -- The block at the start does not wrap: this is the ordinary search.
    have hiff : ∀ b, WrappedFree reserved size (2 ^ k) start b ∧ lmbbase ≤ b ↔
        b ≤ start ∧ Candidate reserved lmbbase size (2 ^ k) b := by
      intro b
      constructor
      · rintro ⟨⟨hb, ne_zero, aligned, free⟩, habove⟩
        refine ⟨hb, ne_zero, aligned, habove, ?_⟩
        rcases free with free | ⟨rfl, hnone⟩
        · exact free
        · rcases lmbOverlapsRegion_cases hfits hwrap with ⟨-, free⟩ | ⟨j, x, hsome, -⟩
          · exact free
          · simp [hnone] at hsome
      · rintro ⟨hb, hc⟩
        exact ⟨⟨hb, hc.ne_zero, hc.aligned, Or.inl hc.free⟩, hc.above⟩
    rcases findBase_spec lmbbase hfits (by omega) hk (start + 1) start
      (Nat.lt_succ_self _) hwrap hdvd with ⟨hnone, hall⟩ | ⟨b, hfound, hb, hgreatest⟩
    · refine Or.inl ⟨hnone, fun b hfree habove => ?_⟩
      obtain ⟨hb, hc⟩ := (hiff b).mp ⟨hfree, habove⟩
      exact hall b hb hc
    · obtain ⟨hfree, habove⟩ := (hiff b).mpr hb
      refine Or.inr ⟨b, hfound, habove, hfree, fun c hc => ?_⟩
      by_cases hcb : lmbbase ≤ c
      · exact hgreatest ((hiff c).mp ⟨hc, hcb⟩)
      · omega
  · rcases overlap_wrapped hfits (Nat.le_of_not_lt hwrap) hend hlt with
      hnone | ⟨j, x, hsome, hj, hx, hbase, hover⟩
    · by_cases hcond : start ≠ 0 ∧ lmbbase ≤ start
      · refine Or.inr ⟨start, by simp [findBase, hcond, hnone], hcond.2,
          ⟨Nat.le_refl _, hcond.1, hdvd, Or.inr ⟨rfl, hnone⟩⟩, fun c hc => hc.le_start⟩
      · refine Or.inl ⟨by simp only [findBase, if_neg hcond], fun b hfree habove => ?_⟩
        have := hfree.ne_zero
        have := hfree.le_start
        omega
    · refine Or.inl ⟨?_, fun b hfree _ => ?_⟩
      · simp [findBase, hsome, hj, hbase]
      · have hle := hfree.le_start
        rcases hfree.free with free | ⟨rfl, hnone⟩
        · have := free x hx
          omega
        · simp [hnone] at hsome

/-- The search over the memory regions, when `max_addr - size` wraps. -/
theorem searchLoop_wrapped (hmem : Fits lmb.memory) (hfits : Fits lmb.reserved) (hk : k < 32)
    (hsize : size < 4294967296) (hmax : 0 < maxAddr) (hlt : maxAddr < size) :
    ∀ n ≤ lmb.memory.cnt,
      (searchLoop lmb size (2 ^ k) maxAddr n = none ∧
          ∀ i < n, Eligible size maxAddr (lmb.memory.region i) →
            ∀ b, WrappedFree lmb.reserved size (2 ^ k) (wrappedStart size (2 ^ k) maxAddr) b →
              ¬(lmb.memory.region i).base ≤ b) ∨
        ∃ b, searchLoop lmb size (2 ^ k) maxAddr n = some b ∧
          WrappedChoice lmb size (2 ^ k) maxAddr b := by
  have hdvd : 2 ^ k ∣ wrappedStart size (2 ^ k) maxAddr := wrappedStart_dvd hk
  have hend := wrappedStart_end hk hlt hsize
  intro n
  induction n with
  | zero => intro _; exact Or.inl ⟨rfl, by intros; omega⟩
  | succ n ih =>
    intro hn
    have hx : lmb.memory.region n ∈ lmb.memory.entries := mem_entries.mpr ⟨n, hn, rfl⟩
    have hcases := startBase_wrapped (k := k) (hmem _ hx) hmax hlt
    by_cases helig : Eligible size maxAddr (lmb.memory.region n)
    · have hstart := hcases.trans (if_pos helig)
      rcases findBase_wrapped (lmb.memory.region n).base hfits hk hdvd hend hlt with
        ⟨hnone, hall⟩ | ⟨b, hfound, habove, hgreatest⟩
      · rw [searchLoop_unfound hstart hnone]
        rcases ih (by omega) with ⟨hrest, hlower⟩ | hchoice
        · refine Or.inl ⟨hrest, fun i hi he => ?_⟩
          rcases Nat.lt_succ_iff_lt_or_eq.mp hi with hlt | rfl
          · exact hlower i hlt he
          · exact hall
        · exact Or.inr hchoice
      · refine Or.inr ⟨b, searchLoop_found hstart hfound, hgreatest, _, hx, helig, habove⟩
    · have hstart := hcases.trans (if_neg helig)
      rw [searchLoop_unlooked hstart]
      rcases ih (by omega) with ⟨hrest, hlower⟩ | hchoice
      · refine Or.inl ⟨hrest, fun i hi he => ?_⟩
        rcases Nat.lt_succ_iff_lt_or_eq.mp hi with hlt | rfl
        · exact hlower i hlt he
        · exact absurd he helig
      · exact Or.inr hchoice

end

/-- A returned address keeps the block below `maxAddr` exactly when `size` is
not above `maxAddr`, or there is nothing to choose near the end of the address
space, or the reserved table does not take the block chosen there. -/
theorem lmb_alloc_base_below_iff (lmb : LmbTables) (hmem : Fits lmb.memory)
    (hfits : Fits lmb.reserved) (size k maxAddr : Nat) (hpos : 0 < size)
    (hsize : size < 4294967296) (hk : k < 32) (hmax : 0 < maxAddr)
    (hmaxlt : maxAddr < 4294967296) :
    StaysBelow lmb size (2 ^ k) maxAddr ↔
      size ≤ maxAddr ∨ ∀ b, WrappedChoice lmb size (2 ^ k) maxAddr b →
        ¬Records lmb.reserved b (lmbAlignUp size (2 ^ k)) := by
  by_cases hle : size ≤ maxAddr
  · refine iff_of_true (fun b lmb' hret hb => ?_) (Or.inl hle)
    obtain ⟨hfound, -⟩ := (lmbAllocBase_returns hb).mp ⟨lmb', hret⟩
    exact searchLoop_below hmem hfits hpos hk hmax hle hmaxlt _ (Nat.le_refl _) hfound
  · have hsearch := @searchLoop_wrapped lmb size k maxAddr hmem hfits hk hsize hmax (by omega)
      lmb.memory.cnt (Nat.le_refl _)
    rw [or_iff_right hle]
    constructor
    · intro hstays b hchoice hrec
      have hb : b ≠ 0 := hchoice.1.1.ne_zero
      have hfound : searchLoop lmb size (2 ^ k) maxAddr lmb.memory.cnt = some b := by
        obtain ⟨hgreatest, x, hx, helig, habove⟩ := hchoice
        rcases hsearch with ⟨-, hnone⟩ | ⟨c, hfound, hother⟩
        · obtain ⟨i, hi, rfl⟩ := mem_entries.mp hx
          exact absurd habove (hnone i hi helig b hgreatest.1)
        · rw [hfound, hother.1.unique hgreatest]
      obtain ⟨lmb', hret⟩ := (lmbAllocBase_returns hb).mpr ⟨hfound, hrec⟩
      have := (hstays b lmb' hret hb).1
      omega
    · intro hnot b lmb' hret hb
      obtain ⟨hfound, hrec⟩ := (lmbAllocBase_returns hb).mp ⟨lmb', hret⟩
      rcases hsearch with ⟨hnone, -⟩ | ⟨c, hfound', hchoice⟩
      · simp [hnone] at hfound
      · rw [hfound, Option.some.injEq] at hfound'
        subst hfound'
        exact absurd hrec (hnot b hchoice)

/-- A block of 4 KiB below an address inside the memory region. -/
theorem lmb_alloc_base_below_small :
    StaysBelow halfReserved 0x1000 (2 ^ 12) 0x14000000 ∧
      (lmbAllocBase halfReserved 0x1000 (2 ^ 12) 0x14000000).map Prod.fst = some 0x13FFF000 :=
  ⟨(lmb_alloc_base_below_iff halfReserved halfReserved_wellFormed.1.fits
    halfReserved_wellFormed.2.fits 0x1000 12 0x14000000 (by decide) (by decide) (by decide)
    (by decide) (by decide)).mpr (Or.inl (by decide)), by decide⟩

/-- Memory that starts at address 0, with nothing reserved. -/
def lowMemory : LmbTables where
  memory := ⟨1, fun _ => ⟨0, 0x40000000⟩⟩
  reserved := lmbInit

/-- A block of 8 KiB asked for below 4 KiB is put at the end of the address
space. -/
theorem lmb_alloc_base_wraps :
    ¬∀ (lmb : LmbTables), Fits lmb.memory → Fits lmb.reserved → ∀ size k maxAddr, 0 < size →
      size < 4294967296 → k < 32 → 0 < maxAddr → maxAddr < 4294967296 →
        StaysBelow lmb size (2 ^ k) maxAddr := by
  intro h
  have hmem : Fits lowMemory.memory := by simp [Fits, lowMemory, LmbRegion.entries]
  have hfits : Fits lowMemory.reserved := by simp [Fits, lowMemory, lmbInit, LmbRegion.entries]
  have hret : (lmbAllocBase lowMemory 0x2000 (2 ^ 12) 0x1000).map Prod.fst = some 0xFFFFF000 := by
    decide
  obtain ⟨⟨b, lmb'⟩, hsome, rfl⟩ := Option.map_eq_some_iff.mp hret
  obtain ⟨hbelow, -⟩ := h lowMemory hmem hfits 0x2000 12 0x1000 (by decide)
    (by decide) (by decide) (by decide) (by decide) _ lmb' hsome (by decide)
  exact absurd hbelow (by decide)

end UBoot.Lmb
