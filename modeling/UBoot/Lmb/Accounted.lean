import UBoot.Lmb.AllocBase

/-!
# What an allocation adds to the reserved table

`__lmb_alloc_base` looks for `size` free bytes and then reserves `size` rounded
up to the alignment. The bytes in between were not looked at: a reservation
that starts there ends up twice in the table. `Accountable` says when the
rounded block can be added as it is.
-/

namespace UBoot.Lmb

/-- `size` rounded up to a multiple of `align`. -/
def roundedSize (size align : Nat) : Nat :=
  align * ((size + (align - 1)) / align)

/-- Ranges of the address space, each of which ends before the next begins. -/
structure InOrder (L : List LmbProperty) : Prop where
  sorted : L.Pairwise fun x y => x.base + x.size ≤ y.base
  ends : ∀ x ∈ L, x.base + x.size ≤ 4294967296

/-- The table `after` is in order and holds what `before` holds and the block,
of which nothing was held before. -/
structure AddsBlock (before after : LmbRegion) (base length : Nat) : Prop where
  inOrder : InOrder after.regions
  covers : ∀ a, Covers after.regions a ↔
    Covers before.regions a ∨ (base ≤ a ∧ a < base + length)
  new : ∀ a, base ≤ a → a < base + length → ¬Covers before.regions a

/-- Every successful allocation adds exactly its rounded block. -/
def AccountsExactly (lmb : LmbTables) (size align maxAddr : Nat) : Prop :=
  ∀ b lmb', lmbAllocBase lmb size align maxAddr = some (b, lmb') → b ≠ 0 →
    AddsBlock lmb.reserved lmb'.reserved b (roundedSize size align)

/-- The address the search ends at when it looks into the memory region `x`. -/
def ChosenIn (lmb : LmbTables) (size align maxAddr : Nat) (x : LmbProperty) (b : Nat) : Prop :=
  ∃ start, startBase x.base x.size size align maxAddr = some start ∧ x.base ≤ b ∧
    IsGreatest {b | WrappedFree lmb.reserved size align start b} b

/-- The same over the memory regions below entry `n`: the last one that has
such an address decides. -/
def ChosenBelow (lmb : LmbTables) (size align maxAddr n b : Nat) : Prop :=
  ∃ i < n, ChosenIn lmb size align maxAddr (lmb.memory.region i) b ∧
    ∀ j, i < j → j < n → ∀ c, ¬ChosenIn lmb size align maxAddr (lmb.memory.region j) c

/-- A block that the reserved table can take in: it stays in the address space
and is free as a whole. The addition is decided modulo `2 ^ 32`, so a block up
to the end of the address space touches a region at address 0; and in an
emptied table the stale first entry counts. -/
structure Accountable (reserved : LmbRegion) (base length : Nat) : Prop where
  ends : base + length ≤ 4294967296
  free : Free reserved.regions base length
  low : base + length = 4294967296 → ∀ x ∈ reserved.regions, x.base ≠ 0
  stale : reserved.cnt = 0 →
    base < (reserved.region 0).base ∨ reserved.region 0 = ⟨base, length⟩

/-! ## The rounded size -/

section Rounded

variable {size k : Nat}

theorem le_roundedSize (size k : Nat) : size ≤ roundedSize size (2 ^ k) := by
  have hpos : 0 < 2 ^ k := Nat.two_pow_pos k
  have hdiv := Nat.div_add_mod (size + (2 ^ k - 1)) (2 ^ k)
  have hmod := Nat.mod_lt (size + (2 ^ k - 1)) hpos
  rw [roundedSize]
  omega

/-- `lmb_align_up` rounds up, unless the result leaves the address space. -/
theorem lmbAlignUp_eq (hk : k < 32) (h : roundedSize size (2 ^ k) < 4294967296) :
    lmbAlignUp size (2 ^ k) = roundedSize size (2 ^ k) := by
  have hdvd : 2 ^ k ∣ 4294967296 := pow_dvd_pow 2 (Nat.le_of_lt hk)
  have hpos : 0 < 2 ^ k := Nat.two_pow_pos k
  have hlt : size + (2 ^ k - 1) < 4294967296 := by
    obtain ⟨c, hc⟩ := hdvd
    rw [roundedSize] at h
    have hdiv : (size + (2 ^ k - 1)) / 2 ^ k < c := by
      rw [hc] at h
      exact Nat.lt_of_mul_lt_mul_left h
    rw [hc, Nat.mul_comm]
    exact (Nat.div_lt_iff_lt_mul hpos).mp hdiv
  rw [lmbAlignUp, sub_one_two_pow hk, add32_of_lt hlt]
  have hdown := lmbAlignDown_eq hk hlt
  rw [lmbAlignDown, sub_one_two_pow hk] at hdown
  rw [hdown, roundedSize]

end Rounded

/-! ## The address the search ends at -/

section Chosen

variable {lmb : LmbTables} {size k maxAddr : Nat}

theorem startBase_dvd {lmbbase lmbsize start : Nat} (hk : k < 32)
    (h : startBase lmbbase lmbsize size (2 ^ k) maxAddr = some start) :
    2 ^ k ∣ start ∧ start < 4294967296 := by
  obtain ⟨addr, haddr, rfl⟩ : ∃ addr < 4294967296, start = lmbAlignDown addr (2 ^ k) := by
    unfold startBase at h
    split at h
    · cases h
    · split at h
      · exact ⟨_, sub32_lt _ _, (Option.some.inj h).symm⟩
      · split at h
        · exact ⟨_, sub32_lt _ _, (Option.some.inj h).symm⟩
        · cases h
  exact ⟨alignDown_dvd hk haddr, (alignDown_le hk haddr).trans_lt haddr⟩

/-- The loop over one memory region comes to the chosen address. -/
theorem findBase_chosen {x : LmbProperty} {start : Nat} (hfits : Fits lmb.reserved)
    (hsize : 0 < size) (hk : k < 32)
    (hstart : startBase x.base x.size size (2 ^ k) maxAddr = some start) :
    (findBase lmb.reserved x.base size (2 ^ k) (start + 1) start = none ∧
        ∀ b, ¬ChosenIn lmb size (2 ^ k) maxAddr x b) ∨
      ∃ b, findBase lmb.reserved x.base size (2 ^ k) (start + 1) start = some b ∧
        ChosenIn lmb size (2 ^ k) maxAddr x b := by
  obtain ⟨hdvd, hlt⟩ := startBase_dvd hk hstart
  rcases @findBase_wrapped lmb.reserved size k (size - 1) start x.base hfits hk hdvd (by omega)
    (by omega) with ⟨hnone, hall⟩ | ⟨b, hfound, habove, hgreatest⟩
  · refine Or.inl ⟨hnone, ?_⟩
    rintro b ⟨start', hstart', habove, hgreatest⟩
    obtain rfl : start = start' := Option.some.inj (hstart.symm.trans hstart')
    exact hall b hgreatest.1 habove
  · exact Or.inr ⟨b, hfound, start, hstart, habove, hgreatest⟩

theorem ChosenIn.unique {x : LmbProperty} {b c : Nat}
    (hb : ChosenIn lmb size (2 ^ k) maxAddr x b) (hc : ChosenIn lmb size (2 ^ k) maxAddr x c) :
    b = c := by
  obtain ⟨start, hstart, -, hgreatest⟩ := hb
  obtain ⟨start', hstart', -, hgreatest'⟩ := hc
  obtain rfl : start = start' := Option.some.inj (hstart.symm.trans hstart')
  exact hgreatest.unique hgreatest'

/-- One more memory region, looked at first. -/
theorem chosenBelow_succ (n b : Nat) : ChosenBelow lmb size (2 ^ k) maxAddr (n + 1) b ↔
    ChosenIn lmb size (2 ^ k) maxAddr (lmb.memory.region n) b ∨
      ((∀ c, ¬ChosenIn lmb size (2 ^ k) maxAddr (lmb.memory.region n) c) ∧
        ChosenBelow lmb size (2 ^ k) maxAddr n b) := by
  constructor
  · rintro ⟨i, hi, hin, hlast⟩
    rcases Nat.lt_succ_iff_lt_or_eq.mp hi with hlt | rfl
    · exact Or.inr ⟨hlast n hlt (Nat.lt_succ_self n), i, hlt, hin,
        fun j hij hj => hlast j hij (Nat.lt_succ_of_lt hj)⟩
    · exact Or.inl hin
  · rintro (hin | ⟨hnone, i, hi, hin, hlast⟩)
    · exact ⟨n, Nat.lt_succ_self n, hin, fun j hij hj => by omega⟩
    · refine ⟨i, Nat.lt_succ_of_lt hi, hin, fun j hij hj => ?_⟩
      rcases Nat.lt_succ_iff_lt_or_eq.mp hj with hlt | rfl
      · exact hlast j hij hlt
      · exact hnone

theorem searchLoop_chosen (hfits : Fits lmb.reserved) (hsize : 0 < size) (hk : k < 32) :
    ∀ n b, searchLoop lmb size (2 ^ k) maxAddr n = some b ↔
      ChosenBelow lmb size (2 ^ k) maxAddr n b := by
  intro n
  induction n with
  | zero => simp [searchLoop, ChosenBelow]
  | succ n ih =>
    intro b
    rw [chosenBelow_succ]
    cases hstart : startBase (lmb.memory.region n).base (lmb.memory.region n).size size (2 ^ k)
      maxAddr with
    | none =>
      have hnone : ∀ c, ¬ChosenIn lmb size (2 ^ k) maxAddr (lmb.memory.region n) c := by
        rintro c ⟨start, hsome, -⟩
        simp [hstart] at hsome
      rw [searchLoop_unlooked hstart, ih b, or_iff_right (hnone b), and_iff_right hnone]
    | some start =>
      rcases findBase_chosen hfits hsize hk hstart with
        ⟨hunfound, hnone⟩ | ⟨c, hfound, hin⟩
      · rw [searchLoop_unfound hstart hunfound, ih b, or_iff_right (hnone b),
          and_iff_right hnone]
      · rw [searchLoop_found hstart hfound, Option.some.injEq, or_iff_left]
        · constructor
          · rintro rfl
            exact hin
          · exact fun hb => hin.unique hb
        · exact fun h => h.1 c hin

end Chosen

/-! ## Adding the rounded block -/

/-- The entries below `cnt`, when none of them is the dummy. -/
theorem Table.regions_of_pos {rgn : LmbRegion} {L : List LmbProperty} (ht : Table rgn L)
    (hpos : ∀ x ∈ L, 0 < x.size) : rgn.regions = L := by
  have hdummy : ¬(rgn.cnt = 1 ∧ (rgn.region 0).size = 0) := by
    rintro ⟨hcnt, hzero⟩
    obtain ⟨x, rfl⟩ := List.length_eq_one_iff.mp (ht.cnt.symm.trans hcnt)
    rw [ht.entry 0 x rfl] at hzero
    exact absurd (hpos x (by simp)) (by omega)
  rw [LmbRegion.regions, if_neg hdummy]
  apply List.ext_getElem?
  intro i
  by_cases hi : i < L.length
  · simp [ht.cnt, hi, ht.entry i _ (List.getElem?_eq_getElem hi)]
  · simp [ht.cnt, hi]

theorem Good.inOrder {L : List LmbProperty} (h : Good L) : InOrder L :=
  ⟨h.sorted, fun x hx => Nat.le_of_lt (h.fits x hx)⟩

/-- A table in order whose first region starts above 0 does not hold 0. -/
theorem InOrder.not_covers_zero {rgn : LmbRegion} (h : InOrder rgn.regions)
    (hfirst : 0 < (rgn.region 0).base) : ¬Covers rgn.regions 0 := by
  rintro ⟨x, hx, hbase, -⟩
  by_cases hdummy : rgn.cnt = 1 ∧ (rgn.region 0).size = 0
  · simp [LmbRegion.regions, hdummy] at hx
  · have hregions : rgn.regions = (List.range rgn.cnt).map rgn.region := by
      rw [LmbRegion.regions, if_neg hdummy]
    rw [hregions] at hx
    obtain ⟨i, hi, rfl⟩ := List.mem_iff_getElem.mp hx
    simp only [List.getElem_map, List.getElem_range, List.length_map, List.length_range]
      at hbase hi
    rcases Nat.eq_zero_or_pos i with rfl | hpos
    · omega
    · have hsorted := h.sorted
      rw [hregions] at hsorted
      have := List.pairwise_iff_getElem.mp hsorted 0 i (by simp; omega) (by simpa using hi) hpos
      simp only [List.getElem_map, List.getElem_range] at this
      omega

/-- The scan passes over regions that are neither the block nor touch it. -/
theorem coalesceLoop_pass {base size : Nat} {region : Nat → LmbProperty} (fuel : Nat) :
    ∀ (L : List LmbProperty) (i : Nat), (∀ k x, L[k]? = some x → region (i + k) = x) →
      (∀ x ∈ L, x.base ≠ base ∧ lmbAddrsAdjacent base size x.base x.size = 0) →
      coalesceLoop base size region (L.length + fuel) i =
        coalesceLoop base size region fuel (i + L.length) := by
  intro L
  induction L with
  | nil => intro i _ _; simp
  | cons x L ih =>
    intro i hentry hpass
    have hx : region i = x := hentry 0 x rfl
    obtain ⟨hne, hadj⟩ := hpass x (by simp)
    have hrest : ∀ k y, L[k]? = some y → region (i + 1 + k) = y := by
      intro k y hy
      rw [show i + 1 + k = i + (k + 1) by omega]
      exact hentry (k + 1) y (by simpa using hy)
    have hstep : coalesceLoop base size region ((x :: L).length + fuel) i =
        coalesceLoop base size region (L.length + fuel) (i + 1) := by
      rw [List.length_cons, show L.length + 1 + fuel = (L.length + fuel) + 1 by omega]
      simp [coalesceLoop, hx, hne, hadj]
    rw [hstep, ih (i + 1) hrest fun y hy => hpass y (by simp [hy]), List.length_cons,
      show i + 1 + L.length = i + (L.length + 1) by omega]

section Top

variable {rgn rgn' : LmbRegion} {L : List LmbProperty} {base size : Nat} {ret : Int}

/-- In a block up to the end of the address space, a region below it touches it
only where it ends. -/
theorem adjacent_top {x : LmbProperty} (htop : base + size = 4294967296)
    (hx : x.base + x.size < 4294967296) (hlow : x.base ≠ 0) :
    lmbAddrsAdjacent base size x.base x.size = if x.base + x.size = base then -1 else 0 := by
  have hend : add32 base size = 0 := by rw [add32, htop]
  simp only [lmbAddrsAdjacent, hend, if_neg hlow, add32_of_lt hx, eq_comm]

/-- A free block that ends with the address space lies above every region. -/
theorem Free.above_all (hg : Good L) (hfree : Free L base size)
    (htop : base + size = 4294967296) : ∀ x ∈ L, x.base + x.size ≤ base := by
  intro x hx
  have := hfree x hx
  have := hg.fits x hx
  have := hg.pos x hx
  omega

/-- The last region ends where the block begins, and is enlarged by it. -/
theorem add_top_touching {init : List LmbProperty} {x : LmbProperty}
    (ht : Table rgn (init ++ [x])) (hg : Good (init ++ [x]))
    (hmax : (init ++ [x]).length ≤ MAX_LMB_REGIONS) (hfree : Free (init ++ [x]) base size)
    (htop : base + size = 4294967296) (hlow : ∀ y ∈ init ++ [x], y.base ≠ 0)
    (htouch : x.base + x.size = base) :
    lmbAddRegion rgn base size = some (1, rgn.set init.length ⟨x.base, x.size + size⟩) := by
  have hbelow := hfree.above_all hg htop
  obtain ⟨-, -, hpos, hfit, hbefore, -, -⟩ := Good.middle_iff.mp hg
  have hcnt : rgn.cnt = init.length + 1 := by simpa using ht.cnt
  have hpass : ∀ y ∈ init, y.base ≠ base ∧ lmbAddrsAdjacent base size y.base y.size = 0 := by
    intro y hy
    have hmem : y ∈ init ++ [x] := by simp [hy]
    have := hbefore y hy
    rw [adjacent_top htop (hg.fits y hmem) (hlow y hmem), if_neg (by omega)]
    exact ⟨by omega, rfl⟩
  have hadj : lmbAddrsAdjacent base size x.base x.size = -1 := by
    rw [adjacent_top htop hfit (hlow x (by simp)), if_pos htouch]
  have hscan : coalesceLoop base size rgn.region rgn.cnt 0 = .grown init.length
      (Function.update rgn.region init.length ⟨x.base, x.size + size⟩) := by
    have hxpos := hlow x (by simp)
    rw [hcnt, coalesceLoop_pass 1 init 0 (fun i y hy => ht.entry _ _ (by
      rw [Nat.zero_add, List.getElem?_append_left (List.getElem?_eq_some_iff.mp hy).1, hy])) hpass]
    have hne : x.base ≠ base := by omega
    simp [coalesceLoop, ht.at_middle, hne, hadj, add32_of_lt (show x.size + size < 4294967296 by
      omega)]
  have hlast : ¬init.length < sub32 rgn.cnt 1 := by
    simp only [List.length_append, List.length_cons, List.length_nil, MAX_LMB_REGIONS] at hmax
    rw [hcnt, sub32_of_le (by omega) (by omega)]
    omega
  rw [lmbAddRegion, if_neg (ht.not_dummy hg), hscan]
  simp only [hlast, false_and, if_false, LmbRegion.set]

/-- No region ends where the block begins, and the block becomes the last one. -/
theorem add_top_apart (ht : Table rgn L) (hg : Good L) (hne : L ≠ [])
    (hmax : L.length ≤ MAX_LMB_REGIONS) (hfree : Free L base size)
    (htop : base + size = 4294967296) (hlow : ∀ y ∈ L, y.base ≠ 0)
    (hapart : ∀ y ∈ L, y.base + y.size ≠ base) :
    lmbAddRegion rgn base size =
      if rgn.cnt ≥ MAX_LMB_REGIONS then some (-1, rgn)
      else some (0, ⟨rgn.cnt + 1, Function.update rgn.region rgn.cnt ⟨base, size⟩⟩) := by
  have hbelow := hfree.above_all hg htop
  have hpass : ∀ y ∈ L, y.base ≠ base ∧ lmbAddrsAdjacent base size y.base y.size = 0 := by
    intro y hy
    have := hbelow y hy
    have := hg.pos y hy
    rw [adjacent_top htop (hg.fits y hy) (hlow y hy), if_neg (hapart y hy)]
    exact ⟨by omega, rfl⟩
  have hscan : coalesceLoop base size rgn.region rgn.cnt 0 = .apart := by
    have := coalesceLoop_pass 0 L 0 (by simpa using ht.entry) hpass
    rw [Nat.add_zero, ← ht.cnt] at this
    rw [this, coalesceLoop]
  have hpos : 0 < rgn.cnt := ht.cnt ▸ List.length_pos_iff.mpr hne
  have hat : ∀ i < rgn.cnt, (rgn.region i).base ≤ base := by
    intro i hi
    rw [ht.cnt] at hi
    have hentry := ht.entry i _ (List.getElem?_eq_getElem hi)
    have := hbelow L[i] (List.getElem_mem hi)
    rw [hentry]
    omega
  have hnot : ¬rgn.cnt < sub32 rgn.cnt 1 := by
    rw [ht.cnt] at hpos ⊢
    simp only [MAX_LMB_REGIONS] at hmax
    rw [sub32_of_le (by omega) (by omega)]
    omega
  have hinsert : insertLoop base size rgn.cnt rgn.region =
      Function.update rgn.region rgn.cnt ⟨base, size⟩ := by
    obtain ⟨n, hn⟩ := Nat.exists_eq_add_of_lt hpos
    have := hat n (by omega)
    rw [hn, Nat.zero_add, insertLoop, if_neg (Nat.not_lt.mpr this)]
  have hfront : ¬base < (Function.update rgn.region rgn.cnt (⟨base, size⟩ : LmbProperty) 0).base := by
    have := hat 0 hpos
    rw [Function.update_of_ne (Nat.ne_of_lt hpos)]
    omega
  rw [lmbAddRegion, if_neg (ht.not_dummy hg), hscan]
  simp only [hnot, false_and, if_false, hinsert, hfront]

/-- A free block up to the end of the address space is recorded as it is when
no region starts at address 0. -/
theorem addsBlock_top (ht : Table rgn L) (hg : Good L) (hne : L ≠ [])
    (hmax : L.length ≤ MAX_LMB_REGIONS) (hfree : Free L base size) (hsize : 0 < size)
    (htop : base + size = 4294967296) (hlow : ∀ y ∈ L, y.base ≠ 0)
    (hadd : lmbAddRegion rgn base size = some (ret, rgn')) (hret : 0 ≤ ret) :
    AddsBlock rgn rgn' base size := by
  have hregions : rgn.regions = L := ht.regions_eq hg
  have hbelow := hfree.above_all hg htop
  have hnew : ∀ a, base ≤ a → a < base + size → ¬Covers rgn.regions a := by
    rw [hregions]
    rintro a hlo - ⟨y, hy, -, hya⟩
    have := hbelow y hy
    omega
  suffices h : ∃ L', Table rgn' L' ∧ (∀ x ∈ L', 0 < x.size) ∧ InOrder L' ∧
      ∀ a, Covers L' a ↔ Covers L a ∨ (base ≤ a ∧ a < base + size) by
    obtain ⟨L', ht', hpos, horder, hcov⟩ := h
    have hregions' := ht'.regions_of_pos hpos
    exact ⟨hregions' ▸ horder, by rw [hregions', hregions]; exact hcov, hnew⟩
  by_cases hapart : ∀ y ∈ L, y.base + y.size ≠ base
  · rw [add_top_apart ht hg hne hmax hfree htop hlow hapart] at hadd
    by_cases hfull : rgn.cnt ≥ MAX_LMB_REGIONS
    · rw [if_pos hfull, Option.some.injEq, Prod.mk.injEq] at hadd
      omega
    · rw [if_neg hfull, Option.some.injEq, Prod.mk.injEq] at hadd
      obtain ⟨-, rfl⟩ := hadd
      refine ⟨L ++ [⟨base, size⟩], ⟨by simpa using ht.cnt, ?_⟩, ?_, ⟨?_, ?_⟩, ?_⟩
      · intro i x hx
        rcases Nat.lt_trichotomy i L.length with hlt | rfl | hgt
        · rw [List.getElem?_append_left hlt] at hx
          simpa [ht.cnt, Function.update_of_ne (Nat.ne_of_lt hlt)] using ht.entry i x hx
        · simpa [ht.cnt] using hx
        · rw [List.getElem?_eq_none (by simp; omega)] at hx
          cases hx
      · simp only [List.mem_append, List.mem_singleton]
        rintro x (hx | rfl)
        exacts [hg.pos x hx, hsize]
      · rw [List.pairwise_append]
        exact ⟨hg.sorted, List.pairwise_singleton _ _, by simpa using hbelow⟩
      · simp only [List.mem_append, List.mem_singleton]
        rintro x (hx | rfl)
        exacts [Nat.le_of_lt (hg.fits x hx), Nat.le_of_eq htop]
      · simp
  · -- The region that ends at the block is the last one.
    simp only [not_forall, not_not] at hapart
    obtain ⟨x, hx, htouch⟩ := hapart
    obtain ⟨init, post, rfl⟩ := List.append_of_mem hx
    obtain ⟨hinit, hpost, hpos, -, hbefore, hafter, -⟩ := Good.middle_iff.mp hg
    obtain rfl : post = [] := by
      rw [List.eq_nil_iff_forall_not_mem]
      intro y hy
      have := hafter y hy
      have := hbelow y (by simp [hy])
      have := hpost.pos y hy
      omega
    rw [add_top_touching ht hg hmax hfree htop hlow htouch, Option.some.injEq,
      Prod.mk.injEq] at hadd
    obtain ⟨-, rfl⟩ := hadd
    refine ⟨init ++ [⟨x.base, x.size + size⟩], ht.set_middle, ?_, ⟨?_, ?_⟩, ?_⟩
    · simp only [List.mem_append, List.mem_singleton]
      rintro y (hy | rfl)
      · exact hinit.pos y hy
      · exact Nat.add_pos_left hpos size
    · rw [List.pairwise_append]
      exact ⟨hinit.sorted, List.pairwise_singleton _ _, by simpa using hbefore⟩
    · simp only [List.mem_append, List.mem_singleton]
      rintro y (hy | rfl)
      · exact Nat.le_of_lt (hinit.fits y hy)
      · change x.base + (x.size + size) ≤ 4294967296
        omega
    · intro a
      simp only [covers_append, covers_cons, covers_nil, or_false, or_assoc]
      have : (x.base ≤ a ∧ a < x.base + (x.size + size)) ↔
          (x.base ≤ a ∧ a < x.base + x.size) ∨ (base ≤ a ∧ a < base + size) := by omega
      rw [this]

/-- With a region at address 0 the block is taken for its predecessor: the
region is moved to the end of the address space. -/
theorem not_addsBlock_low (ht : Table rgn L) (hg : Good L) (hmax : L.length ≤ MAX_LMB_REGIONS)
    (hfree : Free L base size) (hbase : 0 < base) (hsize : 0 < size)
    (htop : base + size = 4294967296) {x : LmbProperty} (hx : x ∈ L) (hzero : x.base = 0)
    (hadd : lmbAddRegion rgn base size = some (ret, rgn')) : ¬AddsBlock rgn rgn' base size := by
  intro hadds
  have hxpos := hg.pos x hx
  have hheld : Covers rgn.regions 0 := by
    rw [ht.regions_eq hg]
    exact ⟨x, hx, by omega, by omega⟩
  apply hadds.inOrder.not_covers_zero ?_ ((hadds.covers 0).mpr (Or.inl hheld))
  -- The region at address 0 is the first one.
  obtain ⟨pre, post, rfl⟩ := List.append_of_mem hx
  obtain ⟨hpre, -, -, hfit, hbefore, -, -⟩ := Good.middle_iff.mp hg
  obtain rfl : pre = [] := by
    rw [List.eq_nil_iff_forall_not_mem]
    intro y hy
    have := hbefore y hy
    have := hpre.pos y hy
    omega
  have hfirst : rgn.region 0 = x := ht.entry 0 x rfl
  have hcnt : rgn.cnt = post.length + 1 := by simpa using ht.cnt
  have hend : add32 base size = 0 := by rw [add32, htop]
  have hsub : sub32 0 size = base := by
    unfold sub32
    omega
  have hadj : lmbAddrsAdjacent base size 0 x.size = 1 := by
    simp [lmbAddrsAdjacent, hend]
  have hne : 0 ≠ base := by omega
  have hscan : coalesceLoop base size rgn.region rgn.cnt 0 =
      .grown 0 (Function.update rgn.region 0 ⟨base, add32 x.size size⟩) := by
    rw [hcnt]
    simp [coalesceLoop, hfirst, hne, hadj, hzero, hsub]
  rw [lmbAddRegion, if_neg (ht.not_dummy hg), hscan] at hadd
  dsimp only at hadd
  split at hadd
  · simp only [List.length_append, List.length_cons, List.length_nil, MAX_LMB_REGIONS] at hmax
    obtain ⟨region', hr, hj⟩ := removeLoop_spec (sub32 rgn.cnt 1)
      (by rw [sub32_of_le (by omega) (by omega)]; simp only [MAX_LMB_REGIONS]; omega)
      (MAX_LMB_REGIONS + 2) 1
      (Function.update (Function.update rgn.region 0 ⟨base, add32 x.size size⟩) 0
        ⟨base, add32 (add32 x.size size) (rgn.region 1).size⟩)
      (by rw [sub32_of_le (by omega) (by omega)]; simp only [MAX_LMB_REGIONS]; omega)
    simp only [lmbCoalesceRegions, lmbRemoveRegion, LmbRegion.set, Function.update_self,
      Nat.zero_add, Function.update_of_ne (show (1 : Nat) ≠ 0 by decide), hr,
      Option.bind_eq_bind, Option.bind_some, Option.pure_def, Option.map_some, Option.some.injEq,
      Prod.mk.injEq] at hadd
    obtain ⟨-, rfl⟩ := hadd
    change 0 < (region' 0).base
    rw [hj 0, if_neg (by omega), Function.update_self]
    exact hbase
  · simp only [Option.some.injEq, Prod.mk.injEq] at hadd
    obtain ⟨-, rfl⟩ := hadd
    simpa using hbase

end Top

section Recorded

variable {rgn rgn' : LmbRegion} {base size : Nat} {ret : Int}

theorem addsBlock_dummy (hdummy : rgn.entries = [⟨0, 0⟩]) (hsize : 0 < size)
    (hend : base + size ≤ 4294967296)
    (hadd : lmbAddRegion rgn base size = some (ret, rgn')) :
    AddsBlock rgn rgn' base size ∧ Accountable rgn base size := by
  have hcnt : rgn.cnt = 1 := by simpa [LmbRegion.entries] using congrArg List.length hdummy
  have hfirst : rgn.region 0 = ⟨0, 0⟩ := by
    simpa [LmbRegion.entries, hcnt] using hdummy
  have hregions : rgn.regions = [] := by simp [LmbRegion.regions, hcnt, hfirst]
  have ht' : Table (rgn.set 0 ⟨base, size⟩) [⟨base, size⟩] := by
    refine ⟨by simpa [LmbRegion.set] using hcnt, ?_⟩
    intro i x hx
    cases i with
    | zero => simpa [LmbRegion.set] using hx
    | succ i => simp at hx
  simp only [lmbAddRegion, hcnt, hfirst, and_self, if_true, Option.some.injEq,
    Prod.mk.injEq] at hadd
  obtain ⟨-, rfl⟩ := hadd
  have hregions' := ht'.regions_of_pos (by simpa using hsize)
  constructor
  · exact ⟨by rw [hregions']; exact ⟨by simp, by simpa using hend⟩,
      by simp [hregions, hregions'], by simp [hregions]⟩
  · exact ⟨hend, by simp [Free, hregions], by simp [hregions], by simp [hcnt]⟩

/-- In an emptied table the block is recorded in front of the stale first
entry; otherwise that entry comes back. -/
theorem addsBlock_emptied (hcnt : rgn.cnt = 0) (hsize : 0 < size)
    (hend : base + size ≤ 4294967296)
    (hadd : lmbAddRegion rgn base size = some (ret, rgn')) :
    AddsBlock rgn rgn' base size ↔ Accountable rgn base size := by
  have hregions : rgn.regions = [] := by simp [LmbRegion.regions, hcnt]
  have hstale : lmbRegionsAdjacent rgn.region 0 1 = 0 := by
    by_contra hadj
    rw [lmbAddRegion_emptied hcnt hadj] at hadd
    cases hadd
  have hresult : rgn' = ⟨1, if base < (rgn.region 0).base then
      Function.update rgn.region 0 ⟨base, size⟩ else rgn.region⟩ := by
    simp only [lmbAddRegion, hcnt, coalesceLoop, insertLoop, MAX_LMB_REGIONS, Nat.zero_add,
      hstale] at hadd
    simp only [Nat.zero_ne_one, false_and, if_false, ne_eq, not_true_eq_false, and_false,
      ge_iff_le, Option.some.injEq, Prod.mk.injEq, show ¬(8 : Nat) ≤ 0 by decide] at hadd
    exact hadd.2.symm
  -- The first entry afterwards is the block exactly when the block is accountable.
  have hiff : rgn'.region 0 = ⟨base, size⟩ ↔ Accountable rgn base size := by
    have hfree : Free rgn.regions base size := by simp [Free, hregions]
    rw [hresult]
    by_cases hlt : base < (rgn.region 0).base
    · exact iff_of_true (by simp [hlt])
        ⟨hend, hfree, by simp [hregions], fun _ => Or.inl hlt⟩
    · rw [if_neg hlt]
      constructor
      · exact fun h => ⟨hend, hfree, by simp [hregions], fun _ => Or.inr h⟩
      · exact fun h => (h.stale hcnt).resolve_left hlt
  rw [← hiff]
  have hcnt' : rgn'.cnt = 1 := by rw [hresult]
  constructor
  · intro h
    have hcov := h.covers
    have hone : rgn'.regions = [] ∨ rgn'.regions = [rgn'.region 0] := by
      by_cases hzero : (rgn'.region 0).size = 0
      · simp [LmbRegion.regions, hcnt', hzero]
      · simp [LmbRegion.regions, hcnt', hzero]
    simp only [hregions, covers_nil, false_or] at hcov
    rcases hone with hnil | hone
    · have := (hcov base).mpr ⟨Nat.le_refl _, by omega⟩
      simp [hnil] at this
    · simp only [hone, covers_cons, covers_nil, or_false] at hcov
      have hlow := (hcov base).mpr ⟨Nat.le_refl _, by omega⟩
      have hhigh := (hcov (base + size - 1)).mpr ⟨by omega, by omega⟩
      have hfirst := (hcov (rgn'.region 0).base).mp ⟨Nat.le_refl _, by omega⟩
      have hlast := (hcov ((rgn'.region 0).base + (rgn'.region 0).size - 1)).mp
        ⟨by omega, by omega⟩
      have hbase : (rgn'.region 0).base = base := by omega
      have hsz : (rgn'.region 0).size = size := by omega
      calc rgn'.region 0 = ⟨(rgn'.region 0).base, (rgn'.region 0).size⟩ := rfl
        _ = ⟨base, size⟩ := by rw [hbase, hsz]
  · intro h
    have hregions' : rgn'.regions = [⟨base, size⟩] := by
      simp [LmbRegion.regions, hcnt', h, Nat.ne_of_gt hsize]
    exact ⟨by rw [hregions']; exact ⟨by simp, by simpa using hend⟩,
      by simp [hregions, hregions'], by simp [hregions]⟩

theorem table_entries (rgn : LmbRegion) : Table rgn rgn.entries := by
  refine ⟨by simp [LmbRegion.entries], ?_⟩
  intro i x hx
  obtain ⟨hi, rfl⟩ := List.getElem?_eq_some_iff.mp hx
  simp [LmbRegion.entries]

/-- A block that the table took is added exactly as it is when it is
accountable, and only then. -/
theorem addsBlock_iff (hwf : WellFormed rgn) (hmax : rgn.cnt ≤ MAX_LMB_REGIONS)
    (hbase : 0 < base) (hsize : 0 < size) (hend : base + size ≤ 4294967296)
    (hadd : lmbAddRegion rgn base size = some (ret, rgn')) (hret : 0 ≤ ret) :
    AddsBlock rgn rgn' base size ↔ Accountable rgn base size := by
  rcases hwf with hdummy | hg
  · obtain ⟨hadds, hacc⟩ := addsBlock_dummy hdummy hsize hend hadd
    exact iff_of_true hadds hacc
  · have ht := table_entries rgn
    have hlen : rgn.entries.length = rgn.cnt := ht.cnt.symm
    have hregions : rgn.regions = rgn.entries := ht.regions_eq hg
    by_cases hcnt : rgn.cnt = 0
    · exact addsBlock_emptied hcnt hsize hend hadd
    · have hne : rgn.entries ≠ [] := by
        rw [Ne, ← List.length_eq_zero_iff, hlen]
        exact hcnt
      constructor
      · intro h
        have hfree : Free rgn.entries base size :=
          free_of_uncovered hg hsize (by simpa only [hregions] using h.new)
        refine ⟨hend, hregions ▸ hfree, fun htop x hx hzero => ?_, fun h0 => absurd h0 hcnt⟩
        rw [hregions] at hx
        exact not_addsBlock_low ht hg (hlen ▸ hmax) hfree hbase hsize htop hx hzero hadd h
      · rintro ⟨-, hfree, hlow, -⟩
        rw [hregions] at hfree hlow
        rcases Nat.lt_or_eq_of_le hend with hlt | htop
        · obtain ⟨ret', rgn'', hadd', hleaves⟩ :=
            lmbAddRegion_spec ht hg hne (hlen ▸ hmax) hfree hsize hlt
          rw [hadd, Option.some.injEq, Prod.mk.injEq] at hadd'
          obtain ⟨rfl, rfl⟩ := hadd'
          obtain ⟨L, ht', hg', -, hcov⟩ := hleaves (by omega)
          have hregions' := ht'.regions_eq hg'
          refine ⟨hregions' ▸ hg'.inOrder, ?_, ?_⟩
          · rw [hregions', hregions]
            exact hcov
          · rw [hregions]
            rintro a hlo hhi ⟨x, hx, hxlo, hxhi⟩
            have := hfree x hx
            omega
        · exact addsBlock_top ht hg hne (hlen ▸ hmax) hfree hsize htop (hlow htop) hadd hret

end Recorded

/-! ## The allocation -/

/-- A block that leaves the address space is not added exactly. -/
theorem AddsBlock.ends {before after : LmbRegion} {base length : Nat}
    (h : AddsBlock before after base length) (hlength : 0 < length) :
    base + length ≤ 4294967296 := by
  obtain ⟨x, hx, -, hlast⟩ :=
    (h.covers (base + length - 1)).mpr (Or.inr ⟨by omega, by omega⟩)
  have := h.inOrder.ends x hx
  omega

/-- Every successful allocation adds exactly its rounded block, if and only if
the rounded block at the chosen address is accountable whenever the table takes
what the source adds there. -/
theorem lmb_alloc_accounts_iff (lmb : LmbTables) (hwf : WellFormed lmb.reserved)
    (hmax : lmb.reserved.cnt ≤ MAX_LMB_REGIONS) (size k maxAddr : Nat) (hsize : 0 < size)
    (hk : k < 32) :
    AccountsExactly lmb size (2 ^ k) maxAddr ↔
      ∀ b, ChosenBelow lmb size (2 ^ k) maxAddr lmb.memory.cnt b →
        Records lmb.reserved b (lmbAlignUp size (2 ^ k)) →
          Accountable lmb.reserved b (roundedSize size (2 ^ k)) := by
  have hsearch := @searchLoop_chosen lmb size k maxAddr hwf.fits hsize hk lmb.memory.cnt
  have hlength := hsize.trans_le (le_roundedSize size k)
  -- Within the address space the source adds the rounded block.
  have hround : ∀ b, b ≠ 0 → b + roundedSize size (2 ^ k) ≤ 4294967296 →
      lmbAlignUp size (2 ^ k) = roundedSize size (2 ^ k) :=
    fun b hb hend => lmbAlignUp_eq hk (by omega)
  constructor
  · rintro hexact b hchosen ⟨ret, rgn, hadd, hret⟩
    have hb : b ≠ 0 := by
      obtain ⟨i, -, ⟨start, -, -, hgreatest⟩, -⟩ := hchosen
      exact hgreatest.1.ne_zero
    have hadds : AddsBlock lmb.reserved rgn b (roundedSize size (2 ^ k)) :=
      hexact b _ ((lmbAllocBase_eq_some hb).mpr
        ⟨(hsearch b).mpr hchosen, ret, rgn, hadd, hret, rfl⟩) hb
    have hend := hadds.ends hlength
    rw [hround b hb hend] at hadd
    exact (addsBlock_iff hwf hmax (Nat.pos_of_ne_zero hb) hlength hend hadd hret).mp hadds
  · intro haccountable b lmb' hsome hb
    obtain ⟨hfound, ret, rgn, hadd, hret, rfl⟩ := (lmbAllocBase_eq_some hb).mp hsome
    have hacc := haccountable b ((hsearch b).mp hfound) ⟨ret, rgn, hadd, hret⟩
    rw [hround b hb hacc.ends] at hadd
    exact (addsBlock_iff hwf hmax (Nat.pos_of_ne_zero hb) hlength hacc.ends hadd hret).mpr hacc

/-- Memory whose last page is reserved from its middle on. -/
def halfPageReserved : LmbTables where
  memory := ⟨1, fun _ => ⟨0x10000000, 0x10000000⟩⟩
  reserved := ⟨1, fun _ => ⟨0x1FFFF800, 0x800⟩⟩

theorem halfPageReserved_wellFormed : WellFormed halfPageReserved.reserved :=
  Or.inr ⟨by simp [halfPageReserved, LmbRegion.entries], by decide, by decide⟩

/-- The block is free up to its rounded end, in the page in front of the last one. -/
theorem lmb_alloc_accounts_page : AccountsExactly halfPageReserved 0x900 (2 ^ 12) 0 := by
  apply (lmb_alloc_accounts_iff halfPageReserved halfPageReserved_wellFormed (by decide) 0x900 12 0
    (by decide) (by decide)).mpr
  rintro b ⟨i, -, ⟨start, hstart, -, hgreatest⟩, -⟩ -
  have hstart' : startBase 0x10000000 0x10000000 0x900 (2 ^ 12) 0 = some 0x1FFFF000 := by decide
  obtain rfl : start = 0x1FFFF000 := Option.some.inj (hstart.symm.trans hstart')
  have hround : roundedSize 0x900 (2 ^ 12) = 0x1000 := by decide
  have hregions : halfPageReserved.reserved.regions = halfPageReserved.reserved.entries :=
    (table_entries _).regions_eq (halfPageReserved_wellFormed.resolve_left (by decide))
  have hle : b ≤ 0x1FFFF000 := hgreatest.1.le_start
  obtain ⟨n, rfl⟩ := hgreatest.1.aligned
  have hfree : Free halfPageReserved.reserved.entries (2 ^ 12 * n) 0x1000 := by
    rcases hgreatest.1.free with free | ⟨heq, hnone⟩
    · intro x hx
      have := free x hx
      have hx' : x = ⟨0x1FFFF800, 0x800⟩ := by simpa [halfPageReserved, LmbRegion.entries] using hx
      rw [hx'] at this ⊢
      dsimp only at this ⊢
      omega
    · exact absurd hnone (by decide)
  refine ⟨?_, ?_, ?_, ?_⟩
  · rw [hround]
    omega
  · rw [hround, hregions]
    exact hfree
  · rw [hround]
    omega
  · exact fun h => absurd h (by decide)

/-- 256 bytes with a page's alignment: the free half of the last page is handed
out, and all of that page is reserved once more. -/
theorem lmb_alloc_reserves_twice :
    ¬∀ (lmb : LmbTables), WellFormed lmb.memory → WellFormed lmb.reserved →
      lmb.reserved.cnt ≤ MAX_LMB_REGIONS → ∀ size k maxAddr, 0 < size → k < 32 →
        AccountsExactly lmb size (2 ^ k) maxAddr := by
  intro h
  have hmem : WellFormed halfPageReserved.memory :=
    Or.inr ⟨by simp [halfPageReserved, LmbRegion.entries], by decide, by decide⟩
  have hret : (lmbAllocBase halfPageReserved 0x100 (2 ^ 12) 0).map Prod.fst =
      some 0x1FFFF000 := by
    decide
  obtain ⟨⟨b, lmb'⟩, hsome, rfl⟩ := Option.map_eq_some_iff.mp hret
  have hadds := h halfPageReserved hmem halfPageReserved_wellFormed (by decide) 0x100 12 0
    (by decide) (by decide) _ lmb' hsome (by decide)
  apply hadds.new 0x1FFFF800 (by decide) (by decide)
  exact ⟨⟨0x1FFFF800, 0x800⟩, by simp [halfPageReserved, LmbRegion.regions], by decide, by decide⟩

end UBoot.Lmb
