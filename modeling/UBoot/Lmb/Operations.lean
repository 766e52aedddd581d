import UBoot.Lmb.Table

/-!
# `lmb_add_region` and `lmb_free` on a well-shaped table

Both operations are specified by the addresses the table covers afterwards.
The table must hold at least one region: with `cnt` zero, `lmb_add_region`
decides by the stale entries of the array, which `add_to_empty` describes.
-/

namespace UBoot.Lmb

/-- What an operation that did not report an error leaves behind. -/
def Leaves (result : Option (Int × LmbRegion)) (covered : Nat → Prop) : Prop :=
  ∃ ret rgn, result = some (ret, rgn) ∧ (ret ≠ -1 → ∃ L, Table rgn L ∧ Good L ∧
    L.length ≤ MAX_LMB_REGIONS ∧ ∀ a, Covers L a ↔ covered a)

variable {rgn : LmbRegion} {L : List LmbProperty} {base size : Nat}

/-- A block that is not reserved differs from every region. -/
theorem Free.ne (hfree : Free L base size) (hsize : 0 < size) :
    ∀ x ∈ L, x ≠ ⟨base, size⟩ := by
  rintro x hx rfl
  have := hfree _ hx
  simp only at this
  omega

/-- The first branch of `lmb_add_region` is for the dummy region only. -/
theorem Table.not_dummy (ht : Table rgn L) (hg : Good L) :
    ¬(rgn.cnt = 1 ∧ (rgn.region 0).size = 0) := by
  rintro ⟨hcnt, hzero⟩
  obtain ⟨x, rfl⟩ := List.length_eq_one_iff.mp (ht.cnt.symm.trans hcnt)
  rw [ht.entry 0 x rfl] at hzero
  exact absurd (hg.pos x (by simp)) (by omega)

/-- Coalescing with a neighbour found by the scan, and with the next region
when the block closes the gap between the two. -/
theorem add_grown {pre post : List LmbProperty} {x x' : LmbProperty}
    (ht : Table rgn (pre ++ x :: post)) (hg : Good (pre ++ x :: post))
    (hmax : (pre ++ x :: post).length ≤ MAX_LMB_REGIONS)
    (hfree : Free (pre ++ x :: post) base size) (hsize : 0 < size)
    (hblock : base + size < 4294967296) (hx : Grown base size x x') :
    Leaves (if pre.length < sub32 rgn.cnt 1 ∧
          lmbRegionsAdjacent (rgn.set pre.length x').region pre.length (pre.length + 1) ≠ 0 then
        (lmbCoalesceRegions (rgn.set pre.length x') pre.length (pre.length + 1)).map
          fun rgn => (2, rgn)
      else some (1, rgn.set pre.length x'))
      (fun a => Covers (pre ++ x :: post) a ∨ (base ≤ a ∧ a < base + size)) := by
  have ht' : Table (rgn.set pre.length x') (pre ++ x' :: post) := ht.set_middle
  have hg' : Good (pre ++ x' :: post) := hg.grown hfree hsize hblock hx
  have hcov : ∀ a, Covers (pre ++ x' :: post) a ↔
      Covers (pre ++ x :: post) a ∨ (base ≤ a ∧ a < base + size) := by
    intro a
    simp only [covers_append, covers_cons, hx.covers a, or_assoc, or_left_comm, or_comm]
  by_cases hadj : pre.length < sub32 rgn.cnt 1 ∧
      lmbRegionsAdjacent (rgn.set pre.length x').region pre.length (pre.length + 1) ≠ 0
  · rw [if_pos hadj]
    obtain ⟨hlt, hadj⟩ := hadj
    have hcnt := ht.cnt
    simp only [List.length_append, List.length_cons, MAX_LMB_REGIONS] at hcnt hmax
    rw [sub32_of_le (by omega) (by omega)] at hlt
    -- There is a next region, and it starts where the enlarged one ends.
    obtain ⟨y, post, rfl⟩ : ∃ y rest, post = y :: rest :=
      List.exists_cons_of_length_pos (by omega)
    have hentry : (rgn.set pre.length x').region pre.length = x' := ht'.at_middle
    have hentry' : (rgn.set pre.length x').region (pre.length + 1) = y :=
      ht'.entry _ _ (by simp)
    obtain ⟨-, hrest, hpos, hfit, -, habove, -⟩ := Good.middle_iff.mp hg'
    have hy := habove y (by simp)
    have hyfit := hrest.fits y (by simp)
    have hypos := hrest.pos y (by simp)
    have htouch : y.base = x'.base + x'.size := by
      simp only [lmbRegionsAdjacent, hentry, hentry', lmbAddrsAdjacent, add32_of_lt hfit,
        add32_of_lt hyfit] at hadj
      by_contra hne
      rw [if_neg hne, if_neg (by omega)] at hadj
      exact hadj rfl
    have hm : Table ((rgn.set pre.length x').set pre.length ⟨x'.base, x'.size + y.size⟩)
        ((pre ++ [⟨x'.base, x'.size + y.size⟩]) ++ y :: post) := by
      simpa using ht'.set_middle (y := ⟨x'.base, x'.size + y.size⟩)
    obtain ⟨rgn', hrem, ht''⟩ := lmbRemoveRegion_spec hm
      (by simp only [List.length_append, List.length_cons, List.length_nil, MAX_LMB_REGIONS] at *
          omega)
    refine ⟨2, rgn', ?_, fun _ => ⟨_, ht'', ?_, ?_, ?_⟩⟩
    · simp only [List.length_append, List.length_cons, List.length_nil] at hrem
      simp only [lmbCoalesceRegions, hentry, hentry', add32_of_lt (show x'.size + y.size <
        4294967296 by omega)]
      simpa using congrArg (Option.map fun rgn => ((2 : Int), rgn)) hrem
    · simpa using hg'.merge htouch
    · simp only [List.length_append, List.length_cons, List.length_nil, MAX_LMB_REGIONS] at *
      omega
    · intro a
      refine Iff.trans ?_ (hcov a)
      simp only [covers_append, covers_cons, covers_nil, or_false, htouch, or_assoc]
      have : (x'.base ≤ a ∧ a < x'.base + (x'.size + y.size)) ↔
          (x'.base ≤ a ∧ a < x'.base + x'.size) ∨
            (x'.base + x'.size ≤ a ∧ a < x'.base + x'.size + y.size) := by omega
      rw [this]
      simp only [or_assoc]
  · rw [if_neg hadj]
    exact ⟨1, _, rfl, fun _ => ⟨_, ht', hg', by simpa using hmax, hcov⟩⟩

/-- The sorted insertion of a block that touches no region. -/
theorem add_inserted (ht : Table rgn L) (hg : Good L) (hne : L ≠ [])
    (hfree : Free L base size) (hsize : 0 < size) (hblock : base + size < 4294967296) :
    ∃ pre post, L = pre ++ post ∧ Good (pre ++ ⟨base, size⟩ :: post) ∧
      Table { cnt := rgn.cnt + 1
              region :=
                if base < (insertLoop base size rgn.cnt rgn.region 0).base then
                  Function.update (insertLoop base size rgn.cnt rgn.region) 0 ⟨base, size⟩
                else insertLoop base size rgn.cnt rgn.region }
        (pre ++ ⟨base, size⟩ :: post) := by
  obtain ⟨k, hk, hlast, habove, hbelow, hput, hzero, hshift, -⟩ :=
    insertLoop_spec base size rgn.cnt rgn.region
  have hlen := ht.cnt
  have hat : ∀ i (hi : i < L.length), rgn.region i = L[i] :=
    fun i hi => ht.entry i _ (List.getElem?_eq_getElem hi)
  have hL : 0 < L.length := List.length_pos_iff.mpr hne
  have hpre : ∀ x ∈ L.take k, x.base ≤ base := by
    intro x hx
    obtain ⟨i, hi, rfl⟩ := List.mem_iff_getElem.mp hx
    simp only [List.length_take, Nat.lt_min] at hi
    simp only [List.getElem_take]
    have hlast' := hlast (by omega)
    rw [hat (k - 1) (by omega)] at hlast'
    rcases Nat.lt_or_ge i (k - 1) with hlt | hge
    · have := List.pairwise_iff_getElem.mp hg.sorted i (k - 1) hi.2 (by omega) hlt
      omega
    · have hik : i = k - 1 := by omega
      subst hik
      omega
  have hpost : ∀ x ∈ L.drop k, base < x.base := by
    intro x hx
    obtain ⟨i, hi, rfl⟩ := List.mem_iff_getElem.mp hx
    simp only [List.length_drop] at hi
    simp only [List.getElem_drop]
    rw [← hat (k + i) (by omega)]
    exact habove (k + i) (by omega) (by omega)
  refine ⟨L.take k, L.drop k, (List.take_append_drop k L).symm, ?_, ?_, ?_⟩
  · exact Good.insert (by rwa [List.take_append_drop]) (by rwa [List.take_append_drop])
      hsize hblock hpre hpost
  · simp only [List.length_append, List.length_cons, List.length_take, List.length_drop]
    omega
  · intro i x hx
    have htake : (L.take k).length = k := by
      rw [List.length_take]
      omega
    have hfirst : (insertLoop base size rgn.cnt rgn.region 0).base = (L[0]).base := by
      rcases Nat.eq_zero_or_pos k with rfl | hpos
      · rw [hzero rfl, hat 0 hL]
      · rw [hbelow 0 hpos, hat 0 hL]
    -- The block goes in front exactly when every region was shifted.
    have hfront : base < (insertLoop base size rgn.cnt rgn.region 0).base ↔ k = 0 := by
      rw [hfirst, ← hat 0 hL]
      constructor
      · intro hlt
        by_contra hk0
        have hmem : L[0] ∈ L.take k :=
          List.mem_iff_getElem.mpr ⟨0, by omega, by simp⟩
        have := hpre _ hmem
        rw [hat 0 hL] at hlt
        omega
      · rintro rfl
        exact habove 0 (Nat.le_refl _) (by omega)
    simp only [hfront]
    rcases Nat.lt_trichotomy i k with hlt | rfl | hgt
    · rw [if_neg (by omega), hbelow i hlt]
      apply ht.entry
      rw [List.getElem?_append_left (by omega), List.getElem?_take_of_lt hlt] at hx
      exact hx
    · rw [List.getElem?_append_right (by omega), htake, Nat.sub_self,
        List.getElem?_cons_zero, Option.some.injEq] at hx
      subst hx
      rcases Nat.eq_zero_or_pos i with rfl | hpos
      · simp
      · rw [if_neg (by omega), hput hpos]
    · obtain ⟨j, rfl⟩ : ∃ j, i = k + j + 1 := ⟨i - k - 1, by omega⟩
      rw [List.getElem?_append_right (by omega), htake,
        show k + j + 1 - k = j + 1 by omega, List.getElem?_cons_succ, List.getElem?_drop] at hx
      have hj := (List.getElem?_eq_some_iff.mp hx).1
      have : (if k = 0 then
          Function.update (insertLoop base size rgn.cnt rgn.region) 0 ⟨base, size⟩
          else insertLoop base size rgn.cnt rgn.region) (k + j + 1) =
          insertLoop base size rgn.cnt rgn.region (k + j + 1) := by
        split
        · exact Function.update_of_ne (by omega) _ _
        · rfl
      rw [this, hshift (k + j) (by omega) (by omega)]
      exact ht.entry _ _ hx

/-- Adding a free block to a table that holds at least one region. -/
theorem lmbAddRegion_spec (ht : Table rgn L) (hg : Good L) (hne : L ≠ [])
    (hmax : L.length ≤ MAX_LMB_REGIONS) (hfree : Free L base size) (hsize : 0 < size)
    (hblock : base + size < 4294967296) :
    Leaves (lmbAddRegion rgn base size)
      (fun a => Covers L a ∨ (base ≤ a ∧ a < base + size)) := by
  have hL : 0 < L.length := List.length_pos_iff.mpr hne
  have hcnt := ht.cnt
  simp only [lmbAddRegion]
  rw [if_neg (ht.not_dummy hg)]
  rcases coalesceLoop_spec hblock rgn.region L 0 hg.fits (hfree.ne hsize)
    (by simpa using ht.entry) with
    ⟨hscan, -⟩ | ⟨pre, x, post, x', rfl, hx, -, hscan⟩
  · rw [← hcnt] at hscan
    have hnot : ¬rgn.cnt < sub32 rgn.cnt 1 := by
      simp only [MAX_LMB_REGIONS] at hmax
      rw [sub32_of_le (by omega) (by omega)]
      omega
    simp only [hscan, hnot, false_and, if_false]
    by_cases hfull : rgn.cnt ≥ MAX_LMB_REGIONS
    · rw [if_pos hfull]
      exact ⟨-1, rgn, rfl, fun h => absurd rfl h⟩
    · rw [if_neg hfull]
      obtain ⟨pre, post, rfl, hg', ht'⟩ := add_inserted ht hg hne hfree hsize hblock
      refine ⟨0, _, rfl, fun _ => ⟨_, ht', hg', ?_, ?_⟩⟩
      · simp only [List.length_append, List.length_cons] at hcnt ⊢
        omega
      · intro a
        simp only [covers_append, covers_cons, or_left_comm, or_comm]
  · rw [← hcnt, Nat.zero_add] at hscan
    rw [hscan]
    exact add_grown ht hg hmax hfree hsize hblock hx

/-- On an emptied table the block is recorded when it starts below the stale
first entry and the first two stale entries do not touch each other. -/
theorem add_to_empty (ht : Table rgn []) (hbase : base < (rgn.region 0).base)
    (hstale : lmbRegionsAdjacent rgn.region 0 1 = 0) (hsize : 0 < size)
    (hblock : base + size < 4294967296) :
    Leaves (lmbAddRegion rgn base size) (fun a => base ≤ a ∧ a < base + size) := by
  have hcnt : rgn.cnt = 0 := ht.cnt
  refine ⟨0, ⟨1, Function.update rgn.region 0 ⟨base, size⟩⟩, ?_, fun _ => ⟨[⟨base, size⟩], ?_⟩⟩
  · simp [lmbAddRegion, hcnt, coalesceLoop, hstale, MAX_LMB_REGIONS, insertLoop, hbase]
  · refine ⟨⟨rfl, ?_⟩, ⟨by simp, by simpa using hsize, by simpa using hblock⟩,
      by simp [MAX_LMB_REGIONS], by simp⟩
    intro i x hx
    cases i with
    | zero => simpa using hx
    | succ i => simp at hx

/-- A block is refused by a full table in which no region touches it, and the
table stays as it was. -/
theorem lmbAddRegion_error {rgn' : LmbRegion} {ret : Int}
    (h : lmbAddRegion rgn base size = some (ret, rgn')) (hneg : ret < 0) :
    rgn' = rgn ∧ rgn.cnt ≥ MAX_LMB_REGIONS ∧
      coalesceLoop base size rgn.region rgn.cnt 0 = .apart := by
  unfold lmbAddRegion at h
  split at h
  · simp only [Option.some.injEq, Prod.mk.injEq] at h
    omega
  · split at h
    · simp only [Option.some.injEq, Prod.mk.injEq] at h
      omega
    · dsimp only at h
      split at h
      · simp only [Option.map_eq_some_iff, Prod.mk.injEq] at h
        obtain ⟨-, -, hret, -⟩ := h
        omega
      · simp only [Option.some.injEq, Prod.mk.injEq] at h
        omega
    next hscan =>
      split at h
      · simp only [Option.map_eq_some_iff, Prod.mk.injEq] at h
        obtain ⟨-, -, hret, -⟩ := h
        omega
      · split at h
        next hfull =>
          simp only [Option.some.injEq, Prod.mk.injEq] at h
          exact ⟨h.2.symm, hfull, hscan⟩
        · simp only [Option.some.injEq, Prod.mk.injEq] at h
          omega

/-- The search of `lmb_free` returns a region that contains the range. -/
theorem findRegion_spec (base end_ : Nat) (region : Nat → LmbProperty) :
    ∀ (L : List LmbProperty) (i : Nat), (∀ x ∈ L, x.base + x.size < 4294967296) →
      (∀ k x, L[k]? = some x → region (i + k) = x) →
      findRegion base end_ region L.length i = none ∨
        ∃ pre x post, L = pre ++ x :: post ∧ x.base ≤ base ∧ end_ ≤ x.base + x.size ∧
          findRegion base end_ region L.length i = some (i + pre.length) := by
  intro L
  induction L with
  | nil => intro i _ _; exact Or.inl rfl
  | cons x L ih =>
    intro i hfits hentry
    have hx : region i = x := hentry 0 x rfl
    have hfit := hfits x (by simp)
    by_cases hin : x.base ≤ base ∧ end_ ≤ x.base + x.size
    · refine Or.inr ⟨[], x, L, rfl, hin.1, hin.2, ?_⟩
      simp [findRegion, hx, add32_of_lt hfit, hin]
    · have hnext : findRegion base end_ region (x :: L).length i =
          findRegion base end_ region L.length (i + 1) := by
        simp [findRegion, hx, add32_of_lt hfit, hin]
      rw [hnext]
      have hrest : ∀ k y, L[k]? = some y → region (i + 1 + k) = y := by
        intro k y hy
        rw [show i + 1 + k = i + (k + 1) by omega]
        exact hentry (k + 1) y (by simpa using hy)
      rcases ih (i + 1) (fun y hy => hfits y (by simp [hy])) hrest with
        hnone | ⟨pre, y, post, rfl, hb, he, hsome⟩
      · exact Or.inl hnone
      · refine Or.inr ⟨x :: pre, y, post, rfl, hb, he, ?_⟩
        rw [hsome, List.length_cons, show i + 1 + pre.length = i + (pre.length + 1) by omega]

/-- A range inside one region touches no address of the others. -/
theorem covers_outside {pre post : List LmbProperty} {x : LmbProperty} {end_ : Nat}
    (hg : Good (pre ++ x :: post)) (hbase : x.base ≤ base) (hend : end_ ≤ x.base + x.size)
    (a : Nat) :
    (Covers (pre ++ x :: post) a ∧ ¬(base ≤ a ∧ a < end_)) ↔
      Covers pre a ∨ ((x.base ≤ a ∧ a < x.base + x.size) ∧ ¬(base ≤ a ∧ a < end_)) ∨
        Covers post a := by
  obtain ⟨-, -, -, -, hbelow, habove, -⟩ := Good.middle_iff.mp hg
  have hpre : Covers pre a → ¬(base ≤ a ∧ a < end_) := by
    rintro ⟨y, hy, hya⟩
    have := hbelow y hy
    omega
  have hpost : Covers post a → ¬(base ≤ a ∧ a < end_) := by
    rintro ⟨y, hy, hya⟩
    have := habove y hy
    omega
  simp only [covers_append, covers_cons]
  constructor
  · rintro ⟨h | h | h, hnot⟩
    exacts [Or.inl h, Or.inr (Or.inl ⟨h, hnot⟩), Or.inr (Or.inr h)]
  · rintro (h | h | h)
    exacts [⟨Or.inl h, hpre h⟩, ⟨Or.inr (Or.inl h.1), h.2⟩, ⟨Or.inr (Or.inr h), hpost h⟩]

/-- `lmb_free` takes exactly the range out of the covered addresses. -/
theorem lmbFree_spec (ht : Table rgn L) (hg : Good L) (hmax : L.length ≤ MAX_LMB_REGIONS)
    (hblock : base + size < 4294967296) :
    Leaves (lmbFree rgn base size)
      (fun a => Covers L a ∧ ¬(base ≤ a ∧ a < base + size)) := by
  have hcnt := ht.cnt
  simp only [lmbFree, add32_of_lt hblock]
  rcases findRegion_spec base (base + size) rgn.region L 0 hg.fits
    (by simpa using ht.entry) with hnone | ⟨pre, x, post, rfl, hb, he, hsome⟩
  · rw [← hcnt] at hnone
    rw [hnone]
    exact ⟨-1, rgn, rfl, fun h => absurd rfl h⟩
  · rw [← hcnt, Nat.zero_add] at hsome
    obtain ⟨-, -, hpos, hfit, hbelow, habove, -⟩ := Good.middle_iff.mp hg
    have hout := covers_outside hg hb he
    simp only [hsome, ht.at_middle, add32_of_lt hfit]
    by_cases hwhole : x.base = base ∧ x.base + x.size = base + size
    · rw [if_pos hwhole]
      obtain ⟨rgn', hrem, ht'⟩ := lmbRemoveRegion_spec ht (Nat.le_succ_of_le hmax)
      refine ⟨0, rgn', by simp [hrem], fun _ => ⟨_, ht', hg.remove, ?_, ?_⟩⟩
      · simp only [List.length_append, List.length_cons] at hmax ⊢
        omega
      · intro a
        refine Iff.trans ?_ (hout a).symm
        rw [covers_append]
        have : ¬((x.base ≤ a ∧ a < x.base + x.size) ∧ ¬(base ≤ a ∧ a < base + size)) := by omega
        rw [iff_false_intro this, false_or]
    · rw [if_neg hwhole]
      by_cases hfront : x.base = base
      · rw [if_pos hfront, sub32_of_le (by omega) (by omega)]
        refine ⟨0, _, rfl, fun _ => ⟨_, ht.set_middle, hg.shrink ?_ ?_ ?_, by simpa using hmax, ?_⟩⟩
        · change 0 < x.size - size
          omega
        · change x.base ≤ base + size
          omega
        · change base + size + (x.size - size) ≤ x.base + x.size
          omega
        · intro a
          refine Iff.trans ?_ (hout a).symm
          rw [covers_append, covers_cons]
          have : (base + size ≤ a ∧ a < base + size + (x.size - size)) ↔
              ((x.base ≤ a ∧ a < x.base + x.size) ∧ ¬(base ≤ a ∧ a < base + size)) := by omega
          rw [← this]
      · rw [if_neg hfront]
        by_cases hback : x.base + x.size = base + size
        · rw [if_pos hback, sub32_of_le (by omega) (by omega)]
          refine ⟨0, _, rfl, fun _ =>
            ⟨_, ht.set_middle, hg.shrink ?_ (Nat.le_refl _) ?_, by simpa using hmax, ?_⟩⟩
          · change 0 < x.size - size
            omega
          · change x.base + (x.size - size) ≤ x.base + x.size
            omega
          · intro a
            refine Iff.trans ?_ (hout a).symm
            rw [covers_append, covers_cons]
            have : (x.base ≤ a ∧ a < x.base + (x.size - size)) ↔
                ((x.base ≤ a ∧ a < x.base + x.size) ∧ ¬(base ≤ a ∧ a < base + size)) := by omega
            rw [← this]
        · -- The hole is inside the region: shorten it, then add the rest.
          rw [if_neg hback, sub32_of_le (by omega) (by omega), sub32_of_le (by omega) (by omega)]
          have hg' : Good (pre ++ ⟨x.base, base - x.base⟩ :: post) :=
            hg.shrink (by simp only; omega) (Nat.le_refl _) (by simp only; omega)
          have hfree : Free (pre ++ ⟨x.base, base - x.base⟩ :: post) (base + size)
              (x.base + x.size - (base + size)) := by
            intro y hy
            simp only [List.mem_append, List.mem_cons] at hy
            rcases hy with hy | rfl | hy
            · have := hbelow y hy
              omega
            · simp only
              omega
            · have := habove y hy
              omega
          obtain ⟨ret, rgn', hadd, hleaves⟩ := lmbAddRegion_spec ht.set_middle hg' (by simp)
            (by simpa using hmax) hfree (by omega) (by omega)
          refine ⟨ret, rgn', hadd, fun hret => ?_⟩
          obtain ⟨L', ht', hgood, hlen, hcov⟩ := hleaves hret
          refine ⟨L', ht', hgood, hlen, ?_⟩
          intro a
          refine (hcov a).trans (Iff.trans ?_ (hout a).symm)
          simp only [covers_append, covers_cons]
          have : ((x.base ≤ a ∧ a < x.base + (base - x.base)) ∨
              (base + size ≤ a ∧ a < base + size + (x.base + x.size - (base + size)))) ↔
              ((x.base ≤ a ∧ a < x.base + x.size) ∧ ¬(base ≤ a ∧ a < base + size)) := by omega
          rw [← this]
          simp only [or_assoc, or_left_comm, or_comm]

end UBoot.Lmb
