import Mathlib.Data.List.Basic
import Mathlib.Tactic.Common
import UBoot.Lmb.Basic

/-!
# The region table as a list

`Table rgn L` says that the first `cnt` entries of the array are the list `L`;
the stale entries behind them are not described. `Good L` is the shape the
operations rely on: sorted, disjoint, non-empty regions that do not wrap.
Each loop of the source is specified once, by what it does to the list.
-/

namespace UBoot.Lmb

/-- The address `a` lies in a region of the list. -/
def Covers (L : List LmbProperty) (a : Nat) : Prop :=
  ∃ x ∈ L, x.base ≤ a ∧ a < x.base + x.size

structure Good (L : List LmbProperty) : Prop where
  sorted : L.Pairwise fun x y => x.base + x.size ≤ y.base
  pos : ∀ x ∈ L, 0 < x.size
  fits : ∀ x ∈ L, x.base + x.size < 4294967296

/-- The array holds exactly `L` below `cnt`. -/
structure Table (rgn : LmbRegion) (L : List LmbProperty) : Prop where
  cnt : rgn.cnt = L.length
  entry : ∀ i x, L[i]? = some x → rgn.region i = x

theorem add32_of_lt {a b : Nat} (h : a + b < 4294967296) : add32 a b = a + b :=
  Nat.mod_eq_of_lt h

theorem sub32_of_le {a b : Nat} (h : b ≤ a) (ha : a < 4294967296) : sub32 a b = a - b := by
  unfold sub32
  omega

@[simp] theorem covers_nil (a : Nat) : ¬Covers [] a := by
  simp [Covers]

@[simp] theorem covers_cons (x : LmbProperty) (L : List LmbProperty) (a : Nat) :
    Covers (x :: L) a ↔ (x.base ≤ a ∧ a < x.base + x.size) ∨ Covers L a := by
  simp [Covers]

@[simp] theorem covers_append (L M : List LmbProperty) (a : Nat) :
    Covers (L ++ M) a ↔ Covers L a ∨ Covers M a := by
  simp [Covers, or_and_right, exists_or]

namespace Good

variable {L pre post : List LmbProperty} {x y : LmbProperty}

theorem nil : Good [] := ⟨.nil, by simp, by simp⟩

/-- The shape around one region: everything before it ends below it and
everything behind it starts above it. -/
theorem middle_iff : Good (pre ++ x :: post) ↔
    Good pre ∧ Good post ∧ 0 < x.size ∧ x.base + x.size < 4294967296 ∧
      (∀ y ∈ pre, y.base + y.size ≤ x.base) ∧ (∀ y ∈ post, x.base + x.size ≤ y.base) ∧
      ∀ y ∈ pre, ∀ z ∈ post, y.base + y.size ≤ z.base := by
  constructor
  · rintro ⟨sorted, pos, fits⟩
    simp only [List.pairwise_append, List.pairwise_cons, List.mem_cons, List.mem_append,
      or_imp, forall_and, forall_eq] at sorted pos fits
    obtain ⟨hpre, ⟨hx, hpost⟩, hprex, hcross⟩ := sorted
    exact ⟨⟨hpre, pos.1, fits.1⟩, ⟨hpost, pos.2.2, fits.2.2⟩, pos.2.1, fits.2.1, hprex, hx, hcross⟩
  · rintro ⟨hpre, hpost, hpos, hfit, hbelow, habove, hcross⟩
    refine ⟨?_, ?_, ?_⟩
    · simp only [List.pairwise_append, List.pairwise_cons, List.mem_cons, forall_eq_or_imp]
      exact ⟨hpre.sorted, ⟨habove, hpost.sorted⟩, fun y hy => ⟨hbelow y hy, hcross y hy⟩⟩
    · simp only [List.mem_append, List.mem_cons]
      rintro y (hy | rfl | hy)
      exacts [hpre.pos y hy, hpos, hpost.pos y hy]
    · simp only [List.mem_append, List.mem_cons]
      rintro y (hy | rfl | hy)
      exacts [hpre.fits y hy, hfit, hpost.fits y hy]

/-- Removing one region keeps the shape. -/
theorem remove (h : Good (pre ++ x :: post)) : Good (pre ++ post) := by
  obtain ⟨hpre, hpost, -, -, -, -, hcross⟩ := middle_iff.mp h
  refine ⟨?_, ?_, ?_⟩
  · exact List.pairwise_append.mpr ⟨hpre.sorted, hpost.sorted, hcross⟩
  · simp only [List.mem_append]
    rintro y (hy | hy)
    exacts [hpre.pos y hy, hpost.pos y hy]
  · simp only [List.mem_append]
    rintro y (hy | hy)
    exacts [hpre.fits y hy, hpost.fits y hy]

/-- Replacing a region by one inside it keeps the shape. -/
theorem shrink (h : Good (pre ++ x :: post)) (hpos : 0 < y.size) (hbase : x.base ≤ y.base)
    (hend : y.base + y.size ≤ x.base + x.size) : Good (pre ++ y :: post) := by
  obtain ⟨hpre, hpost, -, hfit, hbelow, habove, hcross⟩ := middle_iff.mp h
  refine middle_iff.mpr ⟨hpre, hpost, hpos, by omega, ?_, ?_, hcross⟩
  · exact fun z hz => Nat.le_trans (hbelow z hz) hbase
  · exact fun z hz => Nat.le_trans hend (habove z hz)

end Good

namespace Table

variable {rgn : LmbRegion} {L pre post : List LmbProperty} {x y : LmbProperty}

theorem at_middle (h : Table rgn (pre ++ x :: post)) : rgn.region pre.length = x :=
  h.entry _ _ (by simp)

theorem set_middle (h : Table rgn (pre ++ x :: post)) :
    Table (rgn.set pre.length y) (pre ++ y :: post) := by
  refine ⟨by simpa [LmbRegion.set] using h.cnt, ?_⟩
  intro i z hz
  by_cases hi : i = pre.length
  · subst hi
    simp only [List.getElem?_append_right (Nat.le_refl _), Nat.sub_self,
      List.getElem?_cons_zero, Option.some.injEq] at hz
    simp [LmbRegion.set, hz]
  · simp only [LmbRegion.set, Function.update_of_ne hi]
    apply h.entry
    rw [← hz]
    rcases Nat.lt_or_gt_of_ne hi with hlt | hgt
    · rw [List.getElem?_append_left hlt, List.getElem?_append_left hlt]
    · obtain ⟨k, rfl⟩ : ∃ k, i = pre.length + (k + 1) := ⟨i - pre.length - 1, by omega⟩
      simp [List.getElem?_append_right]

end Table

theorem removeLoop_spec (bound : Nat) (hb : bound ≤ MAX_LMB_REGIONS) :
    ∀ fuel i (region : Nat → LmbProperty), bound - i < fuel →
      ∃ region', removeLoop bound fuel i region = some region' ∧
        ∀ j, region' j = if i ≤ j ∧ j < bound then region (j + 1) else region j := by
  intro fuel
  induction fuel with
  | zero => intro i region h; omega
  | succ fuel ih =>
    intro i region h
    by_cases hi : i < bound
    · obtain ⟨region', hr, hj⟩ :=
        ih (i + 1) (Function.update region i (region (i + 1))) (by omega)
      refine ⟨region', by simp [removeLoop, hi, show i + 1 ≤ MAX_LMB_REGIONS by omega, hr], ?_⟩
      intro j
      rw [hj]
      by_cases hji : j = i
      · subst hji
        simp [hi]
      · have : j + 1 ≠ i ∨ ¬(i + 1 ≤ j ∧ j < bound) := by omega
        simp only [Function.update_of_ne hji]
        by_cases hin : i + 1 ≤ j ∧ j < bound
        · rw [if_pos hin, if_pos (by omega), Function.update_of_ne (by omega)]
        · rw [if_neg hin, if_neg (by omega)]
    · refine ⟨region, by simp [removeLoop, hi], ?_⟩
      intro j
      rw [if_neg (by omega)]

theorem lmbRemoveRegion_spec {rgn : LmbRegion} {pre post : List LmbProperty} {x : LmbProperty}
    (h : Table rgn (pre ++ x :: post))
    (hlen : (pre ++ x :: post).length ≤ MAX_LMB_REGIONS + 1) :
    ∃ rgn', lmbRemoveRegion rgn pre.length = some rgn' ∧ Table rgn' (pre ++ post) := by
  have hcnt : sub32 rgn.cnt 1 = pre.length + post.length := by
    have := h.cnt
    simp only [List.length_append, List.length_cons, MAX_LMB_REGIONS] at this hlen
    rw [sub32_of_le (by omega) (by omega)]
    omega
  simp only [List.length_append, List.length_cons] at hlen
  obtain ⟨region', hr, hj⟩ := removeLoop_spec (pre.length + post.length) (by omega)
    (MAX_LMB_REGIONS + 2) pre.length rgn.region (by omega)
  refine ⟨⟨pre.length + post.length, region'⟩, by simp [lmbRemoveRegion, hcnt, hr], ?_, ?_⟩
  · simp
  · intro i z hz
    change region' i = z
    rw [hj]
    have hi : i < pre.length + post.length := by
      simpa using (List.getElem?_eq_some_iff.mp hz).1
    by_cases hpre : i < pre.length
    · rw [if_neg (by omega)]
      apply h.entry
      rw [← hz, List.getElem?_append_left hpre, List.getElem?_append_left hpre]
    · rw [if_pos (by omega)]
      apply h.entry
      rw [← hz, List.getElem?_append_right (by omega), List.getElem?_append_right (by omega)]
      obtain ⟨k, rfl⟩ : ∃ k, i = pre.length + k := ⟨i - pre.length, by omega⟩
      simp [Nat.add_assoc]

/-- A region made larger by the block at one of its ends. -/
def Grown (base size : Nat) (x x' : LmbProperty) : Prop :=
  (x.base = base + size ∧ x' = ⟨base, x.size + size⟩) ∨
    (base = x.base + x.size ∧ x' = ⟨x.base, x.size + size⟩)

/-- The block and the region have no end in common. -/
def Apart (base size : Nat) (x : LmbProperty) : Prop :=
  x.base ≠ base + size ∧ base ≠ x.base + x.size

/-- One round of the scan on a region other than the block itself. -/
theorem adjacent_cases {base size : Nat} {x : LmbProperty}
    (hx : x.base + x.size < 4294967296) (hblock : base + size < 4294967296) :
    (lmbAddrsAdjacent base size x.base x.size > 0 ∧ x.base = base + size ∧
        sub32 x.base size = base ∧ add32 x.size size = x.size + size) ∨
      (lmbAddrsAdjacent base size x.base x.size < 0 ∧ base = x.base + x.size ∧
        add32 x.size size = x.size + size) ∨
      (lmbAddrsAdjacent base size x.base x.size = 0 ∧ Apart base size x) := by
  simp only [lmbAddrsAdjacent, add32_of_lt hx, add32_of_lt hblock, Apart]
  by_cases h1 : x.base = base + size
  · refine Or.inl ⟨by simp [h1], h1, ?_, add32_of_lt (by omega)⟩
    rw [h1, sub32_of_le (by omega) hblock]
    omega
  · by_cases h2 : base = x.base + x.size
    · exact Or.inr (Or.inl ⟨by simp [h1, ← h2], h2, add32_of_lt (by omega)⟩)
    · exact Or.inr (Or.inr ⟨by simp [h1, h2], h1, h2⟩)

/-- The scan stops at the first region that is the block or touches it. -/
theorem coalesceLoop_spec {base size : Nat} (hblock : base + size < 4294967296)
    (region : Nat → LmbProperty) :
    ∀ (L : List LmbProperty) (i : Nat), (∀ x ∈ L, x.base + x.size < 4294967296) →
      (∀ x ∈ L, x ≠ ⟨base, size⟩) → (∀ k x, L[k]? = some x → region (i + k) = x) →
      (coalesceLoop base size region L.length i = .apart ∧ ∀ x ∈ L, Apart base size x) ∨
        ∃ pre x post x', L = pre ++ x :: post ∧ Grown base size x x' ∧
          (∀ y ∈ pre, Apart base size y) ∧
          coalesceLoop base size region L.length i =
            .grown (i + pre.length) (Function.update region (i + pre.length) x') := by
  intro L
  induction L with
  | nil => intro i _ _ _; exact Or.inl ⟨rfl, by simp⟩
  | cons x L ih =>
    intro i hfits hne hentry
    have hx : region i = x := hentry 0 x rfl
    have hnot : ¬(x.base = base ∧ x.size = size) := by
      rintro ⟨rfl, rfl⟩
      exact hne x (by simp) rfl
    rcases adjacent_cases (hfits x (by simp)) hblock with
      ⟨hadj, hb, hsub, hadd⟩ | ⟨hadj, hb, hadd⟩ | ⟨hadj, hapart⟩
    · refine Or.inr ⟨[], x, L, ⟨base, x.size + size⟩, rfl, Or.inl ⟨hb, rfl⟩, by simp, ?_⟩
      simp [coalesceLoop, hx, hnot, hadj, hsub, hadd]
    · refine Or.inr ⟨[], x, L, ⟨x.base, x.size + size⟩, rfl, Or.inr ⟨hb, rfl⟩, by simp, ?_⟩
      simp [coalesceLoop, hx, hnot, hadj, hadd, Int.not_lt.mpr (Int.le_of_lt hadj)]
    · have hnext : coalesceLoop base size region (x :: L).length i =
          coalesceLoop base size region L.length (i + 1) := by
        simp [coalesceLoop, hx, hnot, hadj]
      rw [hnext]
      have hrest : ∀ k y, L[k]? = some y → region (i + 1 + k) = y := by
        intro k y hy
        rw [show i + 1 + k = i + (k + 1) by omega]
        exact hentry (k + 1) y (by simpa using hy)
      rcases ih (i + 1) (fun y hy => hfits y (by simp [hy])) (fun y hy => hne y (by simp [hy]))
        hrest with ⟨hloop, hall⟩ | ⟨pre, y, post, y', rfl, hgrown, hpre, hloop⟩
      · exact Or.inl ⟨hloop, by simpa using ⟨hapart, hall⟩⟩
      · refine Or.inr ⟨x :: pre, y, post, y', rfl, hgrown, by simpa using ⟨hapart, hpre⟩, ?_⟩
        rw [hloop, List.length_cons, show i + 1 + pre.length = i + (pre.length + 1) by omega]

/-- The insertion loop opens a gap behind the last region that does not start
above `base`. When there is none, only the shift has been done. -/
theorem insertLoop_spec (base size : Nat) :
    ∀ (n : Nat) (region : Nat → LmbProperty), ∃ k ≤ n,
      (0 < k → ¬base < (region (k - 1)).base) ∧ (∀ i, k ≤ i → i < n → base < (region i).base) ∧
      (∀ i < k, insertLoop base size n region i = region i) ∧
      (0 < k → insertLoop base size n region k = ⟨base, size⟩) ∧
      (k = 0 → insertLoop base size n region 0 = region 0) ∧
      (∀ i, k ≤ i → i < n → insertLoop base size n region (i + 1) = region i) ∧
      ∀ i, n < i → insertLoop base size n region i = region i := by
  intro n
  induction n with
  | zero => intro region; exact ⟨0, by simp [insertLoop]⟩
  | succ n ih =>
    intro region
    by_cases hlt : base < (region n).base
    · obtain ⟨k, hk, hlast, habove, hbelow, hput, hzero, hshift, hrest⟩ :=
        ih (Function.update region (n + 1) (region n))
      have hrun : insertLoop base size (n + 1) region =
          insertLoop base size n (Function.update region (n + 1) (region n)) := by
        simp [insertLoop, hlt]
      have hold : ∀ i, i < n + 1 → Function.update region (n + 1) (region n) i = region i :=
        fun i hi => Function.update_of_ne (by omega) _ _
      rw [hrun]
      refine ⟨k, by omega, ?_, ?_, ?_, hput, ?_, ?_, ?_⟩
      · intro h0
        simpa [hold (k - 1) (by omega)] using hlast h0
      · intro i hki hi
        by_cases hin : i = n
        · subst hin; exact hlt
        · simpa [hold i hi] using habove i hki (by omega)
      · intro i hi
        rw [hbelow i hi, hold i (by omega)]
      · intro h0
        rw [hzero h0, hold 0 (by omega)]
      · intro i hki hi
        by_cases hin : i = n
        · subst hin
          rw [hrest (i + 1) (by omega), Function.update_self]
        · rw [hshift i hki (by omega), hold i hi]
      · intro i hi
        rw [hrest i (by omega), Function.update_of_ne (by omega)]
    · refine ⟨n + 1, Nat.le_refl _, by simpa using hlt, by intros; omega, ?_, ?_, by omega,
        by intros; omega, ?_⟩
      · intro i hi
        simp [insertLoop, hlt, Function.update_of_ne (show i ≠ n + 1 by omega)]
      · intro _
        simp [insertLoop, hlt]
      · intro i hi
        simp [insertLoop, hlt, Function.update_of_ne (show i ≠ n + 1 by omega)]

/-- The block lies between two neighbouring regions, or outside all of them. -/
def Free (L : List LmbProperty) (base size : Nat) : Prop :=
  ∀ x ∈ L, base + size ≤ x.base ∨ x.base + x.size ≤ base

/-- Enlarging a region by a free block at one of its ends keeps the shape. -/
theorem Good.grown {pre post : List LmbProperty} {x x' : LmbProperty} {base size : Nat}
    (h : Good (pre ++ x :: post)) (hfree : Free (pre ++ x :: post) base size)
    (hsize : 0 < size) (hblock : base + size < 4294967296) (hx : Grown base size x x') :
    Good (pre ++ x' :: post) := by
  obtain ⟨hpre, hpost, hpos, hfit, hbelow, habove, hcross⟩ := Good.middle_iff.mp h
  have hfpre : ∀ y ∈ pre, base + size ≤ y.base ∨ y.base + y.size ≤ base :=
    fun y hy => hfree y (by simp [hy])
  have hfpost : ∀ y ∈ post, base + size ≤ y.base ∨ y.base + y.size ≤ base :=
    fun y hy => hfree y (by simp [hy])
  rcases hx with ⟨hb, rfl⟩ | ⟨hb, rfl⟩
  · refine Good.middle_iff.mpr ⟨hpre, hpost, ?_, ?_, ?_, ?_, hcross⟩
    · change 0 < x.size + size
      omega
    · change base + (x.size + size) < 4294967296
      omega
    · intro y hy
      have := hpre.pos y hy
      have := hbelow y hy
      have := hfpre y hy
      change y.base + y.size ≤ base
      omega
    · intro y hy
      have := habove y hy
      change base + (x.size + size) ≤ y.base
      omega
  · refine Good.middle_iff.mpr ⟨hpre, hpost, ?_, ?_, hbelow, ?_, hcross⟩
    · change 0 < x.size + size
      omega
    · change x.base + (x.size + size) < 4294967296
      omega
    · intro y hy
      have := hpost.pos y hy
      have := habove y hy
      have := hfpost y hy
      change x.base + (x.size + size) ≤ y.base
      omega

theorem Grown.covers {x x' : LmbProperty} {base size : Nat} (h : Grown base size x x') (a : Nat) :
    (x'.base ≤ a ∧ a < x'.base + x'.size) ↔
      (x.base ≤ a ∧ a < x.base + x.size) ∨ (base ≤ a ∧ a < base + size) := by
  rcases h with ⟨hb, rfl⟩ | ⟨hb, rfl⟩ <;> simp only <;> omega

/-- Merging two touching neighbours keeps the shape. -/
theorem Good.merge {pre post : List LmbProperty} {x y : LmbProperty}
    (h : Good (pre ++ x :: y :: post)) (hxy : y.base = x.base + x.size) :
    Good (pre ++ ⟨x.base, x.size + y.size⟩ :: post) := by
  obtain ⟨hpre, hrest, hpos, hfit, hbelow, habove, hcross⟩ := Good.middle_iff.mp h
  have hrest : Good ([] ++ y :: post) := hrest
  obtain ⟨-, hpost, hypos, hyfit, -, hyabove, -⟩ := Good.middle_iff.mp hrest
  refine Good.middle_iff.mpr ⟨hpre, hpost, ?_, ?_, hbelow, ?_, ?_⟩
  · change 0 < x.size + y.size
    omega
  · change x.base + (x.size + y.size) < 4294967296
    omega
  · intro z hz
    have := hyabove z hz
    change x.base + (x.size + y.size) ≤ z.base
    omega
  · exact fun z hz w hw => hcross z hz w (by simp [hw])

/-- A free block put behind the regions that start below it keeps the shape. -/
theorem Good.insert {pre post : List LmbProperty} {base size : Nat}
    (h : Good (pre ++ post)) (hfree : Free (pre ++ post) base size)
    (hsize : 0 < size) (hblock : base + size < 4294967296)
    (hpre : ∀ x ∈ pre, x.base ≤ base) (hpost : ∀ x ∈ post, base < x.base) :
    Good (pre ++ ⟨base, size⟩ :: post) := by
  obtain ⟨sorted, pos, fits⟩ := h
  obtain ⟨spre, spost, cross⟩ := List.pairwise_append.mp sorted
  refine Good.middle_iff.mpr ⟨⟨spre, fun x hx => pos x (by simp [hx]),
    fun x hx => fits x (by simp [hx])⟩, ⟨spost, fun x hx => pos x (by simp [hx]),
    fun x hx => fits x (by simp [hx])⟩, hsize, hblock, ?_, ?_, cross⟩
  · intro x hx
    have := hpre x hx
    have := pos x (by simp [hx])
    have := hfree x (by simp [hx])
    change x.base + x.size ≤ base
    omega
  · intro x hx
    have := hpost x hx
    have := pos x (by simp [hx])
    have := hfree x (by simp [hx])
    change base + size ≤ x.base
    omega

end UBoot.Lmb
