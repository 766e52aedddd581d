import UBoot.Mx6.LcdClock

/-!
# Where the pixel clock is the one that is asked for

The dividers are searched for and the fraction of the PLL is computed with 32 bits.
-/

namespace UBoot.Mx6

open Verification

/-! ## The search -/

section

variable (freq : UInt32)

/-- The frequency of the PLL for a pair of dividers, when it is in range. -/
def inRange (d : UInt32 × UInt32) : Option Nat :=
  if freq * d.1 * d.2 > vcoMax ∨ freq * d.1 * d.2 < vcoMin then none
  else some (freq * d.1 * d.2).toNat

variable {freq}

theorem inRange_eq_some {d : UInt32 × UInt32} {t : Nat} : inRange freq d = some t ↔
    t = (freq * d.1 * d.2).toNat ∧ 648000 ≤ t ∧ t ≤ 1296000 := by
  have hmax : vcoMax.toNat = 1296000 := by decide
  have hmin : vcoMin.toNat = 648000 := by decide
  rw [inRange]
  split_ifs with h <;>
    rw [gt_iff_lt, UInt32.lt_iff_toNat_lt, UInt32.lt_iff_toNat_lt, hmax, hmin] at h
  · refine iff_of_false (by simp) ?_
    rintro ⟨rfl, hle, hge⟩
    omega
  · rw [Option.some.injEq]
    exact ⟨fun h => by omega, fun h => h.1.symm⟩

theorem freq_mul_ne_zero {d : UInt32 × UInt32} {t : Nat} (h : inRange freq d = some t) :
    freq * d.1 * d.2 ≠ 0 := by
  intro h0
  obtain ⟨ht, hle, _⟩ := inRange_eq_some.mp h
  rw [h0] at ht
  exact absurd hle (by rw [ht]; decide)

/-- The variables of the search stand for the best pair so far. -/
def Keeps (freq : UInt32) : Option ((UInt32 × UInt32) × Nat) → Best → Prop
  | none, b => b = ⟨0, 1, 1⟩
  | some (d, t), b => b = ⟨freq * d.1 * d.2, d.1, d.2⟩ ∧ inRange freq d = some t

theorem bestRound_keeps {o : Option ((UInt32 × UInt32) × Nat)} {b : Best}
    (h : Keeps freq o b) (d : UInt32 × UInt32) :
    Keeps freq (improve (inRange freq) o d) (bestRound freq b d) := by
  unfold improve bestRound
  by_cases hout : freq * d.1 * d.2 > vcoMax ∨ freq * d.1 * d.2 < vcoMin
  · rw [if_pos hout, inRange, if_pos hout]
    exact h
  have hd : inRange freq d = some (freq * d.1 * d.2).toNat := if_neg hout
  rw [if_neg hout, hd]
  match o, h with
  | none, h =>
    obtain rfl : b = ⟨0, 1, 1⟩ := h
    exact ⟨rfl, hd⟩
  | some (c, t), ⟨hb, hc⟩ =>
    obtain ⟨ht, -⟩ := inRange_eq_some.mp hc
    have hne : b.best ≠ 0 := by
      rw [hb]
      exact freq_mul_ne_zero hc
    have hlt : freq * d.1 * d.2 < b.best ↔ (freq * d.1 * d.2).toNat < t := by
      rw [ht, hb, UInt32.lt_iff_toNat_lt]
    simp only [hne, hlt, false_or]
    split_ifs
    · exact ⟨rfl, hd⟩
    · exact ⟨hb, hc⟩

theorem bestLoop_keeps : Keeps freq (dividerPairs.foldl (improve (inRange freq)) none)
    (bestLoop freq) :=
  List.foldl_rel (r := Keeps freq) rfl fun d _ _ _ h => bestRound_keeps h d

/-- The search finds nothing when no pair puts the PLL in range. -/
theorem bestLoop_best_eq_zero :
    (bestLoop freq).best = 0 ↔ ∀ d ∈ dividerPairs, inRange freq d = none := by
  rw [← foldl_improve_eq_none]
  have h := @bestLoop_keeps freq
  cases hfold : dividerPairs.foldl (improve (inRange freq)) none with
  | none =>
    rw [hfold] at h
    exact iff_of_true (congrArg Best.best h) rfl
  | some best =>
    obtain ⟨d, t⟩ := best
    rw [hfold] at h
    refine iff_of_false ?_ (Option.some_ne_none _)
    rw [h.1]
    exact freq_mul_ne_zero h.2

/-- What the search finds is the least frequency in range. -/
theorem bestLoop_least (h : (bestLoop freq).best ≠ 0) :
    ∃ d ∈ dividerPairs, bestLoop freq = ⟨freq * d.1 * d.2, d.1, d.2⟩ ∧
      (∃ t, inRange freq d = some t) ∧
      ∀ d' ∈ dividerPairs, ∀ t, inRange freq d' = some t → (freq * d.1 * d.2).toNat ≤ t := by
  have hkeeps := @bestLoop_keeps freq
  cases hfold : dividerPairs.foldl (improve (inRange freq)) none with
  | none =>
    rw [hfold] at hkeeps
    exact absurd (congrArg Best.best hkeeps) h
  | some best =>
    obtain ⟨d, t⟩ := best
    rw [hfold] at hkeeps
    have hbest := firstBest_of_foldl_improve hfold
    obtain ⟨before, after, hl, _⟩ := hbest.first
    have ht := (inRange_eq_some.mp hkeeps.2).1
    refine ⟨d, by rw [hl]; simp, hkeeps.1, ⟨t, hkeeps.2⟩, fun d' hd' t' ht' => ?_⟩
    rw [← ht]
    exact hbest.le d' hd' t' ht'

end

/-! ## The range of the PLL -/

def Divider (i : Nat) : Prop := 1 ≤ i ∧ i ≤ 8

instance : DecidablePred Divider := fun _ => inferInstanceAs (Decidable (_ ∧ _))

/-- The range of the PLL in kHz. -/
def VcoRange (v : Nat) : Prop := 648000 ≤ v ∧ v ≤ 1296000

/-- Some combination of the dividers puts the PLL in range. -/
def Feasible (freq : Nat) : Prop :=
  ∃ i j s, Divider i ∧ Divider j ∧ s ≤ 2 ∧ VcoRange (freq * i * j * 2 ^ s)

theorem divider_of_mem : ∀ d ∈ dividerPairs, Divider d.1.toNat ∧ Divider d.2.toNat := by
  intro d hd
  have hall : ([1, 2, 3, 4, 5, 6, 7, 8] : List UInt32).all (fun n => Divider n.toNat) = true := by
    decide
  have hdivider (n : UInt32) (hn : n ∈ ([1, 2, 3, 4, 5, 6, 7, 8] : List UInt32)) :
      Divider n.toNat := of_decide_eq_true (List.all_eq_true.mp hall n hn)
  exact ⟨hdivider d.1 (mem_dividerPairs hd).1, hdivider d.2 (mem_dividerPairs hd).2⟩

theorem exists_mem_dividerPairs {i j : Nat} (hi : Divider i) (hj : Divider j) :
    ∃ d ∈ dividerPairs, d.1.toNat = i ∧ d.2.toNat = j := by
  have hall : ∀ i ∈ List.range' 1 8, ∀ j ∈ List.range' 1 8,
      ∃ d ∈ dividerPairs, d.1.toNat = i ∧ d.2.toNat = j := by decide
  refine hall i (List.mem_range'_1.mpr ?_) j (List.mem_range'_1.mpr ?_)
  · exact ⟨hi.1, Nat.lt_succ_of_le hi.2⟩
  · exact ⟨hj.1, Nat.lt_succ_of_le hj.2⟩

theorem toNat_mul_mul (f i j : UInt32) :
    (f * i * j).toNat = f.toNat * i.toNat * j.toNat % 4294967296 := by
  rw [UInt32.toNat_mul, UInt32.toNat_mul, Nat.mod_mul_mod]

variable {freq : UInt32}

/-- The search finds nothing when no pair puts the PLL in range, computed with 32 bits. -/
theorem bestLoop_fails_iff : (bestLoop freq).best = 0 ↔
    ∀ i j, Divider i → Divider j → ¬VcoRange (freq.toNat * i * j % 4294967296) := by
  rw [bestLoop_best_eq_zero]
  constructor
  · rintro h i j hi hj hrange
    obtain ⟨d, hd, rfl, rfl⟩ := exists_mem_dividerPairs hi hj
    rw [← toNat_mul_mul] at hrange
    have hsome := inRange_eq_some.mpr ⟨rfl, hrange⟩
    rw [h d hd] at hsome
    cases hsome
  · intro h d hd
    rw [Option.eq_none_iff_forall_ne_some]
    rintro t ht
    obtain ⟨rfl, hrange⟩ := inRange_eq_some.mp ht
    rw [toNat_mul_mul] at hrange
    exact h _ _ (divider_of_mem d hd).1 (divider_of_mem d hd).2 hrange

/-- What the search finds, in natural numbers. -/
theorem bestLoop_finds {b : Best} (hb : bestLoop freq = b) (h : b.best ≠ 0) :
    (b.pred, b.postd) ∈ dividerPairs ∧
      b.best.toNat = freq.toNat * b.pred.toNat * b.postd.toNat % 4294967296 ∧
      VcoRange b.best.toNat ∧
      ∀ i j, Divider i → Divider j → VcoRange (freq.toNat * i * j % 4294967296) →
        b.best.toNat ≤ freq.toNat * i * j % 4294967296 := by
  obtain ⟨d, hd, heq, ⟨t, ht⟩, hleast⟩ := bestLoop_least (by rwa [hb])
  obtain rfl := hb.symm.trans heq
  obtain ⟨rfl, hrange⟩ := inRange_eq_some.mp ht
  refine ⟨hd, toNat_mul_mul _ _ _, hrange, fun i j hi hj hij => ?_⟩
  obtain ⟨d', hd', rfl, rfl⟩ := exists_mem_dividerPairs hi hj
  rw [← toNat_mul_mul] at hij ⊢
  exact hleast d' hd' _ (inRange_eq_some.mpr ⟨rfl, hij⟩)

/-- From a frequency that the largest dividers bring into range or above it, some pair
reaches the range unless it is above it already. -/
theorem exists_vcoRange {f : Nat} (hlow : 648000 ≤ f * 64) (hhigh : f ≤ 1296000) :
    ∃ i j, Divider i ∧ Divider j ∧ VcoRange (f * i * j) := by
  by_contra hnot
  -- the products with 1, 2, 4 and so on skip no range of one octave
  have hpow : ∀ i j, (1 ≤ i ∧ i ≤ 8) → (1 ≤ j ∧ j ≤ 8) →
      ¬(648000 ≤ f * (i * j) ∧ f * (i * j) ≤ 1296000) :=
    fun i j hi hj h => hnot ⟨i, j, hi, hj, by rwa [VcoRange, Nat.mul_assoc]⟩
  have h1 := hpow 1 1 (by omega) (by omega)
  have h2 := hpow 1 2 (by omega) (by omega)
  have h4 := hpow 1 4 (by omega) (by omega)
  have h8 := hpow 1 8 (by omega) (by omega)
  have h16 := hpow 2 8 (by omega) (by omega)
  have h32 := hpow 4 8 (by omega) (by omega)
  have h64 := hpow 8 8 (by omega) (by omega)
  omega

/-! ## The choice -/

/-- `post_div` for a value of `freq * 8 * 8`. -/
def PostDivOf (m : Nat) (s : UInt32) : Prop :=
  s = 0 ∧ 648000 ≤ m ∨ s = 1 ∧ m < 648000 ∧ 648000 < 2 * m ∨
    s = 2 ∧ 2 * m ≤ 648000 ∧ 648000 < 4 * m

theorem toNat_mul_sixtyfour (freq : UInt32) :
    (freq * 8 * 8).toNat = freq.toNat * 64 % 4294967296 := by
  rw [toNat_mul_mul]
  exact congrArg (· % 4294967296) (Nat.mul_assoc _ _ _)

/-- What the first loop comes to, and that the second goes on from there. -/
theorem chooseDividers_cases (freq : UInt32) :
    (4 * (freq.toNat * 64 % 4294967296) ≤ 648000 ∧ chooseDividers freq = none) ∨
    ∃ s f : UInt32, PostDivOf (freq.toNat * 64 % 4294967296) s ∧
      f.toNat = freq.toNat * 2 ^ s.toNat % 4294967296 ∧
      chooseDividers freq = if (bestLoop f).best = 0 then none else some (s, bestLoop f) := by
  have hmin : vcoMin.toNat = 648000 := by decide
  have hm := toNat_mul_sixtyfour freq
  have hscaled : ∀ i : UInt32, i = 1 ∨ i = 2 → freq.toNat * 64 % 4294967296 < 648000 →
      (freq * 8 * 8 * ((1 : UInt32) <<< i)).toNat =
        freq.toNat * 64 % 4294967296 * 2 ^ i.toNat := by
    rintro i hi hlt
    rw [UInt32.toNat_mul, hm]
    obtain rfl | rfl := hi
    · exact Nat.mod_eq_of_lt (show _ * 2 < _ by omega)
    · exact Nat.mod_eq_of_lt (show _ * 4 < _ by omega)
  rw [chooseDividers]
  by_cases hlow : freq * 8 * 8 < vcoMin
  swap
  · refine .inr ⟨0, freq, .inl ⟨rfl, ?_⟩, ?_, by rw [if_neg hlow]; rfl⟩
    · rw [UInt32.lt_iff_toNat_lt, hm, hmin] at hlow
      omega
    · change freq.toNat = freq.toNat * 1 % 4294967296
      rw [Nat.mul_one, Nat.mod_eq_of_lt freq.toNat_lt]
  have hlt : freq.toNat * 64 % 4294967296 < 648000 := by
    rwa [UInt32.lt_iff_toNat_lt, hm, hmin] at hlow
  have h1 : freq * 8 * 8 * ((1 : UInt32) <<< (1 : UInt32)) > vcoMin ↔
      648000 < freq.toNat * 64 % 4294967296 * 2 := by
    rw [gt_iff_lt, UInt32.lt_iff_toNat_lt, hmin, hscaled 1 (.inl rfl) hlt]
    rfl
  have h2 : freq * 8 * 8 * ((1 : UInt32) <<< (2 : UInt32)) > vcoMin ↔
      648000 < freq.toNat * 64 % 4294967296 * 4 := by
    rw [gt_iff_lt, UInt32.lt_iff_toNat_lt, hmin, hscaled 2 (.inr rfl) hlt]
    rfl
  rw [if_pos hlow, postDivLoop, List.find?_cons, List.find?_cons, List.find?_nil]
  by_cases hone : freq * 8 * 8 * ((1 : UInt32) <<< (1 : UInt32)) > vcoMin
  · refine .inr ⟨1, freq * ((1 : UInt32) <<< (1 : UInt32)), .inr (.inl ⟨rfl, hlt, ?_⟩), ?_, ?_⟩
    · have := h1.mp hone
      omega
    · exact UInt32.toNat_mul _ _
    · rw [decide_eq_true hone]
      rfl
  · rw [decide_eq_false hone]
    by_cases htwo : freq * 8 * 8 * ((1 : UInt32) <<< (2 : UInt32)) > vcoMin
    · refine .inr ⟨2, freq * ((1 : UInt32) <<< (2 : UInt32)), .inr (.inr ⟨rfl, ?_, ?_⟩), ?_, ?_⟩
      · have := h1.not.mp hone
        omega
      · have := h2.mp htwo
        omega
      · exact UInt32.toNat_mul _ _
      · rw [decide_eq_true htwo]
        rfl
    · rw [decide_eq_false htwo]
      have := h2.not.mp htwo
      exact .inl ⟨by omega, rfl⟩

/-! ## What is programmed -/

/-- The output of the PLL when `v` kHz are wanted: the product with `pll_denom` has 32 bits. -/
def pllFor (v : Nat) : ℚ :=
  24000 * (v / 24000 : Nat) + 24000 * ((v % 24000 * 1000000 % 4294967296 / 24000 : Nat) / 1000000)

section

variable {c : Ccm} {base : Lcdif} {s : UInt32} {b : Best}

theorem mxsSetLcdclk_fail (hsel : base.clkSel.get c.cscdr2 = 0)
    (h : chooseDividers freq = none) : mxsSetLcdclk true c base freq = (.fail, c) := by
  rw [mxsSetLcdclk, if_neg (not_not_intro hsel), h]

theorem toNat_pllNum {v : UInt32} (hv : v.toNat ≤ 1296000) :
    ((v - hck * (v / hck)) * 1000000 / hck).toNat =
      v.toNat % 24000 * 1000000 % 4294967296 / 24000 := by
  have hhck : hck.toNat = 24000 := by decide
  have hdiv : (v / hck).toNat = v.toNat / 24000 := by rw [UInt32.toNat_div, hhck]
  have hmul : (hck * (v / hck)).toNat = 24000 * (v.toNat / 24000) := by
    rw [UInt32.toNat_mul, hdiv, hhck]
    exact Nat.mod_eq_of_lt (by omega)
  have hsub : (v - hck * (v / hck)).toNat = v.toNat % 24000 := by
    rw [UInt32.toNat_sub_of_le _ _ (by rw [UInt32.le_iff_toNat_le, hmul]; omega), hmul]
    omega
  rw [UInt32.toNat_div, UInt32.toNat_mul, hsub, hhck]
  rfl

/-- The registers after a choice. -/
theorem mxsSetLcdclk_set (hsel : base.clkSel.get c.cscdr2 = 0)
    (h : chooseDividers freq = some (s, b)) (hs : s = 0 ∨ s = 1 ∨ s = 2)
    (hd : (b.pred, b.postd) ∈ dividerPairs) (hv : VcoRange b.best.toNat) :
    (mxsSetLcdclk true c base freq).1 = .set ∧
      (mxsSetLcdclk true c base freq).2.pllOutput = pllFor b.best.toNat ∧
      (mxsSetLcdclk true c base freq).2.pixelClock base =
        pllFor b.best.toNat / (2 ^ s.toNat * b.pred.toNat * b.postd.toNat : Nat) := by
  have hhck : hck.toNat = 24000 := by decide
  have hdiv : (b.best / hck).toNat = b.best.toNat / 24000 := by rw [UInt32.toNat_div, hhck]
  have hnum := toNat_pllNum hv.2
  have hv' := hv.2
  have hpll : (enablePllVideo true c (b.best / hck)
      ((b.best - hck * (b.best / hck)) * 1000000 / hck) 1000000 s).1.pllOutput =
        pllFor b.best.toNat := by
    rw [pllOutput_enablePllVideo c (by rw [hdiv]; omega) (by rw [hnum]; omega) (by decide), hdiv,
      hnum]
    rfl
  have htest := @testDivider_enablePllVideo c (b.best / hck)
    ((b.best - hck * (b.best / hck)) * 1000000 / hck) 1000000 s hs
  have hpred := fun reg => preDivider_set base reg hd
  have hpostd := fun reg => postDivider_set base reg hd
  rw [mxsSetLcdclk, if_neg (not_not_intro hsel), h]
  refine ⟨rfl, ?_, ?_⟩
  · cases base <;> exact hpll
  · rw [← hpll, ← htest, ← hpred (base.predSel.set c.cscdr2 0x2)]
    cases base
    · rw [← hpostd c.cbcmr]
      rfl
    · rw [← hpostd c.cscmr1]
      rfl

end

/-! ## The fraction -/

/-- A PLL that is meant to run at `v` kHz is in range and, divided by `d`, less than one kHz
away from a frequency. -/
def Accurate (v d freq : Nat) : Prop :=
  648000 ≤ pllFor v ∧ pllFor v ≤ 1296000 ∧ |pllFor v / d - freq| < 1

theorem cast_eq_div_add_mod (v : Nat) :
    (v : ℚ) = 24000 * (v / 24000 : Nat) + (v % 24000 : Nat) := by
  exact_mod_cast (Nat.div_add_mod v 24000).symm

theorem pllFor_of_fits {v : Nat} (h : v % 24000 < 4295) :
    (v : ℚ) - 1 / 40 < pllFor v ∧ pllFor v ≤ v := by
  have hv := cast_eq_div_add_mod v
  rw [pllFor, Nat.mod_eq_of_lt (by omega)]
  have hle : 24000 * (v % 24000 * 1000000 / 24000) ≤ v % 24000 * 1000000 := by omega
  have hlt : v % 24000 * 1000000 < 24000 * (v % 24000 * 1000000 / 24000) + 24000 := by omega
  rw [← Nat.cast_le (α := ℚ)] at hle
  rw [← Nat.cast_lt (α := ℚ)] at hlt
  push_cast at hle hlt
  constructor <;> linarith

theorem pllFor_of_wraps {v : Nat} (h : 4295 ≤ v % 24000) : pllFor v ≤ v - 4294 := by
  have hv := cast_eq_div_add_mod v
  rw [pllFor]
  have hle : 24000 * (v % 24000 * 1000000 % 4294967296 / 24000) + 4294000000 ≤
      v % 24000 * 1000000 := by omega
  rw [← Nat.cast_le (α := ℚ)] at hle
  push_cast at hle
  linarith

/-- The clock is accurate exactly when the product for the fraction fits in 32 bits. -/
theorem accurate_iff {freq d : Nat} (hd : 1 ≤ d) (hd' : d ≤ 256) (hv : VcoRange (freq * d)) :
    Accurate (freq * d) d freq ↔ freq * d % 24000 < 4295 := by
  have hpos : (0 : ℚ) < d := by exact_mod_cast hd
  have hone : (1 : ℚ) ≤ d := by exact_mod_cast hd
  have hle : (d : ℚ) ≤ 256 := by exact_mod_cast hd'
  have hdiff : pllFor (freq * d) / d - freq = (pllFor (freq * d) - (freq * d : Nat)) / d := by
    rw [Nat.cast_mul, sub_div, mul_div_cancel_right₀ _ hpos.ne']
  rw [Accurate, hdiff, abs_lt, lt_div_iff₀ hpos, div_lt_iff₀ hpos]
  constructor
  · rintro ⟨_, _, hlow, _⟩
    by_contra hwraps
    have := pllFor_of_wraps (Nat.not_lt.mp hwraps)
    linarith
  · intro hfits
    obtain ⟨hlt, hge⟩ := pllFor_of_fits hfits
    have hmax : ((freq * d : Nat) : ℚ) ≤ 1296000 := by exact_mod_cast hv.2
    refine ⟨?_, hge.trans hmax, by linarith, by linarith⟩
    obtain heq | hgt := Nat.eq_or_lt_of_le hv.1
    · rw [← heq, pllFor]
      norm_num
    · have hmin : (648001 : ℚ) ≤ (freq * d : Nat) := by exact_mod_cast hgt
      linarith

/-! ## The main result -/

/-- For an interface on its pre-mux clock and a PLL that locks: what is programmed is in range
and accurate, and a failure is reported when no dividers put the PLL in range. -/
def LcdclkRight (freq : UInt32) : Prop :=
  ∀ (c : Ccm) (base : Lcdif), base.clkSel.get c.cscdr2 = 0 →
    ((mxsSetLcdclk true c base freq).1 = .set →
      648000 ≤ (mxsSetLcdclk true c base freq).2.pllOutput ∧
      (mxsSetLcdclk true c base freq).2.pllOutput ≤ 1296000 ∧
      |(mxsSetLcdclk true c base freq).2.pixelClock base - freq.toNat| < 1) ∧
    ((mxsSetLcdclk true c base freq).1 = .fail ↔ ¬Feasible freq.toNat)

/-- The exponent of the smallest test divider with which the largest dividers come into
range. -/
def testDividerFor (freq : Nat) : Nat :=
  if 648000 ≤ freq * 64 then 0 else if 648000 < 2 * (freq * 64) then 1 else 2

/-- A value from 648000 on that the pre-divider and the post-divider make of a frequency. -/
def Candidate (freq v : Nat) : Prop :=
  648000 ≤ v ∧ ∃ i j, Divider i ∧ Divider j ∧ v = freq * i * j

/-- Below `2 ^ 26` the smallest candidate in range is at most 4294 above a multiple of 24000.
From there on all candidates miss the range when they are computed with 32 bits. -/
def ClockCondition (freq : Nat) : Prop :=
  if freq < 67108864 then
    ∀ v, IsLeast {v | Candidate (freq * 2 ^ testDividerFor freq) v} v → v ≤ 1296000 →
      v % 24000 < 4295
  else
    4 * (freq * 64 % 4294967296) ≤ 648000 ∨ 648000 ≤ freq * 64 % 4294967296 ∧
      ∀ i j, Divider i → Divider j → ¬VcoRange (freq * i * j % 4294967296)

theorem not_feasible_of_lt {f : Nat} (h : 1296000 < f) : ¬Feasible f := by
  rintro ⟨i, j, s, hi, hj, _, _, hle⟩
  have hprod : f * (i * j * 2 ^ s) ≤ 1296000 := by
    rw [← Nat.mul_assoc, ← Nat.mul_assoc]
    exact hle
  have hpos : 0 < i * j * 2 ^ s := by
    have := hi.1
    have := hj.1
    positivity
  have := Nat.le_mul_of_pos_right f hpos
  omega

theorem chooseDividers_some {s : UInt32} {b : Best} (h : chooseDividers freq = some (s, b)) :
    ∃ f : UInt32, PostDivOf (freq.toNat * 64 % 4294967296) s ∧
      f.toNat = freq.toNat * 2 ^ s.toNat % 4294967296 ∧ bestLoop f = b ∧ b.best ≠ 0 := by
  obtain ⟨_, hnone⟩ | ⟨s', f, hs, hf, hchoose⟩ := chooseDividers_cases freq
  · rw [h] at hnone
    cases hnone
  · rw [h] at hchoose
    split_ifs at hchoose with h0
    obtain ⟨rfl, rfl⟩ := Prod.mk.inj (Option.some.inj hchoose)
    exact ⟨f, hs, hf, rfl, h0⟩

theorem ite_eq_none_iff {α : Type} {p : Prop} [Decidable p] {a : α} :
    (if p then none else some a) = none ↔ p := by
  by_cases h : p
  · rw [if_pos h]
    exact iff_of_true rfl h
  · rw [if_neg h]
    exact iff_of_false (Option.some_ne_none a) h

theorem PostDivOf.cases {m : Nat} {s : UInt32} (h : PostDivOf m s) : s = 0 ∨ s = 1 ∨ s = 2 :=
  h.imp And.left fun h => h.imp And.left And.left

/-- The clock is right when the choice fails exactly where it has to, and what it finds is
accurate. -/
theorem lcdclkRight_iff_choose (freq : UInt32) : LcdclkRight freq ↔
    (chooseDividers freq = none ↔ ¬Feasible freq.toNat) ∧
      ∀ s b, chooseDividers freq = some (s, b) →
        Accurate b.best.toNat (2 ^ s.toNat * b.pred.toNat * b.postd.toNat) freq.toNat := by
  have hset : ∀ {c : Ccm} {base : Lcdif} {s b}, base.clkSel.get c.cscdr2 = 0 →
      chooseDividers freq = some (s, b) → (mxsSetLcdclk true c base freq).1 = .set ∧
        (mxsSetLcdclk true c base freq).2.pllOutput = pllFor b.best.toNat ∧
        (mxsSetLcdclk true c base freq).2.pixelClock base =
          pllFor b.best.toNat / (2 ^ s.toNat * b.pred.toNat * b.postd.toNat : Nat) := by
    intro c base s b hsel h
    obtain ⟨f, hs, _, hb, h0⟩ := chooseDividers_some h
    obtain ⟨hd, _, hv, _⟩ := bestLoop_finds hb h0
    exact mxsSetLcdclk_set hsel h hs.cases hd hv
  constructor
  · intro h
    obtain ⟨haccurate, hfail⟩ := h ⟨0, 0, 0, 0, 0, 0⟩ .lcdif1 rfl
    constructor
    · rw [← hfail]
      cases hchoose : chooseDividers freq with
      | none => exact iff_of_true rfl (congrArg Prod.fst (mxsSetLcdclk_fail rfl hchoose))
      | some choice =>
        refine iff_of_false (Option.some_ne_none _) ?_
        rw [(hset rfl hchoose).1]
        exact Report.noConfusion
    · intro s b hchoose
      obtain ⟨hreport, hpll, hclock⟩ := @hset ⟨0, 0, 0, 0, 0, 0⟩ .lcdif1 s b rfl hchoose
      have := haccurate hreport
      rwa [hpll, hclock] at this
  · rintro ⟨hfail, haccurate⟩ c base hsel
    rw [← hfail]
    cases hchoose : chooseDividers freq with
    | none =>
      rw [mxsSetLcdclk_fail hsel hchoose]
      exact ⟨fun h => Report.noConfusion h, iff_of_true rfl rfl⟩
    | some choice =>
      obtain ⟨hreport, hpll, hclock⟩ := hset hsel hchoose
      rw [hreport, hpll, hclock]
      exact ⟨fun _ => haccurate _ _ hchoose,
        iff_of_false Report.noConfusion (Option.some_ne_none _)⟩

/-! ### Below `2 ^ 26` -/

theorem toNat_scaled {s f : UInt32} (hsmall : freq.toNat < 67108864)
    (hs : PostDivOf (freq.toNat * 64 % 4294967296) s)
    (hf : f.toNat = freq.toNat * 2 ^ s.toNat % 4294967296) :
    s.toNat = testDividerFor freq.toNat ∧ f.toNat = freq.toNat * 2 ^ s.toNat ∧
      f.toNat < 67108864 ∧ 648000 ≤ f.toNat * 64 := by
  rw [Nat.mod_eq_of_lt (by omega)] at hs
  rw [testDividerFor]
  obtain ⟨rfl, hm⟩ | ⟨rfl, hm, hm'⟩ | ⟨rfl, hm, hm'⟩ := hs
  · change f.toNat = freq.toNat * 1 % 4294967296 at hf
    change 0 = _ ∧ f.toNat = freq.toNat * 1 ∧ _
    rw [if_pos hm]
    omega
  · change f.toNat = freq.toNat * 2 % 4294967296 at hf
    change 1 = _ ∧ f.toNat = freq.toNat * 2 ∧ _
    rw [if_neg (by omega), if_pos hm']
    omega
  · change f.toNat = freq.toNat * 4 % 4294967296 at hf
    change 2 = _ ∧ f.toNat = freq.toNat * 4 ∧ _
    rw [if_neg (by omega), if_neg (by omega)]
    omega

theorem mod_mul_mul {f i j : Nat} (hf : f < 67108864) (hi : Divider i) (hj : Divider j) :
    f * i * j % 4294967296 = f * i * j := by
  have hij : i * j ≤ 8 * 8 := Nat.mul_le_mul hi.2 hj.2
  have hle : f * (i * j) ≤ f * 64 := Nat.mul_le_mul_left f hij
  rw [Nat.mul_assoc]
  exact Nat.mod_eq_of_lt (by omega)

theorem bestLoop_fails_iff_of_lt {f : UInt32} (hf : f.toNat < 67108864) :
    (bestLoop f).best = 0 ↔ ∀ i j, Divider i → Divider j → ¬VcoRange (f.toNat * i * j) := by
  rw [bestLoop_fails_iff]
  refine forall₂_congr fun i j => forall₂_congr fun hi hj => ?_
  rw [mod_mul_mul hf hi hj]

/-- Below `2 ^ 26` nothing wraps in the choice, and it fails exactly where it has to. -/
theorem chooseDividers_eq_none_iff (hsmall : freq.toNat < 67108864) :
    chooseDividers freq = none ↔ ¬Feasible freq.toNat := by
  obtain ⟨hlow, hnone⟩ | ⟨s, f, hs, hf, hchoose⟩ := chooseDividers_cases freq
  · refine iff_of_true hnone ?_
    rintro ⟨i, j, s, hi, hj, hs, hge, _⟩
    have hprod : i * j * 2 ^ s ≤ 8 * 8 * 2 ^ 2 :=
      Nat.mul_le_mul (Nat.mul_le_mul hi.2 hj.2) (Nat.pow_le_pow_right (by decide) hs)
    have hle := Nat.mul_le_mul_left freq.toNat hprod
    rw [← Nat.mul_assoc, ← Nat.mul_assoc] at hle
    omega
  obtain ⟨_, hf', hlt, hge⟩ := toNat_scaled hsmall hs hf
  rw [hchoose, ite_eq_none_iff, bestLoop_fails_iff_of_lt hlt]
  constructor
  · intro hall
    have hhigh : 1296000 < f.toNat := by
      by_contra hle
      obtain ⟨i, j, hi, hj, hrange⟩ := exists_vcoRange hge (Nat.not_lt.mp hle)
      exact hall i j hi hj hrange
    refine not_feasible_of_lt ?_
    rw [Nat.mod_eq_of_lt (by omega)] at hs
    obtain ⟨rfl, _⟩ | ⟨rfl, _⟩ | ⟨rfl, _⟩ := hs
    · change f.toNat = freq.toNat * 1 at hf'
      omega
    · change f.toNat = freq.toNat * 2 at hf'
      omega
    · change f.toNat = freq.toNat * 4 at hf'
      omega
  · intro hnot i j hi hj hrange
    have hs2 : s.toNat ≤ 2 := by obtain rfl | rfl | rfl := hs.cases <;> decide
    refine hnot ⟨i, j, s.toNat, hi, hj, hs2, ?_⟩
    rw [hf'] at hrange
    rwa [Nat.mul_right_comm _ j, Nat.mul_right_comm _ i]

/-- What is chosen below `2 ^ 26` is the smallest candidate. -/
theorem isLeast_of_chooseDividers (hsmall : freq.toNat < 67108864) {s : UInt32} {b : Best}
    (h : chooseDividers freq = some (s, b)) :
    IsLeast {v | Candidate (freq.toNat * 2 ^ testDividerFor freq.toNat) v} b.best.toNat ∧
      VcoRange b.best.toNat ∧
      b.best.toNat = freq.toNat * (2 ^ s.toNat * b.pred.toNat * b.postd.toNat) ∧
      1 ≤ 2 ^ s.toNat * b.pred.toNat * b.postd.toNat ∧
      2 ^ s.toNat * b.pred.toNat * b.postd.toNat ≤ 256 := by
  obtain ⟨f, hs, hf, hb, h0⟩ := chooseDividers_some h
  obtain ⟨hs', hf', hlt, _⟩ := toNat_scaled hsmall hs hf
  obtain ⟨hd, hbest, hv, hleast⟩ := bestLoop_finds hb h0
  obtain ⟨hpred, hpostd⟩ := divider_of_mem _ hd
  rw [mod_mul_mul hlt hpred hpostd] at hbest
  refine ⟨⟨⟨hv.1, _, _, hpred, hpostd, ?_⟩, ?_⟩, hv, ?_, ?_, ?_⟩
  · rw [← hs', ← hf']
    exact hbest
  · rintro v ⟨hge, i, j, hi, hj, rfl⟩
    rw [← hs', ← hf'] at hge ⊢
    by_cases hhigh : f.toNat * i * j ≤ 1296000
    · have := hleast i j hi hj
      rw [mod_mul_mul hlt hi hj] at this
      exact this ⟨hge, hhigh⟩
    · exact hv.2.trans (Nat.not_le.mp hhigh).le
  · rw [hbest, hf', Nat.mul_assoc, Nat.mul_assoc, Nat.mul_assoc]
  · have := hpred.1
    have := hpostd.1
    exact Nat.succ_le_of_lt (by positivity)
  · have hs2 : s.toNat ≤ 2 := by obtain rfl | rfl | rfl := hs.cases <;> decide
    exact Nat.mul_le_mul (Nat.mul_le_mul (Nat.pow_le_pow_right (by decide) hs2) hpred.2) hpostd.2

/-! ### From `2 ^ 26` on -/

/-- The choice fails where all candidates miss the range with 32 bits. -/
theorem chooseDividers_eq_none_iff_misses (freq : UInt32) : chooseDividers freq = none ↔
    4 * (freq.toNat * 64 % 4294967296) ≤ 648000 ∨ 648000 ≤ freq.toNat * 64 % 4294967296 ∧
      ∀ i j, Divider i → Divider j → ¬VcoRange (freq.toNat * i * j % 4294967296) := by
  obtain ⟨hlow, hnone⟩ | ⟨s, f, hs, hf, hchoose⟩ := chooseDividers_cases freq
  · exact iff_of_true hnone (.inl hlow)
  rw [hchoose, ite_eq_none_iff, bestLoop_fails_iff]
  obtain ⟨rfl, hm⟩ | hs := hs
  · change f.toNat = freq.toNat * 1 % 4294967296 at hf
    rw [Nat.mul_one, Nat.mod_eq_of_lt freq.toNat_lt] at hf
    rw [hf]
    constructor
    · exact fun hall => .inr ⟨hm, hall⟩
    · rintro (hlow | ⟨_, hall⟩)
      · omega
      · exact hall
  · have hdivider : Divider 8 := ⟨by decide, by decide⟩
    -- with the largest dividers the scaled frequency is in range
    have hrange : VcoRange (f.toNat * 8 * 8 % 4294967296) := by
      rw [VcoRange]
      obtain ⟨rfl, hm, hm'⟩ | ⟨rfl, hm, hm'⟩ := hs
      · change f.toNat = freq.toNat * 2 % 4294967296 at hf
        omega
      · change f.toNat = freq.toNat * 4 % 4294967296 at hf
        omega
    refine iff_of_false (fun hall => hall 8 8 hdivider hdivider hrange) ?_
    obtain ⟨_, hm, hm'⟩ | ⟨_, hm, hm'⟩ := hs
    · omega
    · omega

/-- The pixel clock is right exactly when the fraction and the candidates do not wrap. -/
theorem lcdclkRight_iff (freq : UInt32) : LcdclkRight freq ↔ ClockCondition freq.toNat := by
  rw [lcdclkRight_iff_choose, ClockCondition]
  split_ifs with hsmall
  · rw [and_iff_right (chooseDividers_eq_none_iff hsmall)]
    constructor
    · intro haccurate v hv hle
      obtain ⟨hge, i, j, hi, hj, heq⟩ := hv.1
      have hfeasible : Feasible freq.toNat := by
        refine ⟨i, j, testDividerFor freq.toNat, hi, hj, ?_, ?_⟩
        · rw [testDividerFor]
          split_ifs <;> decide
        · rw [Nat.mul_right_comm _ j, Nat.mul_right_comm _ i, ← heq]
          exact ⟨hge, hle⟩
      cases hchoose : chooseDividers freq with
      | none => exact absurd hfeasible ((chooseDividers_eq_none_iff hsmall).mp hchoose)
      | some choice =>
        obtain ⟨hleast, hrange, hbest, hpos, hd⟩ := isLeast_of_chooseDividers hsmall hchoose
        have := haccurate _ _ hchoose
        rw [hbest] at this hrange hleast
        rw [hv.unique hleast]
        exact (accurate_iff hpos hd hrange).mp this
    · intro hfits s b hchoose
      obtain ⟨hleast, hrange, hbest, hpos, hle⟩ := isLeast_of_chooseDividers hsmall hchoose
      have hlt := hfits _ hleast hrange.2
      rw [hbest] at hrange hlt ⊢
      exact (accurate_iff hpos hle hrange).mpr hlt
  · have hnot : ¬Feasible freq.toNat := not_feasible_of_lt (by omega)
    rw [← chooseDividers_eq_none_iff_misses]
    constructor
    · exact fun h => h.1.mpr hnot
    · intro hnone
      refine ⟨iff_of_true hnone hnot, fun s b h => ?_⟩
      rw [hnone] at h
      cases h

/-- For 148500 kHz the PLL is to run at 742500 kHz, 22500 above a multiple of 24000. -/
theorem lcdclk_wraps : ¬LcdclkRight 148500 := by
  rw [lcdclkRight_iff_choose]
  rintro ⟨_, haccurate⟩
  have hchoose : chooseDividers 148500 = some (0, ⟨742500, 1, 5⟩) := by decide
  have hwrong : Accurate (148500 * 5) 5 148500 := haccurate 0 ⟨742500, 1, 5⟩ hchoose
  rw [accurate_iff (by decide) (by decide) ⟨by decide, by decide⟩] at hwrong
  exact absurd hwrong (by decide)

end UBoot.Mx6
