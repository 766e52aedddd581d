import Mathlib.Data.Int.ModEq
import Mathlib.Data.Nat.Digits.Defs
import Mathlib.Data.Nat.Prime.Basic
import Mathlib.Tactic.LinearCombination
import UBoot.Rsa.ModExp
import UBoot.Verification.Montgomery

/-!
# Montgomery multiplication

What the word loops compute. `Inverted key` says that `n0inv` is the negated inverse
of the modulus; then `montgomery_mul` is a Montgomery product whose result is below
the radix, though not below the modulus. `Usable key` says in addition that the
modulus fills its words.
-/

namespace UBoot.Rsa

open Verification

/-- The number held by an array of words. -/
def value (ws : List UInt32) : Nat := Nat.ofDigits 4294967296 (ws.map UInt32.toNat)

@[simp] theorem value_nil : value [] = 0 := by simp [value]

@[simp] theorem value_cons (w : UInt32) (ws : List UInt32) :
    value (w :: ws) = w.toNat + 4294967296 * value ws := by
  simp [value, Nat.ofDigits_cons]

theorem value_append (us ws : List UInt32) :
    value (us ++ ws) = value us + 4294967296 ^ us.length * value ws := by
  simp [value, Nat.ofDigits_append]

theorem value_lt (ws : List UInt32) : value ws < 4294967296 ^ ws.length := by
  induction ws with
  | nil => simp
  | cons w ws ih =>
    rw [value_cons, List.length_cons, Nat.pow_succ]
    have hw := w.toNat_lt
    omega

@[simp] theorem value_replicate (len : Nat) : value (List.replicate len 0) = 0 := by
  induction len with
  | zero => simp
  | succ len ih => simp [List.replicate_succ, ih]

/-- Words are determined by their number. -/
theorem value_injective {us ws : List UInt32} (hlen : us.length = ws.length)
    (h : value us = value ws) : us = ws := by
  induction us generalizing ws with
  | nil => exact (List.length_eq_zero_iff.mp hlen.symm).symm
  | cons u us ih =>
    obtain _ | ⟨w, ws⟩ := ws
    · simp at hlen
    · simp only [value_cons] at h
      have hu := u.toNat_lt
      have hw := w.toNat_lt
      have hhead : u = w := UInt32.toNat_inj.mp (by omega)
      rw [hhead, ih (by simpa using hlen) (by omega)]

/-! ### Subtraction and comparison -/

theorem length_subtractLoop (acc : Int) (num ms : List UInt32) (h : num.length = ms.length) :
    (subtractLoop acc num ms).length = num.length := by
  induction num generalizing acc ms with
  | nil => simp [subtractLoop]
  | cons n num ih =>
    obtain _ | ⟨m, ms⟩ := ms
    · simp at h
    · simp [subtractLoop, ih _ ms (by simpa using h)]

/-- The words hold the difference, up to a multiple of the radix that went into
the final borrow. -/
theorem value_subtractLoop (acc : Int) (num ms : List UInt32) (h : num.length = ms.length) :
    ∃ borrow : Int, (value (subtractLoop acc num ms) : Int) =
      acc + value num - value ms + borrow * 4294967296 ^ num.length := by
  induction num generalizing acc ms with
  | nil =>
    obtain rfl : ms = [] := List.length_eq_zero_iff.mp h.symm
    exact ⟨-acc, by simp [subtractLoop]⟩
  | cons n num ih =>
    obtain _ | ⟨m, ms⟩ := ms
    · simp at h
    · obtain ⟨borrow, hb⟩ :=
        ih ((acc + ((n.toNat : Int) - m.toNat)) / 4294967296) ms (by simpa using h)
      refine ⟨borrow, ?_⟩
      have hdiv := Int.emod_add_mul_ediv (acc + ((n.toNat : Int) - m.toNat)) 4294967296
      have hlow : (UInt32.ofNat
          ((acc + ((n.toNat : Int) - m.toNat)) % 4294967296).toNat).toNat =
          (acc + ((n.toNat : Int) - m.toNat)) % 4294967296 := by
        rw [UInt32.toNat_ofNat']
        omega
      simp only [subtractLoop, value_cons, List.length_cons]
      push_cast
      rw [hlow, hb, pow_succ]
      linear_combination hdiv

theorem length_subtractModulus {key : RsaPublicKey} {num : List UInt32}
    (h : num.length = key.len) : (subtractModulus key num).length = key.len := by
  rw [subtractModulus, length_subtractLoop _ _ _ (h.trans key.length_modulus.symm), h]

/-- Subtracting the modulus from `num + c * radix`, when the difference fits. -/
theorem value_subtractModulus {key : RsaPublicKey} {num : List UInt32} {c t : Nat}
    (h : num.length = key.len) (ht : t < 4294967296 ^ key.len)
    (heq : value num + c * 4294967296 ^ key.len = t + value key.modulus) :
    value (subtractModulus key num) = t := by
  obtain ⟨borrow, hb⟩ := value_subtractLoop 0 num key.modulus (h.trans key.length_modulus.symm)
  have hlt := value_lt (subtractModulus key num)
  rw [length_subtractModulus h] at hlt
  have hmod : value (subtractModulus key num) ≡ t [MOD 4294967296 ^ key.len] := by
    rw [← Int.natCast_modEq_iff]
    rw [Int.modEq_iff_dvd]
    refine ⟨c - borrow, ?_⟩
    rw [h] at hb
    have heq' : (value num : Int) + c * 4294967296 ^ key.len = t + value key.modulus := by
      exact_mod_cast heq
    rw [subtractModulus, hb]
    push_cast
    linear_combination -heq'
  exact Nat.ModEq.eq_of_lt_of_lt hmod hlt ht

theorem greaterEqualLoop_eq (pairs : List (UInt32 × UInt32)) :
    greaterEqualLoop pairs.reverse =
      decide (value (pairs.map Prod.snd) ≤ value (pairs.map Prod.fst)) := by
  induction pairs using List.reverseRecOn with
  | nil => simp [greaterEqualLoop]
  | append_singleton pairs p ih =>
    obtain ⟨num, m⟩ := p
    have hlow := value_lt (pairs.map Prod.fst)
    have hlowm := value_lt (pairs.map Prod.snd)
    simp only [List.length_map] at hlow hlowm
    simp only [List.reverse_append, List.reverse_cons, List.reverse_nil, List.nil_append,
      List.singleton_append, greaterEqualLoop, List.map_append, List.map_cons, List.map_nil,
      value_append, value_cons, value_nil, Nat.mul_zero, Nat.add_zero, List.length_map,
      UInt32.lt_iff_toNat_lt, gt_iff_lt]
    -- the last pair decides, unless its words are equal
    split
    · rename_i hlt
      have := Nat.mul_le_mul_left (4294967296 ^ pairs.length) (Nat.succ_le_of_lt hlt)
      rw [Nat.succ_eq_add_one, Nat.mul_add] at this
      simp only [false_eq_decide_iff]
      omega
    · split
      · rename_i hgt
        have := Nat.mul_le_mul_left (4294967296 ^ pairs.length) (Nat.succ_le_of_lt hgt)
        rw [Nat.succ_eq_add_one, Nat.mul_add] at this
        simp only [true_eq_decide_iff]
        omega
      · have : num.toNat = m.toNat := by omega
        simp [ih, this]

theorem greaterEqualModulus_eq {key : RsaPublicKey} {num : List UInt32}
    (h : num.length = key.len) :
    greaterEqualModulus key num = decide (value key.modulus ≤ value num) := by
  have hlen := key.length_modulus
  rw [greaterEqualModulus, greaterEqualLoop_eq, List.map_snd_zip (by omega),
    List.map_fst_zip (by omega)]

/-! ### The multiply-add step -/

theorem word_mul_lt (a b : UInt32) : a.toNat * b.toNat ≤ 18446744065119617025 :=
  Nat.mul_le_mul (Nat.le_of_lt_succ a.toNat_lt) (Nat.le_of_lt_succ b.toNat_lt)

@[simp] theorem toNat_high (acc : UInt64) : (acc >>> 32).toNat = acc.toNat / 4294967296 := by
  simp [UInt64.toNat_shiftRight, Nat.shiftRight_eq_div_pow]

/-- The two accumulations of the source do not overflow 64 bits. -/
theorem toNat_accumulate (acc : UInt64) (a b w : UInt32) :
    ((acc >>> 32) + a.toUInt64 * b.toUInt64 + w.toUInt64).toNat =
      acc.toNat / 4294967296 + a.toNat * b.toNat + w.toNat := by
  have hab := word_mul_lt a b
  have hacc := acc.toNat_lt
  have hw := w.toNat_lt
  simp only [UInt64.toNat_add, UInt64.toNat_mul, UInt32.toNat_toUInt64, toNat_high]
  omega

theorem toNat_start (a b w : UInt32) :
    (a.toUInt64 * b.toUInt64 + w.toUInt64).toNat = a.toNat * b.toNat + w.toNat := by
  have hab := word_mul_lt a b
  have hw := w.toNat_lt
  simp only [UInt64.toNat_add, UInt64.toNat_mul, UInt32.toNat_toUInt64]
  omega

/-- Across the loop the stored words and the two carries add up to what came in. -/
theorem value_mulAddLoop (a d0 : UInt32) (accA accB : UInt64) (bs rs ms : List UInt32)
    (hr : rs.length = bs.length) (hm : ms.length = bs.length) :
    (mulAddLoop a d0 accA accB bs rs ms).1.length = bs.length ∧
    value (mulAddLoop a d0 accA accB bs rs ms).1 + 4294967296 ^ bs.length *
        ((mulAddLoop a d0 accA accB bs rs ms).2.1.toNat / 4294967296 +
          (mulAddLoop a d0 accA accB bs rs ms).2.2.toNat / 4294967296) =
      accA.toNat / 4294967296 + accB.toNat / 4294967296 +
        a.toNat * value bs + value rs + d0.toNat * value ms := by
  induction bs generalizing accA accB rs ms with
  | nil =>
    obtain rfl : rs = [] := List.length_eq_zero_iff.mp hr
    obtain rfl : ms = [] := List.length_eq_zero_iff.mp hm
    simp [mulAddLoop]
  | cons b bs ih =>
    obtain _ | ⟨r, rs⟩ := rs
    · simp at hr
    obtain _ | ⟨m, ms⟩ := ms
    · simp at hm
    simp only [mulAddLoop]
    set accA' := (accA >>> 32) + a.toUInt64 * b.toUInt64 + r.toUInt64 with hA
    set accB' := (accB >>> 32) + d0.toUInt64 * m.toUInt64 + accA'.toUInt32.toUInt64 with hB
    have hA' : accA'.toNat = accA.toNat / 4294967296 + a.toNat * b.toNat + r.toNat :=
      toNat_accumulate accA a b r
    have hB' : accB'.toNat =
        accB.toNat / 4294967296 + d0.toNat * m.toNat + accA'.toNat % 4294967296 := by
      rw [hB, toNat_accumulate, UInt64.toNat_toUInt32]
    obtain ⟨hlen, hval⟩ := ih accA' accB' rs ms (by simpa using hr) (by simpa using hm)
    refine ⟨by simp [hlen], ?_⟩
    simp only [value_cons, List.length_cons, UInt64.toNat_toUInt32]
    have hdivA := Nat.mod_add_div accA'.toNat 4294967296
    have hdivB := Nat.mod_add_div accB'.toNat 4294967296
    rw [pow_succ]
    linear_combination 4294967296 * hval + hdivA + hdivB + hA' + hB'

/-- `n0inv` is the negated inverse of the modulus. -/
structure Inverted (key : RsaPublicKey) : Prop where
  pos : 0 < key.len
  inverse : (value key.modulus * key.n0inv.toNat + 1) % 4294967296 = 0

/-- The modulus fills its words and `n0inv` is its negated inverse. -/
structure Usable (key : RsaPublicKey) : Prop where
  pos : 0 < key.len
  full : 4294967296 ^ key.len < 2 * value key.modulus
  inverse : (value key.modulus * key.n0inv.toNat + 1) % 4294967296 = 0

theorem Usable.inverted {key : RsaPublicKey} (h : Usable key) : Inverted key := ⟨h.pos, h.inverse⟩

theorem Inverted.modulus_pos {key : RsaPublicKey} (h : Inverted key) : 0 < value key.modulus := by
  have := h.inverse
  by_contra hzero
  rw [Nat.eq_zero_of_not_pos hzero] at this
  omega

/-- `d0` clears the lowest word. -/
theorem low_word_cleared {key : RsaPublicKey} (h : Inverted key) {m0 : UInt32}
    {ms : List UInt32} (hm : key.modulus = m0 :: ms) (w : UInt32) :
    ((w * key.n0inv).toNat * m0.toNat + w.toNat) % 4294967296 = 0 := by
  have hinv : (m0.toNat * key.n0inv.toNat + 1) % 4294967296 = 0 := by
    have := h.inverse
    rw [hm, value_cons, Nat.add_mul, Nat.add_right_comm, Nat.mul_assoc,
      Nat.add_mul_mod_self_left] at this
    exact this
  have hzero : (w.toNat * (m0.toNat * key.n0inv.toNat + 1)) % 4294967296 = 0 := by
    rw [Nat.mul_mod, hinv, Nat.mul_zero, Nat.zero_mod]
  rw [UInt32.toNat_mul, ← hzero]
  have hmul : w.toNat * key.n0inv.toNat % 2 ^ 32 * m0.toNat ≡
      w.toNat * key.n0inv.toNat * m0.toNat [MOD 4294967296] :=
    (Nat.mod_modEq _ _).mul_right _
  calc (w.toNat * key.n0inv.toNat % 2 ^ 32 * m0.toNat + w.toNat) % 4294967296
      = (w.toNat * key.n0inv.toNat * m0.toNat + w.toNat) % 4294967296 := hmul.add_right _
    _ = (w.toNat * (m0.toNat * key.n0inv.toNat + 1)) % 4294967296 := by ring_nf

/-- Before the final subtraction: the words and the carry out of them hold the
exact quotient of one Montgomery round. -/
theorem mulAdd_round {key : RsaPublicKey} (h : Inverted key) (a b0 r0 : UInt32) {m0 : UInt32}
    {bs rs ms : List UInt32} (hm : key.modulus = m0 :: ms) (hr : rs.length = bs.length)
    (hms : ms.length = bs.length) :
    ∃ (d0 : UInt32) (words : List UInt32) (top : UInt64),
      montgomeryMulAddStep key (b0 :: bs) (r0 :: rs) a =
        (if top >>> 32 ≠ 0 then subtractModulus key (words ++ [top.toUInt32])
         else words ++ [top.toUInt32]) ∧
      words.length = bs.length ∧
      4294967296 * (value (words ++ [top.toUInt32]) +
          top.toNat / 4294967296 * 4294967296 ^ key.len) =
        value (r0 :: rs) + a.toNat * value (b0 :: bs) + d0.toNat * value key.modulus := by
  set accA0 := a.toUInt64 * b0.toUInt64 + r0.toUInt64 with hA0
  set d0 := accA0.toUInt32 * key.n0inv with hd0
  set accB0 := d0.toUInt64 * m0.toUInt64 + accA0.toUInt32.toUInt64 with hB0
  obtain ⟨hlen, hval⟩ := value_mulAddLoop a d0 accA0 accB0 bs rs ms hr hms
  rcases hloop : mulAddLoop a d0 accA0 accB0 bs rs ms with ⟨words, accA, accB⟩
  rw [hloop] at hlen hval
  dsimp only at hlen hval
  refine ⟨d0, words, (accA >>> 32) + (accB >>> 32), ?_, hlen, ?_⟩
  · simp only [montgomeryMulAddStep, hm, ← hA0, ← hd0, ← hB0, hloop]
  · have hkey : key.len = bs.length + 1 := by
      rw [← key.length_modulus, hm, List.length_cons, hms]
    have hA : accA0.toNat = a.toNat * b0.toNat + r0.toNat := toNat_start a b0 r0
    have hB : accB0.toNat = d0.toNat * m0.toNat + accA0.toNat % 4294967296 := by
      rw [hB0, toNat_start, UInt64.toNat_toUInt32]
    have hcleared : accB0.toNat % 4294967296 = 0 := by
      have := low_word_cleared h hm accA0.toUInt32
      rw [UInt64.toNat_toUInt32] at this
      rw [hB]
      exact this
    have htop : ((accA >>> 32) + (accB >>> 32)).toNat =
        accA.toNat / 4294967296 + accB.toNat / 4294967296 := by
      have := accA.toNat_lt
      have := accB.toNat_lt
      simp only [UInt64.toNat_add, toNat_high]
      omega
    rw [value_append, value_cons, value_nil, UInt64.toNat_toUInt32, hlen, htop, hkey, hm,
      value_cons, value_cons, value_cons, pow_succ]
    have hdivA := Nat.mod_add_div accA0.toNat 4294967296
    have hdivB := Nat.mod_add_div accB0.toNat 4294967296
    have hdivT := Nat.mod_add_div
      (accA.toNat / 4294967296 + accB.toNat / 4294967296) 4294967296
    linear_combination 4294967296 * hval + 4294967296 * 4294967296 ^ bs.length * hdivT +
      hdivA + hdivB - hcleared + hA + hB

/-- One step is one Montgomery round, and its result fits the words. -/
theorem montgomeryMulAddStep_spec {key : RsaPublicKey} (h : Inverted key)
    {b result : List UInt32} (hb : b.length = key.len) (hr : result.length = key.len)
    (a : UInt32) :
    (montgomeryMulAddStep key b result a).length = key.len ∧
      4294967296 * value (montgomeryMulAddStep key b result a) ≡
        value result + a.toNat * value b [MOD value key.modulus] := by
  have hlen := key.length_modulus
  have hpos := h.pos
  obtain ⟨m0, ms, hm⟩ := List.exists_cons_of_length_pos (by omega : 0 < key.modulus.length)
  obtain ⟨b0, bs, rfl⟩ := List.exists_cons_of_length_pos (by omega : 0 < b.length)
  obtain ⟨r0, rs, rfl⟩ := List.exists_cons_of_length_pos (by omega : 0 < result.length)
  have hml : (m0 :: ms).length = key.len := by rw [← hm, hlen]
  rw [List.length_cons] at hml hb hr
  obtain ⟨d0, words, top, hstep, hwords, hround⟩ :=
    mulAdd_round h a b0 r0 hm
      (show rs.length = bs.length by omega) (show ms.length = bs.length by omega)
  have hnum : (words ++ [top.toUInt32]).length = key.len := by simp [hwords, hb]
  have hbound : value (words ++ [top.toUInt32]) +
      top.toNat / 4294967296 * 4294967296 ^ key.len <
        4294967296 ^ key.len + value key.modulus := by
    have hb' := value_lt (b0 :: bs)
    have hr' := value_lt (r0 :: rs)
    rw [List.length_cons, hb] at hb'
    rw [List.length_cons, hr] at hr'
    exact Montgomery.round_lt hround hr' hb' a.toNat_lt d0.toNat_lt h.modulus_pos
  have hmod : 4294967296 * (value (words ++ [top.toUInt32]) +
      top.toNat / 4294967296 * 4294967296 ^ key.len) ≡
        value (r0 :: rs) + a.toNat * value (b0 :: bs) [MOD value key.modulus] := by
    rw [hround]
    simp [Nat.ModEq]
  rw [hstep]
  have hzero : top >>> 32 = 0 ↔ top.toNat / 4294967296 = 0 := by
    rw [← UInt64.toNat_inj, toNat_high]
    rfl
  by_cases htop : top >>> 32 = 0
  · rw [if_neg (by simpa using htop)]
    rw [hzero.mp htop, Nat.zero_mul, Nat.add_zero] at hmod
    exact ⟨hnum, hmod⟩
  · -- a carry out of the words: the modulus is subtracted once
    rw [if_pos htop]
    have hcarry : 1 ≤ top.toNat / 4294967296 := Nat.one_le_iff_ne_zero.mpr (htop ∘ hzero.mpr)
    have hge := Nat.mul_le_mul_right (4294967296 ^ key.len) hcarry
    have hn := value_lt key.modulus
    rw [hlen] at hn
    obtain ⟨t, ht⟩ : ∃ t, value (words ++ [top.toUInt32]) +
        top.toNat / 4294967296 * 4294967296 ^ key.len = t + value key.modulus :=
      ⟨_, (Nat.sub_add_cancel (by omega)).symm⟩
    have hval := value_subtractModulus hnum (by omega) ht
    refine ⟨length_subtractModulus hnum, ?_⟩
    rw [hval]
    refine Nat.ModEq.trans ?_ hmod
    rw [ht, Nat.mul_add]
    simp [Nat.ModEq]

/-- The rounds of `montgomery_mul` over the digits of the multiplier. -/
theorem foldl_montgomeryMulAddStep {key : RsaPublicKey} (h : Inverted key) {b : List UInt32}
    (hb : b.length = key.len) (as result : List UInt32) (hr : result.length = key.len) :
    (as.foldl (montgomeryMulAddStep key b) result).length = key.len ∧
      4294967296 ^ as.length * value (as.foldl (montgomeryMulAddStep key b) result) ≡
        value result + value as * value b [MOD value key.modulus] := by
  induction as generalizing result with
  | nil => exact ⟨hr, by simp [Nat.ModEq]⟩
  | cons a as ih =>
    obtain ⟨hlen, hstep⟩ := montgomeryMulAddStep_spec h hb hr a
    obtain ⟨hlen', hrest⟩ := ih _ hlen
    refine ⟨hlen', ?_⟩
    rw [List.length_cons, List.foldl_cons, value_cons]
    calc 4294967296 ^ (as.length + 1) *
          value (as.foldl (montgomeryMulAddStep key b) (montgomeryMulAddStep key b result a))
        = 4294967296 * (4294967296 ^ as.length *
          value (as.foldl (montgomeryMulAddStep key b)
            (montgomeryMulAddStep key b result a))) := by ring
      _ ≡ 4294967296 * (value (montgomeryMulAddStep key b result a) + value as * value b)
          [MOD value key.modulus] := hrest.mul_left _
      _ = 4294967296 * value (montgomeryMulAddStep key b result a) +
          4294967296 * (value as * value b) := by ring
      _ ≡ value result + a.toNat * value b + 4294967296 * (value as * value b)
          [MOD value key.modulus] := hstep.add_right _
      _ = value result + (a.toNat + 4294967296 * value as) * value b := by ring

theorem length_montgomeryMulAddStep {key : RsaPublicKey} {b result : List UInt32}
    (hb : b.length = key.len) (hr : result.length = key.len) (a : UInt32) :
    (montgomeryMulAddStep key b result a).length = key.len := by
  have hlen := key.length_modulus
  unfold montgomeryMulAddStep
  split
  · rename_i b0 bs r0 rs m0 ms hm
    rw [hm] at hlen
    rw [List.length_cons] at hlen hb hr
    have hwords := fun d0 accA accB => (value_mulAddLoop a d0 accA accB bs rs ms
      (show rs.length = bs.length by omega) (show ms.length = bs.length by omega)).1
    dsimp only
    split
    · exact length_subtractModulus (by rw [List.length_append, hwords, List.length_singleton, hb])
    · rw [List.length_append, hwords, List.length_singleton, hb]
  · exact hr

theorem length_montgomeryMul {key : RsaPublicKey} (a : List UInt32) {b : List UInt32}
    (hb : b.length = key.len) : (montgomeryMul key a b).length = key.len := by
  rw [montgomeryMul]
  have hzero : (List.replicate key.len (0 : UInt32)).length = key.len := List.length_replicate
  revert hzero
  generalize List.replicate key.len (0 : UInt32) = result
  induction a generalizing result with
  | nil => exact id
  | cons a as ih => exact fun hr => ih _ (length_montgomeryMulAddStep hb hr a)

/-- `montgomery_mul` is a Montgomery product for the radix `2 ^ (32 * len)`. -/
theorem montgomeryMul_product {key : RsaPublicKey} (h : Inverted key) {a b : List UInt32}
    (ha : a.length = key.len) (hb : b.length = key.len) :
    Montgomery.Product (value key.modulus) (4294967296 ^ key.len) (value a) (value b)
      (value (montgomeryMul key a b)) := by
  constructor
  · have := value_lt (montgomeryMul key a b)
    rwa [length_montgomeryMul a hb] at this
  · have := (foldl_montgomeryMulAddStep h hb a (List.replicate key.len 0) (by simp)).2
    rw [ha, value_replicate, Nat.zero_add] at this
    rw [Nat.mul_comm]
    exact this

/-- A modulus with an inverse is odd. -/
theorem Inverted.coprime {key : RsaPublicKey} (h : Inverted key) :
    Nat.Coprime (value key.modulus) (4294967296 ^ key.len) := by
  have hodd : value key.modulus % 2 = 1 := by
    have := h.inverse
    by_contra heven
    have hzero : value key.modulus % 2 = 0 := by omega
    obtain ⟨c, hc⟩ := Nat.dvd_of_mod_eq_zero hzero
    rw [hc, Nat.mul_assoc] at this
    omega
  apply Nat.Coprime.pow_right
  exact Nat.Coprime.pow_right 32 (Nat.coprime_two_right.mpr (Nat.odd_iff.mpr hodd))

end UBoot.Rsa
