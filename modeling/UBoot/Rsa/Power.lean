import Mathlib.Data.Nat.Bits
import Mathlib.Data.Nat.Bitwise
import Mathlib.Data.Nat.Size
import Mathlib.NumberTheory.Padics.PadicVal.Basic
import Mathlib.NumberTheory.Multiplicity
import UBoot.Rsa.Montgomery

/-!
# The exponent that the code raises to

`pow_mod` scans the exponent bit by bit, and the bit test loses every bit from
32 on. Only the topmost one is not tested. So the code raises to
`seenExponent e`, and it computes the power it is asked for exactly when the
lost bits are zero.
-/

namespace UBoot.Rsa

open Verification

/-! ### Bytes and words -/

theorem value_rsaConvertBigEndian (src : Ptr) (len : Nat) :
    value (rsaConvertBigEndian src len) = beValue (src.bytes (4 * len)) := by
  have hrev : rsaConvertBigEndian src len =
      ((List.range len).map (getUnalignedBe32 src)).reverse := by
    apply List.ext_getElem
    · simp [rsaConvertBigEndian]
    · intro i h1 h2
      simp [rsaConvertBigEndian]
  rw [hrev]
  clear hrev
  induction len with
  | zero => simp [Ptr.bytes]
  | succ len ih =>
    rw [List.range_succ, List.map_append, List.reverse_append, Nat.mul_succ, Ptr.bytes_add,
      beValue_append, ← ih]
    simp only [List.map_cons, List.map_nil, List.reverse_singleton, List.singleton_append,
      value_cons, Ptr.length_bytes]
    have hword : (getUnalignedBe32 src len).toNat =
        beValue ((src.add (4 * len)).bytes 4) := by
      have := beValue_lt ((src.add (4 * len)).bytes 4)
      rw [Ptr.length_bytes] at this
      rw [getUnalignedBe32, UInt32.toNat_ofNat']
      omega
    rw [hword]
    omega

theorem flatMap_putUnalignedBe32 (ws : List UInt32) :
    ws.reverse.flatMap putUnalignedBe32 = beBytes (4 * ws.length) (value ws) := by
  induction ws with
  | nil => rfl
  | cons w ws ih =>
    have hw := w.toNat_lt
    rw [List.reverse_cons, List.flatMap_append, ih, List.length_cons, Nat.mul_succ,
      beBytes_add, value_cons, List.flatMap_singleton, putUnalignedBe32,
      ← beBytes_mod 4 (w.toNat + _)]
    congr 2 <;> omega

/-! ### The bits of the exponent -/

theorem size_half {e : Nat} (h : 2 ≤ e) : Nat.size e = Nat.size (e / 2) + 1 := by
  apply Nat.le_antisymm
  · rw [Nat.size_le, Nat.pow_succ]
    have := Nat.lt_size_self (e / 2)
    omega
  · rw [Nat.succ_le_iff, Nat.lt_size]
    have hpos : 0 < Nat.size (e / 2) := Nat.size_pos.mpr (by omega)
    have hle : 2 ^ (Nat.size (e / 2) - 1) ≤ e / 2 := Nat.lt_size.mp (by omega)
    obtain ⟨k, hk⟩ : ∃ k, Nat.size (e / 2) = k + 1 := ⟨_, (Nat.succ_pred_eq_of_pos hpos).symm⟩
    rw [hk, Nat.add_sub_cancel] at hle
    rw [hk, Nat.pow_succ]
    omega

theorem numBitsLoop_eq (fuel bits : Nat) (e : UInt64) (hpos : 0 < e.toNat)
    (hsize : Nat.size e.toNat ≤ fuel) :
    numBitsLoop fuel (bits + 1) e = some (bits + Nat.size e.toNat) := by
  induction fuel generalizing bits e with
  | zero => exact absurd (Nat.size_pos.mpr hpos) (by omega)
  | succ fuel ih =>
    have hshift : (e >>> 1).toNat = e.toNat / 2 := by
      simp [UInt64.toNat_shiftRight, Nat.shiftRight_eq_div_pow]
    have hzero : e >>> 1 = 0 ↔ e.toNat / 2 = 0 := by
      rw [← UInt64.toNat_inj, hshift]
      rfl
    rw [numBitsLoop]
    by_cases hlast : e.toNat < 2
    · have hone : e.toNat = 1 := by omega
      rw [if_pos (hzero.mpr (by omega)), hone, Nat.size_one]
    · have hsucc := size_half (e := e.toNat) (by omega)
      rw [if_neg (by rw [hzero]; omega), ih (bits + 1) (e >>> 1) (by omega)
        (by rw [hshift]; omega), hshift, hsucc]
      congr 1
      omega

theorem numPublicExponentBits_eq (key : RsaPublicKey) :
    numPublicExponentBits key = some (Nat.size key.exponent.toNat) := by
  rw [numPublicExponentBits]
  by_cases hzero : key.exponent = 0
  · rw [if_pos hzero, hzero]
    rfl
  · have hpos : 0 < key.exponent.toNat := by
      rw [Nat.pos_iff_ne_zero]
      intro h
      exact hzero (UInt64.toNat_inj.mp h)
    rw [if_neg hzero, numBitsLoop_eq 64 0 _ hpos (Nat.size_le.mpr key.exponent.toNat_lt),
      Nat.zero_add]

/-- The bit test sees the low 32 bits only. -/
theorem isPublicExponentBitSet_iff (key : RsaPublicKey) {pos : Nat} (h : pos < 64) :
    isPublicExponentBitSet key pos ≠ 0 ↔
      pos < 32 ∧ key.exponent.toNat.testBit pos = true := by
  have hmask : ((1 : UInt64) <<< UInt64.ofNat pos).toNat = 2 ^ pos := by
    have hlt : 2 ^ pos < 2 ^ 64 := Nat.pow_lt_pow_right (by omega) h
    rw [UInt64.toNat_shiftLeft, UInt64.toNat_ofNat', Nat.mod_eq_of_lt (by omega : pos < 2 ^ 64),
      Nat.mod_eq_of_lt h]
    simpa [Nat.shiftLeft_eq] using Nat.mod_eq_of_lt hlt
  rw [ne_eq, ← UInt32.toNat_inj, isPublicExponentBitSet, UInt64.toNat_toUInt32,
    UInt64.toNat_and, hmask, Nat.and_two_pow]
  change ¬ _ = 0 ↔ _
  by_cases hlow : pos < 32
  · have hlt : 2 ^ pos < 2 ^ 32 := Nat.pow_lt_pow_right (by omega) hlow
    have hpos : 0 < 2 ^ pos := Nat.pow_pos (by omega)
    cases key.exponent.toNat.testBit pos
    · simp
    · simp only [Bool.toNat_true, Nat.one_mul, hlow, and_self, iff_true]
      omega
  · obtain ⟨k, rfl⟩ : ∃ k, pos = 32 + k := ⟨pos - 32, by omega⟩
    simp only [hlow, false_and, iff_false, not_not]
    rw [Nat.pow_add, Nat.mul_left_comm]
    exact Nat.mul_mod_right _ _

/-- The exponent with the bits that the scan does not see cleared. -/
def seenExponent (e : Nat) : Nat :=
  if Nat.size e ≤ 32 then e else 2 ^ (Nat.size e - 1) + e % 4294967296

theorem seenExponent_testBit {e j : Nat} (h : j + 1 < Nat.size e) :
    (seenExponent e).testBit j = true ↔ j < 32 ∧ e.testBit j = true := by
  rw [seenExponent]
  split
  · have : j < 32 := by omega
    simp [this]
  · rw [Nat.testBit_two_pow_add_gt (by omega), show 4294967296 = 2 ^ 32 from rfl,
      Nat.testBit_mod_two_pow, Bool.and_eq_true, decide_eq_true_eq]

theorem seenExponent_odd {e : Nat} (hodd : e % 2 = 1) :
    seenExponent e % 2 = 1 := by
  rw [seenExponent]
  split
  · exact hodd
  · obtain ⟨k, hk⟩ : ∃ k, Nat.size e - 1 = k + 1 := ⟨Nat.size e - 2, by omega⟩
    rw [hk, Nat.pow_succ]
    omega

/-- The scan starts from the topmost bit, which is one. -/
theorem seenExponent_top {e : Nat} (hsize : 2 ≤ Nat.size e) :
    seenExponent e / 2 ^ (Nat.size e - 1) = 1 := by
  have hlow : 2 ^ (Nat.size e - 1) ≤ e := Nat.lt_size.mp (by omega)
  have hhigh := Nat.lt_size_self e
  obtain ⟨k, hk⟩ : ∃ k, Nat.size e = k + 1 := ⟨Nat.size e - 1, by omega⟩
  rw [seenExponent]
  rw [hk, Nat.add_sub_cancel] at hlow ⊢
  rw [hk, Nat.pow_succ] at hhigh
  have hpos : 0 < 2 ^ k := Nat.pow_pos (by omega)
  split
  · exact Nat.div_eq_of_lt_le (by omega) (by omega)
  · have : 2 ^ 32 ≤ 2 ^ k := Nat.pow_le_pow_right (by omega) (by omega)
    have := Nat.mod_lt e (show 0 < 4294967296 by omega)
    exact Nat.div_eq_of_lt_le (by omega) (by omega)

theorem seenExponent_le (e : Nat) : seenExponent e ≤ e := by
  rw [seenExponent]
  split
  · exact Nat.le_refl e
  · have hlow : 2 ^ (Nat.size e - 1) ≤ e := Nat.lt_size.mp (by omega)
    obtain ⟨k, hk⟩ : ∃ k, Nat.size e - 1 = 32 + k := ⟨Nat.size e - 33, by omega⟩
    rw [hk, Nat.pow_add] at hlow ⊢
    have := Nat.mod_add_div e (2 ^ 32)
    have hdiv : 2 ^ k ≤ e / 2 ^ 32 := (Nat.le_div_iff_mul_le (by omega)).mpr (by omega)
    have := Nat.mul_le_mul_left (2 ^ 32) hdiv
    omega

/-- Nothing is lost exactly when bits 32 and up are zero below the topmost one. -/
theorem seenExponent_eq_iff {e : Nat} (hsize : 2 ≤ Nat.size e) :
    seenExponent e = e ↔ ∀ j, 32 ≤ j → j + 1 < Nat.size e → e.testBit j = false := by
  constructor
  · intro h j hj htop
    by_contra hbit
    rw [Bool.not_eq_false, ← h] at hbit
    exact absurd ((seenExponent_testBit htop).mp hbit).1 (by omega)
  · intro h
    by_cases hsmall : Nat.size e ≤ 32
    · rw [seenExponent, if_pos hsmall]
    · apply Nat.eq_of_testBit_eq
      intro j
      rcases Nat.lt_trichotomy (j + 1) (Nat.size e) with hj | hj | hj
      · rw [Bool.eq_iff_iff, seenExponent_testBit hj]
        by_cases hlow : j < 32
        · simp [hlow]
        · simp [hlow, h j (by omega) hj]
      · -- the topmost bit is one on both sides
        have htop := seenExponent_top hsize
        have hself : e / 2 ^ (Nat.size e - 1) = 1 := by
          have hlow : 2 ^ (Nat.size e - 1) ≤ e := Nat.lt_size.mp (by omega)
          have hhigh := Nat.lt_size_self e
          rw [← hj, Nat.pow_succ] at hhigh
          rw [← hj, Nat.add_sub_cancel] at hlow ⊢
          exact Nat.div_eq_of_lt_le (by omega) (by omega)
        rw [← hj, Nat.add_sub_cancel] at htop hself
        rw [Nat.testBit_eq_decide_div_mod_eq, Nat.testBit_eq_decide_div_mod_eq, htop, hself]
      · have hlt : e < 2 ^ j :=
          (Nat.lt_size_self e).trans_le (Nat.pow_le_pow_right (by omega) (by omega))
        rw [Nat.testBit_lt_two_pow hlt,
          Nat.testBit_lt_two_pow ((seenExponent_le e).trans_lt hlt)]

/-! ### Square and multiply -/

theorem powModLoop_represents {key : RsaPublicKey} (h : Usable key) {aScaled : List UInt32}
    (ha : aScaled.length = key.len) {x E : Nat}
    (hx : Montgomery.Represents (value key.modulus) (4294967296 ^ key.len) x (value aScaled))
    (j : Nat) (hbits : ∀ i, 0 < i → i ≤ j →
      (isPublicExponentBitSet key i ≠ 0 ↔ E.testBit i = true))
    (acc : List UInt32) (hacc : acc.length = key.len)
    (hrep : Montgomery.Represents (value key.modulus) (4294967296 ^ key.len)
      (x ^ (E / 2 ^ (j + 1))) (value acc)) :
    (powModLoop key aScaled j acc).length = key.len ∧
      Montgomery.Represents (value key.modulus) (4294967296 ^ key.len)
        (x ^ (E / 2)) (value (powModLoop key aScaled j acc)) := by
  induction j generalizing acc with
  | zero => exact ⟨hacc, by simpa [powModLoop] using hrep⟩
  | succ j ih =>
    have htmp := length_montgomeryMul acc hacc
    have hsquare := hrep.mul h.inverted.coprime hrep (montgomeryMul_product h.inverted hacc hacc)
    have hsplit : E / 2 ^ (j + 1) = E / 2 ^ (j + 1 + 1) + E / 2 ^ (j + 1 + 1) +
        E / 2 ^ (j + 1) % 2 := by
      rw [Nat.pow_succ 2 (j + 1), ← Nat.div_div_eq_div_mul]
      omega
    have hbit := hbits (j + 1) (by omega) (by omega)
    rw [Nat.testBit_eq_decide_div_mod_eq, decide_eq_true_eq] at hbit
    rw [powModLoop]
    apply ih (fun i hi hij => hbits i hi (by omega))
    · split
      · exact length_montgomeryMul _ ha
      · exact htmp
    · split
      · rename_i hset
        rw [hsplit, hbit.mp hset, Nat.pow_add, Nat.pow_add, Nat.pow_one]
        exact hsquare.mul h.inverted.coprime hx (montgomeryMul_product h.inverted htmp ha)
      · rename_i hclear
        have : E / 2 ^ (j + 1) % 2 = 0 :=
          (Nat.mod_two_eq_zero_or_one _).resolve_right fun hone => hclear (hbit.mpr hone)
        rw [hsplit, this, Nat.add_zero, Nat.pow_add]
        exact hsquare

/-- The last reduction: what is below the radix is at most one modulus too large. -/
theorem value_reduced {key : RsaPublicKey} (h : Usable key) {acc : List UInt32}
    (hacc : acc.length = key.len) :
    (if greaterEqualModulus key acc then subtractModulus key acc else acc).length = key.len ∧
    value (if greaterEqualModulus key acc then subtractModulus key acc else acc) =
      value acc % value key.modulus := by
  have hlt := value_lt acc
  rw [hacc] at hlt
  have hfull := h.full
  rw [greaterEqualModulus_eq hacc]
  by_cases hge : value key.modulus ≤ value acc
  · rw [if_pos (by simpa using hge)]
    refine ⟨length_subtractModulus hacc, ?_⟩
    rw [Nat.mod_eq_sub_mod hge, Nat.mod_eq_of_lt (by omega)]
    exact value_subtractModulus (c := 0) hacc (by omega) (by omega)
  · rw [if_neg (by simpa using hge)]
    exact ⟨hacc, (Nat.mod_eq_of_lt (by omega)).symm⟩

/-- `pow_mod` raises to the exponent that its scan sees. -/
theorem powMod_eq {key : RsaPublicKey} (h : Usable key) (hmax : key.len ≤ 128)
    (hrr : value key.rr ≡ 4294967296 ^ key.len * 4294967296 ^ key.len [MOD value key.modulus])
    (hodd : key.exponent.toNat % 2 = 1) (hsize : 2 ≤ Nat.size key.exponent.toNat)
    {inout : List UInt8} (hlen : inout.length = 4 * key.len) :
    powMod key inout = some (.ok (beBytes (4 * key.len)
      (beValue inout ^ seenExponent key.exponent.toNat % value key.modulus))) := by
  have hbits64 : Nat.size key.exponent.toNat ≤ 64 := Nat.size_le.mpr key.exponent.toNat_lt
  have hlsb : isPublicExponentBitSet key 0 ≠ 0 := by
    rw [isPublicExponentBitSet_iff key (by omega), Nat.testBit_zero]
    simp [hodd]
  set val := rsaConvertBigEndian (Ptr.ofList inout) key.len with hvaldef
  have hval : value val = beValue inout := by
    rw [hvaldef, value_rsaConvertBigEndian, ← hlen, Ptr.bytes_ofList]
  have hvlen : val.length = key.len := length_rsaConvertBigEndian _ _
  have hscaled := length_montgomeryMul val key.length_rr
  have hx := Montgomery.Represents.of_square h.inverted.coprime hrr
    (montgomeryMul_product h.inverted hvlen key.length_rr)
  obtain ⟨hlen', hrep⟩ := powModLoop_represents h hscaled hx
    (E := seenExponent key.exponent.toNat) (Nat.size key.exponent.toNat - 2)
    (fun i hi hij => by
      rw [isPublicExponentBitSet_iff key (by omega), seenExponent_testBit (by omega)])
    (montgomeryMul key val key.rr) hscaled
    (by
      rw [show Nat.size key.exponent.toNat - 2 + 1 = Nat.size key.exponent.toNat - 1 by omega,
        seenExponent_top hsize, Nat.pow_one]
      exact hx)
  set acc := powModLoop key (montgomeryMul key val key.rr)
    (Nat.size key.exponent.toNat - 2) (montgomeryMul key val key.rr) with haccdef
  have hsquare := hrep.mul h.inverted.coprime hrep (montgomeryMul_product h.inverted hlen' hlen')
  have hsqlen := length_montgomeryMul acc hlen'
  have hleave := hsquare.leave h.inverted.coprime (montgomeryMul_product h.inverted hsqlen hvlen)
  have hE : value val ^ (seenExponent key.exponent.toNat / 2) *
      value val ^ (seenExponent key.exponent.toNat / 2) * value val =
        value val ^ seenExponent key.exponent.toNat := by
    rw [← Nat.pow_add, ← Nat.pow_succ]
    congr 1
    have := seenExponent_odd hodd
    omega
  rw [hE] at hleave
  obtain ⟨hrlen, hresult⟩ := value_reduced h
    (length_montgomeryMul (montgomeryMul key acc acc) hvlen)
  rw [powMod, if_neg (by simp [RSA_MAX_KEY_BITS]; omega), if_neg (by omega)]
  simp only [numPublicExponentBits_eq, ← hvaldef, ← haccdef]
  rw [if_neg (by omega), if_neg hlsb, flatMap_putUnalignedBe32, hrlen, hresult,
    List.drop_eq_nil_of_le (by omega), List.append_nil, hleave, hval]

/-! ### `rsa_mod_exp_sw` on a key -/

/-- `prop` holds the RSA key with modulus `n` of exactly `32 * len` bits and
public exponent `e`. -/
structure Describes (prop : KeyProp) (len n e : Nat) : Prop where
  modulus : ∃ p, prop.modulus = some p ∧ beValue (p.bytes (4 * len)) = n
  rr : ∃ p, prop.rr = some p ∧ beValue (p.bytes (4 * len)) = 2 ^ (64 * len) % n
  exponent : (∃ p, prop.publicExponent = some p ∧ beValue (p.bytes 8) = e) ∨
    (prop.publicExponent = none ∧ e = 65537)
  n0inv : (n * prop.n0inv.toNat + 1) % 4294967296 = 0
  numBits : prop.numBits = 32 * len
  range : RSA_MIN_KEY_BITS ≤ 32 * len ∧ 32 * len ≤ RSA_MAX_KEY_BITS
  odd : n % 2 = 1
  full : 2 ^ (32 * len - 1) ≤ n

/-- On every key with public exponent `e` and every signature as long as the
modulus, `rsa_mod_exp_sw` writes the power and it is below the modulus. -/
def WritesPower (e : Nat) : Prop :=
  ∀ prop len n sig, Describes prop len n e → sig.length = 4 * len →
    ∃ out, rsaModExpSw sig (some prop) = some (.ok out) ∧ out.length = 4 * len ∧
      beValue out = beValue sig ^ e % n ∧ beValue out < n

theorem Describes.pos {prop : KeyProp} {len n e : Nat} (h : Describes prop len n e) : 0 < n := by
  have := h.odd
  omega

/-- Whatever the key, the code raises to the exponent that its scan sees. -/
theorem rsaModExpSw_eq {prop : KeyProp} {len n e : Nat} (h : Describes prop len n e)
    (hodd : e % 2 = 1) (hsize : 2 ≤ Nat.size e) {sig : List UInt8}
    (hsig : sig.length = 4 * len) :
    rsaModExpSw sig (some prop) =
      some (.ok (beBytes (4 * len) (beValue sig ^ seenExponent e % n))) := by
  obtain ⟨m, hm, hmval⟩ := h.modulus
  obtain ⟨r, hr, hrval⟩ := h.rr
  have hbits : (prop.numBits % 4294967296).toNat = 32 * len := by
    have := h.numBits
    have := h.range
    simp only [RSA_MAX_KEY_BITS] at this
    omega
  have hexp : (keyExponent prop).toNat = e := by
    rw [keyExponent]
    rcases h.exponent with ⟨p, hp, hpval⟩ | ⟨hp, he⟩
    · have := beValue_lt (p.bytes 8)
      rw [Ptr.length_bytes, hpval] at this
      simp only [hp, hpval, UInt64.toNat_ofNat']
      exact Nat.mod_eq_of_lt (by omega)
    · rw [hp, he]
      rfl
  have hrange := h.range
  simp only [RSA_MIN_KEY_BITS, RSA_MAX_KEY_BITS] at hrange
  simp only [rsaModExpSw, hm, hr, hbits, RSA_MIN_KEY_BITS, RSA_MAX_KEY_BITS]
  rw [if_neg (by omega), if_neg (by omega), if_neg (by omega)]
  have hlen : 32 * len / 32 = len := by omega
  have hradix : 4294967296 ^ len = 2 ^ (32 * len) := by
    rw [Nat.pow_mul]
  rw [powMod_eq]
  · simp only [hexp, value_rsaConvertBigEndian, hlen, hmval]
  · refine ⟨by simp only [hlen]; omega, ?_, ?_⟩
    · simp only [value_rsaConvertBigEndian, hlen, hmval, hradix]
      have hfull := h.full
      obtain ⟨k, hk⟩ : ∃ k, 32 * len = k + 1 := ⟨32 * len - 1, by omega⟩
      rw [hk, Nat.add_sub_cancel] at hfull
      rw [hk, Nat.pow_succ]
      have := h.odd
      -- the modulus is odd, so it is not the power of two itself
      have hne : n ≠ 2 ^ k := by
        intro heq
        obtain ⟨i, hi⟩ : ∃ i, k = i + 1 := ⟨k - 1, by omega⟩
        rw [hi, Nat.pow_succ] at heq
        omega
      omega
    · simp only [value_rsaConvertBigEndian, hlen, hmval]
      exact h.n0inv
  · simp only [hlen]
    omega
  · simp only [value_rsaConvertBigEndian, hlen, hmval, hrval, hradix, ← Nat.pow_add]
    rw [show 32 * len + 32 * len = 64 * len by omega]
    exact Nat.mod_modEq _ _
  · simp only [hexp, hodd]
  · simp only [hexp, hsize]
  · simp only [hlen, hsig]

theorem Describes.modulus_lt {prop : KeyProp} {len n e : Nat} (h : Describes prop len n e) :
    n < 256 ^ (4 * len) := by
  obtain ⟨m, -, hm⟩ := h.modulus
  have := beValue_lt (m.bytes (4 * len))
  rwa [hm, Ptr.length_bytes] at this

theorem writesPower_of_seen {e : Nat} (hodd : e % 2 = 1) (hsize : 2 ≤ Nat.size e)
    (h : seenExponent e = e) : WritesPower e := by
  intro prop len n sig hkey hsig
  have hlt := Nat.mod_lt (beValue sig ^ e) hkey.pos
  have hval : beValue (beBytes (4 * len) (beValue sig ^ e % n)) = beValue sig ^ e % n := by
    rw [beValue_beBytes, Nat.mod_eq_of_lt (hlt.trans hkey.modulus_lt)]
  refine ⟨_, rsaModExpSw_eq hkey hodd hsize hsig, by simp, ?_, ?_⟩
  · rw [h, hval]
  · rw [h, hval]
    exact hlt

/-! ### The length of the result -/

/-- The result of `pow_mod` is as long as its buffer. -/
theorem length_powMod {key : RsaPublicKey} {inout out : List UInt8}
    (h : powMod key inout = some (.ok out)) : out.length = inout.length := by
  unfold powMod at h
  split at h
  · cases h
  split at h
  · cases h
  rename_i hshort
  dsimp only at h
  split at h
  · cases h
  split at h
  · cases h
  split at h
  · cases h
  generalize hresult : (if greaterEqualModulus key _ = true then _ else _) = result at h
  have hlen : result.length = key.len := by
    have hmul := fun tmp => @length_montgomeryMul key tmp _
      (length_rsaConvertBigEndian (Ptr.ofList inout) key.len)
    rw [← hresult]
    split
    · exact length_subtractModulus (hmul _)
    · exact hmul _
  cases h
  rw [flatMap_putUnalignedBe32, List.length_append, length_beBytes, List.length_drop, hlen]
  omega

/-- The decrypted block is as long as the signature. -/
theorem length_rsaModExpSw {sig out : List UInt8} {prop : Option KeyProp}
    (h : rsaModExpSw sig prop = some (.ok out)) : out.length = sig.length := by
  unfold rsaModExpSw at h
  split at h
  · cases h
  · dsimp only at h
    split at h
    · split at h
      · cases h
      split at h
      · cases h
      split at h
      · cases h
      · exact length_powMod h
    · cases h

/-! ### A key -/

/-- A 2048-bit key whose modulus is a power of three. -/
def cubeKey (e : Nat) : KeyProp where
  rr := some (Ptr.ofList (beBytes 256 (2 ^ (64 * 64) % 3 ^ 1292)))
  modulus := some (Ptr.ofList (beBytes 256 (3 ^ 1292)))
  publicExponent := some (Ptr.ofList (beBytes 8 e))
  n0inv := 2460192495
  numBits := 2048
  expLen := 8

theorem bytes_ofList_beBytes (n v : Nat) : (Ptr.ofList (beBytes n v)).bytes n = beBytes n v := by
  have := Ptr.bytes_ofList (beBytes n v)
  rwa [length_beBytes] at this

theorem cubeKey_describes {e : Nat} (he : e < 2 ^ 64) :
    Describes (cubeKey e) 64 (3 ^ 1292) e where
  modulus := ⟨_, rfl, by
    rw [bytes_ofList_beBytes, beValue_beBytes]
    exact Nat.mod_eq_of_lt (by decide +kernel)⟩
  rr := ⟨_, rfl, by
    rw [bytes_ofList_beBytes, beValue_beBytes]
    exact Nat.mod_eq_of_lt (by decide +kernel)⟩
  exponent := .inl ⟨_, rfl, by
    rw [bytes_ofList_beBytes, beValue_beBytes]
    exact Nat.mod_eq_of_lt (by omega)⟩
  n0inv := by
    change (3 ^ 1292 * 2460192495 + 1) % 4294967296 = 0
    decide +kernel
  numBits := rfl
  range := by decide
  odd := by decide +kernel
  full := by decide +kernel

/-- The order of 4 modulo a power of three is large: two powers of it with
64-bit exponents are different. -/
theorem pow_four_injective {d : Nat} (hd : d < 2 ^ 64) (h : 3 ^ 1292 ∣ 4 ^ d - 1) : d = 0 := by
  by_contra hne
  have hval : padicValNat 3 (4 ^ d - 1 ^ d) = padicValNat 3 (4 - 1) + padicValNat 3 d :=
    padicValNat.pow_sub_pow (by decide) (by omega) (by norm_num) (by norm_num) hne
  rw [one_pow, show (4 - 1 : Nat) = 3 from rfl, padicValNat.self (by norm_num)] at hval
  have hpos : 4 ^ d - 1 ≠ 0 := by
    have : 4 ^ 1 ≤ 4 ^ d := Nat.pow_le_pow_right (by omega) (by omega)
    omega
  have hle : 1292 ≤ padicValNat 3 (4 ^ d - 1) :=
    (padicValNat_dvd_iff_le hpos).mp h
  have hdvd : 3 ^ 1291 ∣ d := (padicValNat_dvd_iff_le hne).mpr (by omega)
  have hbig : 2 ^ 64 ≤ 3 ^ 1291 := by decide +kernel
  have := Nat.le_of_dvd (by omega) hdvd
  omega

/-- With lost bits, the signature 4 under the cube key shows the wrong power. -/
theorem cubeKey_wrong {e : Nat} (hodd : e % 2 = 1) (hsize : 2 ≤ Nat.size e) (he : e < 2 ^ 64)
    (hne : seenExponent e ≠ e) :
    ¬ ∃ out, rsaModExpSw (beBytes 256 4) (some (cubeKey e)) = some (.ok out) ∧
      beValue out = 4 ^ e % 3 ^ 1292 := by
  rintro ⟨out, hout, hval⟩
  rw [rsaModExpSw_eq (cubeKey_describes he) hodd hsize (length_beBytes _ _),
    Option.some.injEq, Except.ok.injEq] at hout
  have hfour : beValue (beBytes 256 4) = 4 := by
    rw [beValue_beBytes]
    norm_num
  have hbound : 3 ^ 1292 < 256 ^ (4 * 64) := (cubeKey_describes he).modulus_lt
  have hlt := Nat.mod_lt (4 ^ seenExponent e) (cubeKey_describes he).pos
  rw [← hout, hfour, beValue_beBytes, Nat.mod_eq_of_lt (hlt.trans hbound)] at hval
  have hle := seenExponent_le e
  obtain ⟨d, hd⟩ : ∃ d, e = seenExponent e + d := ⟨e - seenExponent e, by omega⟩
  have hmul : 4 ^ e - 4 ^ seenExponent e = 4 ^ seenExponent e * (4 ^ d - 1) := by
    rw [Nat.mul_sub, Nat.mul_one, ← Nat.pow_add, ← hd]
  have hdvd : 3 ^ 1292 ∣ 4 ^ e - 4 ^ seenExponent e :=
    (Nat.modEq_iff_dvd' (Nat.pow_le_pow_right (by omega) hle)).mp hval
  rw [hmul] at hdvd
  have hcop := Nat.Coprime.pow 1292 (seenExponent e) (show Nat.Coprime 3 4 by decide)
  have := pow_four_injective (d := d) (by omega) (hcop.dvd_of_dvd_mul_left hdvd)
  omega

/-- For every exponent that `pow_mod` accepts: the code computes the power on
all keys and signatures exactly when the exponent has no set bit from 32 on
other than its topmost one. -/
theorem writesPower_iff_high_bits_clear (e : Nat) (he : e < 2 ^ 64) (hodd : e % 2 = 1)
    (hsize : 2 ≤ Nat.size e) :
    WritesPower e ↔ ∀ j, 32 ≤ j → j + 1 < Nat.size e → e.testBit j = false := by
  rw [← seenExponent_eq_iff hsize]
  constructor
  · intro h
    by_contra hne
    obtain ⟨out, hout, -, hval, -⟩ :=
      h _ 64 _ (beBytes 256 4) (cubeKey_describes he) (length_beBytes _ _)
    refine cubeKey_wrong hodd hsize he hne ⟨out, hout, ?_⟩
    rw [hval, beValue_beBytes]
    norm_num
  · exact writesPower_of_seen hodd hsize

/-- The usual exponent is computed. -/
theorem writesPower_default : WritesPower 65537 :=
  (writesPower_iff_high_bits_clear 65537 (by norm_num) (by norm_num) (by decide)).mpr
    (fun j hj hsize => by
      have : Nat.size 65537 = 17 := by decide
      omega)

/-- An exponent with bits 32 and 33 set: bit 32 is lost. -/
theorem writesPower_lost_bit : ¬ WritesPower 12884901889 := by
  intro h
  have he : (12884901889 : Nat) < 2 ^ 64 := by norm_num
  obtain ⟨out, hout, -, hval, -⟩ :=
    h _ 64 _ (beBytes 256 4) (cubeKey_describes he) (length_beBytes _ _)
  refine cubeKey_wrong (by norm_num) (by decide) he (by decide) ⟨out, hout, ?_⟩
  rw [hval, beValue_beBytes]
  norm_num

end UBoot.Rsa
