import Mathlib.Data.Nat.ModEq
import Mathlib.Data.UInt
import Mathlib.Tactic.Linarith
import UBoot.Verification.Bytes

/-!
# The IP checksum

`net/checksum.c` on a little-endian machine. The words are added in an `int`, so
that the C of `compute_ip_checksum` has no meaning once the sum reaches `2 ^ 31`.
-/

namespace UBoot.Net.Checksum

open Verification

/-- The words behind `ptr`, an odd byte padded with zero. -/
def words : List UInt8 → List Nat
  | [] => []
  | [b] => [b.toNat]
  | b :: b' :: bs => (b.toNat + 256 * b'.toNat) :: words bs

/-- The words added up. -/
def wordSum (bs : List UInt8) : Nat := (words bs).sum

/-- `compute_ip_checksum`; `none` where `sum` overflows. -/
def computeIpChecksum (bs : List UInt8) : Option UInt32 :=
  if wordSum bs < 2 ^ 31 then
    let sum := wordSum bs
    let sum := (sum >>> 16) + (sum &&& 0xffff)
    let sum := sum + (sum >>> 16)
    some (~~~(UInt32.ofNat sum) &&& 0xffff)
  else none

/-- `add_ip_checksums` -/
def addIpChecksums (offset : Nat) (sum new : UInt32) : UInt32 :=
  let sum : UInt32 := ~~~sum &&& 0xffff
  let new : UInt32 := ~~~new &&& 0xffff
  let new : UInt32 :=
    if offset % 2 = 1 then (new >>> 8 &&& (0xff : UInt32)) ||| (new <<< 8 &&& (0xff00 : UInt32))
    else new
  let checksum := sum + new
  let checksum := if checksum > 0xffff then checksum - 0xffff else checksum
  ~~~checksum &&& 0xffff

/-- `ip_checksum_ok` -/
def ipChecksumOk (bs : List UInt8) : Option Bool :=
  (computeIpChecksum bs).map fun sum => decide (sum &&& (0xfffe : UInt32) = 0)

/-! ### Ones' complement -/

/-- Addition of 16-bit words with the carry brought around. -/
def onesAdd (x y : Nat) : Nat := if x + y < 65536 then x + y else x + y - 65535

def onesSum (bs : List UInt8) : Nat := (words bs).foldl onesAdd 0

/-- Equal, or the two representations of zero. -/
def SameUpToZero (x y : UInt32) : Prop :=
  x = y ∨ x = 0 ∧ y = 0xffff ∨ x = 0xffff ∧ y = 0

/-- What a ones'-complement sum of words is when their sum is `n`. -/
def onesOf (n : Nat) : Nat := if n = 0 then 0 else (n - 1) % 65535 + 1

theorem onesOf_le (n : Nat) : onesOf n ≤ 65535 := by
  rw [onesOf]
  split
  · exact Nat.zero_le _
  · omega

theorem onesOf_modEq (n : Nat) : onesOf n ≡ n [MOD 65535] := by
  rw [onesOf]
  split
  · next h => rw [h]
  · rw [Nat.ModEq]
    omega

theorem onesAdd_onesOf (n w : Nat) (hw : w < 65536) : onesAdd (onesOf n) w = onesOf (n + w) := by
  rw [onesAdd, onesOf, onesOf]
  split_ifs <;> omega

theorem words_lt : ∀ (bs : List UInt8), ∀ w ∈ words bs, w < 65536
  | [] => by simp [words]
  | [b] => by
    intro w hw
    have hb := b.toNat_lt
    rw [words, List.mem_singleton] at hw
    omega
  | b :: b' :: bs => by
    intro w hw
    have hb := b.toNat_lt
    have hb' := b'.toNat_lt
    rw [words, List.mem_cons] at hw
    rcases hw with rfl | hw
    · omega
    · exact words_lt bs w hw

theorem foldl_onesAdd {ws : List Nat} (hlt : ∀ w ∈ ws, w < 65536) (n : Nat) :
    ws.foldl onesAdd (onesOf n) = onesOf (n + ws.sum) := by
  induction ws generalizing n with
  | nil => rfl
  | cons w ws ih =>
    rw [List.foldl_cons, onesAdd_onesOf n w (hlt w List.mem_cons_self),
      ih (fun w' hw' => hlt w' (List.mem_cons_of_mem w hw')), List.sum_cons, Nat.add_assoc]

theorem onesSum_eq (bs : List UInt8) : onesSum bs = onesOf (wordSum bs) := by
  have hfold := foldl_onesAdd (words_lt bs) 0
  rwa [Nat.zero_add] at hfold

/-! ### The sum of the words -/

theorem wordSum_cons_cons (b b' : UInt8) (bs : List UInt8) :
    wordSum (b :: b' :: bs) = b.toNat + 256 * b'.toNat + wordSum bs :=
  List.sum_cons

/-- The words behind one more byte are the old ones with their bytes swapped. -/
theorem wordSum_cons (b : UInt8) (bs : List UInt8) :
    wordSum (b :: bs) ≡ b.toNat + 256 * wordSum bs [MOD 65535] := by
  induction bs generalizing b with
  | nil => rfl
  | cons b' bs ih =>
    have hswap : wordSum bs ≡ 65536 * wordSum bs [MOD 65535] := by
      rw [Nat.ModEq]
      omega
    calc
      wordSum (b :: b' :: bs) = b.toNat + 256 * b'.toNat + wordSum bs :=
        wordSum_cons_cons b b' bs
      _ ≡ b.toNat + 256 * b'.toNat + 65536 * wordSum bs [MOD 65535] := hswap.add_left _
      _ = b.toNat + 256 * (b'.toNat + 256 * wordSum bs) := by ring
      _ ≡ b.toNat + 256 * wordSum (b' :: bs) [MOD 65535] :=
        ((ih b').symm.mul_left 256).add_left _

theorem wordSum_append (as bs : List UInt8) :
    wordSum (as ++ bs) ≡ wordSum as + 256 ^ as.length * wordSum bs [MOD 65535] := by
  induction as with
  | nil =>
    have hnil : wordSum [] = 0 := rfl
    rw [List.nil_append, hnil, List.length_nil, Nat.pow_zero, Nat.one_mul, Nat.zero_add]
  | cons a as ih =>
    calc
      wordSum (a :: as ++ bs) ≡ a.toNat + 256 * wordSum (as ++ bs) [MOD 65535] :=
        wordSum_cons a (as ++ bs)
      _ ≡ a.toNat + 256 * (wordSum as + 256 ^ as.length * wordSum bs) [MOD 65535] :=
        (ih.mul_left 256).add_left _
      _ = a.toNat + 256 * wordSum as + 256 ^ (as.length + 1) * wordSum bs := by ring
      _ ≡ wordSum (a :: as) + 256 ^ (as.length + 1) * wordSum bs [MOD 65535] :=
        (wordSum_cons a as).symm.add_right _

/-- Bytes swapped twice are as before. -/
theorem pow_modEq (n : Nat) : 256 ^ n ≡ if n % 2 = 1 then 256 else 1 [MOD 65535] := by
  induction n with
  | zero => rfl
  | succ n ih =>
    have hstep := ih.mul_right 256
    rw [← Nat.pow_succ] at hstep
    refine hstep.trans ?_
    rcases Nat.mod_two_eq_zero_or_one n with h | h
    · rw [if_neg (by omega), if_pos (by omega)]
    · rw [if_pos h, if_neg (by omega)]
      decide

/-! ### The functions as arithmetic -/

theorem toNat_not_and (x : UInt32) : (~~~x &&& 0xffff).toNat = 65535 - x.toNat % 65536 := by
  have hx := x.toNat_lt
  rw [UInt32.toNat_and, UInt32.toNat_not, show (0xffff : UInt32).toNat = 2 ^ 16 - 1 from rfl,
    Nat.and_two_pow_sub_one_eq_mod, UInt32.size]
  omega

/-- The two folds of `sum` are enough for all that an `int` can hold. -/
theorem fold_eq {n : Nat} (h : n < 2 ^ 31) :
    (n / 65536 + n % 65536 + (n / 65536 + n % 65536) / 65536) % 65536 = onesOf n := by
  obtain ⟨high, low, hlow, rfl⟩ : ∃ high low, low < 65536 ∧ n = 65536 * high + low :=
    ⟨n / 65536, n % 65536, Nat.mod_lt _ (by decide), (Nat.div_add_mod n 65536).symm⟩
  have hhigh : high < 32768 := by omega
  rw [show (65536 * high + low) / 65536 = high by omega,
    show (65536 * high + low) % 65536 = low by omega, onesOf]
  rcases Nat.lt_or_ge (high + low) 65536 with hfit | hcarry
  · split_ifs
    · omega
    · rw [show 65536 * high + low - 1 = high + low - 1 + 65535 * high by omega,
        Nat.add_mul_mod_self_left]
      omega
  · rw [if_neg (by omega),
      show 65536 * high + low - 1 = high + low - 65536 + 65535 * (high + 1) by omega,
      Nat.add_mul_mod_self_left]
    omega

theorem computeIpChecksum_eq {bs : List UInt8} (h : wordSum bs < 2 ^ 31) :
    computeIpChecksum bs = some (UInt32.ofNat (65535 - onesSum bs)) := by
  have hfold := fold_eq h
  have hle := onesOf_le (wordSum bs)
  rw [computeIpChecksum, if_pos h, onesSum_eq]
  refine congrArg some ?_
  rw [← UInt32.toNat_inj, toNat_not_and, UInt32.toNat_ofNat', UInt32.toNat_ofNat',
    show 0xffff = 2 ^ 16 - 1 from rfl, Nat.and_two_pow_sub_one_eq_mod, Nat.shiftRight_eq_div_pow,
    Nat.shiftRight_eq_div_pow]
  rw [Nat.mod_mod_of_dvd _ (by decide : 65536 ∣ 2 ^ 32), hfold]
  omega

theorem computeIpChecksum_of_le {bs : List UInt8} (h : 2 ^ 31 ≤ wordSum bs) :
    computeIpChecksum bs = none :=
  if_neg (Nat.not_lt.mpr h)

theorem and_fffe_eq_zero {n : Nat} (h : n ≤ 65535) : n &&& 0xfffe = 0 ↔ n ≤ 1 := by
  constructor
  · intro hzero
    have hshift : (n &&& (2 ^ 15 - 1) <<< 1) >>> 1 = n / 2 ^ 1 % 2 ^ 15 := by
      rw [Nat.shiftRight_and_distrib, Nat.shiftLeft_shiftRight, Nat.shiftRight_eq_div_pow,
        Nat.and_two_pow_sub_one_eq_mod]
    rw [show (2 ^ 15 - 1) <<< 1 = 0xfffe from rfl, hzero] at hshift
    omega
  · intro hle
    rcases Nat.le_one_iff_eq_zero_or_eq_one.mp hle with rfl | rfl
    · rfl
    · rfl

/-- The bytes of a 16-bit number swapped. -/
theorem toNat_swap {x : UInt32} (h : x.toNat ≤ 65535) :
    ((x >>> 8 &&& (0xff : UInt32)) ||| (x <<< 8 &&& (0xff00 : UInt32))).toNat =
      x.toNat % 256 * 256 + x.toNat / 256 := by
  have hhi : (x >>> 8 &&& (0xff : UInt32)).toNat = x.toNat / 256 := by
    rw [UInt32.toNat_and, UInt32.toNat_shiftRight, show (0xff : UInt32).toNat = 2 ^ 8 - 1 from rfl,
      Nat.and_two_pow_sub_one_eq_mod, show (8 : UInt32).toNat % 32 = 8 from rfl,
      Nat.shiftRight_eq_div_pow]
    omega
  have hlo : (x <<< 8 &&& (0xff00 : UInt32)).toNat = (x.toNat % 2 ^ 8) <<< 8 := by
    rw [UInt32.toNat_and, UInt32.toNat_shiftLeft, show (8 : UInt32).toNat % 32 = 8 from rfl,
      show (0xff00 : UInt32).toNat = (2 ^ 8 - 1) <<< 8 from rfl,
      Nat.mod_eq_of_lt (by rw [Nat.shiftLeft_eq]; omega), ← Nat.shiftLeft_and_distrib,
      Nat.and_two_pow_sub_one_eq_mod]
  rw [UInt32.toNat_or, hhi, hlo, Nat.or_comm,
    ← Nat.shiftLeft_add_eq_or_of_lt (by omega), Nat.shiftLeft_eq]
  rfl

/-- A sum from an odd offset counts 256 times. -/
theorem swapped_modEq (offset n : Nat) :
    (if offset % 2 = 1 then n % 256 * 256 + n / 256 else n) ≡ 256 ^ offset * n [MOD 65535] := by
  have hpow := (pow_modEq offset).mul_right n
  refine Nat.ModEq.trans ?_ hpow.symm
  split_ifs
  · rw [Nat.ModEq]
    omega
  · rw [Nat.one_mul]

theorem addIpChecksums_modEq (offset : Nat) {sum new : UInt32} (hsum : sum.toNat ≤ 65535)
    (hnew : new.toNat ≤ 65535) :
    ∃ r ≤ 65535, (addIpChecksums offset sum new).toNat = 65535 - r ∧
      r ≡ 65535 - sum.toNat + 256 ^ offset * (65535 - new.toNat) [MOD 65535] := by
  obtain ⟨first, hfirst⟩ : ∃ x : UInt32, x = ~~~sum &&& 0xffff := ⟨_, rfl⟩
  obtain ⟨second, hsecond⟩ : ∃ x : UInt32, x = ~~~new &&& 0xffff := ⟨_, rfl⟩
  have hfirstNat : first.toNat = 65535 - sum.toNat := by
    rw [hfirst, toNat_not_and, Nat.mod_eq_of_lt (Nat.lt_succ_of_le hsum)]
  have hsecondNat : second.toNat = 65535 - new.toNat := by
    rw [hsecond, toNat_not_and, Nat.mod_eq_of_lt (Nat.lt_succ_of_le hnew)]
  obtain ⟨third, hthird⟩ : ∃ x : UInt32, x = if offset % 2 = 1 then
      (second >>> 8 &&& (0xff : UInt32)) ||| (second <<< 8 &&& (0xff00 : UInt32)) else second :=
    ⟨_, rfl⟩
  have hthirdNat : third.toNat = if offset % 2 = 1 then
      second.toNat % 256 * 256 + second.toNat / 256 else second.toNat := by
    rw [hthird]
    split_ifs
    · exact toNat_swap (by omega)
    · rfl
  have hle : third.toNat ≤ 65535 := by
    rw [hthirdNat]
    split_ifs <;> omega
  have hmod : first.toNat + third.toNat ≡
      65535 - sum.toNat + 256 ^ offset * (65535 - new.toNat) [MOD 65535] := by
    rw [hfirstNat, hthirdNat, ← hsecondNat]
    exact (swapped_modEq offset second.toNat).add_left _
  have hresult : addIpChecksums offset sum new =
      ~~~(if first + third > 0xffff then first + third - 0xffff else first + third) &&& 0xffff := by
    rw [hthird, hfirst, hsecond]
    rfl
  have hadd : (first + third).toNat = first.toNat + third.toNat := by
    rw [UInt32.toNat_add]
    omega
  rw [hresult, toNat_not_and]
  split_ifs with hcarry
  · rw [gt_iff_lt, UInt32.lt_iff_toNat_lt, hadd, show (0xffff : UInt32).toNat = 65535 from rfl]
      at hcarry
    rw [UInt32.toNat_sub_of_le _ _ (by rw [UInt32.le_iff_toNat_le, hadd]; exact hcarry.le), hadd,
      show (0xffff : UInt32).toNat = 65535 from rfl]
    refine ⟨first.toNat + third.toNat - 65535, by omega, by omega, Nat.ModEq.trans ?_ hmod⟩
    rw [Nat.ModEq]
    omega
  · rw [gt_iff_lt, UInt32.lt_iff_toNat_lt, hadd, show (0xffff : UInt32).toNat = 65535 from rfl]
      at hcarry
    rw [hadd]
    exact ⟨first.toNat + third.toNat, by omega, by omega, hmod⟩

theorem sameUpToZero_of_modEq {x y : UInt32} {r r' : Nat} (hx : x.toNat = 65535 - r)
    (hy : y.toNat = 65535 - r') (hr : r ≤ 65535) (hr' : r' ≤ 65535) (h : r ≡ r' [MOD 65535]) :
    SameUpToZero x y := by
  simp only [SameUpToZero, ← UInt32.toNat_inj, hx, hy]
  rw [Nat.ModEq] at h
  rw [show (0 : UInt32).toNat = 0 from rfl, show (0xffff : UInt32).toNat = 65535 from rfl]
  omega

/-! ### What the checksums say -/

/-- `ip_checksum_ok` accepts the strings whose ones'-complement sum is `0xffff`. -/
def ChecksumRight (bs : List UInt8) : Prop :=
  ∃ ok, ipChecksumOk bs = some ok ∧ (ok = true ↔ onesSum bs = 0xffff)

/-- The checksums of two strings give the one of both together. -/
def AddsRight (as bs : List UInt8) : Prop :=
  ∃ sum new whole, computeIpChecksum as = some sum ∧ computeIpChecksum bs = some new ∧
    computeIpChecksum (as ++ bs) = some whole ∧
    SameUpToZero (addIpChecksums as.length sum new) whole

theorem checksumRight_iff (bs : List UInt8) :
    ChecksumRight bs ↔ wordSum bs < 2 ^ 31 ∧ onesSum bs ≠ 0xfffe := by
  rcases Nat.lt_or_ge (wordSum bs) (2 ^ 31) with hlt | hge
  · have hle : onesSum bs ≤ 65535 := onesSum_eq bs ▸ onesOf_le (wordSum bs)
    have hok : ipChecksumOk bs = some (decide (65534 ≤ onesSum bs)) := by
      rw [ipChecksumOk, computeIpChecksum_eq hlt, Option.map_some]
      refine congrArg some (decide_eq_decide.mpr ?_)
      rw [← UInt32.toNat_inj, UInt32.toNat_and, UInt32.toNat_ofNat',
        Nat.mod_eq_of_lt (by omega)]
      refine (and_fffe_eq_zero (Nat.sub_le _ _)).trans ?_
      omega
    constructor
    · rintro ⟨ok, hresult, hiff⟩
      obtain rfl := Option.some.inj (hok.symm.trans hresult)
      rw [decide_eq_true_iff] at hiff
      exact ⟨hlt, by omega⟩
    · rintro ⟨-, hne⟩
      refine ⟨_, hok, ?_⟩
      rw [decide_eq_true_iff]
      omega
  · constructor
    · rintro ⟨ok, hresult, -⟩
      rw [ipChecksumOk, computeIpChecksum_of_le hge] at hresult
      cases hresult
    · rintro ⟨hlt, -⟩
      omega

theorem addsRight_iff (as bs : List UInt8) :
    AddsRight as bs ↔
      wordSum as < 2 ^ 31 ∧ wordSum bs < 2 ^ 31 ∧ wordSum (as ++ bs) < 2 ^ 31 := by
  have hdefined {bs : List UInt8} {sum : UInt32} (h : computeIpChecksum bs = some sum) :
      wordSum bs < 2 ^ 31 := by
    by_contra hge
    rw [computeIpChecksum_of_le (Nat.le_of_not_lt hge)] at h
    cases h
  constructor
  · rintro ⟨sum, new, whole, hsum, hnew, hwhole, -⟩
    exact ⟨hdefined hsum, hdefined hnew, hdefined hwhole⟩
  · rintro ⟨hsum, hnew, hwhole⟩
    refine ⟨_, _, _, computeIpChecksum_eq hsum, computeIpChecksum_eq hnew,
      computeIpChecksum_eq hwhole, ?_⟩
    have hle (bs : List UInt8) : onesSum bs ≤ 65535 := onesSum_eq bs ▸ onesOf_le (wordSum bs)
    have hnat (bs : List UInt8) : (UInt32.ofNat (65535 - onesSum bs)).toNat = 65535 - onesSum bs := by
      rw [UInt32.toNat_ofNat', Nat.mod_eq_of_lt (by omega)]
    have hmod (bs : List UInt8) : onesSum bs ≡ wordSum bs [MOD 65535] :=
      onesSum_eq bs ▸ onesOf_modEq (wordSum bs)
    have hword (bs : List UInt8) : (UInt32.ofNat (65535 - onesSum bs)).toNat ≤ 65535 :=
      (hnat bs).trans_le (Nat.sub_le _ _)
    obtain ⟨r, hr, hresult, hrmod⟩ := addIpChecksums_modEq as.length (hword as) (hword bs)
    rw [hnat, hnat, Nat.sub_sub_self (hle as), Nat.sub_sub_self (hle bs)] at hrmod
    refine sameUpToZero_of_modEq hresult (hnat (as ++ bs)) hr (hle _) ?_
    calc
      r ≡ onesSum as + 256 ^ as.length * onesSum bs [MOD 65535] := hrmod
      _ ≡ wordSum as + 256 ^ as.length * wordSum bs [MOD 65535] :=
        (hmod as).add ((hmod bs).mul_left _)
      _ ≡ wordSum (as ++ bs) [MOD 65535] := (wordSum_append as bs).symm
      _ ≡ onesSum (as ++ bs) [MOD 65535] := (hmod _).symm

/-- The mask `0xfffe` lets one wrong sum through. -/
theorem checksums_right_iff (as bs : List UInt8) :
    (ChecksumRight bs ↔ wordSum bs < 2 ^ 31 ∧ onesSum bs ≠ 0xfffe) ∧
    (AddsRight as bs ↔
      wordSum as < 2 ^ 31 ∧ wordSum bs < 2 ^ 31 ∧ wordSum (as ++ bs) < 2 ^ 31) :=
  ⟨checksumRight_iff bs, addsRight_iff as bs⟩

theorem wrong_sum_accepted :
    ¬((∀ bs, ChecksumRight bs) ∧ ∀ as bs, AddsRight as bs) := by
  rintro ⟨right, -⟩
  exact ((checksumRight_iff [0xfe, 0xff]).mp (right _)).2 (by decide)

end UBoot.Net.Checksum
