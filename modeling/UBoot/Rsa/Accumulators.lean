import UBoot.Rsa.Power

/-!
# Montgomery multiplication for every modulus

`montgomery_mul` does not ask the modulus to fill its words and does not reduce its
operands. The sums below are the values of the 64-bit accumulators before they are cut
to 64 bits, in the order in which the code adds.
-/

namespace UBoot.Rsa

/-- A sum that is kept in a 64-bit accumulator. -/
inductive Sum64 where
  | unsigned (sum : Nat)
  | signed (sum : Int)
  deriving DecidableEq, Repr

/-- The accumulator holds the sum. -/
def Sum64.Fits : Sum64 → Prop
  | .unsigned sum => sum < 18446744073709551616
  | .signed sum => -9223372036854775808 ≤ sum ∧ sum < 9223372036854775808

/-- The sums of the loop of `subtract_modulus`. -/
def subtractSums : Int → List UInt32 → List UInt32 → List Sum64
  | acc, num :: nums, m :: ms =>
    let acc := acc + ((num.toNat : Int) - m.toNat)
    .signed acc :: subtractSums (acc / 4294967296) nums ms
  | _, _, _ => []

/-- The sums of the loop of `montgomery_mul_add_step` and of the addition behind it. -/
def mulAddSums (a d0 : UInt32) :
    UInt64 → UInt64 → List UInt32 → List UInt32 → List UInt32 → List Sum64
  | accA, accB, b :: bs, r :: rs, m :: ms =>
    let sumA := (accA >>> 32).toNat + a.toNat * b.toNat + r.toNat
    let accA := (accA >>> 32) + a.toUInt64 * b.toUInt64 + r.toUInt64
    let sumB := (accB >>> 32).toNat + d0.toNat * m.toNat + accA.toUInt32.toNat
    let accB := (accB >>> 32) + d0.toUInt64 * m.toUInt64 + accA.toUInt32.toUInt64
    .unsigned sumA :: .unsigned sumB :: mulAddSums a d0 accA accB bs rs ms
  | accA, accB, _, _, _ => [.unsigned ((accA >>> 32).toNat + (accB >>> 32).toNat)]

/-- The sums of `montgomery_mul_add_step`. -/
def stepSums (key : RsaPublicKey) (b result : List UInt32) (a : UInt32) : List Sum64 :=
  match b, result, key.modulus with
  | b0 :: bs, r0 :: rs, m0 :: ms =>
    let sumA := a.toNat * b0.toNat + r0.toNat
    let accA := a.toUInt64 * b0.toUInt64 + r0.toUInt64
    let d0 := accA.toUInt32 * key.n0inv
    let sumB := d0.toNat * m0.toNat + accA.toUInt32.toNat
    let accB := d0.toUInt64 * m0.toUInt64 + accA.toUInt32.toUInt64
    let sums := mulAddSums a d0 accA accB bs rs ms
    let (words, accA, accB) := mulAddLoop a d0 accA accB bs rs ms
    let accA := (accA >>> 32) + (accB >>> 32)
    .unsigned sumA :: .unsigned sumB :: sums ++
      if accA >>> 32 ≠ 0 then subtractSums 0 (words ++ [accA.toUInt32]) key.modulus else []
  | _, _, _ => []

/-- The sums of the steps of `montgomery_mul`. -/
def stepsSums (key : RsaPublicKey) (b : List UInt32) : List UInt32 → List UInt32 → List Sum64
  | [], _ => []
  | a :: as, result =>
    stepSums key b result a ++ stepsSums key b as (montgomeryMulAddStep key b result a)

/-- The sums of `montgomery_mul`. -/
def montgomeryMulSums (key : RsaPublicKey) (a b : List UInt32) : List Sum64 :=
  stepsSums key b a (List.replicate key.len 0)

/-! ### No sum overflows -/

/-- The borrow is 0 or -1, so that a sum is at least `-2 ^ 32`. -/
theorem subtractSums_fits {acc : Int} (hlow : -1 ≤ acc) (hhigh : acc ≤ 0) (num ms : List UInt32) :
    ∀ sum ∈ subtractSums acc num ms, sum.Fits := by
  induction num generalizing acc ms with
  | nil => simp [subtractSums]
  | cons n num ih =>
    obtain _ | ⟨m, ms⟩ := ms
    · simp [subtractSums]
    · have hn := n.toNat_lt
      have hm := m.toNat_lt
      rw [subtractSums, List.forall_mem_cons]
      refine ⟨⟨by omega, by omega⟩, ih (by omega) (by omega) ms⟩

/-- A product of two words leaves room for two more words. -/
theorem accumulate_fits (acc : UInt64) (a b w : UInt32) :
    (Sum64.unsigned ((acc >>> 32).toNat + a.toNat * b.toNat + w.toNat)).Fits := by
  have hab := word_mul_lt a b
  have hacc := acc.toNat_lt
  have hw := w.toNat_lt
  rw [toNat_high]
  change _ < 18446744073709551616
  omega

theorem start_fits (a b w : UInt32) :
    (Sum64.unsigned (a.toNat * b.toNat + w.toNat)).Fits := by
  have hfits := accumulate_fits 0 a b w
  rwa [show ((0 : UInt64) >>> 32).toNat = 0 from rfl, Nat.zero_add] at hfits

/-- The two carries at the end. -/
theorem carries_fit (accA accB : UInt64) :
    (Sum64.unsigned ((accA >>> 32).toNat + (accB >>> 32).toNat)).Fits := by
  have hA := accA.toNat_lt
  have hB := accB.toNat_lt
  rw [toNat_high, toNat_high]
  change _ < 18446744073709551616
  omega

theorem mulAddSums_fits (a d0 : UInt32) (accA accB : UInt64) (bs rs ms : List UInt32) :
    ∀ sum ∈ mulAddSums a d0 accA accB bs rs ms, sum.Fits := by
  induction bs generalizing accA accB rs ms with
  | nil => exact List.forall_mem_singleton.mpr (carries_fit ..)
  | cons b bs ih =>
    obtain _ | ⟨r, rs⟩ := rs
    · exact List.forall_mem_singleton.mpr (carries_fit ..)
    obtain _ | ⟨m, ms⟩ := ms
    · exact List.forall_mem_singleton.mpr (carries_fit ..)
    rw [mulAddSums, List.forall_mem_cons, List.forall_mem_cons]
    exact ⟨accumulate_fits .., accumulate_fits .., ih _ _ rs ms⟩

theorem stepSums_fits (key : RsaPublicKey) (b result : List UInt32) (a : UInt32) :
    ∀ sum ∈ stepSums key b result a, sum.Fits := by
  unfold stepSums
  split
  · dsimp only
    rw [List.cons_append, List.cons_append, List.forall_mem_cons, List.forall_mem_cons,
      List.forall_mem_append]
    refine ⟨start_fits .., start_fits .., mulAddSums_fits _ _ _ _ _ _ _, ?_⟩
    split
    · exact subtractSums_fits (by omega) (by omega) _ _
    · exact List.forall_mem_nil _
  · exact List.forall_mem_nil _

theorem stepsSums_fits (key : RsaPublicKey) (b as result : List UInt32) :
    ∀ sum ∈ stepsSums key b as result, sum.Fits := by
  induction as generalizing result with
  | nil => exact List.forall_mem_nil _
  | cons a as ih =>
    rw [stepsSums, List.forall_mem_append]
    exact ⟨stepSums_fits key b result a, ih _⟩

/-! ### The product -/

/-- An odd modulus that is half of the radix or more fills its words. -/
theorem Inverted.usable {key : RsaPublicKey} (h : Inverted key)
    (hhalf : 4294967296 ^ key.len ≤ 2 * value key.modulus) : Usable key := by
  refine ⟨h.pos, Nat.lt_of_le_of_ne hhalf fun heq => ?_, h.inverse⟩
  obtain ⟨len, hlen⟩ := Nat.exists_eq_add_of_le' h.pos
  have hinverse := h.inverse
  have hmodulus : value key.modulus = 2 * (1073741824 * 4294967296 ^ len) := by
    rw [hlen, pow_succ] at heq
    omega
  rw [hmodulus, Nat.mul_assoc] at hinverse
  omega

/-- `montgomery_mul` for every modulus and all operands. -/
theorem montgomery_mul_correct {key : RsaPublicKey} (hlen : 1 ≤ key.len)
    (hinv : (value key.modulus * key.n0inv.toNat + 1) % 2 ^ 32 = 0) {a b : List UInt32}
    (ha : a.length = key.len) (hb : b.length = key.len) :
    let result := montgomeryMul key a b
    result.length = key.len ∧ value result < 2 ^ (32 * key.len) ∧
      value result * 2 ^ (32 * key.len) ≡ value a * value b [MOD value key.modulus] ∧
      (∀ sum ∈ montgomeryMulSums key a b, sum.Fits) ∧
      (2 ^ (32 * key.len) ≤ 2 * value key.modulus →
        value (if greaterEqualModulus key result then subtractModulus key result else result) <
          value key.modulus) := by
  have h : Inverted key := ⟨hlen, hinv⟩
  have hradix : 2 ^ (32 * key.len) = 4294967296 ^ key.len := by
    rw [Nat.pow_mul]
  have hresult := length_montgomeryMul a hb
  obtain ⟨hlt, hproduct⟩ := montgomeryMul_product h ha hb
  rw [hradix]
  refine ⟨hresult, hlt, hproduct, stepsSums_fits key b a _, fun hhalf => ?_⟩
  rw [(value_reduced (h.usable hhalf) hresult).2]
  exact Nat.mod_lt _ h.modulus_pos

/-- The key of two words with the modulus `2 ^ 63 + 1`, whose product leaves the words
once. -/
def wideKey : RsaPublicKey where
  len := 2
  n0inv := 0xffffffff
  modulus := [1, 0x80000000]
  rr := [0, 0]
  exponent := 3
  length_modulus := rfl
  length_rr := rfl

theorem montgomery_mul_correct_wide :
    let result := montgomeryMul wideKey [0xffffffff, 0xffffffff] [0xffffffff, 0xffffffff]
    result.length = 2 ∧ value result < 2 ^ (32 * 2) ∧
      value result * 2 ^ (32 * 2) ≡
        value [0xffffffff, 0xffffffff] * value [0xffffffff, 0xffffffff]
        [MOD value [1, 0x80000000]] ∧
      (∀ sum ∈ montgomeryMulSums wideKey [0xffffffff, 0xffffffff] [0xffffffff, 0xffffffff],
        sum.Fits) ∧
      (2 ^ (32 * 2) ≤ 2 * value [1, 0x80000000] →
        value (if greaterEqualModulus wideKey result then subtractModulus wideKey result
          else result) < value [1, 0x80000000]) :=
  @montgomery_mul_correct wideKey (by decide) (by decide) _ _ rfl rfl

end UBoot.Rsa
