import UBoot.Verification.Bytes

/-!
# The bits of a buffer

A buffer as a row of bits, the lowest bit of each byte first.
-/

namespace Verification

def Ptr.bit (p : Ptr) (j : Nat) : Bool := (p (j / 8)).toBitVec.getLsbD (j % 8)

theorem uint8_eq_of_bits {x y : UInt8}
    (h : ∀ t < 8, x.toBitVec.getLsbD t = y.toBitVec.getLsbD t) : x = y :=
  UInt8.toBitVec_inj.mp (BitVec.eq_of_getLsbD_eq h)

theorem Ptr.bit_add (p : Ptr) (i : Nat) {t : Nat} (ht : t < 8) :
    p.bit (8 * i + t) = (p i).toBitVec.getLsbD t := by
  rw [Ptr.bit, Nat.mul_add_div (by decide), Nat.div_eq_of_lt ht, Nat.add_zero,
    Nat.mul_add_mod, Nat.mod_eq_of_lt ht]

theorem Ptr.bit_of_lt (p : Ptr) {t : Nat} (ht : t < 8) :
    p.bit t = (p 0).toBitVec.getLsbD t := by
  rw [Ptr.bit, Nat.div_eq_of_lt ht, Nat.mod_eq_of_lt ht]

theorem Ptr.ext_bit {p q : Ptr} (h : ∀ j, p.bit j = q.bit j) : p = q := by
  funext i
  refine uint8_eq_of_bits fun t ht => ?_
  rw [← p.bit_add i ht, ← q.bit_add i ht]
  exact h _

/-! ## Integers of 32 bits -/

/-- A byte in an `int`. -/
def intOfByte (b : UInt8) : BitVec 32 := b.toBitVec.setWidth 32

/-- The byte that is stored of an `int`. -/
def byteOfInt (v : BitVec 32) : UInt8 := ⟨v.setWidth 8⟩

theorem getLsbD_byteOfInt (v : BitVec 32) {t : Nat} (ht : t < 8) :
    (byteOfInt v).toBitVec.getLsbD t = v.getLsbD t := by
  rw [byteOfInt, BitVec.getLsbD_setWidth, decide_eq_true ht, Bool.true_and]

@[simp] theorem getLsbD_intOfByte (b : UInt8) (t : Nat) :
    (intOfByte b).getLsbD t = b.toBitVec.getLsbD t := by
  rw [intOfByte, BitVec.getLsbD_setWidth]
  by_cases ht : t < 32
  · rw [decide_eq_true ht, Bool.true_and]
  · rw [BitVec.getLsbD_of_ge b.toBitVec t (by omega), Bool.and_false]

end Verification
