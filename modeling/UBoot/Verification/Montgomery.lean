import Mathlib.Data.Nat.ModEq
import Mathlib.Tactic.Linarith
import Mathlib.Tactic.Ring

/-!
# Montgomery arithmetic with delayed reduction

`R` is the Montgomery radix and `n` the modulus, with `R` invertible modulo
`n`. A number `v` represents `x` when `v ≡ x * R`. Nothing here asks `v` to be
below `n`: every product is only known to be below `R`, which is what a round
that subtracts the modulus on overflow guarantees.
-/

namespace Montgomery

variable {n R x y u v w : Nat}

/-- `w` is a Montgomery product of `u` and `v`. -/
def Product (n R u v w : Nat) : Prop := w < R ∧ w * R ≡ u * v [MOD n]

/-- `v` stands for `x` in Montgomery form. -/
def Represents (n R x v : Nat) : Prop := v ≡ x * R [MOD n]

/-- One round adds `a * b` and a multiple `d * n` and drops the low digit of
radix `B`. Whatever the operands below `R`, the result stays below `R + n`. -/
theorem round_lt {B a b d r t : Nat} (h : B * t = r + a * b + d * n) (hr : r < R)
    (hb : b < R) (ha : a < B) (hd : d < B) (hn : 0 < n) : t < R + n := by
  have hab : a * b ≤ (B - 1) * (R - 1) :=
    Nat.mul_le_mul (by omega) (by omega)
  have hdn : d * n ≤ (B - 1) * n := Nat.mul_le_mul_right n (by omega)
  obtain ⟨B, rfl⟩ : ∃ k, B = k + 1 := ⟨B - 1, by omega⟩
  obtain ⟨R, rfl⟩ : ∃ k, R = k + 1 := ⟨R - 1, by omega⟩
  simp only [Nat.add_sub_cancel] at hab hdn
  by_contra hle
  have : (B + 1) * (R + 1 + n) ≤ (B + 1) * t := Nat.mul_le_mul_left _ (by omega)
  nlinarith

/-- Into Montgomery form: multiply by `R ^ 2`. -/
theorem Represents.of_square (hR : Nat.Coprime n R) {rr : Nat} (hrr : rr ≡ R * R [MOD n])
    (h : Product n R x rr v) : Represents n R x v := by
  apply Nat.ModEq.cancel_right_of_coprime (c := R) hR
  calc v * R ≡ x * rr [MOD n] := h.2
    _ ≡ x * (R * R) [MOD n] := hrr.mul_left x
    _ = x * R * R := by ring

theorem Represents.mul (hR : Nat.Coprime n R) (hu : Represents n R x u)
    (hv : Represents n R y v) (h : Product n R u v w) : Represents n R (x * y) w := by
  apply Nat.ModEq.cancel_right_of_coprime (c := R) hR
  calc w * R ≡ u * v [MOD n] := h.2
    _ ≡ (x * R) * (y * R) [MOD n] := Nat.ModEq.mul hu hv
    _ = x * y * R * R := by ring

/-- Out of Montgomery form: multiply by an ordinary number. -/
theorem Represents.leave (hR : Nat.Coprime n R) (hu : Represents n R x u)
    (h : Product n R u y w) : w ≡ x * y [MOD n] := by
  apply Nat.ModEq.cancel_right_of_coprime (c := R) hR
  calc w * R ≡ u * y [MOD n] := h.2
    _ ≡ (x * R) * y [MOD n] := Nat.ModEq.mul_right y hu
    _ = x * y * R := by ring

end Montgomery
