import Mathlib.Algebra.Order.Group.Nat
import Mathlib.Data.Nat.Count

/-!
# Good blocks

The bytes of a device whose blocks may be bad, as one sequence: the bytes of the good
blocks from a first block on, one block behind the other.
-/

namespace Verification

section

variable (good : Nat → Prop) [DecidablePred good] (len first : Nat)

/-- The number of good blocks among the first `k`. -/
def goodCount (k : Nat) : Nat := Nat.count (fun j => good (first + j)) k

/-- The place of a byte in the sequence. -/
def goodPlace (p : Nat) : Nat := goodCount good first (p / len - first) * len + p % len

end

section

variable {good : Nat → Prop} [DecidablePred good] {len first : Nat}

@[simp] theorem goodCount_zero : goodCount good first 0 = 0 := Nat.count_zero _

theorem goodCount_succ_of_good {k : Nat} (h : good (first + k)) :
    goodCount good first (k + 1) = goodCount good first k + 1 := by
  rw [goodCount, Nat.count_succ, if_pos h, goodCount]

theorem goodCount_succ_of_not {k : Nat} (h : ¬good (first + k)) :
    goodCount good first (k + 1) = goodCount good first k := by
  rw [goodCount, Nat.count_succ, if_neg h, goodCount, Nat.add_zero]

theorem goodCount_mono {j k : Nat} (h : j ≤ k) :
    goodCount good first j ≤ goodCount good first k :=
  Nat.count_monotone _ h

theorem goodCount_lt {j k : Nat} (h : j < k) (hgood : good (first + j)) :
    goodCount good first j < goodCount good first k := by
  have hle : goodCount good first (j + 1) ≤ goodCount good first k := goodCount_mono h
  rw [goodCount_succ_of_good hgood] at hle
  exact hle

theorem goodCount_le (k : Nat) : goodCount good first k ≤ k := Nat.count_le _

theorem goodCount_of_all (hall : ∀ b, good b) (k : Nat) : goodCount good first k = k := by
  induction k with
  | zero => rfl
  | succ k ih => rw [goodCount_succ_of_good (hall _), ih]

theorem goodPlace_lt_iff (hlen : 0 < len) {p n : Nat} :
    goodPlace good len first p < n * len ↔ goodCount good first (p / len - first) < n := by
  have hmod := Nat.mod_lt p hlen
  rw [goodPlace, ← Nat.div_lt_iff_lt_mul hlen, Nat.mul_comm, Nat.mul_add_div hlen,
    Nat.div_eq_of_lt hmod, Nat.add_zero]

/-- A byte of the block with index `k`. -/
theorem goodPlace_of_block {p k : Nat} (hp : p / len = first + k) :
    goodPlace good len first p = goodCount good first k * len + (p - (first + k) * len) := by
  rw [goodPlace, hp, Nat.add_sub_cancel_left, Nat.mod_eq_sub_div_mul, hp]

theorem goodPlace_of_all (hall : ∀ b, good b) {p : Nat} (hp : first ≤ p / len) :
    goodPlace good len first p = p - first * len := by
  have hdiv := Nat.div_add_mod' p len
  rw [goodPlace, goodCount_of_all hall, Nat.sub_mul]
  have hle : first * len ≤ p / len * len := Nat.mul_le_mul_right len hp
  omega

/-- Two good bytes have different places. -/
theorem goodPlace_injective (hlen : 0 < len) {p q : Nat} (hp : first ≤ p / len)
    (hq : first ≤ q / len) (hgp : good (p / len)) (hgq : good (q / len))
    (h : goodPlace good len first p = goodPlace good len first q) : p = q := by
  have hmod : p % len = q % len := by
    have hrest := congrArg (· % len) h
    simpa [goodPlace, Nat.mul_add_mod_self_right] using hrest
  have hcount : goodCount good first (p / len - first) =
      goodCount good first (q / len - first) := by
    rw [goodPlace, goodPlace, hmod] at h
    exact Nat.eq_of_mul_eq_mul_right hlen (Nat.add_right_cancel h)
  have hindex : p / len - first = q / len - first := by
    apply Nat.count_injective (p := fun j => good (first + j)) _ _ hcount
    · rwa [Nat.add_sub_of_le hp]
    · rwa [Nat.add_sub_of_le hq]
  have hblock : p / len = q / len := by omega
  rw [← Nat.div_add_mod p len, ← Nat.div_add_mod q len, hblock, hmod]

/-- The contents of the good blocks, read as one sequence. -/
theorem exists_goodView {α : Type} [Nonempty α] (hlen : 0 < len) (contents : Nat → α) :
    ∃ view : Nat → α, ∀ p, first ≤ p / len → good (p / len) →
      view (goodPlace good len first p) = contents p := by
  let place (p : { p // first ≤ p / len ∧ good (p / len) }) : Nat := goodPlace good len first p
  have hinj : place.Injective := by
    intro p q h
    exact Subtype.ext (goodPlace_injective hlen p.2.1 q.2.1 p.2.2 q.2.2 h)
  refine ⟨place.extend (fun p => contents p) fun _ => Classical.arbitrary α, ?_⟩
  intro p hp hgood
  exact hinj.extend_apply _ _ ⟨p, hp, hgood⟩

end

end Verification
