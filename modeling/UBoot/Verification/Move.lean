import UBoot.Verification.Bytes

/-!
# Moving blocks of memory

The window at one address gets the bytes that were at another one before. The
two may overlap. A long move may be made in two parts, the one first that does
not write what the other one still has to read.
-/

namespace Verification

/-- `memmove` -/
def Ptr.move (p : Ptr) (dst src len : Nat) : Ptr := p.write dst len (p.add src)

theorem Ptr.move_apply (p : Ptr) (dst src len a : Nat) :
    p.move dst src len a = if dst ≤ a ∧ a < dst + len then p (src + (a - dst)) else p a :=
  rfl

theorem Ptr.move_zero (p : Ptr) (dst src : Nat) : p.move dst src 0 = p :=
  p.write_zero dst _

theorem Ptr.move_self (p : Ptr) (dst len : Nat) : p.move dst dst len = p := by
  funext a
  rw [Ptr.move_apply]
  split_ifs with h
  · rw [Nat.add_sub_cancel' h.1]
  · rfl

/-- Towards lower addresses the first part can be moved first. -/
theorem Ptr.move_forward (p : Ptr) {dst src : Nat} (h : dst ≤ src) (n k : Nat) :
    (p.move dst src n).move (dst + n) (src + n) k = p.move dst src (n + k) := by
  funext a
  simp only [Ptr.move_apply]
  by_cases hlast : dst + n ≤ a ∧ a < dst + n + k
  · rw [if_pos hlast, if_neg (by omega), if_pos (by omega)]
    congr 1
    omega
  · rw [if_neg hlast]
    by_cases hfirst : dst ≤ a ∧ a < dst + n
    · rw [if_pos hfirst, if_pos (by omega)]
    · rw [if_neg hfirst, if_neg (by omega)]

/-- Towards higher addresses the last part can be moved first. -/
theorem Ptr.move_backward (p : Ptr) {dst src : Nat} (h : src ≤ dst) (n k : Nat) :
    (p.move (dst + n) (src + n) k).move dst src n = p.move dst src (n + k) := by
  funext a
  simp only [Ptr.move_apply]
  by_cases hfirst : dst ≤ a ∧ a < dst + n
  · rw [if_pos hfirst, if_neg (by omega), if_pos (by omega)]
  · rw [if_neg hfirst]
    by_cases hlast : dst + n ≤ a ∧ a < dst + n + k
    · rw [if_pos hlast, if_pos (by omega)]
      congr 1
      omega
    · rw [if_neg hlast, if_neg (by omega)]

end Verification
