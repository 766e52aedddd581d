import Mathlib.Data.List.Basic
import Mathlib.Logic.Function.Basic

/-!
# Ring buffers

A ring of `cap` slots holds a queue from the slot `top` on and wraps at its end.
The queue forgets its oldest elements when more than `cap` are appended.
-/

namespace Verification

/-- The last `cap` elements. -/
def latest {α : Type} (cap : Nat) (xs : List α) : List α := xs.drop (xs.length - cap)

section Latest

variable {α : Type} {cap : Nat} {xs : List α}

theorem latest_of_le (h : xs.length ≤ cap) : latest cap xs = xs := by
  rw [latest, Nat.sub_eq_zero_of_le h, List.drop_zero]

/-- What was forgotten early does not come back. -/
theorem latest_append (cap : Nat) (xs ys : List α) :
    latest cap (latest cap xs ++ ys) = latest cap (xs ++ ys) := by
  have hfirst : latest cap xs ++ ys = (xs ++ ys).drop (xs.length - cap) :=
    (List.drop_append_of_le_length (Nat.sub_le _ _)).symm
  rw [hfirst, latest, latest, List.length_drop, List.drop_drop, List.length_append]
  congr 1
  omega

/-- A full queue drops its oldest element for a new one. -/
theorem latest_cons_of_full {x y : α} (h : xs.length + 1 = cap) :
    latest cap (x :: xs ++ [y]) = xs ++ [y] := by
  rw [latest, List.length_append, List.length_cons, List.length_singleton, h,
    Nat.add_sub_cancel_left]
  rfl

end Latest

namespace Ring

/-- The slot behind `p`. -/
def next (cap p : Nat) : Nat := if p + 1 = cap then 0 else p + 1

/-- The slot of the element `i` of a queue that starts at `top`. -/
def slot (cap top i : Nat) : Nat := if top + i < cap then top + i else top + i - cap

/-- The queue `xs` lies in the ring from `top` up to `tail`. -/
structure Holds {α : Type} (cap : Nat) (data : Nat → α) (top tail : Nat) (xs : List α) : Prop where
  length_le : xs.length ≤ cap
  top_lt : top < cap
  tail_eq : tail = slot cap top xs.length
  stored : ∀ i (h : i < xs.length), data (slot cap top i) = xs[i]

section Slots

variable {cap top i j : Nat}

theorem next_lt (h : top < cap) : next cap top < cap := by
  rw [next]
  split_ifs <;> omega

theorem slot_lt (h : top < cap) (hi : i ≤ cap) : slot cap top i < cap := by
  rw [slot]
  split_ifs <;> omega

theorem slot_zero (h : top < cap) : slot cap top 0 = top := if_pos h

theorem slot_ne (hi : i < cap) (hj : j < cap) (hne : i ≠ j) :
    slot cap top i ≠ slot cap top j := by
  rw [slot, slot]
  split_ifs <;> omega

theorem slot_succ (h : top < cap) (hi : i < cap) : slot cap top (i + 1) = next cap (slot cap top i) := by
  rw [slot, slot, next]
  split_ifs <;> omega

theorem slot_next (hi : i < cap) : slot cap (next cap top) i = slot cap top (i + 1) := by
  rw [slot, slot, next]
  split_ifs <;> omega

end Slots

namespace Holds

variable {α : Type} {cap top tail : Nat} {data : Nat → α} {xs : List α} {x y : α}

theorem nil (data : Nat → α) (h : top < cap) : Holds cap data top top [] :=
  ⟨Nat.zero_le cap, h, (slot_zero h).symm, fun i hi => absurd hi (Nat.not_lt_zero i)⟩

theorem tail_lt (h : Holds cap data top tail xs) : tail < cap := by
  rw [h.tail_eq]
  exact slot_lt h.top_lt h.length_le

/-- An element is appended while there is room. -/
theorem push (h : Holds cap data top tail xs) (hroom : xs.length < cap) (y : α) :
    Holds cap (Function.update data tail y) top (next cap tail) (xs ++ [y]) where
  length_le := by
    rw [List.length_append, List.length_singleton]
    exact hroom
  top_lt := h.top_lt
  tail_eq := by
    rw [h.tail_eq, List.length_append, List.length_singleton, slot_succ h.top_lt hroom]
  stored := by
    intro i hi
    rw [h.tail_eq]
    by_cases hold : i < xs.length
    · have hne := @slot_ne cap top i _ (Nat.lt_trans hold hroom) hroom (Nat.ne_of_lt hold)
      rw [Function.update_of_ne hne, List.getElem_append_left hold]
      exact h.stored i hold
    · have hlast : i = xs.length := by
        rw [List.length_append, List.length_singleton] at hi
        omega
      subst hlast
      simp

/-- The oldest element is taken. -/
theorem pop (h : Holds cap data top tail (x :: xs)) : Holds cap data (next cap top) tail xs where
  length_le := Nat.le_of_succ_le h.length_le
  top_lt := next_lt h.top_lt
  tail_eq := by
    rw [h.tail_eq, List.length_cons, slot_next h.length_le]
  stored := by
    intro i hi
    have hle := h.length_le
    rw [List.length_cons] at hle
    rw [slot_next (by omega)]
    exact h.stored (i + 1) (Nat.succ_lt_succ hi)

theorem head (h : Holds cap data top tail (x :: xs)) : data top = x := by
  have hfirst := h.stored 0 (Nat.succ_pos _)
  rwa [slot_zero h.top_lt] at hfirst

/-- In a full ring the new element takes the place of the oldest one. -/
theorem replace (h : Holds cap data top tail (x :: xs)) (hfull : xs.length + 1 = cap) (y : α) :
    Holds cap (Function.update data tail y) (next cap top) (next cap tail) (xs ++ [y]) :=
  h.pop.push (Nat.lt_of_succ_le (Nat.le_of_eq hfull)) y

end Holds

end Ring

end Verification
