import Mathlib.Data.List.Basic
import Mathlib.Logic.Function.Basic

/-!
# Doubly linked lists in an indexed store

The nodes of a list stand at indices of a store, and each has the indices of its
two neighbours. A segment is a part of such a list, seen as the indices and
values of its nodes; the neighbours at its two ends are given from outside.
-/

namespace Verification

universe u

/-- A node with the indices of its neighbours. -/
structure Node (α : Type u) where
  value : α
  next : Nat
  prev : Nat

variable {α : Type u}

/-- The index of the first node of a segment, or of what follows it. -/
def headIndex : List (Nat × α) → Nat → Nat
  | [], next => next
  | x :: _, _ => x.1

/-- The index of the last node of a segment, or of what precedes it. -/
def lastIndex : Nat → List (Nat × α) → Nat
  | prev, [] => prev
  | _, x :: rest => lastIndex x.1 rest

/-- The nodes `L` are linked between `prev` and `next`. -/
def Segment (store : Nat → Node α) : Nat → List (Nat × α) → Nat → Prop
  | _, [], _ => True
  | prev, x :: rest, next =>
    store x.1 = ⟨x.2, headIndex rest next, prev⟩ ∧ Segment store x.1 rest next

@[simp] theorem headIndex_nil (next : Nat) : headIndex ([] : List (Nat × α)) next = next := rfl

@[simp] theorem headIndex_cons (x : Nat × α) (L : List (Nat × α)) (next : Nat) :
    headIndex (x :: L) next = x.1 := rfl

@[simp] theorem lastIndex_nil (prev : Nat) : lastIndex prev ([] : List (Nat × α)) = prev := rfl

@[simp] theorem lastIndex_cons (prev : Nat) (x : Nat × α) (L : List (Nat × α)) :
    lastIndex prev (x :: L) = lastIndex x.1 L := rfl

@[simp] theorem headIndex_append (L M : List (Nat × α)) (next : Nat) :
    headIndex (L ++ M) next = headIndex L (headIndex M next) := by
  cases L <;> rfl

@[simp] theorem lastIndex_append (prev : Nat) (L M : List (Nat × α)) :
    lastIndex prev (L ++ M) = lastIndex (lastIndex prev L) M := by
  induction L generalizing prev with
  | nil => rfl
  | cons x L ih => exact ih x.1

theorem lastIndex_mem (prev : Nat) {L : List (Nat × α)} (h : L ≠ []) :
    ∃ x ∈ L, lastIndex prev L = x.1 := by
  obtain ⟨M, x, rfl⟩ := List.eq_nil_or_concat L |>.resolve_left h
  exact ⟨x, by simp, by simp⟩

namespace Segment

variable {store store' : Nat → Node α} {L M : List (Nat × α)} {prev next : Nat}

theorem append_iff : Segment store prev (L ++ M) next ↔
    Segment store prev L (headIndex M next) ∧ Segment store (lastIndex prev L) M next := by
  induction L generalizing prev with
  | nil => simp [Segment]
  | cons x L ih => simp only [List.cons_append, Segment, headIndex_append, ih, lastIndex_cons,
      and_assoc]

/-- The node of a member. -/
theorem at_middle {x : Nat × α} (h : Segment store prev (L ++ x :: M) next) :
    store x.1 = ⟨x.2, headIndex M next, lastIndex prev L⟩ :=
  (append_iff.mp h).2.1

/-- A segment depends on its own nodes only. -/
theorem congr (h : Segment store prev L next) (hsame : ∀ x ∈ L, store' x.1 = store x.1) :
    Segment store' prev L next := by
  induction L generalizing prev with
  | nil => trivial
  | cons x L ih =>
    refine ⟨?_, ih h.2 fun y hy => hsame y (List.mem_cons_of_mem _ hy)⟩
    rw [hsame x List.mem_cons_self]
    exact h.1

theorem update_of_notMem (h : Segment store prev L next) {i : Nat} {node : Node α}
    (hi : ∀ x ∈ L, x.1 ≠ i) : Segment (Function.update store i node) prev L next :=
  h.congr fun x hx => Function.update_of_ne (hi x hx) ..

/-- Give the segment another successor. -/
theorem set_next {x : Nat × α} (h : Segment store prev (L ++ [x]) next)
    (hx : ∀ y ∈ L, y.1 ≠ x.1) (next' : Nat) :
    Segment (Function.update store x.1 { store x.1 with next := next' }) prev (L ++ [x])
      next' := by
  obtain ⟨hL, hlast⟩ := append_iff.mp h
  refine append_iff.mpr ⟨hL.update_of_notMem hx, ?_, trivial⟩
  rw [Function.update_self, hlast.1]
  rfl

/-- Give the segment another predecessor. -/
theorem set_prev {x : Nat × α} (h : Segment store prev (x :: L) next)
    (hx : ∀ y ∈ L, y.1 ≠ x.1) (prev' : Nat) :
    Segment (Function.update store x.1 { store x.1 with prev := prev' }) prev' (x :: L) next := by
  refine ⟨?_, h.2.update_of_notMem hx⟩
  rw [Function.update_self, h.1]

end Segment

end Verification
