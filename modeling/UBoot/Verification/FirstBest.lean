import Mathlib.Algebra.Order.Group.Nat
import Mathlib.Data.List.Induction
import Mathlib.Tactic.Common

/-!
# The first of the best

A search that goes through a list and keeps the best element so far: one that is better
takes its place, one that is as good does not.
-/

namespace Verification

variable {α : Type} (rank : α → Option Nat)

/-- One element more is looked at. The smaller rank is the better one, and an element
without a rank is not considered. -/
def improve (best : Option (α × Nat)) (a : α) : Option (α × Nat) :=
  match rank a with
  | none => best
  | some r =>
    match best with
    | none => some (a, r)
    | some (b, r') => if r < r' then some (a, r) else some (b, r')

/-- The element is the first of those with the smallest rank. -/
structure FirstBest (l : List α) (a : α) (r : Nat) : Prop where
  rank_eq : rank a = some r
  le : ∀ b ∈ l, ∀ r', rank b = some r' → r ≤ r'
  first : ∃ before after, l = before ++ a :: after ∧ ∀ b ∈ before, ∀ r', rank b = some r' → r < r'

variable {rank}

theorem FirstBest.append {l : List α} {a b : α} {r : Nat} (h : FirstBest rank l a r)
    (hb : ∀ r', rank b = some r' → r ≤ r') : FirstBest rank (l ++ [b]) a r where
  rank_eq := h.rank_eq
  le := by
    intro c hc r' hr'
    obtain hc | hc := List.mem_append.mp hc
    · exact h.le c hc r' hr'
    · rw [List.mem_singleton.mp hc] at hr'
      exact hb r' hr'
  first := by
    obtain ⟨before, after, rfl, hbefore⟩ := h.first
    exact ⟨before, after ++ [b], by simp, hbefore⟩

/-- A better element behind the list. -/
theorem FirstBest.of_better {l : List α} {a : α} {r : Nat} (ha : rank a = some r)
    (hbetter : ∀ b ∈ l, ∀ r', rank b = some r' → r < r') : FirstBest rank (l ++ [a]) a r where
  rank_eq := ha
  le := by
    intro c hc r' hr'
    obtain hc | hc := List.mem_append.mp hc
    · exact (hbetter c hc r' hr').le
    · rw [List.mem_singleton.mp hc, ha, Option.some.injEq] at hr'
      exact hr'.le
  first := ⟨l, [], rfl, hbetter⟩

theorem foldl_improve_eq_none {l : List α} :
    l.foldl (improve rank) none = none ↔ ∀ a ∈ l, rank a = none := by
  induction l using List.reverseRecOn with
  | nil => simp
  | append_singleton l a ih =>
    rw [List.foldl_append, List.foldl_cons, List.foldl_nil, List.forall_mem_append,
      List.forall_mem_singleton, ← ih]
    cases hr : rank a <;> cases hbest : l.foldl (improve rank) none <;> simp [improve, hr]
    split_ifs <;> simp

/-- What the search keeps. -/
theorem firstBest_of_foldl_improve {l : List α} {a : α} {r : Nat}
    (h : l.foldl (improve rank) none = some (a, r)) : FirstBest rank l a r := by
  induction l using List.reverseRecOn generalizing a r with
  | nil => cases h
  | append_singleton l b ih =>
    rw [List.foldl_append, List.foldl_cons, List.foldl_nil, improve] at h
    cases hb : rank b with
    | none =>
      rw [hb] at h
      exact (ih h).append fun r' hr' => by rw [hb] at hr'; cases hr'
    | some r' =>
      rw [hb] at h
      cases hbest : l.foldl (improve rank) none with
      | none =>
        rw [hbest] at h
        obtain ⟨rfl, rfl⟩ := Prod.mk.inj (Option.some.inj h)
        refine .of_better hb fun c hc r'' hr'' => ?_
        rw [foldl_improve_eq_none.mp hbest c hc] at hr''
        cases hr''
      | some best =>
        obtain ⟨c, r''⟩ := best
        rw [hbest] at h
        dsimp only at h
        have hc := ih hbest
        split_ifs at h with hlt
        · obtain ⟨rfl, rfl⟩ := Prod.mk.inj (Option.some.inj h)
          exact .of_better hb fun d hd q hq => hlt.trans_le (hc.le d hd q hq)
        · obtain ⟨rfl, rfl⟩ := Prod.mk.inj (Option.some.inj h)
          refine hc.append fun q hq => ?_
          rw [hb, Option.some.injEq] at hq
          omega

end Verification
