import Mathlib.Data.List.Basic

/-!
# Guarded runs of a deterministic transition system

A run is a list of actions applied one after another. Whether an action may be
taken, or meets a side condition, is a predicate on the state right before it.
`Guarded` collects these predicates along the run, so that a safety proof has
two parts only: the invariant holds at the start, and one guarded step keeps it.

Ghost data (an abstract state, a history variable) is carried by taking pairs
as states; nothing below distinguishes it from the actual state.
-/

namespace Verification

universe u v

variable {S : Type u} {A : Type v}

/-- The state reached from `s` by performing the actions in order. -/
def run (step : S → A → S) (s : S) (actions : List A) : S :=
  actions.foldl step s

@[simp] theorem run_nil (step : S → A → S) (s : S) : run step s [] = s := rfl

@[simp] theorem run_cons (step : S → A → S) (s : S) (a : A) (actions : List A) :
    run step s (a :: actions) = run step (step s a) actions := rfl

theorem run_append (step : S → A → S) (s : S) (first second : List A) :
    run step s (first ++ second) = run step (run step s first) second :=
  List.foldl_append

/-- Every action of the run satisfies `ok` in the state in which it is taken. -/
def Guarded (step : S → A → S) (ok : S → A → Prop) : S → List A → Prop
  | _, [] => True
  | s, a :: actions => ok s a ∧ Guarded step ok (step s a) actions

instance Guarded.decidable {step : S → A → S} {ok : S → A → Prop} [∀ s a, Decidable (ok s a)] :
    ∀ (s : S) (actions : List A), Decidable (Guarded step ok s actions)
  | _, [] => .isTrue trivial
  | s, a :: actions =>
    have : Decidable (Guarded step ok (step s a) actions) := Guarded.decidable _ actions
    inferInstanceAs (Decidable (ok s a ∧ Guarded step ok (step s a) actions))

namespace Guarded

variable {step : S → A → S} {ok ok' : S → A → Prop}

theorem append_iff {s : S} {first second : List A} :
    Guarded step ok s (first ++ second) ↔
      Guarded step ok s first ∧ Guarded step ok (run step s first) second := by
  induction first generalizing s with
  | nil => simp [Guarded]
  | cons a first ih =>
    simp only [List.cons_append, Guarded, run_cons, ih, and_assoc]

theorem of_forall (h : ∀ s a, ok s a) (s : S) (actions : List A) : Guarded step ok s actions := by
  induction actions generalizing s with
  | nil => trivial
  | cons a actions ih => exact ⟨h s a, ih _⟩

/-- A run that is not guarded has a first action that does not satisfy `ok`. -/
theorem exists_first_failure {s : S} {actions : List A} (h : ¬Guarded step ok s actions) :
    ∃ first a rest, actions = first ++ a :: rest ∧ Guarded step ok s first ∧
      ¬ok (run step s first) a := by
  induction actions generalizing s with
  | nil => exact absurd trivial h
  | cons a actions ih =>
    by_cases ha : ok s a
    · obtain ⟨first, a', rest, rfl, hfirst, hfail⟩ := ih fun hrest => h ⟨ha, hrest⟩
      exact ⟨a :: first, a', rest, rfl, ⟨ha, hfirst⟩, hfail⟩
    · exact ⟨[], a, actions, rfl, trivial, ha⟩

/-- An invariant kept by every guarded step holds at the end of a guarded run. -/
theorem invariant {I : S → Prop} (keep : ∀ s a, I s → ok s a → I (step s a)) :
    ∀ {s : S} {actions : List A}, Guarded step ok s actions → I s → I (run step s actions) := by
  intro s actions
  induction actions generalizing s with
  | nil => exact fun _ hs => hs
  | cons a actions ih =>
    intro h hs
    exact ih h.2 (keep s a hs h.1)

/-- Weaken the guard along a run, using an invariant of the stronger one. -/
theorem mono {I : S → Prop} (keep : ∀ s a, I s → ok s a → I (step s a))
    (weaken : ∀ s a, I s → ok s a → ok' s a) :
    ∀ {s : S} {actions : List A}, Guarded step ok s actions → I s →
      Guarded step ok' s actions := by
  intro s actions
  induction actions generalizing s with
  | nil => exact fun _ _ => trivial
  | cons a actions ih =>
    intro h hs
    exact ⟨weaken s a hs h.1, ih h.2 (keep s a hs h.1)⟩

end Guarded

end Verification
