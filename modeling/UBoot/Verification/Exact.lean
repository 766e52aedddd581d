import Mathlib.Tactic.ByContra

/-!
# Exact preconditions of computations that may fail

A computation in `Option` fails where a program would leave its memory. `Exact`
gives the condition under which it does not fail, and what then holds of its
result. The condition of a composed computation comes from those of its parts.
-/

namespace Verification

universe u

/-- The computation has a result exactly under the condition `fits`, and then a
result that is `good`. -/
structure Exact {α : Type u} (x : Option α) (fits : Prop) (good : α → Prop) : Prop where
  succeeds : fits → ∃ a, x = some a ∧ good a
  fails : ¬fits → x = none

namespace Exact

variable {α β : Type u} {x y : Option α} {f : α → Option β} {fits fits' : Prop}
variable {good : α → Prop} {good' : β → Prop}

theorem some {a : α} (h : good a) : Exact (some a) True good :=
  ⟨fun _ => ⟨a, rfl, h⟩, fun hnot => absurd trivial hnot⟩

theorem congr (h : Exact x fits good) (hiff : fits ↔ fits') : Exact x fits' good :=
  ⟨fun hfits => h.succeeds (hiff.mpr hfits), fun hnot => h.fails (mt hiff.mp hnot)⟩

theorem mono {good' : α → Prop} (h : Exact x fits good) (hpost : ∀ a, good a → good' a) :
    Exact x fits good' := by
  refine ⟨fun hfits => ?_, h.fails⟩
  obtain ⟨a, ha, hgood⟩ := h.succeeds hfits
  exact ⟨a, ha, hpost a hgood⟩

/-- The second computation starts with a good result of the first. -/
theorem bind (hx : Exact x fits good) (hf : ∀ a, fits → good a → Exact (f a) fits' good') :
    Exact (x.bind f) (fits ∧ fits') good' := by
  by_cases hfits : fits
  · obtain ⟨a, rfl, hgood⟩ := hx.succeeds hfits
    refine ⟨fun h => (hf a hfits hgood).succeeds h.2, fun h => (hf a hfits hgood).fails ?_⟩
    exact fun hfits' => h ⟨hfits, hfits'⟩
  · rw [hx.fails hfits]
    exact ⟨fun h => absurd h.1 hfits, fun _ => rfl⟩

theorem map {g : α → β} (hx : Exact x fits good) (hg : ∀ a, good a → good' (g a)) :
    Exact (x.map g) fits good' := by
  refine ⟨fun hfits => ?_, fun hnot => ?_⟩
  · obtain ⟨a, rfl, hgood⟩ := hx.succeeds hfits
    exact ⟨g a, rfl, hg a hgood⟩
  · rw [hx.fails hnot]
    rfl

/-- A bound is checked before the access. -/
theorem guard {c : Prop} [Decidable c] {a : α} (h : c → good a) :
    Exact (if c then Option.some a else Option.none) c good :=
  ⟨fun hc => ⟨a, if_pos hc, h hc⟩, fun hnot => if_neg hnot⟩

theorem ite {c : Prop} [Decidable c] (hx : c → Exact x fits good) (hy : ¬c → Exact y fits' good) :
    Exact (if c then x else y) (if c then fits else fits') good := by
  by_cases hc : c
  · rw [if_pos hc, if_pos hc]
    exact hx hc
  · rw [if_neg hc, if_neg hc]
    exact hy hc

/-- A good result is found exactly under the condition. -/
theorem exists_iff (h : Exact x fits good) : (∃ a, x = Option.some a ∧ good a) ↔ fits := by
  refine ⟨fun ⟨a, ha, _⟩ => ?_, h.succeeds⟩
  by_contra hnot
  cases ha.symm.trans (h.fails hnot)

end Exact

end Verification
