import Mathlib.Data.Set.Finite.Basic
import Mathlib.Logic.Relation
import Mathlib.Order.WellFounded

/-!
# Recursions over a finite graph

A recursion that calls itself along the edges of a graph ends where the graph has no
infinite path. In a finite graph these are the nodes that reach no cycle.
-/

namespace Verification

open Relation

variable {α : Type*} {r : α → α → Prop} {a b : α}

/-- A path from the node leads to one that reaches itself. -/
def ReachesCycle (r : α → α → Prop) (a : α) : Prop :=
  ∃ c, ReflTransGen r a c ∧ TransGen r c c

/-- A cycle is an infinite path. -/
theorem not_transGen_self_of_acc (h : Acc (fun y x => r x y) a) : ¬TransGen r a a := by
  induction h with
  | intro a _ ih =>
    intro hcycle
    obtain ⟨b, hab, hba⟩ := TransGen.head'_iff.mp hcycle
    exact ih b hab (TransGen.tail' hba hab)

theorem not_reachesCycle_of_acc (h : Acc (fun y x => r x y) a) : ¬ReachesCycle r a := by
  have hreached : ∀ {c}, ReflTransGen r a c → Acc (fun y x => r x y) c := by
    intro c hac
    induction hac with
    | refl => exact h
    | tail _ hbc ih => exact ih.inv hbc
  rintro ⟨c, hac, hcycle⟩
  exact not_transGen_self_of_acc (hreached hac) hcycle

theorem acc_of_not_reachesCycle [Finite α] (h : ¬ReachesCycle r a) :
    Acc (fun y x => r x y) a := by
  -- paths between the nodes that are reached from `a` are a strict order
  let after : α → α → Prop := fun y x => ReflTransGen r a x ∧ TransGen r x y
  have htrans : IsTrans α after :=
    ⟨fun _ _ _ hzy hyx => ⟨hyx.1, hyx.2.trans hzy.2⟩⟩
  have hirrefl : Std.Irrefl after := ⟨fun c hc => h ⟨c, hc.1, hc.2⟩⟩
  have hwf : WellFounded after := Finite.wellFounded_of_trans_of_irrefl after
  have hreached : ∀ x, ReflTransGen r a x → Acc (fun y x => r x y) x := by
    intro x
    induction x using hwf.induction with
    | _ x ih => exact fun hx => .intro x fun y hy => ih y ⟨hx, .single hy⟩ (hx.tail hy)
  exact hreached a .refl

/-- Every path from a node of a finite graph ends exactly when it reaches no cycle. -/
theorem acc_iff_not_reachesCycle [Finite α] :
    Acc (fun y x => r x y) a ↔ ¬ReachesCycle r a :=
  ⟨not_reachesCycle_of_acc, acc_of_not_reachesCycle⟩

end Verification
