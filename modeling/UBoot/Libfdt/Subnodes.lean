import Mathlib.Logic.Relation
import UBoot.Libfdt.Basic

/-!
# Walking the subnodes of a node

`fdt_for_each_subnode` is a loop of its own: the body either goes on or leaves the
loop with a value. What it does is said in terms of the subnodes that the walk
meets.
-/

namespace UBoot.Libfdt

open Verification

/-- `fdt_first_subnode` -/
def fdtFirstSubnode (fdt : Fdt) (offset : Int) : Option Int := do
  let (offset, depth) ← fdtNextNode fdt offset 0
  return if offset < 0 ∨ depth ≠ 1 then -FDT_ERR_NOTFOUND else offset

/-- The loop of `fdt_next_subnode`. -/
def nextSubnodeLoop (fdt : Fdt) : Nat → Int → Int → Option Int
  | 0, _, _ => none
  | fuel + 1, offset, depth => do
    let (offset, depth) ← fdtNextNode fdt offset depth
    if offset < 0 ∨ depth < 1 then return -FDT_ERR_NOTFOUND
    else if 1 < depth then nextSubnodeLoop fdt fuel offset depth
    else return offset

/-- `fdt_next_subnode` -/
def fdtNextSubnode (fdt : Fdt) (offset : Int) : Option Int :=
  nextSubnodeLoop fdt iterations offset 1

/-- `fdt_get_name`: the address of the name, or `NULL`. -/
def fdtGetName (fdt : Fdt) (nodeoffset : Int) : Option (Option Nat) :=
  if fdtCheckHeader fdt ≠ 0 then some none
  else do
    let checked ← fdtCheckNodeOffset fdt nodeoffset
    return if checked < 0 then none else some (u32 (fdtOffsetPtrUnchecked fdt nodeoffset + 4))

/-! ### Strings -/

/-- The loop of `strlen`. -/
def strlenLoop (p : Ptr) : Nat → Nat → Option Nat
  | 0, _ => none
  | fuel + 1, i => if p i = 0 then some i else strlenLoop p fuel (i + 1)

def cString (p : Ptr) : Option (List UInt8) := (strlenLoop p iterations 0).map p.bytes

theorem strlenLoop_spec {p : Ptr} {fuel i n : Nat} (h : strlenLoop p fuel i = some n) :
    i ≤ n ∧ p n = 0 ∧ ∀ j, i ≤ j → j < n → p j ≠ 0 := by
  induction fuel generalizing i with
  | zero => simp [strlenLoop] at h
  | succ fuel ih =>
    rw [strlenLoop] at h
    split_ifs at h with hzero
    · obtain rfl := Option.some.inj h
      exact ⟨Nat.le_refl i, hzero, fun j hle hlt => absurd hlt (by omega)⟩
    · obtain ⟨hle, hstop, hbefore⟩ := ih h
      refine ⟨by omega, hstop, fun j hij hjn => ?_⟩
      by_cases hj : j = i
      · rwa [hj]
      · exact hbefore j (by omega) hjn

theorem strlenLoop_stops {p : Ptr} {fuel i k : Nat} (hk : p k = 0) (hik : i ≤ k) (hfuel : k < i + fuel) :
    ∃ n, strlenLoop p fuel i = some n ∧ n ≤ k := by
  induction fuel generalizing i with
  | zero => omega
  | succ fuel ih =>
    rw [strlenLoop]
    split_ifs with hzero
    · exact ⟨i, rfl, hik⟩
    · have hne : i ≠ k := fun heq => hzero (heq ▸ hk)
      exact ih (by omega) (by omega)

/-- `strcmp` with a string that has no NUL inside, as the test for equality. -/
def strcmpEq (p : Ptr) (s : List UInt8) : Bool := p.bytes s.length = s ∧ p s.length = 0

/-! ### The loop -/

section ForEach

variable {ρ σ : Type}

/-- The loop of `fdt_for_each_subnode`. The body goes on with `ok` and leaves the loop
with `error`; the result has the last value of the iterator. -/
def forEachLoop (fdt : Fdt) (body : Int → σ → Option (Except ρ σ)) :
    Nat → Int → σ → Option (Except ρ σ × Int)
  | 0, _, _ => none
  | fuel + 1, node, s =>
    if 0 ≤ node then do
      match ← body node s with
      | .error r => return (.error r, node)
      | .ok s => forEachLoop fdt body fuel (← fdtNextSubnode fdt node) s
    else some (.ok s, node)

/-- `fdt_for_each_subnode` -/
def fdtForEachSubnode (fdt : Fdt) (parent : Int) (body : Int → σ → Option (Except ρ σ)) (s : σ) :
    Option (Except ρ σ × Int) := do
  let node ← fdtFirstSubnode fdt parent
  forEachLoop fdt body iterations node s

/-- One advance of the iterator. -/
def NextSubnode (fdt : Fdt) (a b : Int) : Prop := 0 ≤ a ∧ fdtNextSubnode fdt a = some b

/-- The subnodes that the walk meets. -/
def Subnode (fdt : Fdt) (parent node : Int) : Prop :=
  ∃ first, fdtFirstSubnode fdt parent = some first ∧
    Relation.ReflTransGen (NextSubnode fdt) first node ∧ 0 ≤ node

variable {fdt : Fdt} {body : Int → σ → Option (Except ρ σ)}

/-- A loop that ends by itself has gone on at every subnode. -/
theorem forEachLoop_ok {fuel : Nat} {first last : Int} {s s' : σ}
    (h : forEachLoop fdt body fuel first s = some (.ok s', last)) {node : Int}
    (hnode : Relation.ReflTransGen (NextSubnode fdt) first node) (hpos : 0 ≤ node) :
    ∃ t t', body node t = some (.ok t') := by
  induction fuel generalizing first s with
  | zero => simp [forEachLoop] at h
  | succ fuel ih =>
    rw [forEachLoop] at h
    rcases hnode.cases_head with rfl | ⟨next, hnext, hrest⟩
    · rw [if_pos hpos] at h
      obtain ⟨r, hr, h⟩ := Option.bind_eq_some_iff.mp h
      cases r with
      | error r => simp at h
      | ok t => exact ⟨s, t, hr⟩
    · rw [if_pos hnext.1] at h
      obtain ⟨r, hr, h⟩ := Option.bind_eq_some_iff.mp h
      cases r with
      | error r => simp at h
      | ok t =>
        obtain ⟨next', hnext', h⟩ := Option.bind_eq_some_iff.mp h
        rw [hnext.2, Option.some.injEq] at hnext'
        exact ih (hnext' ▸ h) hrest

theorem forEachLoop_error {fuel : Nat} {first last : Int} {s : σ} {r : ρ}
    (h : forEachLoop fdt body fuel first s = some (.error r, last)) :
    Relation.ReflTransGen (NextSubnode fdt) first last ∧ 0 ≤ last ∧
      ∃ t, body last t = some (.error r) := by
  induction fuel generalizing first s with
  | zero => simp [forEachLoop] at h
  | succ fuel ih =>
    rw [forEachLoop] at h
    split at h
    · rename_i hpos
      obtain ⟨q, hq, h⟩ := Option.bind_eq_some_iff.mp h
      cases q with
      | error q =>
        simp only [Option.pure_def, Option.some.injEq, Prod.mk.injEq, Except.error.injEq] at h
        obtain ⟨rfl, rfl⟩ := h
        exact ⟨.refl, hpos, s, hq⟩
      | ok t =>
        obtain ⟨next, hnext, h⟩ := Option.bind_eq_some_iff.mp h
        obtain ⟨hreach, hlast⟩ := ih h
        exact ⟨.head ⟨hpos, hnext⟩ hreach, hlast⟩
    · simp at h

theorem fdtForEachSubnode_ok {parent last : Int} {s s' : σ}
    (h : fdtForEachSubnode fdt parent body s = some (.ok s', last)) {node : Int}
    (hnode : Subnode fdt parent node) : ∃ t t', body node t = some (.ok t') := by
  obtain ⟨first, hfirst, hreach, hpos⟩ := hnode
  obtain ⟨first', hfirst', h⟩ := Option.bind_eq_some_iff.mp h
  rw [hfirst, Option.some.injEq] at hfirst'
  exact forEachLoop_ok h (hfirst' ▸ hreach) hpos

theorem fdtForEachSubnode_error {parent last : Int} {s : σ} {r : ρ}
    (h : fdtForEachSubnode fdt parent body s = some (.error r, last)) :
    Subnode fdt parent last ∧ ∃ t, body last t = some (.error r) := by
  obtain ⟨first, hfirst, h⟩ := Option.bind_eq_some_iff.mp h
  obtain ⟨hreach, hpos, hbody⟩ := forEachLoop_error h
  exact ⟨⟨first, hfirst, hreach, hpos⟩, hbody⟩

end ForEach

end UBoot.Libfdt
