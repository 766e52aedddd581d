import Mathlib.Data.UInt
import Mathlib.Logic.Nontrivial.Basic
import Mathlib.Tactic.Abel

/-!
# Moving windows of an address space

Addresses have 32 bits and wrap around. A window is an address and a length, and a move
gives the window at one address what was in the window at another one. Whether two moves
one after the other do what each of them would do alone depends only on the windows.
-/

namespace Verification

universe u

/-- Two windows have no address in common. -/
def Separate (a n b m : UInt32) : Prop := n = 0 ∨ m = 0 ∨ n ≤ b - a ∧ m ≤ a - b

instance (a n b m : UInt32) : Decidable (Separate a n b m) :=
  inferInstanceAs (Decidable (_ ∨ _ ∨ _ ∧ _))

/-- Where the contents of an address come from in a move. -/
def moveSource (dst src len q : UInt32) : UInt32 := if q - dst < len then src + (q - dst) else q

/-- The contents behind a move. -/
def moveWindow {α : Type u} (mem : UInt32 → α) (dst src len : UInt32) : UInt32 → α :=
  fun q => mem (moveSource dst src len q)

section

variable {a b n m : UInt32}

theorem separate_iff : Separate a n b m ↔ ∀ q, q - a < n → ¬q - b < m := by
  constructor
  · intro h q hqa hqb
    rw [UInt32.lt_iff_toNat_lt] at hqa hqb
    obtain rfl | rfl | ⟨hn, hm⟩ := h
    · exact absurd hqa (Nat.not_lt_zero _)
    · exact absurd hqb (Nat.not_lt_zero _)
    · rw [UInt32.le_iff_toNat_le] at hn hm
      simp only [UInt32.toNat_sub] at hqa hqb hn hm
      have := a.toNat_lt
      have := b.toNat_lt
      have := q.toNat_lt
      omega
  · intro h
    by_contra hno
    rw [Separate, not_or, not_or, not_and_or, UInt32.not_le, UInt32.not_le] at hno
    obtain ⟨hn, hm, hab | hba⟩ := hno
    · refine h b hab ?_
      rw [sub_self]
      exact UInt32.pos_iff_ne_zero.mpr hm
    · refine h a ?_ hba
      rw [sub_self]
      exact UInt32.pos_iff_ne_zero.mpr hn

theorem add_sub_self (a i : UInt32) : a + i - a = i := by abel

end

section

variable {d s n q : UInt32}

theorem moveSource_of_lt (h : q - d < n) : moveSource d s n q = s + (q - d) := if_pos h

theorem moveSource_inside {i : UInt32} (h : i < n) : moveSource d s n (d + i) = s + i := by
  rw [moveSource, add_sub_self, if_pos h]

theorem moveSource_outside (h : ¬q - d < n) : moveSource d s n q = q := if_neg h

/-- An address keeps its contents if nothing is moved there, or nothing is moved at all. -/
theorem moveSource_eq_self : moveSource d s n q = q ↔ s = d ∨ ¬q - d < n := by
  rw [moveSource]
  split_ifs with h
  · rw [or_iff_left (not_not.mpr h)]
    constructor
    · intro heq
      rw [eq_sub_of_add_eq heq]
      abel
    · rintro rfl
      abel
  · exact iff_of_true rfl (.inr h)

/-- A window keeps its contents. -/
theorem moveSource_fixes_iff {b m : UInt32} :
    (∀ i < m, moveSource d s n (b + i) = b + i) ↔ s = d ∨ Separate d n b m := by
  simp only [moveSource_eq_self, separate_iff]
  constructor
  · intro h
    by_cases hsd : s = d
    · exact .inl hsd
    · refine .inr fun q hd hb => ?_
      have hq : b + (q - b) = q := by abel
      exact ((h (q - b) hb).resolve_left hsd) (hq.symm ▸ hd)
  · rintro (hsd | hapart) i hi
    · exact .inl hsd
    · exact .inr fun hd => hapart _ hd (by rwa [add_sub_self])

end

/-! ## Two moves -/

section

variable {α : Type u} {d₁ s₁ n₁ d₂ s₂ n₂ k m : UInt32}

/-- Behind two moves both windows hold what was at their sources, and a third window is
not changed. -/
structure MovesBoth (mem mem' : UInt32 → α) (d₁ s₁ n₁ d₂ s₂ n₂ k m : UInt32) : Prop where
  first : ∀ i < n₁, mem' (d₁ + i) = mem (s₁ + i)
  second : ∀ i < n₂, mem' (d₂ + i) = mem (s₂ + i)
  kept : ∀ i < m, mem' (k + i) = mem (k + i)

/-- What is moved goes neither over the window to be kept nor over what is still to be
moved, and the destinations are apart, or both are moved equally far. -/
structure MovesApart (d₁ s₁ n₁ d₂ s₂ n₂ k m : UInt32) : Prop where
  first : s₁ = d₁ ∨ Separate d₁ n₁ k m ∧ Separate d₁ n₁ s₂ n₂
  second : s₂ = d₂ ∨ Separate d₂ n₂ k m
  both : Separate d₁ n₁ d₂ n₂ ∨ s₁ - d₁ = s₂ - d₂

/-- Memories tell addresses apart. -/
theorem forall_mem_eq_iff [Nontrivial α] {p q : UInt32} :
    (∀ mem : UInt32 → α, mem p = mem q) ↔ p = q := by
  refine ⟨fun h => ?_, fun h mem => congrArg mem h⟩
  obtain ⟨x, y, hxy⟩ := exists_pair_ne α
  by_contra hne
  have heq := h fun r => if r = p then x else y
  rw [if_pos rfl, if_neg (Ne.symm hne)] at heq
  exact hxy heq

/-- Two moves, as sources of addresses. -/
theorem forall_movesBoth_iff [Nontrivial α] :
    (∀ mem : UInt32 → α, MovesBoth mem (moveWindow (moveWindow mem d₁ s₁ n₁) d₂ s₂ n₂)
      d₁ s₁ n₁ d₂ s₂ n₂ k m) ↔
      (∀ i < n₁, moveSource d₁ s₁ n₁ (moveSource d₂ s₂ n₂ (d₁ + i)) = s₁ + i) ∧
      (∀ i < n₂, moveSource d₁ s₁ n₁ (s₂ + i) = s₂ + i) ∧
      ∀ i < m, moveSource d₁ s₁ n₁ (moveSource d₂ s₂ n₂ (k + i)) = k + i := by
  constructor
  · intro h
    refine ⟨fun i hi => ?_, fun i hi => ?_, fun i hi => ?_⟩
    · exact forall_mem_eq_iff.mp fun mem : UInt32 → α => (h mem).first i hi
    · have hsecond := forall_mem_eq_iff.mp fun mem : UInt32 → α => (h mem).second i hi
      rwa [moveSource_inside hi] at hsecond
    · exact forall_mem_eq_iff.mp fun mem : UInt32 → α => (h mem).kept i hi
  · rintro ⟨hfirst, hsecond, hkept⟩ mem
    refine ⟨fun i hi => congrArg mem (hfirst i hi), fun i hi => ?_,
      fun i hi => congrArg mem (hkept i hi)⟩
    exact congrArg mem ((congrArg _ (moveSource_inside hi)).trans (hsecond i hi))

/-- Two moves do what they ought to do in every memory exactly if the windows are so. -/
theorem movesBoth_iff [Nontrivial α] :
    (∀ mem : UInt32 → α, MovesBoth mem (moveWindow (moveWindow mem d₁ s₁ n₁) d₂ s₂ n₂)
      d₁ s₁ n₁ d₂ s₂ n₂ k m) ↔ MovesApart d₁ s₁ n₁ d₂ s₂ n₂ k m := by
  rw [forall_movesBoth_iff]
  constructor
  · rintro ⟨hfirst, hsecond, hkept⟩
    -- the second move changes nothing that is kept, as the first one does not bring it back
    have hsource : ∀ q, q - d₂ < n₂ → moveSource d₁ s₁ n₁ (moveSource d₂ s₂ n₂ q) =
        moveSource d₂ s₂ n₂ q := by
      intro q hq
      rw [moveSource_of_lt hq]
      exact hsecond _ hq
    have hkept₂ : ∀ i < m, moveSource d₂ s₂ n₂ (k + i) = k + i := by
      intro i hi
      by_cases hq : k + i - d₂ < n₂
      · rw [← hsource _ hq]
        exact hkept i hi
      · exact moveSource_outside hq
    have hkept₁ : ∀ i < m, moveSource d₁ s₁ n₁ (k + i) = k + i := by
      intro i hi
      have heq := hkept i hi
      rwa [hkept₂ i hi] at heq
    refine ⟨?_, moveSource_fixes_iff.mp hkept₂, ?_⟩
    · have h₁ := moveSource_fixes_iff.mp hkept₁
      have h₂ := moveSource_fixes_iff.mp hsecond
      tauto
    · by_contra hno
      rw [not_or, separate_iff] at hno
      push Not at hno
      obtain ⟨⟨q, hq₁, hq₂⟩, hne⟩ := hno
      have heq := hfirst (q - d₁) hq₁
      rw [show d₁ + (q - d₁) = q by abel, hsource q hq₂, moveSource_of_lt hq₂] at heq
      apply hne
      have hsub : s₂ + (q - d₂) - q = s₁ + (q - d₁) - q := congrArg (· - q) heq
      have h₁ : s₁ + (q - d₁) - q = s₁ - d₁ := by abel
      have h₂ : s₂ + (q - d₂) - q = s₂ - d₂ := by abel
      rw [← h₁, ← h₂, hsub]
  · rintro ⟨hfirst, hsecond, hboth⟩
    have hsecond' : ∀ i < n₂, moveSource d₁ s₁ n₁ (s₂ + i) = s₂ + i :=
      moveSource_fixes_iff.mpr (hfirst.imp_right And.right)
    have hkept₁ := moveSource_fixes_iff.mpr (hfirst.imp_right And.left)
    have hkept₂ := moveSource_fixes_iff.mpr hsecond
    refine ⟨fun i hi => ?_, hsecond', fun i hi => ?_⟩
    · by_cases hq : d₁ + i - d₂ < n₂
      · obtain hapart | hfar := hboth
        · exact absurd hq (separate_iff.mp hapart _ (by rwa [add_sub_self]))
        · rw [moveSource_of_lt hq, hsecond' _ hq]
          have h₁ : s₂ + (d₁ + i - d₂) = s₂ - d₂ + (d₁ + i) := by abel
          rw [h₁, ← hfar]
          abel
      · rw [moveSource_outside hq, moveSource_inside hi]
    · rw [hkept₂ i hi, hkept₁ i hi]

end

end Verification
