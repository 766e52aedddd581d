import Mathlib.Logic.Function.Basic

/-!
# Open addressing with deleted cells

A table of cells in which every key has a path of slots to try. A search follows
the path to the first cell that is empty or holds the key; cells of deleted
entries are passed over. `Sound` says that every entry is the one a search for
its key ends at. It is kept by entering a key where the search for it ended, by
entering an absent key at the start of its path, and by deleting.
-/

namespace OpenAddressing

variable {κ ν : Type} [DecidableEq κ]

/-- One slot of the table. -/
inductive Cell (κ ν : Type) where
  | empty
  | deleted
  | live (key : κ) (value : ν)

/-- A search for a key ends here. -/
def Cell.stops (k : κ) : Cell κ ν → Bool
  | .empty => true
  | .deleted => false
  | .live key _ => key = k

@[simp] theorem Cell.stops_empty (k : κ) : (Cell.empty : Cell κ ν).stops k = true := rfl
@[simp] theorem Cell.stops_deleted (k : κ) : (Cell.deleted : Cell κ ν).stops k = false := rfl
@[simp] theorem Cell.stops_live (k key : κ) (value : ν) :
    (Cell.live key value).stops k = decide (key = k) := rfl

/-- The slot where the search for a key ends. -/
def search (path : κ → List Nat) (table : Nat → Cell κ ν) (k : κ) : Option Nat :=
  (path k).find? fun i => (table i).stops k

/-- Every entry is where the search for its key ends. -/
def Sound (path : κ → List Nat) (table : Nat → Cell κ ν) : Prop :=
  ∀ i k v, table i = .live k v → search path table k = some i

/-- The table holds this value for the key. -/
def Holds (table : Nat → Cell κ ν) (k : κ) (v : ν) : Prop := ∃ i, table i = .live k v

/-- The table holds nothing for the key. -/
def Absent (table : Nat → Cell κ ν) (k : κ) : Prop := ∀ i v, table i ≠ .live k v

variable {path : κ → List Nat} {table : Nat → Cell κ ν} {i j : Nat} {k k' : κ} {v v' : ν}

omit [DecidableEq κ] in
theorem absent_iff : Absent table k ↔ ∀ v, ¬Holds table k v := by
  constructor
  · rintro h v ⟨i, hi⟩
    exact h i v hi
  · exact fun h i v hi => h v ⟨i, hi⟩

theorem Sound.slot_unique (h : Sound path table) (hi : table i = .live k v)
    (hj : table j = .live k v') : i = j :=
  Option.some.inj ((h i k v hi).symm.trans (h j k v' hj))

/-- A search that ends at no entry of the key shows that there is none. -/
theorem Sound.absent_of_search (h : Sound path table)
    (hs : ∀ i v, search path table k = some i → table i ≠ .live k v) : Absent table k :=
  fun i v hi => hs i v (h i k v hi) hi

/-- A search that ended elsewhere did not stop at this cell before, so it still
ends there when the cell is replaced by one that does not stop it either. -/
theorem search_update_of_ne {c : Cell κ ν} (hs : search path table k = some j) (hne : j ≠ i)
    (hnew : c.stops k = false) :
    search path (Function.update table i c) k = some j := by
  unfold search at hs ⊢
  generalize path k = slots at hs ⊢
  induction slots with
  | nil => simp at hs
  | cons x xs ih =>
    by_cases hx : x = i
    · subst hx
      rw [List.find?_cons_of_neg (by rw [Function.update_self, hnew]; exact Bool.false_ne_true)]
      cases hstop : (table x).stops k with
      | true =>
        rw [List.find?_cons_of_pos (by simpa using hstop), Option.some.injEq] at hs
        exact absurd hs.symm hne
      | false =>
        rw [List.find?_cons_of_neg (by simp [hstop])] at hs
        exact ih hs
    · cases hstop : (table x).stops k with
      | true =>
        rw [List.find?_cons_of_pos (by simpa using hstop)] at hs
        rw [List.find?_cons_of_pos (by rw [Function.update_of_ne hx]; exact hstop), hs]
      | false =>
        rw [List.find?_cons_of_neg (by simp [hstop])] at hs
        rw [List.find?_cons_of_neg (by simp [Function.update_of_ne hx, hstop])]
        exact ih hs

/-- Writing a live cell at the slot where the search for its key ended. -/
theorem search_update_live_self (hs : search path table k = some i) :
    search path (Function.update table i (.live k v)) k = some i := by
  unfold search at hs ⊢
  generalize path k = slots at hs ⊢
  induction slots with
  | nil => simp at hs
  | cons x xs ih =>
    by_cases hx : x = i
    · subst hx
      rw [List.find?_cons_of_pos (by simp)]
    · cases hstop : (table x).stops k with
      | true =>
        rw [List.find?_cons_of_pos (by simpa using hstop), Option.some.injEq] at hs
        exact absurd hs hx
      | false =>
        rw [List.find?_cons_of_neg (by simp [hstop])] at hs
        rw [List.find?_cons_of_neg (by simp [Function.update_of_ne hx, hstop])]
        exact ih hs

/-- Entering a key where its search ends, whether it replaces the value of the
key or fills an empty cell. -/
theorem Sound.enter (h : Sound path table) (hs : search path table k = some i) :
    Sound path (Function.update table i (.live k v)) := by
  intro j k' v' hj
  by_cases hji : j = i
  · subst hji
    rw [Function.update_self, Cell.live.injEq] at hj
    rw [← hj.1]
    exact search_update_live_self hs
  · rw [Function.update_of_ne hji] at hj
    by_cases hk : k' = k
    · -- the search for the key would have ended at `j`
      subst hk
      have := h j k' v' hj
      rw [hs, Option.some.injEq] at this
      exact absurd this.symm hji
    · exact search_update_of_ne (h j k' v' hj) hji (by simpa using fun he => hk he.symm)

/-- Entering an absent key at the start of its path, whatever is there. -/
theorem Sound.enter_home (h : Sound path table) (hhome : (path k).head? = some i)
    (habs : Absent table k) :
    Sound path (Function.update table i (.live k v)) := by
  intro j k' v' hj
  by_cases hji : j = i
  · subst hji
    rw [Function.update_self, Cell.live.injEq] at hj
    rw [← hj.1]
    obtain ⟨rest, hpath⟩ := List.head?_eq_some_iff.mp hhome
    rw [search, hpath, List.find?_cons_of_pos (by simp)]
  · rw [Function.update_of_ne hji] at hj
    by_cases hk : k' = k
    · subst hk
      exact absurd hj (habs j v')
    · exact search_update_of_ne (h j k' v' hj) hji (by simpa using fun he => hk he.symm)

/-- Deleting the entry of a slot, or marking a slot that holds none. -/
theorem Sound.delete (h : Sound path table) (i : Nat) :
    Sound path (Function.update table i .deleted) := by
  intro j k v hj
  by_cases hji : j = i
  · subst hji
    rw [Function.update_self] at hj
    cases hj
  · rw [Function.update_of_ne hji] at hj
    exact search_update_of_ne (h j k v hj) hji rfl

/-- After an entry: the new value for its key, and for the others what the other cells hold. -/
theorem holds_write_iff (h : Sound path (Function.update table i (.live k v))) :
    Holds (Function.update table i (.live k v)) k' v' ↔
      if k' = k then v' = v else ∃ j, j ≠ i ∧ table j = .live k' v' := by
  have hself : Function.update table i (.live k v) i = .live k v := Function.update_self ..
  split
  · rename_i hk
    subst hk
    constructor
    · rintro ⟨j, hj⟩
      have := h.slot_unique hself hj
      subst this
      rw [hself, Cell.live.injEq] at hj
      exact hj.2.symm
    · rintro rfl
      exact ⟨i, hself⟩
  · rename_i hk
    constructor
    · rintro ⟨j, hj⟩
      by_cases hji : j = i
      · subst hji
        rw [hself, Cell.live.injEq] at hj
        exact absurd hj.1.symm hk
      · exact ⟨j, hji, by rwa [Function.update_of_ne hji] at hj⟩
    · rintro ⟨j, hji, hj⟩
      exact ⟨j, by rwa [Function.update_of_ne hji]⟩

/-- The other cells hold every key but the one in the cell itself. -/
theorem Sound.holds_elsewhere_iff (h : Sound path table) :
    (∃ j, j ≠ i ∧ table j = .live k v) ↔ Holds table k v ∧ ∀ w, table i ≠ .live k w := by
  constructor
  · rintro ⟨j, hji, hj⟩
    exact ⟨⟨j, hj⟩, fun w hi => hji (h.slot_unique hj hi)⟩
  · rintro ⟨⟨j, hj⟩, hne⟩
    refine ⟨j, ?_, hj⟩
    rintro rfl
    exact hne v hj

/-- The old values stay, provided the cell written did not hold another key. -/
theorem holds_enter_iff (h : Sound path (Function.update table i (.live k v)))
    (hfree : ∀ k' v', table i = .live k' v' → k' = k) :
    Holds (Function.update table i (.live k v)) k' v' ↔
      if k' = k then v' = v else Holds table k' v' := by
  rw [holds_write_iff h]
  split
  · exact Iff.rfl
  · rename_i hk
    constructor
    · rintro ⟨j, -, hj⟩
      exact ⟨j, hj⟩
    · rintro ⟨j, hj⟩
      refine ⟨j, ?_, hj⟩
      rintro rfl
      exact hk (hfree k' v' hj)

/-- After a deletion: nothing for its key, and the old values for the others. -/
theorem holds_delete_iff (h : Sound path table) (hi : table i = .live k v) :
    Holds (Function.update table i .deleted) k' v' ↔
      if k' = k then False else Holds table k' v' := by
  split
  · rename_i hk
    subst hk
    simp only [iff_false]
    rintro ⟨j, hj⟩
    by_cases hji : j = i
    · subst hji
      rw [Function.update_self] at hj
      cases hj
    · rw [Function.update_of_ne hji] at hj
      exact hji (h.slot_unique hj hi)
  · rename_i hk
    constructor
    · rintro ⟨j, hj⟩
      by_cases hji : j = i
      · subst hji
        rw [Function.update_self] at hj
        cases hj
      · exact ⟨j, by rwa [Function.update_of_ne hji] at hj⟩
    · rintro ⟨j, hj⟩
      have hji : j ≠ i := by
        rintro rfl
        rw [hi, Cell.live.injEq] at hj
        exact hk hj.1.symm
      exact ⟨j, by rwa [Function.update_of_ne hji]⟩

omit [DecidableEq κ] in
/-- Marking a cell that holds no entry changes no value. -/
theorem holds_mark_iff (hi : ∀ k v, table i ≠ .live k v) :
    Holds (Function.update table i .deleted) k v ↔ Holds table k v := by
  constructor
  · rintro ⟨j, hj⟩
    by_cases hji : j = i
    · subst hji
      rw [Function.update_self] at hj
      cases hj
    · exact ⟨j, by rwa [Function.update_of_ne hji] at hj⟩
  · rintro ⟨j, hj⟩
    have hji : j ≠ i := by
      rintro rfl
      exact hi k v hj
    exact ⟨j, by rwa [Function.update_of_ne hji]⟩

end OpenAddressing
