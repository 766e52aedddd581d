import UBoot.HashTable.Path
import UBoot.Verification.OpenAddressing

/-!
# What one call does to the table

The table as a table of open addressing, and one specification for each of
`hsearch_r` and `hdelete_r` in terms of the values it holds. A new entry is
written over the first slot tried when that slot is a deleted one, and else
where the search ended. When the search has come round to the first slot without
meeting an empty one, that is the first slot as well, and if it is live its entry
is lost; `EnterOk` is what excludes this.
-/

namespace UBoot.HashTable

open OpenAddressing

/-- A slot, seen as a cell. -/
def Slot.cell (slot : Slot) : Cell Str Str :=
  if slot.used = 0 then .empty
  else if slot.used = -1 then .deleted
  else .live (slot.entry.key.getD []) (slot.entry.data.getD [])

/-- The table, seen as cells. -/
def HsearchData.cells (htab : HsearchData) (i : Nat) : Cell Str Str := (htab.table i).cell

@[simp] theorem cell_zero : Slot.zero.cell = .empty := rfl

@[simp] theorem cell_deleted (entry : Entry) : (Slot.mk (-1) entry).cell = .deleted := by
  simp [Slot.cell]

/-- The counter is not part of the cells. -/
@[simp] theorem HsearchData.cells_filled (htab : HsearchData) (n : Nat) :
    HsearchData.cells { htab with filled := n } = htab.cells := rfl

theorem HsearchData.cells_set (htab : HsearchData) (idx : Nat) (slot : Slot) :
    (htab.set idx slot).cells = Function.update htab.cells idx slot.cell := by
  funext i
  by_cases h : i = idx
  · subst h
    simp [HsearchData.cells, HsearchData.set]
  · simp [HsearchData.cells, HsearchData.set, h]

/-- A slot that is in use stores the first index of its key. -/
def Slot.Valid (size : Nat) (slot : Slot) : Prop :=
  slot.used = 0 ∨ slot.used = -1 ∨
    ∃ k v, slot.entry.key = some k ∧ slot.entry.data = some v ∧ slot.used = firstIndex size k

/-- What every call relies on and keeps. -/
structure Consistent (htab : HsearchData) : Prop where
  size : SizeOk htab.size
  valid : ∀ i, (htab.table i).Valid htab.size
  inside : ∀ i, (htab.table i).used ≠ 0 → 1 ≤ i ∧ i ≤ htab.size
  sound : Sound (path htab.size) htab.cells

variable {htab : HsearchData} {ctx : Context} {key : Str} {data : Option Str} {action : Action}
  {flag : Int}

theorem cells_created {nel : Nat} {htab htab' : HsearchData} {callocOk : Bool}
    (h : hcreateR nel htab callocOk = some (1, htab')) (i : Nat) : htab'.cells i = .empty := by
  obtain ⟨-, -, -, hzero⟩ := hcreateR_sizeOk h
  rw [HsearchData.cells, hzero, cell_zero]

theorem consistent_created {nel : Nat} {htab htab' : HsearchData} {callocOk : Bool}
    (h : hcreateR nel htab callocOk = some (1, htab')) : Consistent htab' := by
  obtain ⟨hsize, -, -, hzero⟩ := hcreateR_sizeOk h
  refine ⟨hsize, fun i => ?_, fun i hi => ?_, fun i k v hi => ?_⟩
  · rw [hzero]
    exact .inl rfl
  · rw [hzero] at hi
    exact absurd rfl hi
  · rw [cells_created h] at hi
    cases hi

theorem one_le_firstIndex (size : Nat) (key : Str) : 1 ≤ firstIndex size key := by
  rw [firstIndex]
  split <;> omega

theorem Consistent.firstIndex_le (h : Consistent htab) (key : Str) :
    firstIndex htab.size key ≤ htab.size := by
  rcases h.size with hone | ⟨hp, h5, -⟩
  · rw [hone, firstIndex, Nat.mod_one, if_pos rfl]
  · exact (firstIndex_bounds hp h5 key).2.le

theorem cell_eq_empty_iff {slot : Slot} : slot.cell = .empty ↔ slot.used = 0 := by
  rw [Slot.cell]
  split
  · simpa
  · split <;> simp_all

theorem cell_of_live {slot : Slot} {size : Nat} {k v : Str} (hk : slot.entry.key = some k)
    (hv : slot.entry.data = some v) (hu : slot.used = firstIndex size k) :
    slot.cell = .live k v := by
  have := one_le_firstIndex size k
  rw [Slot.cell, if_neg (by omega), if_neg (by omega), hk, hv]
  rfl

theorem Slot.Valid.live {slot : Slot} {size : Nat} (h : slot.Valid size) {k v : Str}
    (hc : slot.cell = .live k v) :
    slot.entry.key = some k ∧ slot.entry.data = some v ∧ slot.used = firstIndex size k := by
  rcases h with h0 | h1 | ⟨k', v', hk, hv, hu⟩
  · simp [Slot.cell, h0] at hc
  · simp [Slot.cell, h1] at hc
  · rw [cell_of_live hk hv hu, Cell.live.injEq] at hc
    exact ⟨hc.1 ▸ hk, hc.2 ▸ hv, hc.1 ▸ hu⟩

/-! ### Comparing -/

theorem Consistent.compare_live (h : Consistent htab) {i : Nat} {v : Str}
    (hc : htab.cells i = .live key v) :
    compareAndOverwriteEntry ctx key data action htab flag (firstIndex htab.size key) i =
      some (some (foundEntry ctx key data action htab flag i)) := by
  obtain ⟨hk, -, hu⟩ := (h.valid i).live hc
  simp only [compareAndOverwriteEntry, hu, if_true, hk]

theorem Consistent.compare_other (h : Consistent htab) {i : Nat}
    (hc : ∀ v, htab.cells i ≠ .live key v) :
    compareAndOverwriteEntry ctx key data action htab flag (firstIndex htab.size key) i =
      some none := by
  have := one_le_firstIndex htab.size key
  rcases h.valid i with h0 | h1 | ⟨k, v, hk, hv, hu⟩
  · rw [compareAndOverwriteEntry, if_neg (by omega)]
  · rw [compareAndOverwriteEntry, if_neg (by omega)]
  · have hne : key ≠ k := by
      rintro rfl
      exact hc v (cell_of_live hk hv hu)
    simp only [compareAndOverwriteEntry, hk, if_neg hne]
    split <;> rfl

/-! ### Searching -/

/-- How a search ends, from the slot where it ends. -/
def probeAt (ctx : Context) (key : Str) (data : Option Str) (action : Action)
    (htab : HsearchData) (flag : Int) (home : Nat) : Option Nat → Probe
  | some i => if (htab.table i).used = 0 then .at i
      else .done (foundEntry ctx key data action htab flag i)
  | none => .at home

theorem Consistent.stops_cases (h : Consistent htab) (key : Str) (i : Nat) :
    ((htab.table i).used = 0 ∧ (htab.cells i).stops key = true ∧
        ∀ v, htab.cells i ≠ .live key v) ∨
    ((htab.table i).used ≠ 0 ∧ (htab.cells i).stops key = true ∧
        ∃ v, htab.cells i = .live key v) ∨
    ((htab.table i).used ≠ 0 ∧ (htab.cells i).stops key = false ∧
        ∀ v, htab.cells i ≠ .live key v) := by
  have hone := one_le_firstIndex htab.size
  rcases h.valid i with h0 | h1 | ⟨k, v, hk, hv, hu⟩
  · have hc : htab.cells i = .empty := cell_eq_empty_iff.mpr h0
    exact .inl ⟨h0, by simp [hc], by simp [hc]⟩
  · have hc : htab.cells i = .deleted := by simp [HsearchData.cells, Slot.cell, h1]
    exact .inr (.inr ⟨by omega, by simp [hc], by simp [hc]⟩)
  · have hc : htab.cells i = .live k v := cell_of_live hk hv hu
    have hused : (htab.table i).used ≠ 0 := by
      have := hone k
      omega
    by_cases hkey : k = key
    · exact .inr (.inl ⟨hused, by simp [hc, hkey], v, by rw [hc, hkey]⟩)
    · refine .inr (.inr ⟨hused, by simp [hc, hkey], ?_⟩)
      rw [hc]
      simp [hkey]

/-- The loop follows the probe sequence to the first slot that stops it. -/
theorem Consistent.probeLoop_eq (h : Consistent htab) (hval2 n fuel idx : Nat) (hfuel : n < fuel)
    (hin : ∀ i ∈ List.iterate (nextIndex htab.size hval2) (nextIndex htab.size hval2 idx) n,
      i ≠ firstIndex htab.size key ∧ i ≤ htab.size)
    (hlast : (∀ i ∈ List.iterate (nextIndex htab.size hval2) (nextIndex htab.size hval2 idx) n,
      (htab.cells i).stops key = false) →
        (nextIndex htab.size hval2)^[n + 1] idx = firstIndex htab.size key) :
    probeLoop ctx key data action htab flag (firstIndex htab.size key) hval2 fuel idx =
      some (probeAt ctx key data action htab flag (firstIndex htab.size key)
        ((List.iterate (nextIndex htab.size hval2) (nextIndex htab.size hval2 idx) n).find?
          fun i => (htab.cells i).stops key)) := by
  induction n generalizing fuel idx with
  | zero =>
    obtain ⟨fuel, rfl⟩ : ∃ m, fuel = m + 1 := ⟨fuel - 1, by omega⟩
    have hwrap := hlast (by simp)
    rw [Function.iterate_one] at hwrap
    simp only [probeLoop, hwrap, if_true]
    rfl
  | succ n ih =>
    obtain ⟨fuel, rfl⟩ : ∃ m, fuel = m + 1 := ⟨fuel - 1, by omega⟩
    rw [List.iterate] at hin hlast ⊢
    obtain ⟨hne, hle⟩ := hin _ List.mem_cons_self
    simp only [probeLoop, if_neg hne, if_neg (Nat.not_lt.mpr hle)]
    rcases h.stops_cases key (nextIndex htab.size hval2 idx) with
      ⟨hu, hs, hc⟩ | ⟨hu, hs, v, hc⟩ | ⟨hu, hs, hc⟩
    · simp [h.compare_other hc, hs, probeAt, hu]
    · simp [h.compare_live hc, hs, probeAt, hu]
    · simp only [h.compare_other hc, List.find?_cons, hs, Option.bind_eq_bind,
        Option.bind_some, if_pos hu]
      refine ih fuel _ (by omega) (fun i hi => hin i (List.mem_cons_of_mem _ hi)) ?_
      intro hnone
      rw [← Function.iterate_succ_apply]
      refine hlast fun i hi => ?_
      rcases List.mem_cons.mp hi with rfl | hi
      · exact hs
      · exact hnone i hi

/-- The search ends where the search of open addressing does. -/
theorem Consistent.probe_eq (h : Consistent htab) :
    probe ctx key data action htab flag (firstIndex htab.size key) =
      some (probeAt ctx key data action htab flag (firstIndex htab.size key)
        (search (path htab.size) htab.cells key)) := by
  -- the slots after the first one
  obtain ⟨n, hn, hpath, hin, hlast⟩ : ∃ n, n < iterations ∧
      path htab.size key = firstIndex htab.size key ::
        List.iterate (nextSlot htab.size key)
          (nextSlot htab.size key (firstIndex htab.size key)) n ∧
      (∀ i ∈ List.iterate (nextSlot htab.size key)
          (nextSlot htab.size key (firstIndex htab.size key)) n,
        i ≠ firstIndex htab.size key ∧ i ≤ htab.size) ∧
      ((∀ i ∈ List.iterate (nextSlot htab.size key)
          (nextSlot htab.size key (firstIndex htab.size key)) n,
        (htab.cells i).stops key = false) →
          (nextSlot htab.size key)^[n + 1] (firstIndex htab.size key) =
            firstIndex htab.size key) := by
    rcases h.size with hone | ⟨hp, h5, hlt⟩
    · -- one slot: the second probe is at slot zero, which is empty
      have hfirst : firstIndex 1 key = 1 := by rw [firstIndex, Nat.mod_one, if_pos rfl]
      have hnext : nextSlot 1 key 1 = 0 := by
        rw [nextSlot, hfirst]
        decide
      have hzero : htab.cells 0 = .empty := by
        apply cell_eq_empty_iff.mpr
        by_contra hused
        have := (h.inside 0 hused).1
        omega
      refine ⟨1, by decide, ?_, ?_, ?_⟩
      · rw [hone, path, if_pos rfl, hfirst, hnext]
        rfl
      · simp [hone, hfirst, hnext, List.iterate]
      · simp [hone, hfirst, hnext, List.iterate, hzero]
    · have hfirst := firstIndex_bounds hp h5 key
      have h2 := secondHash_bounds h5 (by omega) (firstIndex htab.size key)
      have hidx : 1 ≤ firstIndex htab.size key ∧ firstIndex htab.size key ≤ htab.size := by omega
      obtain ⟨m, hm⟩ : ∃ m, htab.size = m + 1 := ⟨htab.size - 1, by omega⟩
      refine ⟨m, by simp only [iterations]; omega, ?_, ?_, ?_⟩
      · rw [path, if_neg (by omega), hm]
        rfl
      · intro i hi
        obtain ⟨j, hj, rfl⟩ := List.mem_iterate.mp hi
        rw [← Function.iterate_succ_apply]
        refine ⟨?_, (iterate_nextIndex (by omega) h2 hidx _).2.1⟩
        intro heq
        have := (iterate_nextIndex_eq_iff hp (by omega) h2 hidx (j + 1) 0).mp heq
        have := this.eq_of_lt_of_lt (by omega) (by omega)
        omega
      · intro _
        rw [← hm]
        exact (iterate_nextIndex_eq_iff hp (by omega) h2 hidx htab.size 0).mpr (by simp [Nat.ModEq])
  rw [search, hpath, probe]
  rcases h.stops_cases key (firstIndex htab.size key) with
    ⟨hu, hs, hc⟩ | ⟨hu, hs, v, hc⟩ | ⟨hu, hs, hc⟩
  · simp [hs, probeAt, hu]
  · simp [h.compare_live hc, hs, probeAt, hu]
  · simp only [if_pos hu, h.compare_other hc, List.find?_cons, hs, Option.bind_eq_bind,
      Option.bind_some]
    exact h.probeLoop_eq _ n iterations _ hn hin hlast

/-! ### Finding -/

variable (ctx key data flag) in
/-- `FIND` returns the slot of the key, or 0. The table stays as it is. -/
theorem Consistent.find_eq (h : Consistent htab) :
    (∃ i v, htab.cells i = .live key v ∧ 1 ≤ i ∧
      hsearchR ctx key data .find htab flag = some ⟨htab, i, some i, none⟩) ∨
    (Absent htab.cells key ∧
      hsearchR ctx key data .find htab flag = some (.failed htab .esrch)) := by
  rw [hsearchR]
  simp only [h.probe_eq, Option.bind_eq_bind, Option.bind_some]
  cases hs : search (path htab.size) htab.cells key with
  | none =>
    refine .inr ⟨h.sound.absent_of_search fun i v hi => ?_, rfl⟩
    rw [hs] at hi
    cases hi
  | some i =>
    have hstop := List.find?_some hs
    rcases h.stops_cases key i with ⟨hu, -, hc⟩ | ⟨hu, -, v, hc⟩ | ⟨-, hs', -⟩
    · refine .inr ⟨h.sound.absent_of_search fun j v hj => ?_, by simp [probeAt, hu]⟩
      rw [hs, Option.some.injEq] at hj
      exact hj ▸ hc v
    · refine .inl ⟨i, v, hc, (h.inside i hu).1, ?_⟩
      simp [probeAt, hu, foundEntry]
    · rw [hs'] at hstop
      cases hstop

/-! ### Changing one slot -/

theorem Consistent.set {slot : Slot} {idx : Nat} (h : Consistent htab)
    (hvalid : slot.Valid htab.size) (hidx : 1 ≤ idx ∧ idx ≤ htab.size)
    (hsound : Sound (path htab.size) (Function.update htab.cells idx slot.cell)) :
    Consistent (htab.set idx slot) where
  size := h.size
  valid i := by
    by_cases hi : i = idx
    · subst hi
      simpa [HsearchData.set] using hvalid
    · simpa [HsearchData.set, hi] using h.valid i
  inside i := by
    by_cases hi : i = idx
    · subst hi
      exact fun _ => hidx
    · simpa [HsearchData.set, hi] using h.inside i
  sound := by
    rw [HsearchData.cells_set]
    exact hsound

/-- `filled` is not part of what the other calls rely on. -/
theorem Consistent.filled {n : Nat} (h : Consistent htab) :
    Consistent { htab with filled := n } :=
  ⟨h.size, h.valid, h.inside, h.sound⟩

theorem cells_hdelete (htab : HsearchData) (idx : Nat) :
    (hdelete htab idx).cells = Function.update htab.cells idx .deleted := by
  rw [hdelete, HsearchData.cells_filled, HsearchData.cells_set, cell_deleted]

theorem Consistent.hdelete {idx : Nat} (h : Consistent htab)
    (hidx : 1 ≤ idx ∧ idx ≤ htab.size) : Consistent (hdelete htab idx) := by
  rw [HashTable.hdelete]
  apply Consistent.filled
  refine h.set (.inr (.inl rfl)) hidx ?_
  rw [cell_deleted]
  exact h.sound.delete idx

/-! ### Entering -/

/-- A new entry does not fall on a live slot: the key is there already, or a
slot was never used, or the first slot tried is a deleted one, or the call is
refused. -/
def EnterOk (htab : HsearchData) (key : Str) : Prop :=
  ¬ Absent htab.cells key ∨ (∃ i, 1 ≤ i ∧ i ≤ htab.size ∧ (htab.table i).used = 0) ∨
    (htab.table (firstIndex htab.size key)).used = -1 ∨ htab.filled = htab.size

/-- The values held after a call of `ENTER` that returns `ret`. -/
def EnterPost (before after : Nat → Cell Str Str) (key value : Str) (ret : Nat) : Prop :=
  ∀ k v, Holds after k v ↔ if ret ≠ 0 ∧ k = key then v = value else Holds before k v

theorem enterPost_refl (cells : Nat → Cell Str Str) (key value : Str) :
    EnterPost cells cells key value 0 := by
  intro k v
  simp

theorem Consistent.foundEntry_spec (h : Consistent htab) {i : Nat} {v value : Str}
    (hdup : ctx.strdupData = true) (hc : htab.cells i = .live key v) :
    Consistent (foundEntry ctx key (some value) .enter htab flag i).htab ∧
      (foundEntry ctx key (some value) .enter htab flag i).htab.size = htab.size ∧
      EnterPost htab.cells (foundEntry ctx key (some value) .enter htab flag i).htab.cells
        key value (foundEntry ctx key (some value) .enter htab flag i).ret := by
  obtain ⟨hk, hv, hu⟩ := (h.valid i).live hc
  have hone := one_le_firstIndex htab.size key
  have hidx := h.inside i (by omega)
  simp only [foundEntry, hdup, if_true]
  split
  · exact ⟨h, rfl, enterPost_refl _ _ _⟩
  · split
    · exact ⟨h, rfl, enterPost_refl _ _ _⟩
    · have hcell : Slot.cell ⟨(htab.table i).used,
          { (htab.table i).entry with data := some value }⟩ = .live key value :=
        cell_of_live hk rfl hu
      have hsound := h.sound.enter (v := value) (h.sound i key v hc)
      refine ⟨h.set (.inr (.inr ⟨key, value, hk, rfl, hu⟩)) hidx (by rwa [hcell]), rfl, ?_⟩
      intro k w
      rw [HsearchData.cells_set, hcell, holds_enter_iff hsound]
      · simp [show i ≠ 0 by omega]
      · intro k' v' hk'
        rw [hc, Cell.live.injEq] at hk'
        exact hk'.1.symm

/-- A new entry in a slot that holds none. -/
theorem Consistent.enterNew_spec (h : Consistent htab) {idx : Nat} {value : Str}
    (hkey : ctx.strdupKey = true) (hdata : ctx.strdupData = true)
    (hidx : 1 ≤ idx ∧ idx ≤ htab.size) (hfree : ∀ k v, htab.cells idx ≠ .live k v)
    (hsound : Sound (path htab.size) (Function.update htab.cells idx (.live key value))) :
    Consistent (enterNew ctx key (some value) htab flag (firstIndex htab.size key) idx).htab ∧
      (enterNew ctx key (some value) htab flag (firstIndex htab.size key) idx).htab.size =
        htab.size ∧
      EnterPost htab.cells
        (enterNew ctx key (some value) htab flag (firstIndex htab.size key) idx).htab.cells
        key value
        (enterNew ctx key (some value) htab flag (firstIndex htab.size key) idx).ret := by
  -- a rejected entry leaves a deleted slot behind
  have hreject : ∀ (slot : Slot) (n : Nat),
      Consistent (HashTable.hdelete { htab.set idx slot with filled := n } idx) ∧
      EnterPost htab.cells
        (HashTable.hdelete { htab.set idx slot with filled := n } idx).cells key value 0 := by
    intro slot n
    have hcells : (HashTable.hdelete { htab.set idx slot with filled := n } idx).cells =
        Function.update htab.cells idx .deleted := by
      rw [cells_hdelete, HsearchData.cells_filled, HsearchData.cells_set, Function.update_idem]
    refine ⟨⟨h.size, fun i => ?_, fun i => ?_, ?_⟩, fun k v => ?_⟩
    · by_cases hi : i = idx
      · subst hi
        exact .inr (.inl (by simp [HashTable.hdelete, HsearchData.set]))
      · simpa [HashTable.hdelete, HsearchData.set, hi] using h.valid i
    · by_cases hi : i = idx
      · subst hi
        exact fun _ => hidx
      · simpa [HashTable.hdelete, HsearchData.set, hi] using h.inside i
    · rw [hcells]
      exact h.sound.delete idx
    · rw [hcells, holds_mark_iff hfree]
      simp
  simp only [enterNew, hkey, hdata, if_true]
  rw [if_neg (by simp)]
  split
  · exact ⟨(hreject _ _).1, rfl, (hreject _ _).2⟩
  · split
    · exact ⟨(hreject _ _).1, rfl, (hreject _ _).2⟩
    · refine ⟨(h.set (.inr (.inr ⟨key, value, rfl, rfl, rfl⟩)) hidx ?_).filled, rfl, ?_⟩
      · rwa [cell_of_live rfl rfl rfl]
      · intro k v
        rw [HsearchData.cells_filled, HsearchData.cells_set, cell_of_live rfl rfl rfl,
          holds_enter_iff hsound]
        · simp
        · exact fun k' v' hk' => absurd hk' (hfree k' v')

/-- When a slot was never used, the search does not leave the slots of the table. -/
theorem Consistent.search_inside (h : Consistent htab) {i j : Nat}
    (hs : search (path htab.size) htab.cells key = some j) (hi1 : 1 ≤ i) (hi2 : i ≤ htab.size)
    (hi3 : (htab.table i).used = 0) : 1 ≤ j ∧ j ≤ htab.size := by
  rcases h.size with hone | ⟨hp, h5, hlt⟩
  · obtain rfl : i = 1 := by omega
    have hc : htab.cells 1 = .empty := cell_eq_empty_iff.mpr hi3
    rw [search, path, if_pos hone] at hs
    simp only [List.find?_cons, hc, Cell.stops_empty, Option.some.injEq] at hs
    omega
  · exact (mem_path_iff hp h5 (by omega) key j).mp (List.mem_of_find?_eq_some hs)

/-- A new entry has a slot to go to: one that was never used, or the first one tried when it
is a deleted one. -/
def HasRoom (htab : HsearchData) (key : Str) : Prop :=
  (∃ i, 1 ≤ i ∧ i ≤ htab.size ∧ (htab.table i).used = 0) ∨
    (htab.table (firstIndex htab.size key)).used = -1

theorem enterOk_iff : EnterOk htab key ↔
    ¬ Absent htab.cells key ∨ HasRoom htab key ∨ htab.filled = htab.size := by
  rw [EnterOk, HasRoom, or_assoc]

variable (ctx flag) in
/-- The search of an absent key ends at a slot where it may be entered. -/
theorem Consistent.probeAt_absent (h : Consistent htab) (value : Str)
    (habs : Absent htab.cells key) :
    ∃ idx, probeAt ctx key (some value) .enter htab flag (firstIndex htab.size key)
      (search (path htab.size) htab.cells key) = .at idx := by
  cases hs : search (path htab.size) htab.cells key with
  | none => exact ⟨_, rfl⟩
  | some i =>
    have hstop := List.find?_some hs
    rcases h.stops_cases key i with ⟨hu, -, -⟩ | ⟨-, -, v, hc⟩ | ⟨-, hs', -⟩
    · exact ⟨i, by rw [probeAt, if_pos hu]⟩
    · exact absurd hc (habs i v)
    · rw [hs'] at hstop
      cases hstop

/-- The search of an absent key, when a slot was never used. -/
theorem Consistent.search_unused (h : Consistent htab) (habs : Absent htab.cells key) {i : Nat}
    (hi1 : 1 ≤ i) (hi2 : i ≤ htab.size) (hi3 : (htab.table i).used = 0) :
    ∃ idx, search (path htab.size) htab.cells key = some idx ∧ (htab.table idx).used = 0 ∧
      1 ≤ idx ∧ idx ≤ htab.size := by
  obtain ⟨idx, hs⟩ : ∃ idx, search (path htab.size) htab.cells key = some idx := by
    apply Option.isSome_iff_exists.mp
    rw [search, List.find?_isSome]
    refine ⟨i, h.size.mem_path key ⟨hi1, hi2⟩, ?_⟩
    rw [show htab.cells i = .empty from cell_eq_empty_iff.mpr hi3, Cell.stops_empty]
  refine ⟨idx, hs, ?_, h.search_inside hs hi1 hi2 hi3⟩
  have hstop := List.find?_some hs
  rcases h.stops_cases key idx with ⟨hu, -, -⟩ | ⟨-, -, v, hc⟩ | ⟨-, hs', -⟩
  · exact hu
  · exact absurd hc (habs idx v)
  · rw [hs'] at hstop
    cases hstop

/-- Without room, the search of an absent key comes round to the first slot. -/
theorem Consistent.search_full (h : Consistent htab) (hsize : htab.size ≠ 1)
    (habs : Absent htab.cells key) (hroom : ¬ HasRoom htab key) :
    search (path htab.size) htab.cells key = none := by
  obtain ⟨hp, h5, hlt⟩ := h.size.resolve_left hsize
  refine List.find?_eq_none.mpr fun i hi hstop => ?_
  obtain ⟨hi1, hi2⟩ := (mem_path_iff hp h5 (by omega) key i).mp hi
  rcases h.stops_cases key i with ⟨hu, -, -⟩ | ⟨-, -, v, hc⟩ | ⟨-, hs', -⟩
  · exact hroom (Or.inl ⟨i, hi1, hi2, hu⟩)
  · exact habs i v hc
  · rw [hs'] at hstop
    cases hstop

variable (ctx flag) in
/-- How `ENTER` with a value goes on. An entry of the key is found; or the table counts as
full; or a new entry is written, to a slot that holds none when there is room, and else over
the entry of another key. -/
theorem Consistent.enter_cases (h : Consistent htab) (hone : htab.size = 1 → EnterOk htab key)
    (value : Str) :
    (∃ i v, htab.cells i = .live key v ∧ hsearchR ctx key (some value) .enter htab flag =
        some (foundEntry ctx key (some value) .enter htab flag i)) ∨
      (Absent htab.cells key ∧ htab.filled = htab.size ∧
        hsearchR ctx key (some value) .enter htab flag = some (.failed htab .enomem)) ∨
      Absent htab.cells key ∧ htab.filled ≠ htab.size ∧ ∃ idx, 1 ≤ idx ∧ idx ≤ htab.size ∧
        hsearchR ctx key (some value) .enter htab flag =
          some (enterNew ctx key (some value) htab flag (firstIndex htab.size key) idx) ∧
        ((HasRoom htab key ∧ (∀ k v, htab.cells idx ≠ .live k v) ∧
            Sound (path htab.size) (Function.update htab.cells idx (.live key value))) ∨
          ¬ HasRoom htab key ∧ idx = firstIndex htab.size key ∧
            ∃ k v, k ≠ key ∧ htab.cells idx = .live k v) := by
  have hhome := one_le_firstIndex htab.size key
  have hhome' := h.firstIndex_le key
  by_cases habs : Absent htab.cells key
  · right
    -- an absent key is entered where the search ends, or at the first slot
    have hnew : ∀ idx, probeAt ctx key (some value) .enter htab flag (firstIndex htab.size key)
        (search (path htab.size) htab.cells key) = .at idx →
        hsearchR ctx key (some value) .enter htab flag =
          if htab.filled = htab.size then some (.failed htab .enomem)
          else some (enterNew ctx key (some value) htab flag (firstIndex htab.size key)
            (if (htab.table (firstIndex htab.size key)).used = -1 then firstIndex htab.size key
              else idx)) := by
      intro idx hprobe
      rw [hsearchR]
      simp only [h.probe_eq, hprobe, Option.bind_eq_bind, Option.bind_some, Option.pure_def]
      by_cases hdel : (htab.table (firstIndex htab.size key)).used = -1
      · simp only [if_pos hdel, if_pos (Nat.ne_of_gt hhome)]
      · simp only [if_neg hdel, ne_eq, not_true_eq_false, if_false]
    by_cases hfull : htab.filled = htab.size
    · obtain ⟨idx, hidx⟩ := h.probeAt_absent ctx flag value habs
      exact Or.inl ⟨habs, hfull, by rw [hnew idx hidx, if_pos hfull]⟩
    refine Or.inr ⟨habs, hfull, ?_⟩
    simp only [if_neg hfull] at hnew
    by_cases hdel : (htab.table (firstIndex htab.size key)).used = -1
    · -- the first slot tried is used again
      obtain ⟨idx, hidx⟩ := h.probeAt_absent ctx flag value habs
      have hc : htab.cells (firstIndex htab.size key) = .deleted := by
        simp [HsearchData.cells, Slot.cell, hdel]
      exact ⟨firstIndex htab.size key, hhome, hhome', by rw [hnew idx hidx, if_pos hdel],
        Or.inl ⟨Or.inr hdel, by simp [hc], h.sound.enter_home (h.size.path_head? key) habs⟩⟩
    · simp only [if_neg hdel] at hnew
      by_cases hroom : HasRoom htab key
      · obtain ⟨i, hi1, hi2, hi3⟩ := hroom.resolve_right hdel
        obtain ⟨idx, hs, hu, hidx⟩ := h.search_unused habs hi1 hi2 hi3
        have hc : htab.cells idx = .empty := cell_eq_empty_iff.mpr hu
        exact ⟨idx, hidx.1, hidx.2, hnew idx (by rw [hs, probeAt, if_pos hu]),
          Or.inl ⟨hroom, by simp [hc], h.sound.enter hs⟩⟩
      · have hsize : htab.size ≠ 1 := fun hsize =>
          ((enterOk_iff.mp (hone hsize)).resolve_left (not_not.mpr habs)).elim hroom hfull
        refine ⟨firstIndex htab.size key, hhome, hhome',
          hnew _ (by rw [h.search_full hsize habs hroom, probeAt]), Or.inr ⟨hroom, rfl, ?_⟩⟩
        rcases h.valid (firstIndex htab.size key) with h0 | h1 | ⟨k, v, hk, hv, hu⟩
        · exact absurd (Or.inl ⟨_, hhome, hhome', h0⟩) hroom
        · exact absurd h1 hdel
        · have hc : htab.cells (firstIndex htab.size key) = .live k v := cell_of_live hk hv hu
          refine ⟨k, v, ?_, hc⟩
          rintro rfl
          exact habs _ v hc
  · obtain ⟨i, v, hc⟩ : ∃ i v, htab.cells i = .live key v := by
      simpa [Absent] using habs
    refine Or.inl ⟨i, v, hc, ?_⟩
    have hu : (htab.table i).used ≠ 0 := by
      intro h0
      rw [HsearchData.cells, cell_eq_empty_iff.mpr h0] at hc
      cases hc
    rw [hsearchR]
    simp only [h.probe_eq, h.sound i key v hc, probeAt, if_neg hu, Option.bind_eq_bind,
      Option.bind_some, Option.pure_def]

variable (flag) in
/-- `ENTER` with a value, when no allocation fails. -/
theorem Consistent.enter_spec (h : Consistent htab) (value : Str)
    (hkey : ctx.strdupKey = true) (hdata : ctx.strdupData = true) (hok : EnterOk htab key) :
    ∃ r, hsearchR ctx key (some value) .enter htab flag = some r ∧ Consistent r.htab ∧
      r.htab.size = htab.size ∧ EnterPost htab.cells r.htab.cells key value r.ret := by
  rcases h.enter_cases ctx flag (fun _ => hok) value with ⟨i, v, hc, hr⟩ | ⟨-, -, hr⟩ |
    ⟨habs, hfull, idx, hidx1, hidx2, hr, hslot⟩
  · exact ⟨_, hr, h.foundEntry_spec hdata hc⟩
  · exact ⟨_, hr, h, rfl, enterPost_refl _ _ _⟩
  · have hroom : HasRoom htab key :=
      ((enterOk_iff.mp hok).resolve_left (not_not.mpr habs)).resolve_right hfull
    obtain ⟨-, hfree, hsound⟩ := hslot.resolve_right fun hno => hno.1 hroom
    exact ⟨_, hr, h.enterNew_spec hkey hdata ⟨hidx1, hidx2⟩ hfree hsound⟩

variable (htab key flag) in
/-! ### Deleting -/

variable (ctx key flag) in
/-- `hdelete_r` -/
theorem Consistent.delete_spec (h : Consistent htab) :
    ∃ r, hdeleteR ctx key htab flag = some r ∧ Consistent r.htab ∧ r.htab.size = htab.size ∧
      ∀ k v, Holds r.htab.cells k v ↔
        if r.ret ≠ 0 ∧ k = key then False else Holds htab.cells k v := by
  have hsame : ∀ e, ∃ r, some (Result.failed htab e) = some r ∧ Consistent r.htab ∧
      r.htab.size = htab.size ∧ ∀ k v, Holds r.htab.cells k v ↔
        if r.ret ≠ 0 ∧ k = key then False else Holds htab.cells k v :=
    fun e => ⟨_, rfl, h, rfl, fun k v => by simp [Result.failed]⟩
  rw [hdeleteR]
  rcases h.find_eq ctx key none 0 with
    ⟨i, v, hc, hi, hfind⟩ | ⟨-, hfind⟩
  · simp only [hfind, Option.bind_eq_bind, Option.bind_some]
    rw [if_neg (by omega)]
    split
    · exact hsame _
    · split
      · exact hsame _
      · obtain ⟨-, -, hu⟩ := (h.valid i).live hc
        have := one_le_firstIndex htab.size key
        refine ⟨_, rfl, h.hdelete (h.inside i (by omega)), rfl, fun k w => ?_⟩
        rw [cells_hdelete, holds_delete_iff h.sound hc]
        simp
  · simp only [hfind, Option.bind_eq_bind, Option.bind_some]
    exact hsame _

end UBoot.HashTable
