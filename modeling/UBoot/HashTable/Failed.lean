import Mathlib.Algebra.BigOperators.Fin
import UBoot.HashTable.Refinement
import UBoot.HashTable.RoundTrip

/-!
# Calls that fail

`hsearch_r` and `hdelete_r` return 0 when they refuse a change, and then the map and
the counter have to be as before. The overwrite path frees the old value before it
duplicates the new one; the create path writes the slot before it allocates, counts
after that, and takes back a rejected entry by deleting it, whatever the slot held
before.
-/

namespace UBoot.HashTable

open OpenAddressing Verification

/-- The pointers to keys and data that the slots in use hold. -/
def Maps (htab : HsearchData) (key data : Option Str) : Prop :=
  ∃ i ∈ htab.liveSlots, (htab.table i).entry.key = key ∧ (htab.table i).entry.data = data

instance (htab : HsearchData) (key data : Option Str) : Decidable (Maps htab key data) :=
  inferInstanceAs (Decidable (∃ i ∈ htab.liveSlots,
    (htab.table i).entry.key = key ∧ (htab.table i).entry.data = data))

/-- The counter is the number of slots in use. -/
def Counted (htab : HsearchData) : Prop := htab.filled = htab.liveSlots.length

namespace Call

/-- The call. -/
def perform (htab : HsearchData) : Call → Option Result
  | .enter ctx key value flag => hsearchR ctx key (some value) .enter htab flag
  | .delete ctx key flag => hdeleteR ctx key htab flag

/-- The table after the call; it is lost when there is no result. -/
def step (state : Option HsearchData) (call : Call) : Option HsearchData :=
  state.bind fun htab => (call.perform htab).map Result.htab

/-- A call that returns 0 leaves the map and the counter as they were, and the counter
is right after every call. -/
def Restores (state : Option HsearchData) (call : Call) : Prop :=
  ∃ htab r, state = some htab ∧ call.perform htab = some r ∧ Counted r.htab ∧
    (r.ret = 0 → r.htab.filled = htab.filled ∧ ∀ k d, Maps r.htab k d ↔ Maps htab k d)

/-- The change of an entry is refused. -/
def refused (htab : HsearchData) (slot : Slot) (key value : Str) (flag : Int) : Bool :=
  htab.changeOk.any (· slot.entry (some value) .overwrite flag) ||
    slot.entry.callback.any (· key (some value) .overwrite flag)

/-- A value is overwritten only when it can be duplicated. A new entry is entered only
when both strings can be duplicated, and there is room for it. -/
def Undoable (htab : HsearchData) : Call → Prop
  | .enter ctx key value flag =>
    (∀ i ∈ htab.liveSlots, (htab.table i).entry.key = some key →
      ctx.strdupData = true ∨ refused htab (htab.table i) key value flag = true) ∧
    ((∀ d, ¬Maps htab (some key) d) → htab.filled = htab.size ∨
      ctx.strdupKey = true ∧ ctx.strdupData = true ∧ HasRoom htab key)
  | .delete .. => True

end Call

/-! ### Counting -/

section Counting

variable {htab : HsearchData} {idx : Nat}

theorem length_liveSlots (htab : HsearchData) :
    htab.liveSlots.length =
      ∑ i ∈ Finset.Icc 1 htab.size, if 0 < (htab.table i).used then 1 else 0 := by
  have hset : htab.liveSlots.toFinset =
      (Finset.Icc 1 htab.size).filter fun i => 0 < (htab.table i).used := by
    ext i
    simp only [List.mem_toFinset, mem_liveSlots, Finset.mem_filter, Finset.mem_Icc, and_assoc]
  rw [← List.toFinset_card_of_nodup (nodup_liveSlots htab), hset, Finset.card_filter]

/-- Storing a slot changes the count by that slot alone. -/
theorem length_liveSlots_set (slot : Slot) (hidx : 1 ≤ idx ∧ idx ≤ htab.size) :
    (htab.set idx slot).liveSlots.length + (if 0 < (htab.table idx).used then 1 else 0) =
      htab.liveSlots.length + if 0 < slot.used then 1 else 0 := by
  have hmem : idx ∈ Finset.Icc 1 htab.size := Finset.mem_Icc.mpr hidx
  have hrest : ∑ i ∈ (Finset.Icc 1 htab.size).erase idx,
      (if 0 < ((htab.set idx slot).table i).used then 1 else 0) =
        ∑ i ∈ (Finset.Icc 1 htab.size).erase idx, if 0 < (htab.table i).used then 1 else 0 := by
    refine Finset.sum_congr rfl fun i hi => ?_
    simp only [HsearchData.set, Function.update_of_ne (Finset.ne_of_mem_erase hi)]
  rw [length_liveSlots, length_liveSlots, show (htab.set idx slot).size = htab.size from rfl,
    ← Finset.add_sum_erase _ _ hmem, ← Finset.add_sum_erase _ _ hmem, hrest]
  simp only [HsearchData.set, Function.update_self]
  omega

theorem liveSlots_filled (htab : HsearchData) (n : Nat) :
    HsearchData.liveSlots { htab with filled := n } = htab.liveSlots := rfl

theorem length_liveSlots_le (htab : HsearchData) : htab.liveSlots.length ≤ htab.size := by
  rw [HsearchData.liveSlots]
  refine (List.length_filter_le _ _).trans ?_
  rw [List.length_map, List.length_range]

theorem Consistent.mem_liveSlots_iff (h : Consistent htab) {i : Nat} :
    i ∈ htab.liveSlots ↔ ∃ k v, htab.cells i = .live k v := by
  rw [mem_liveSlots]
  constructor
  · rintro ⟨-, -, hused⟩
    rcases h.valid i with h0 | h1 | ⟨k, v, hk, hv, hu⟩
    · omega
    · omega
    · exact ⟨k, v, cell_of_live hk hv hu⟩
  · rintro ⟨k, v, hc⟩
    have hu := ((h.valid i).live hc).2.2
    have hone := one_le_firstIndex htab.size k
    have hin := h.inside i (by omega)
    exact ⟨hin.1, hin.2, by omega⟩

theorem Consistent.maps_iff (h : Consistent htab) {k d : Option Str} :
    Maps htab k d ↔ ∃ key value, k = some key ∧ d = some value ∧ Holds htab.cells key value := by
  constructor
  · rintro ⟨i, hi, rfl, rfl⟩
    obtain ⟨key, value, hc⟩ := h.mem_liveSlots_iff.mp hi
    obtain ⟨hk, hv, -⟩ := (h.valid i).live hc
    exact ⟨key, value, hk, hv, i, hc⟩
  · rintro ⟨key, value, rfl, rfl, i, hc⟩
    obtain ⟨hk, hv, -⟩ := (h.valid i).live hc
    exact ⟨i, h.mem_liveSlots_iff.mpr ⟨key, value, hc⟩, hk, hv⟩

theorem Consistent.size_lt (h : Consistent htab) : htab.size < 268435456 := by
  rcases h.size with hone | ⟨-, -, hlt⟩ <;> omega

end Counting

/-! ### How a call ends -/

section Ends

variable {htab : HsearchData} {ctx : Context} {key value : Str} {flag : Int} {idx : Nat}

theorem foundEntry_refused
    (h : Call.refused htab (htab.table idx) key value flag = true) :
    ∃ e, foundEntry ctx key (some value) .enter htab flag idx = .failed htab e := by
  rw [Call.refused, Bool.or_eq_true] at h
  simp only [foundEntry]
  split
  · exact ⟨_, rfl⟩
  · rename_i hchange
    rw [if_pos (h.resolve_left hchange)]
    exact ⟨_, rfl⟩

theorem foundEntry_accepted
    (h : ¬Call.refused htab (htab.table idx) key value flag = true) :
    foundEntry ctx key (some value) .enter htab flag idx =
      if ctx.strdupData then
        ⟨htab.set idx { htab.table idx with
          entry := { (htab.table idx).entry with data := some value } }, idx, some idx, none⟩
      else .failed (htab.set idx { htab.table idx with
        entry := { (htab.table idx).entry with data := none } }) .enomem := by
  rw [Call.refused, Bool.or_eq_true, not_or] at h
  simp only [foundEntry]
  rw [if_neg h.1, if_neg h.2]

/-- A new entry without its strings stays in the slot; one that is rejected is deleted. -/
theorem enterNew_cases (ctx : Context) (key value : Str) (htab : HsearchData) (flag : Int)
    (hval idx : Nat) :
    (¬(ctx.strdupKey = true ∧ ctx.strdupData = true) ∧ ∃ entry : Entry,
        (entry.key = none ∨ entry.data = none) ∧
        enterNew ctx key (some value) htab flag hval idx =
          .failed (htab.set idx ⟨hval, entry⟩) .enomem) ∨
      (ctx.strdupKey = true ∧ ctx.strdupData = true) ∧
        ((∃ entry e, enterNew ctx key (some value) htab flag hval idx =
            .failed { htab.set idx ⟨-1, entry⟩ with filled := decr32 (incr32 htab.filled) } e) ∨
          ∃ entry, enterNew ctx key (some value) htab flag hval idx =
            ⟨{ htab.set idx ⟨hval, entry⟩ with filled := incr32 htab.filled }, 1, some idx,
              none⟩) := by
  have hdelete : ∀ slot : Slot, ∃ entry,
      hdelete { htab.set idx slot with filled := incr32 htab.filled } idx =
        { htab.set idx ⟨-1, entry⟩ with filled := decr32 (incr32 htab.filled) } := by
    intro slot
    exact ⟨_, by
      simp only [hdelete, HsearchData.set, Function.update_idem, Function.update_self]
      rfl⟩
  by_cases hdup : ctx.strdupKey = true ∧ ctx.strdupData = true
  · refine Or.inr ⟨hdup, ?_⟩
    simp only [enterNew, hdup.1, hdup.2, if_true]
    rw [if_neg (by simp)]
    split
    · obtain ⟨entry, h⟩ := hdelete _
      exact Or.inl ⟨entry, .eperm, by rw [h]⟩
    · split
      · obtain ⟨entry, h⟩ := hdelete _
        exact Or.inl ⟨entry, .einval, by rw [h]⟩
      · exact Or.inr ⟨_, rfl⟩
  · have hnone : (if ctx.strdupKey then some key else none) = none ∨
        (if ctx.strdupData then some value else none) = none := by
      rw [not_and_or, Bool.not_eq_true, Bool.not_eq_true] at hdup
      rcases hdup with hdup | hdup
      · exact Or.inl (by simp [hdup])
      · exact Or.inr (by simp [hdup])
    refine Or.inl ⟨hdup, { (htab.table idx).entry with
      key := if ctx.strdupKey then some key else none
      data := if ctx.strdupData then some value else none }, hnone, ?_⟩
    simp only [enterNew]
    exact if_pos hnone

end Ends

/-! ### One call -/

section Step

variable {htab : HsearchData} {ctx : Context} {key value : Str} {flag : Int}

/-- A table of one slot that is counted has room, or counts as full. -/
theorem Counted.enterOk_one (hcount : Counted htab) (h : Consistent htab) (key : Str)
    (hone : htab.size = 1) : EnterOk htab key := by
  by_cases habs : Absent htab.cells key
  · rw [enterOk_iff]
    have hhome : firstIndex htab.size key = 1 :=
      Nat.le_antisymm (hone ▸ h.firstIndex_le key) (one_le_firstIndex _ _)
    rcases h.valid 1 with h0 | h1 | ⟨k, v, hk, hv, hu⟩
    · exact Or.inr (Or.inl (Or.inl ⟨1, Nat.le_refl _, hone.ge, h0⟩))
    · exact Or.inr (Or.inl (Or.inr (by rw [hhome, h1])))
    · have hmem : 1 ∈ htab.liveSlots :=
        h.mem_liveSlots_iff.mpr ⟨k, v, cell_of_live hk hv hu⟩
      have hpos := List.length_pos_of_mem hmem
      have hle := length_liveSlots_le htab
      rw [Counted] at hcount
      exact Or.inr (Or.inr (by omega))
  · exact Or.inl habs

theorem Consistent.used_iff (h : Consistent htab) {i : Nat} (hi : 1 ≤ i ∧ i ≤ htab.size) :
    0 < (htab.table i).used ↔ ∃ k v, htab.cells i = .live k v := by
  rw [← h.mem_liveSlots_iff, mem_liveSlots]
  exact ⟨fun hu => ⟨hi.1, hi.2, hu⟩, fun hu => hu.2.2⟩

/-- A call that changes nothing restores. -/
theorem restores_unchanged {call : Call} (hcount : Counted htab) {e : Errno}
    (hr : call.perform htab = some (.failed htab e)) : call.Restores (some htab) :=
  ⟨htab, _, rfl, hr, hcount, fun _ => ⟨rfl, fun _ _ => Iff.rfl⟩⟩

theorem Consistent.absent_iff (h : Consistent htab) :
    Absent htab.cells key ↔ ∀ d, ¬Maps htab (some key) d := by
  constructor
  · intro habs d hmaps
    obtain ⟨k, v, hk, -, i, hi⟩ := h.maps_iff.mp hmaps
    obtain rfl := Option.some.inj hk
    exact habs i v hi
  · intro hnone i v hi
    exact hnone (some v) (h.maps_iff.mpr ⟨key, v, rfl, rfl, i, hi⟩)

/-- Storing over a live slot an entry without both strings loses the key of the slot. -/
theorem Consistent.maps_lost (h : Consistent htab) {idx : Nat} {k v : Str}
    (hc : htab.cells idx = .live k v) (slot : Slot)
    (hslot : slot.entry.key = none ∨ slot.entry.data = none) :
    Maps htab (some k) (some v) ∧ ¬Maps (htab.set idx slot) (some k) (some v) := by
  refine ⟨h.maps_iff.mpr ⟨k, v, rfl, rfl, idx, hc⟩, ?_⟩
  rintro ⟨j, hj, hk, hv⟩
  by_cases hji : j = idx
  · subst hji
    simp only [HsearchData.set, Function.update_self] at hk hv
    rcases hslot with hnone | hnone
    · rw [hnone] at hk
      cases hk
    · rw [hnone] at hv
      cases hv
  · rw [mem_liveSlots] at hj
    simp only [HsearchData.set, Function.update_of_ne hji] at hj hk hv
    obtain ⟨k', v', hc'⟩ := h.mem_liveSlots_iff.mp (mem_liveSlots.mpr hj)
    obtain ⟨hk', hv', -⟩ := (h.valid j).live hc'
    obtain rfl : k' = k := Option.some.inj (hk'.symm.trans hk)
    exact hji (h.sound.slot_unique hc' hc)

/-- A call of `ENTER` under the condition. -/
theorem Consistent.restores_enter (h : Consistent htab) (hcount : Counted htab)
    (hok : Call.Undoable htab (.enter ctx key value flag)) :
    Call.Restores (some htab) (.enter ctx key value flag) ∧
      ∀ r, Call.perform htab (.enter ctx key value flag) = some r → Consistent r.htab := by
  have hlt := h.size_lt
  have hle := length_liveSlots_le htab
  obtain ⟨hfound, hnew⟩ := hok
  rcases h.enter_cases ctx flag (hcount.enterOk_one h key) value with ⟨i, v, hc, hr⟩ |
    ⟨-, -, hr⟩ | ⟨habs, hfull, idx, hidx1, hidx2, hr, hslot⟩
  · -- an entry that is found
    obtain ⟨hk, hv, hu⟩ := (h.valid i).live hc
    have hmem := h.mem_liveSlots_iff.mpr ⟨key, v, hc⟩
    obtain ⟨hi1, hi2, hused⟩ := mem_liveSlots.mp hmem
    by_cases hrefused : Call.refused htab (htab.table i) key value flag = true
    · obtain ⟨e, he⟩ := @foundEntry_refused htab ctx key value flag i hrefused
      rw [he] at hr
      exact ⟨restores_unchanged hcount hr, fun r hr' => Option.some.inj (hr.symm.trans hr') ▸ h⟩
    · have hdup := (hfound i hmem hk).resolve_right hrefused
      have hspec : Consistent (foundEntry ctx key (some value) .enter htab flag i).htab :=
        (h.foundEntry_spec hdup hc).1
      rw [foundEntry_accepted hrefused, if_pos hdup] at hr hspec
      refine ⟨⟨htab, _, rfl, hr, ?_, fun h0 => absurd h0 (Nat.ne_of_gt hi1)⟩,
        fun r hr' => Option.some.inj (hr.symm.trans hr') ▸ hspec⟩
      have hlen := length_liveSlots_set { htab.table i with
        entry := { (htab.table i).entry with data := some value } } ⟨hi1, hi2⟩
      exact hcount.trans (Nat.add_right_cancel hlen).symm
  · exact ⟨restores_unchanged hcount hr, fun r hr' => Option.some.inj (hr.symm.trans hr') ▸ h⟩
  · -- a new entry
    obtain ⟨hkey, hdata, hroom⟩ := (hnew (h.absent_iff.mp habs)).resolve_left hfull
    obtain ⟨-, hfree, hsound⟩ := hslot.resolve_right fun hno => hno.1 hroom
    obtain ⟨hspec, -, hpost⟩ : Consistent (enterNew ctx key (some value) htab flag _ idx).htab ∧
        _ ∧ EnterPost htab.cells _ key value _ :=
      h.enterNew_spec hkey hdata ⟨hidx1, hidx2⟩ hfree hsound
    have hunused : ¬0 < (htab.table idx).used := by
      rw [h.used_iff ⟨hidx1, hidx2⟩]
      rintro ⟨k, v, hc⟩
      exact hfree k v hc
    refine ⟨⟨htab, _, rfl, hr, ?_⟩, fun r hr' => Option.some.inj (hr.symm.trans hr') ▸ hspec⟩
    have hlen := fun slot => @length_liveSlots_set htab idx slot ⟨hidx1, hidx2⟩
    simp only [if_neg hunused, Nat.add_zero] at hlen
    rcases enterNew_cases ctx key value htab flag (firstIndex htab.size key) idx with
      ⟨hdup, -⟩ | ⟨-, ⟨entry, e, hnew'⟩ | ⟨entry, hnew'⟩⟩
    · exact absurd ⟨hkey, hdata⟩ hdup
    · rw [hnew'] at hspec hpost ⊢
      have hfilled : decr32 (incr32 htab.filled) = htab.filled := by
        rw [Counted] at hcount
        rw [decr32, incr32]
        omega
      refine ⟨?_, fun _ => ⟨hfilled, fun k d => ?_⟩⟩
      · rw [Counted, Result.failed, liveSlots_filled, hlen, if_neg (show ¬(0 : Int) < -1 by decide), hfilled]
        exact hcount
      · rw [hspec.maps_iff, h.maps_iff]
        have hsame : ∀ k v, Holds _ k v ↔ Holds htab.cells k v := fun k v =>
          (hpost k v).trans (by rw [if_neg (by simp [Result.failed])])
        simp only [hsame]
    · rw [hnew']
      refine ⟨?_, fun h0 => absurd h0 Nat.one_ne_zero⟩
      have hone := one_le_firstIndex htab.size key
      rw [Counted, liveSlots_filled, hlen,
        if_pos (show (0 : Int) < (firstIndex htab.size key : Nat) by omega), incr32, hcount,
        Nat.mod_eq_of_lt (by omega)]

/-- Deleting an entry counts it off. -/
theorem Counted.hdelete (hcount : Counted htab) (h : Consistent htab) {i : Nat}
    (hused : 0 < (htab.table i).used) (hi : 1 ≤ i ∧ i ≤ htab.size) :
    Counted (HashTable.hdelete htab i) := by
  have hset : ∀ slot : Slot, slot.used = -1 →
      decr32 htab.filled = (htab.set i slot).liveSlots.length := by
    intro slot hslot
    have hlen := length_liveSlots_set slot hi
    rw [if_pos hused, hslot, if_neg (by decide), Nat.add_zero] at hlen
    have hlt := h.size_lt
    have hle := length_liveSlots_le htab
    rw [Counted] at hcount
    rw [decr32]
    omega
  rw [Counted, HashTable.hdelete, liveSlots_filled]
  exact hset _ rfl

/-- A call of `hdelete_r`. -/
theorem Consistent.restores_delete (h : Consistent htab) (hcount : Counted htab) :
    Call.Restores (some htab) (.delete ctx key flag) ∧
      ∀ r, Call.perform htab (.delete ctx key flag) = some r → Consistent r.htab := by
  obtain ⟨r, hr, hcons, -, -⟩ := h.delete_spec ctx key flag
  refine ⟨?_, fun r' hr' => Option.some.inj (hr.symm.trans hr') ▸ hcons⟩
  rcases h.find_eq ctx key none 0 with ⟨i, v, hc, hi, hfind⟩ | ⟨-, hfind⟩
  · obtain ⟨hi1, hi2, hused⟩ := mem_liveSlots.mp (h.mem_liveSlots_iff.mpr ⟨key, v, hc⟩)
    have hcall : Call.perform htab (.delete ctx key flag) =
        if htab.changeOk.any (· (htab.table i).entry none .delete flag) then
          some (.failed htab .eperm)
        else if (htab.table i).entry.callback.any (· key none .delete flag) then
          some (.failed htab .einval)
        else some ⟨HashTable.hdelete htab i, 1, none, none⟩ := by
      rw [Call.perform, hdeleteR, hfind]
      simp only [Option.bind_eq_bind, Option.bind_some, if_neg (Nat.ne_of_gt hi), Option.pure_def]
    split at hcall
    · exact restores_unchanged hcount hcall
    · split at hcall
      · exact restores_unchanged hcount hcall
      · exact ⟨htab, _, rfl, hcall, hcount.hdelete h hused ⟨hi1, hi2⟩,
          fun h0 => absurd h0 Nat.one_ne_zero⟩
  · refine restores_unchanged hcount (e := .esrch) ?_
    rw [Call.perform, hdeleteR, hfind]
    rfl

/-- Without the condition, a call of `ENTER` loses a value, or leaves a wrong counter. -/
theorem Consistent.not_restores (h : Consistent htab) (hcount : Counted htab)
    (hbad : ¬Call.Undoable htab (.enter ctx key value flag)) :
    ¬Call.Restores (some htab) (.enter ctx key value flag) := by
  rintro ⟨htab', r, hsome, hcall, hcounted, hzero⟩
  obtain rfl := Option.some.inj hsome
  have hlt := h.size_lt
  have hle := length_liveSlots_le htab
  have hfilled : htab.filled = htab.liveSlots.length := hcount
  rcases h.enter_cases ctx flag (hcount.enterOk_one h key) value with ⟨i, v, hc, hr⟩ |
    ⟨habs, hfull, -⟩ | ⟨habs, hfull, idx, hidx1, hidx2, hr, hslot⟩
  · -- the value that is found has been freed
    have hmaps := h.maps_iff.mpr ⟨key, v, rfl, rfl, i, hc⟩
    have hfail : ctx.strdupData = false ∧
        ¬Call.refused htab (htab.table i) key value flag = true := by
      by_contra hcon
      refine hbad ⟨fun j hj hk => ?_, fun hnone => absurd hmaps (hnone _)⟩
      obtain ⟨k', v', hc'⟩ := h.mem_liveSlots_iff.mp hj
      obtain rfl : k' = key := Option.some.inj (((h.valid j).live hc').1.symm.trans hk)
      obtain rfl := h.sound.slot_unique hc' hc
      by_contra hor
      rw [not_or, Bool.not_eq_true] at hor
      exact hcon hor
    rw [foundEntry_accepted hfail.2, if_neg (by rw [hfail.1]; decide)] at hr
    obtain rfl : _ = r := Option.some.inj (hr.symm.trans hcall)
    have hlost := h.maps_lost hc { htab.table i with
      entry := { (htab.table i).entry with data := none } } (Or.inr rfl)
    exact hlost.2 (((hzero rfl).2 _ _).mpr hlost.1)
  · refine hbad ⟨fun i hi hk => ?_, fun _ => Or.inl hfull⟩
    obtain ⟨k', v', hc'⟩ := h.mem_liveSlots_iff.mp hi
    obtain rfl : k' = key := Option.some.inj (((h.valid i).live hc').1.symm.trans hk)
    exact absurd hc' (habs i v')
  · have hfail : (ctx.strdupKey = true ∧ ctx.strdupData = true) → ¬HasRoom htab key := by
      intro hdup hroom
      refine hbad ⟨fun i hi hk => ?_, fun _ => Or.inr ⟨hdup.1, hdup.2, hroom⟩⟩
      obtain ⟨k', v', hc'⟩ := h.mem_liveSlots_iff.mp hi
      obtain rfl : k' = key := Option.some.inj (((h.valid i).live hc').1.symm.trans hk)
      exact absurd hc' (habs i v')
    have hlen := fun slot => @length_liveSlots_set htab idx slot ⟨hidx1, hidx2⟩
    have hone := one_le_firstIndex htab.size key
    have hused : (0 : Int) < (firstIndex htab.size key : Nat) := by omega
    obtain rfl : _ = r := Option.some.inj (hr.symm.trans hcall)
    rcases enterNew_cases ctx key value htab flag (firstIndex htab.size key) idx with
      ⟨-, entry, hnone, hnew⟩ | ⟨hdup, hend⟩
    · rw [hnew] at hcounted hzero
      rcases hslot with ⟨-, hfree, -⟩ | ⟨-, -, k, v, -, hc⟩
      · -- the slot is in use and is not counted
        have hunused : ¬0 < (htab.table idx).used := by
          rw [h.used_iff ⟨hidx1, hidx2⟩]
          rintro ⟨k, v, hc⟩
          exact hfree k v hc
        have := hlen ⟨firstIndex htab.size key, entry⟩
        rw [if_neg hunused, if_pos hused] at this
        have hcounted' : htab.filled =
            (htab.set idx ⟨firstIndex htab.size key, entry⟩).liveSlots.length := hcounted
        omega
      · have hlost := h.maps_lost hc ⟨firstIndex htab.size key, entry⟩ hnone
        exact hlost.2 (((hzero rfl).2 _ _).mpr hlost.1)
    · -- the entry of another key is counted twice, or not any more
      obtain ⟨-, -, k, v, -, hc⟩ := hslot.resolve_left fun hno => hfail hdup hno.1
      have hlive : 0 < (htab.table idx).used := (h.used_iff ⟨hidx1, hidx2⟩).mpr ⟨k, v, hc⟩
      rcases hend with ⟨entry, e, hnew⟩ | ⟨entry, hnew⟩
      · rw [hnew, Counted, Result.failed, liveSlots_filled] at hcounted
        have := hlen ⟨-1, entry⟩
        rw [if_pos hlive, if_neg (show ¬(0 : Int) < -1 by decide)] at this
        simp only [decr32, incr32] at hcounted
        omega
      · rw [hnew, Counted, liveSlots_filled] at hcounted
        have := hlen ⟨firstIndex htab.size key, entry⟩
        rw [if_pos hlive, if_pos hused] at this
        simp only [incr32] at hcounted
        omega

end Step

/-! ### Runs -/

/-- The table is there, consistent and counted. -/
def InOrder (state : Option HsearchData) : Prop :=
  ∃ htab, state = some htab ∧ Consistent htab ∧ Counted htab

/-- The call meets the condition in the table that it is made on. -/
def MeetsCondition (state : Option HsearchData) (call : Call) : Prop :=
  ∀ htab, state = some htab → call.Undoable htab

theorem InOrder.restores {state : Option HsearchData} (h : InOrder state) {call : Call}
    (hok : MeetsCondition state call) : call.Restores state ∧ InOrder (call.step state) := by
  obtain ⟨htab, rfl, hcons, hcount⟩ := h
  have hcall : call.Restores (some htab) ∧
      ∀ r, call.perform htab = some r → Consistent r.htab := by
    cases call with
    | enter ctx key value flag => exact hcons.restores_enter hcount (hok htab rfl)
    | delete ctx key flag => exact hcons.restores_delete hcount
  refine ⟨hcall.1, ?_⟩
  obtain ⟨htab', r, hsome, hr, hcounted, -⟩ := hcall.1
  obtain rfl := Option.some.inj hsome
  exact ⟨r.htab, by rw [Call.step, Option.bind_some, hr, Option.map_some], hcall.2 r hr, hcounted⟩

theorem InOrder.meetsCondition {state : Option HsearchData} (h : InOrder state) {call : Call}
    (hok : call.Restores state) : MeetsCondition state call := by
  obtain ⟨htab, rfl, hcons, hcount⟩ := h
  rintro _ ⟨⟩
  cases call with
  | enter ctx key value flag =>
    by_contra hbad
    exact hcons.not_restores hcount hbad hok
  | delete ctx key flag => trivial

theorem inOrder_created {nel : Nat} {htab htab' : HsearchData} {callocOk : Bool}
    (h : hcreateR nel htab callocOk = some (1, htab')) : InOrder (some htab') := by
  refine ⟨htab', rfl, consistent_created h, ?_⟩
  obtain ⟨-, hfilled, -, hzero⟩ := hcreateR_sizeOk h
  rw [Counted, hfilled, length_liveSlots]
  refine (Finset.sum_eq_zero fun i _ => ?_).symm
  rw [hzero, if_neg (by decide)]

/-- Along every run of calls on a new table, the calls that return 0 restore the map and
the counter and the counter stays right, exactly when every call meets the condition. -/
theorem failed_calls_restore_iff (nel : Nat) (htab htab' : HsearchData) (callocOk : Bool)
    (hcreate : hcreateR nel htab callocOk = some (1, htab')) (calls : List Call) :
    Guarded Call.step Call.Restores (some htab') calls ↔
      Guarded Call.step MeetsCondition (some htab') calls := by
  constructor
  · exact fun h => h.mono (I := InOrder)
      (fun state call hin hok => (hin.restores (hin.meetsCondition hok)).2)
      (fun state call hin hok => hin.meetsCondition hok) (inOrder_created hcreate)
  · exact fun h => h.mono (I := InOrder) (fun state call hin hok => (hin.restores hok).2)
      (fun state call hin hok => (hin.restores hok).1) (inOrder_created hcreate)

/-- A variable is created and deleted, and another one takes its slot. -/
theorem failed_calls_restore_reused :
    Guarded Call.step Call.Restores (some History.fiveSlots)
      [History.letter 99, .delete History.plain [99] 0, History.letter 104] := by
  refine (failed_calls_restore_iff 5 History.noTable History.fiveSlots true
    History.fiveSlots_created _).mpr ⟨?_, ?_, ?_, trivial⟩
  · rintro htab ⟨⟩
    exact ⟨fun _ _ _ => Or.inl rfl, fun _ => Or.inr ⟨rfl, rfl, Or.inl ⟨5, by decide⟩⟩⟩
  · exact fun htab _ => trivial
  · rintro htab ⟨⟩
    exact ⟨fun _ _ _ => Or.inl rfl, fun _ => Or.inr ⟨rfl, rfl, Or.inl ⟨5, by decide⟩⟩⟩

/-- A new value that cannot be duplicated: the call returns 0, and the old value is lost. -/
theorem failed_call_loses_value :
    ¬∀ (nel : Nat) (htab htab' : HsearchData) (callocOk : Bool) (calls : List Call),
      hcreateR nel htab callocOk = some (1, htab') →
        Guarded Call.step Call.Restores (some htab') calls := by
  intro hall
  obtain ⟨-, ⟨htab, r, hsome, hcall, -, hzero⟩, -⟩ := hall 5 History.noTable History.fiveSlots
    true [History.letter 99, .enter { History.plain with strdupData := false } [99] [100] 0]
    History.fiveSlots_created
  have hlost : ((Call.step (some History.fiveSlots) (History.letter 99)).bind fun htab =>
      (Call.perform htab (.enter { History.plain with strdupData := false } [99] [100] 0)).map
        fun r => (r.ret, decide (Maps htab (some [99]) (some [99])),
          decide (Maps r.htab (some [99]) (some [99])))) = some (0, true, false) := by
    decide
  rw [hsome, Option.bind_some, hcall, Option.map_some, Option.some.injEq, Prod.mk.injEq,
    Prod.mk.injEq, decide_eq_true_eq, decide_eq_false_iff_not] at hlost
  exact hlost.2.2 (((hzero hlost.1).2 _ _).mpr hlost.2.1)

end UBoot.HashTable
