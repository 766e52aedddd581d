import UBoot.HashTable.RoundTrip

/-!
# The room for an export

Pass 1 of `hexport_r` adds up the room for every variable, and pass 2 writes the
text. Pass 1 counts the backslashes of the escapes only for a separator other
than NUL, but pass 2 always writes them. Two bytes for every variable are
reserved in excess, so the text still fits as long as its values have not too
many backslashes.
-/

namespace UBoot.HashTable

/-- `totlen + 1`: what pass 1 asks for. -/
def needed (sep : UInt8) (entries : List (Str × Str)) : Nat :=
  (entries.map (reservedLength sep)).sum + 1

/-- The backslashes in all values. -/
def backslashes (entries : List (Str × Str)) : Nat :=
  (entries.map fun entry => entry.2.count chBackslash).sum

/-- The export reports an error, or writes no byte behind the buffer. -/
def StaysInBuffer (htab : HsearchData) (sep : UInt8) (flag : Nat)
    (matched : Option (Entry → Bool)) (size : Nat) (haveBuffer : Bool) : Prop :=
  hexportR htab sep flag matched size haveBuffer ≠ none

/-- The error for a buffer that is too small, or not there. -/
def ReportsError (sep : UInt8) (entries : List (Str × Str)) (size : Nat) (haveBuffer : Bool) :
    Prop :=
  (size ≠ 0 ∧ size < needed sep entries) ∨ haveBuffer = false

variable {htab : HsearchData} {sep : UInt8} {flag size : Nat} {matched : Option (Entry → Bool)}

theorem Strings.chosen_noNul (h : Strings htab) :
    ∀ entry ∈ htab.chosen flag matched, 0 ∉ entry.2 := by
  intro entry hentry
  obtain ⟨i, hi, rfl⟩ := List.mem_map.mp (List.mem_of_mem_filter hentry)
  exact (h.pairAt (List.mem_of_mem_filter hi)).2

/-- What pass 2 writes for one variable. -/
theorem length_exportEntry (sep : UInt8) (entry : Str × Str) :
    (exportEntry sep entry).length + 2 = entry.1.length + entry.2.length +
      (entry.2.countP fun c => c = sep ∨ c = chBackslash) + 4 := by
  rw [exportEntry, List.length_append, List.length_cons, List.length_append, length_escape,
    List.length_singleton]
  omega

/-- With a separator other than NUL, both passes count alike. -/
theorem reserved_of_ne (hsep : sep ≠ 0) (entry : Str × Str) :
    reservedLength sep entry = (exportEntry sep entry).length + 2 := by
  rw [length_exportEntry, reservedLength, if_neg hsep]
  omega

/-- With NUL, pass 1 leaves out the backslashes. -/
theorem reserved_of_nul {entry : Str × Str} (hnul : 0 ∉ entry.2) :
    reservedLength 0 entry + entry.2.count chBackslash = (exportEntry 0 entry).length + 2 := by
  have hcount : (entry.2.countP fun c => c = 0 ∨ c = chBackslash) =
      entry.2.count chBackslash := by
    rw [List.count]
    apply List.countP_congr
    intro c hc
    have hne : c ≠ 0 := ne_of_mem_of_not_mem hc hnul
    simp [hne]
  rw [length_exportEntry, hcount, reservedLength, if_pos rfl]
  omega

/-- The text has the length of its parts, in whatever order they are written. -/
theorem length_exportText (sep : UInt8) (entries : List (Str × Str)) :
    (exportText sep entries).length =
      (entries.map fun entry => (exportEntry sep entry).length).sum + 1 := by
  have hperm := ((qsort_perm (fun a b : Str × Str => strcmp a.1 b.1) entries).map
    fun entry => (exportEntry sep entry).length).sum_eq
  rw [exportText, List.length_append, List.length_flatMap, hperm, List.length_singleton]

/-- The length of the text, counted from what pass 1 asks for. -/
theorem length_text_of_ne (hsep : sep ≠ 0) (entries : List (Str × Str)) :
    (exportText sep entries).length + 2 * entries.length = needed sep entries := by
  rw [length_exportText, needed]
  induction entries with
  | nil => rfl
  | cons entry entries ih =>
    rw [List.map_cons, List.sum_cons, List.map_cons, List.sum_cons, reserved_of_ne hsep,
      List.length_cons]
    omega

theorem length_text_of_nul {entries : List (Str × Str)} (hnul : ∀ entry ∈ entries, 0 ∉ entry.2) :
    (exportText 0 entries).length + 2 * entries.length =
      needed 0 entries + backslashes entries := by
  rw [length_exportText, needed, backslashes]
  induction entries with
  | nil => rfl
  | cons entry entries ih =>
    have hentry := reserved_of_nul (hnul entry List.mem_cons_self)
    have ih := ih fun e he => hnul e (List.mem_cons_of_mem _ he)
    simp only [List.map_cons, List.sum_cons, List.length_cons]
    omega

/-- The export stays inside the buffer unless the text of the chosen variables
is longer than it. -/
theorem stays_iff_length (h : Strings htab) (haveBuffer : Bool) :
    StaysInBuffer htab sep flag matched size haveBuffer ↔
      ReportsError sep (htab.chosen flag matched) size haveBuffer ∨
        (exportText sep (htab.chosen flag matched)).length ≤
          bufferSize sep (htab.chosen flag matched) size := by
  rw [StaysInBuffer, hexportR, h.collectEntries]
  simp only [Option.bind_eq_bind, Option.bind_some, Option.pure_def]
  have hneeded : ((htab.chosen flag matched).map (reservedLength sep)).sum + 1 =
      needed sep (htab.chosen flag matched) := rfl
  rw [hneeded]
  have hbuffer : bufferSize sep (htab.chosen flag matched) size =
      if size = 0 then needed sep (htab.chosen flag matched) else size := rfl
  by_cases hsmall : size ≠ 0 ∧ size < needed sep (htab.chosen flag matched)
  · exact iff_of_true (by rw [if_pos hsmall]; simp) (Or.inl (Or.inl hsmall))
  · rw [if_neg hsmall]
    cases haveBuffer with
    | false => exact iff_of_true (by simp) (Or.inl (Or.inr rfl))
    | true =>
      rw [if_neg (by simp), ← hbuffer]
      have hok : ¬ReportsError sep (htab.chosen flag matched) size true := by
        simpa only [ReportsError, reduceCtorEq, or_false] using hsmall
      rw [or_iff_right hok]
      split
      next hfit => exact iff_of_true (by simp) hfit
      next hlong => exact iff_of_false (by simp) hlong

/-- The export stays inside the buffer, exactly when it reports an error, or the
separator is not NUL, or the values have at most as many backslashes as twice the
number of variables and the bytes beyond those that pass 1 asks for. -/
theorem hexport_stays_iff (htab : HsearchData) (h : Strings htab) (sep : UInt8) (flag : Nat)
    (matched : Option (Entry → Bool)) (size : Nat) (haveBuffer : Bool) :
    StaysInBuffer htab sep flag matched size haveBuffer ↔
      ReportsError sep (htab.chosen flag matched) size haveBuffer ∨ sep ≠ 0 ∨
        backslashes (htab.chosen flag matched) ≤ 2 * (htab.chosen flag matched).length +
          (size - needed sep (htab.chosen flag matched)) := by
  rw [stays_iff_length h]
  by_cases herror : ReportsError sep (htab.chosen flag matched) size haveBuffer
  · exact iff_of_true (Or.inl herror) (Or.inl herror)
  · rw [or_iff_right herror, or_iff_right herror]
    -- the buffer has what pass 1 asks for
    have hbuffer : bufferSize sep (htab.chosen flag matched) size =
        needed sep (htab.chosen flag matched) +
          (size - needed sep (htab.chosen flag matched)) := by
      rw [ReportsError, not_or, not_and_or, not_not] at herror
      rw [bufferSize, ← needed]
      split <;> omega
    rw [hbuffer]
    by_cases hsep : sep = 0
    · subst hsep
      have hlen := length_text_of_nul (@Strings.chosen_noNul htab flag matched h)
      rw [or_iff_right (by simp)]
      omega
    · have hlen := length_text_of_ne hsep (htab.chosen flag matched)
      exact iff_of_true (by omega) (Or.inl hsep)

def threeBackslashes : HsearchData where
  active := true
  table i := if i = 1 then ⟨1, some [97], some [chBackslash, chBackslash, chBackslash], none, 0⟩
    else Slot.zero
  size := 5
  filled := 1
  changeOk := none

theorem threeBackslashes_strings : Strings threeBackslashes := by
  intro i hi
  obtain ⟨-, -, hused⟩ := mem_liveSlots.mp hi
  by_cases hone : i = 1
  · subst hone
    exact ⟨_, _, rfl, rfl, by decide⟩
  · simp [threeBackslashes, hone, Slot.zero] at hused

/-- With line feeds the three backslashes are escaped within the buffer. -/
theorem hexport_stays_lines : StaysInBuffer threeBackslashes chLf 0 none 0 true :=
  (hexport_stays_iff threeBackslashes threeBackslashes_strings chLf 0 none 0 true).mpr
    (Or.inr (Or.inl (by decide)))

/-- With NUL, the text of that variable is one byte longer than the buffer. -/
theorem hexport_leaves_buffer :
    ¬∀ (htab : HsearchData), Strings htab → ∀ sep flag matched size haveBuffer,
      StaysInBuffer htab sep flag matched size haveBuffer := by
  intro h
  apply h threeBackslashes threeBackslashes_strings 0 0 none 0 true
  decide

end UBoot.HashTable
