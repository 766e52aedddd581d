import UBoot.HashTable.Basic
import UBoot.Verification.Bytes

/-!
# Substitution in a string buffer

`memstr` and `substitute` of `common/cmd_setexpr.c`. The string starts somewhere in its
buffer; positions are counted from the start of the buffer, and memory goes on behind its
end.
-/

namespace UBoot.Setexpr

open Verification
open HashTable (Str)

/-- The loop of `memstr`. -/
def memstrLoop (s2 : Str) : Nat → Ptr → Option Nat
  | 0, _ => none
  | l1 + 1, s1 =>
    if l1 + 1 < s2.length then none
    else if s1.bytes s2.length = s2 then some 0
    else (memstrLoop s2 l1 (s1.add 1)).map (· + 1)

/-- `memstr`: where a string is found first. -/
def memstr (s1 : Ptr) (l1 : Nat) (s2 : Str) : Option Nat :=
  if s2 = [] then some 0 else memstrLoop s2 l1 s1

/-- The arguments of `substitute`, and what memory holds. -/
structure Call where
  ssize : Nat
  mem : Ptr
  string : Nat
  slen : Nat
  old : Str
  new : Str

/-- Where the old string is found. -/
def Call.match (c : Call) : Option Nat := memstr (c.mem.add c.string) c.slen c.old

/-- The replacement does not fit. -/
def Call.Overflow (c : Call) : Prop := c.ssize + c.old.length < c.slen + c.new.length

instance (c : Call) : Decidable c.Overflow := inferInstanceAs (Decidable (_ < _))

/-- The length of the tail, as a `size_t`. -/
def Call.tail (c : Call) (p : Nat) : Nat :=
  let len := max c.old.length c.new.length
  if p + len ≤ c.ssize then c.ssize - (p + len) else 4294967296 - (p + len - c.ssize)

/-- The tail is moved, if needed. -/
def Call.moved (c : Call) (p : Nat) : Ptr :=
  if c.old.length = c.new.length then c.mem
  else c.mem.write (c.string + p + c.new.length) (c.tail p)
    (c.mem.add (c.string + p + c.old.length))

/-- What `substitute` leaves: memory, the length of the string, and the pointer that it
returns. -/
structure Result where
  mem : Ptr
  slen : Nat
  next : Nat

/-- `substitute` -/
def substitute (c : Call) : Option Result := do
  let p ← c.match
  if c.Overflow then none
  else some {
    mem := (c.moved p).write (c.string + p) c.new.length (Ptr.ofList c.new)
    slen := c.slen + c.new.length - c.old.length
    next := c.string + p + c.new.length }

/-- The parts of memory that `substitute` reads and writes through `string`: where they begin
and their lengths. -/
def Call.accesses (c : Call) : List (Nat × Nat) :=
  match c.match with
  | none => if c.slen < c.old.length then [] else [(c.string, c.slen)]
  | some p =>
    (c.string, p + c.old.length) ::
      if c.Overflow then []
      else if c.old.length = c.new.length then [(c.string + p, c.new.length)]
      else [(c.string + p + c.old.length, c.tail p), (c.string + p + c.new.length, c.tail p),
        (c.string + p, c.new.length)]

/-- A buffer holds a string at a position. -/
structure Holds (mem : Ptr) (size pos : Nat) (text : Str) : Prop where
  noNul : 0 ∉ text
  bytes : (mem.add pos).bytes (text.length + 1) = text ++ [0]
  inside : pos + text.length < size

/-- No access is outside of the buffer, and an occurrence of the old string in the text is
replaced. -/
structure Call.Safe (c : Call) : Prop where
  inside : ∀ access ∈ c.accesses, access.2 = 0 ∨ access.1 + access.2 ≤ c.ssize
  replaced : ∀ r, substitute c = some r → ∀ text, Holds c.mem c.ssize c.string text →
    ∃ before after, text = before ++ c.old ++ after ∧
      Holds r.mem c.ssize c.string (before ++ c.new ++ after)

/-- The old string is looked for inside of the buffer. If it is found and the lengths do not
overflow, it is a part of the text, the length stays or the string starts the buffer, and the
new text fits, with its NUL. -/
def Call.Bounded (c : Call) (text : Str) : Prop :=
  match c.match with
  | none => c.slen < c.old.length ∨ c.string + c.slen ≤ c.ssize
  | some p =>
    if c.Overflow then c.string + p + c.old.length ≤ c.ssize
    else p + c.old.length ≤ text.length ∧ (c.string = 0 ∨ c.old.length = c.new.length) ∧
      c.string + text.length + c.new.length < c.ssize + c.old.length ∧ 0 ∉ c.new

section Memstr

variable {s1 : Ptr} {s2 : Str} {l1 j : Nat}

theorem memstrLoop_some (h : memstrLoop s2 l1 s1 = some j) :
    j + s2.length ≤ l1 ∧ (s1.add j).bytes s2.length = s2 ∧
      ∀ i < j, (s1.add i).bytes s2.length ≠ s2 := by
  induction l1 generalizing s1 j with
  | zero => simp [memstrLoop] at h
  | succ l1 ih =>
    rw [memstrLoop] at h
    split_ifs at h with hshort hhere
    · obtain rfl := Option.some.inj h
      rw [Ptr.add_zero]
      exact ⟨by omega, hhere, fun i hi => absurd hi (Nat.not_lt_zero i)⟩
    · obtain ⟨k, hk, rfl⟩ := Option.map_eq_some_iff.mp h
      obtain ⟨hle, hfound, hfirst⟩ := ih hk
      rw [Ptr.add_add, Nat.add_comm 1 k] at hfound
      refine ⟨by omega, hfound, fun i hi => ?_⟩
      cases i with
      | zero => rwa [Ptr.add_zero]
      | succ i =>
        have hnot := hfirst i (by omega)
        rwa [Ptr.add_add, Nat.add_comm 1 i] at hnot

theorem memstrLoop_none (h : memstrLoop s2 l1 s1 = none) (hne : s2 ≠ []) :
    ∀ i, i + s2.length ≤ l1 → (s1.add i).bytes s2.length ≠ s2 := by
  induction l1 generalizing s1 with
  | zero =>
    intro i hi
    exact absurd (List.length_pos_iff.mpr hne) (by omega)
  | succ l1 ih =>
    intro i hi
    rw [memstrLoop, if_neg (by omega)] at h
    split_ifs at h with hhere
    cases i with
    | zero => rwa [Ptr.add_zero]
    | succ i =>
      have hnot := ih (Option.map_eq_none_iff.mp h) i (by omega)
      rwa [Ptr.add_add, Nat.add_comm 1 i] at hnot

theorem memstr_some (h : memstr s1 l1 s2 = some j) :
    j + s2.length ≤ l1 ∧ (s1.add j).bytes s2.length = s2 ∧
      ∀ i < j, (s1.add i).bytes s2.length ≠ s2 := by
  rw [memstr] at h
  split_ifs at h with hnil
  · obtain rfl := Option.some.inj h
    rw [hnil]
    exact ⟨Nat.zero_le l1, rfl, fun i hi => absurd hi (Nat.not_lt_zero i)⟩
  · exact memstrLoop_some h

theorem memstr_none (h : memstr s1 l1 s2 = none) :
    ∀ i, i + s2.length ≤ l1 → (s1.add i).bytes s2.length ≠ s2 := by
  rw [memstr] at h
  split_ifs at h with hnil
  exact memstrLoop_none h hnil

end Memstr

section Effect

theorem Holds.unique {mem : Ptr} {size pos : Nat} {text text' : Str}
    (h : Holds mem size pos text) (h' : Holds mem size pos text') : text = text' := by
  have hstop : ∀ {xs ys : Str}, Holds mem size pos xs → Holds mem size pos ys →
      xs.length ≤ ys.length := by
    intro xs ys hxs hys
    by_contra hlt
    have hend : (mem.add pos) ys.length = 0 := by
      have hlast := hys.bytes
      rw [Ptr.bytes_succ] at hlast
      exact List.singleton_inj.mp (List.append_inj' hlast rfl).2
    have hfront := hxs.bytes
    rw [Ptr.bytes_succ] at hfront
    have hxs' := (List.append_inj' hfront rfl).1
    refine hxs.noNul ?_
    rw [← hxs', ← hend]
    exact List.mem_map_of_mem (List.mem_range.mpr (by omega))
  have hlen : text.length = text'.length := Nat.le_antisymm (hstop h h') (hstop h' h)
  have hbytes := h.bytes
  rw [hlen, h'.bytes] at hbytes
  exact (List.append_inj' hbytes rfl).1.symm

variable {c : Call} {before after text : Str} {p : Nat}

/-- The parts of a text are found one behind the other. -/
theorem Holds.parts {mem : Ptr} {size pos : Nat} {before middle after : Str}
    (h : Holds mem size pos (before ++ middle ++ after)) :
    (mem.add pos).bytes before.length = before ∧
      (mem.add (pos + before.length)).bytes middle.length = middle ∧
      (mem.add (pos + before.length + middle.length)).bytes (after.length + 1) = after ++ [0] := by
  have hbytes := h.bytes
  rw [List.length_append, List.length_append, Nat.add_assoc, Ptr.bytes_add, Ptr.bytes_add,
    List.append_assoc] at hbytes
  simp only [Ptr.add_add] at hbytes
  have hlen : ((mem.add pos).bytes before.length ++
      (mem.add (pos + before.length)).bytes middle.length).length = (before ++ middle).length := by
    rw [List.length_append, List.length_append, Ptr.length_bytes, Ptr.length_bytes]
  rw [List.append_assoc (before ++ middle), ← List.append_assoc] at hbytes
  obtain ⟨hfront, hafter⟩ := List.append_inj hbytes hlen
  obtain ⟨hbefore, hmiddle⟩ := List.append_inj hfront (Ptr.length_bytes _ _)
  rw [← Nat.add_assoc] at hafter
  exact ⟨hbefore, hmiddle, hafter⟩

/-- Parts that follow one another make up a text. -/
theorem Holds.of_parts {mem : Ptr} {size pos : Nat} {before middle after : Str}
    (hbefore : (mem.add pos).bytes before.length = before)
    (hmiddle : (mem.add (pos + before.length)).bytes middle.length = middle)
    (hafter : (mem.add (pos + before.length + middle.length)).bytes (after.length + 1) =
      after ++ [0])
    (hnul : 0 ∉ before ++ middle ++ after)
    (hinside : pos + (before ++ middle ++ after).length < size) :
    Holds mem size pos (before ++ middle ++ after) := by
  refine ⟨hnul, ?_, hinside⟩
  rw [List.length_append, List.length_append, Nat.add_assoc, Ptr.bytes_add, Ptr.bytes_add,
    Ptr.add_add, Ptr.add_add, ← Nat.add_assoc, hbefore, hmiddle, hafter]
  simp only [List.append_assoc]

/-- Where the text starts the buffer or keeps its length, the part behind the old string gets
behind the new one. -/
theorem moved_bytes (htext : Holds c.mem c.ssize c.string (before ++ c.old ++ after))
    (hmove : c.string = 0 ∨ c.old.length = c.new.length)
    (hfits : c.string + (before ++ c.old ++ after).length + c.new.length <
      c.ssize + c.old.length) :
    ((c.moved before.length).add (c.string + before.length + c.new.length)).bytes
      (after.length + 1) = after ++ [0] := by
  obtain ⟨-, -, hafter⟩ := htext.parts
  have hinside := htext.inside
  rw [List.length_append, List.length_append] at hfits hinside
  rw [Call.moved]
  split_ifs with hsame
  · rw [← hsame]
    exact hafter
  · have hzero : c.string = 0 := hmove.resolve_right hsame
    have htail : after.length + 1 ≤ c.tail before.length := by
      rw [Call.tail, if_pos (by omega)]
      omega
    rw [Ptr.bytes_of_le _ htail, Ptr.bytes_write_self, ← Ptr.bytes_of_le _ htail]
    exact hafter

/-- What stands before the occurrence stays. -/
theorem moved_before {n : Nat} (hn : n ≤ c.string + p) : (c.moved p).bytes n = c.mem.bytes n := by
  rw [Call.moved]
  split_ifs
  · rfl
  · apply Ptr.bytes_congr
    intro i hi
    exact if_neg (by omega)

/-- The occurrence is replaced, and memory in front of it stays as it is. -/
theorem substitute_holds (htext : Holds c.mem c.ssize c.string (before ++ c.old ++ after))
    (hmove : c.string = 0 ∨ c.old.length = c.new.length)
    (hfits : c.string + (before ++ c.old ++ after).length + c.new.length < c.ssize + c.old.length)
    (hnul : 0 ∉ c.new) :
    Holds ((c.moved before.length).write (c.string + before.length) c.new.length
      (Ptr.ofList c.new)) c.ssize c.string (before ++ c.new ++ after) := by
  obtain ⟨hbefore, -, -⟩ := htext.parts
  have hno := htext.noNul
  rw [List.mem_append, List.mem_append] at hno
  refine Holds.of_parts ?_ ?_ ?_ ?_ ?_
  · rw [Ptr.bytes_write_of_disjoint _ _ (Or.inl (Nat.le_refl _))]
    calc ((c.moved before.length).add c.string).bytes before.length
        = ((c.moved before.length).bytes (c.string + before.length)).drop c.string := by
          rw [Ptr.bytes_add, List.drop_left' (Ptr.length_bytes _ _)]
      _ = (c.mem.bytes (c.string + before.length)).drop c.string := by
          rw [moved_before (Nat.le_refl _)]
      _ = before := by
          rw [Ptr.bytes_add, List.drop_left' (Ptr.length_bytes _ _), hbefore]
  · rw [Ptr.bytes_write_self, Ptr.bytes_ofList]
  · rw [Ptr.bytes_write_of_disjoint _ _ (Or.inr (Nat.le_refl _))]
    exact moved_bytes htext hmove hfits
  · rw [List.mem_append, List.mem_append]
    tauto
  · rw [List.length_append, List.length_append] at hfits ⊢
    omega

/-- Where the old string is found in the text, and what is around it. -/
theorem match_split (htext : Holds c.mem c.ssize c.string text) (hmatch : c.match = some p)
    (hinside : p + c.old.length ≤ text.length) :
    ∃ before after, text = before ++ c.old ++ after ∧ before.length = p := by
  obtain ⟨-, hfound, -⟩ := memstr_some hmatch
  have hbytes := htext.bytes
  rw [Ptr.add_add] at hfound
  have hold : (text.drop p).take c.old.length = c.old := by
    have hsub := (c.mem.add c.string).bytes_add_eq
      (show p + c.old.length ≤ text.length + 1 by omega)
    rw [hbytes, Ptr.add_add, hfound, List.drop_append_of_le_length (by omega),
      List.take_append_of_le_length (by rw [List.length_drop]; omega)] at hsub
    exact hsub.symm
  refine ⟨text.take p, (text.drop p).drop c.old.length, ?_, List.length_take_of_le (by omega)⟩
  rw [List.append_assoc]
  conv => lhs; rw [← List.take_append_drop p text, ← List.take_append_drop c.old.length (text.drop p)]
  rw [hold]

theorem substitute_some (hmatch : c.match = some p) (hover : ¬c.Overflow) :
    ∃ r, substitute c = some r := by
  rw [substitute, hmatch, Option.bind_eq_bind, Option.bind_some, if_neg hover]
  exact ⟨_, rfl⟩

/-- A call that is bounded replaces the occurrence that it finds. -/
theorem substitute_bounded (htext : Holds c.mem c.ssize c.string text) (h : c.Bounded text)
    {r : Result} (hr : substitute c = some r) :
    ∃ before after, c.match = some before.length ∧ text = before ++ c.old ++ after ∧
      r.slen = c.slen + c.new.length - c.old.length ∧
      r.next = c.string + before.length + c.new.length ∧
      Holds r.mem c.ssize c.string (before ++ c.new ++ after) ∧
      r.mem.bytes c.string = c.mem.bytes c.string := by
  obtain ⟨p, hmatch, hr⟩ := Option.bind_eq_some_iff.mp hr
  split_ifs at hr with hover
  obtain rfl := Option.some.inj hr
  rw [Call.Bounded, hmatch] at h
  simp only [if_neg hover] at h
  obtain ⟨hinside, hmove, hfits, hnul⟩ := h
  obtain ⟨before, after, rfl, rfl⟩ := match_split htext hmatch hinside
  refine ⟨before, after, hmatch, rfl, rfl, rfl, substitute_holds htext hmove hfits hnul, ?_⟩
  have hbefore : ((c.moved before.length).write (c.string + before.length) c.new.length
      (Ptr.ofList c.new)).bytes c.string = (c.moved before.length).bytes c.string := by
    apply Ptr.bytes_congr
    intro i hi
    exact if_neg (by omega)
  rw [hbefore, moved_before (by omega)]

theorem bounded_inside (htext : Holds c.mem c.ssize c.string text) (h : c.Bounded text) :
    ∀ access ∈ c.accesses, access.2 = 0 ∨ access.1 + access.2 ≤ c.ssize := by
  have hend := htext.inside
  rw [Call.Bounded] at h
  rw [Call.accesses]
  cases hmatch : c.match with
  | none =>
    simp only [hmatch] at h ⊢
    split_ifs with hshort
    · simp
    · simp only [List.forall_mem_singleton]
      omega
  | some p =>
    simp only [hmatch] at h ⊢
    split_ifs at h ⊢ with hover hsame
    · simp only [List.forall_mem_singleton]
      omega
    · simp only [List.forall_mem_cons, List.not_mem_nil, false_implies, implies_true, and_true]
      omega
    · have htail : c.tail p = c.ssize - (p + max c.old.length c.new.length) := by
        rw [Call.tail, if_pos (by omega)]
      simp only [List.forall_mem_cons, List.not_mem_nil, false_implies, implies_true, and_true,
        htail]
      omega

/-- An occurrence of the old string in the text is found where it ends in the text. -/
theorem match_le (htext : Holds c.mem c.ssize c.string (before ++ c.old ++ after))
    (hmatch : c.match = some p) : p + c.old.length ≤ (before ++ c.old ++ after).length := by
  obtain ⟨hle, -, hfirst⟩ := memstr_some hmatch
  rw [List.length_append, List.length_append]
  by_contra hlate
  refine hfirst before.length (by omega) ?_
  rw [Ptr.add_add]
  exact htext.parts.2.1

/-- The calls of `substitute` that are safe. -/
theorem safe_iff (htext : Holds c.mem c.ssize c.string text) : c.Safe ↔ c.Bounded text := by
  constructor
  · rintro ⟨hinside, hreplaced⟩
    have hend := htext.inside
    rw [Call.accesses] at hinside
    rw [Call.Bounded]
    cases hmatch : c.match with
    | none =>
      simp only [hmatch] at hinside ⊢
      split_ifs at hinside with hshort
      · exact Or.inl hshort
      · rw [List.forall_mem_singleton] at hinside
        omega
    | some p =>
      simp only [hmatch] at hinside ⊢
      split_ifs at hinside ⊢ with hover hsame
      · rw [List.forall_mem_singleton] at hinside
        omega
      all_goals
        obtain ⟨r, hr⟩ := substitute_some hmatch hover
        obtain ⟨before, after, rfl, hnew⟩ := hreplaced r hr text htext
        have hle := match_le htext hmatch
        have hfits := hnew.inside
        have hno := hnew.noNul
        rw [List.mem_append, List.mem_append] at hno
        simp only [List.length_append] at hle hfits hend ⊢
        refine ⟨hle, ?_, by omega, fun hmem => hno (Or.inl (Or.inr hmem))⟩
      · exact Or.inr hsame
      · -- where the lengths differ, the tail is as long as the buffer
        simp only [List.forall_mem_cons] at hinside
        obtain ⟨hread, hfrom, hto, hwrite, -⟩ := hinside
        have htail : c.tail p = c.ssize - (p + max c.old.length c.new.length) := by
          rw [Call.tail, if_pos (by omega)]
        rw [htail] at hfrom hto
        omega
  · intro h
    refine ⟨bounded_inside htext h, fun r hr text' htext' => ?_⟩
    obtain rfl := htext.unique htext'
    obtain ⟨before, after, -, hsplit, -, -, hnew, -⟩ := substitute_bounded htext h hr
    exact ⟨before, after, hsplit, hnew⟩

end Effect

end UBoot.Setexpr
