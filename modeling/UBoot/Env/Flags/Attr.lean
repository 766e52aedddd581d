import Mathlib.Data.List.TakeWhile
import Mathlib.Tactic.Common
import UBoot.HashTable.Basic

/-!
# Attribute lists

`common/env_attr.c`: a list of entries `name[:attributes]`, separated by commas.
`env_attr_walk` splits the list into its entries, `env_attr_lookup` searches it for
the text of a name from behind. On a list without white space the lookup finds the
last entry that the walk has for the name.
-/

namespace UBoot.Env.Flags

open HashTable (Str)

/-- `ENV_ATTR_LIST_DELIM` and `ENV_ATTR_SEP` -/
def comma : UInt8 := 44
def colon : UInt8 := 58
def space : UInt8 := 32

/-- `isspace` -/
def isspace (c : UInt8) : Bool := c = 32 ∨ (9 ≤ c ∧ c ≤ 13) ∨ c = 160

/-- `strim` -/
def strim (s : Str) : Str := ((s.dropWhile isspace).reverse.dropWhile isspace).reverse

/-! ### The walk -/

/-- The text between the commas. -/
def splitEntries : Str → List Str
  | [] => [[]]
  | c :: rest =>
    match splitEntries rest with
    | [] => [[c]]
    | entry :: entries => if c = comma then [] :: entry :: entries else (c :: entry) :: entries

/-- The name and the attributes of an entry; entries without a name are skipped. -/
def parseEntry (entry : Str) : Option (Str × Option Str) :=
  let name := strim (entry.takeWhile (· ≠ colon))
  let attributes := if colon ∈ entry then some (strim ((entry.dropWhile (· ≠ colon)).drop 1))
    else none
  if name = [] then none else some (name, attributes)

/-- `env_attr_walk`: the calls of the callback, as long as it returns 0. -/
def envAttrWalk (attrList : Str) : List (Str × Option Str) :=
  (splitEntries attrList).filterMap parseEntry

/-! ### The lookup -/

/-- `strstr`: where the text is first found. -/
def strstr (searchFor : Str) : Str → Option Nat
  | [] => if searchFor = [] then some 0 else none
  | c :: rest =>
    if searchFor.isPrefixOf (c :: rest) then some 0 else (strstr searchFor rest).map (· + 1)

/-- The loop of `reverse_strstr`, with the text searched from `at` on. -/
def reverseLoop (list searchFor : Str) (start : Option Nat) : Nat → Nat → Option Nat → Option Nat
  | 0, _, result => result
  | fuel + 1, searched, result =>
    match strstr searchFor (list.drop searched) with
    | none => result
    | some i =>
      if start.any (searched + i + searchFor.length > ·) then result
      else reverseLoop list searchFor start fuel (searched + i + 1) (some (searched + i))

/-- `reverse_strstr` -/
def reverseStrstr (list searchFor : Str) (start : Option Nat) : Option Nat :=
  if searchFor = [] then some 0 else reverseLoop list searchFor start (list.length + 1) 0 none

/-- The test for an exact match at a place. `before` is what stands in memory in
front of the list, behind any spaces there. -/
def matchesAt (before : UInt8) (list name : Str) (entry : Nat) : Bool :=
  let prevch := ((list.take entry).reverse.dropWhile (· = space)).headD before
  let nextch := ((list.drop (entry + name.length)).dropWhile (· = space)).headD 0
  (entry = 0 ∨ prevch = comma) ∧ (nextch = colon ∨ nextch = comma ∨ nextch = 0)

/-- The loop of `env_attr_lookup` over the places where the name is found. -/
def lookupLoop (before : UInt8) (list name : Str) : Nat → Option Nat → Option Nat
  | _, none => none
  | 0, _ => none
  | fuel + 1, some entry =>
    if matchesAt before list name entry then some entry
    else lookupLoop before list name fuel (reverseStrstr list name (some entry))

/-- The attributes behind a name. -/
def attributesAt (list name : Str) (entry : Nat) : Str :=
  match (list.drop (entry + name.length)).dropWhile (· = space) with
  | [] => []
  | c :: rest =>
    if c ≠ colon then []
    else (rest.dropWhile (· = space)).takeWhile fun c => c ≠ comma ∧ c ≠ space

/-- `env_attr_lookup` -/
def envAttrLookup (before : UInt8) (attrList name : Str) : Option Str :=
  (lookupLoop before attrList name (attrList.length + 1) (reverseStrstr attrList name none)).map
    (attributesAt attrList name)

/-! ### Searching for a text -/

theorem strstr_cases (name : Str) (list : Str) :
    (strstr name list = none ∧ ∀ e ≤ list.length, ¬name <+: list.drop e) ∨
      ∃ e, strstr name list = some e ∧ name <+: list.drop e ∧ e ≤ list.length ∧
        ∀ e' < e, ¬name <+: list.drop e' := by
  induction list with
  | nil =>
    by_cases h : name = []
    · exact .inr ⟨0, by simp [strstr, h], by simp [h], Nat.le_refl _, by omega⟩
    · refine .inl ⟨by simp [strstr, h], fun e _ hpre => h ?_⟩
      rw [List.drop_nil] at hpre
      exact List.prefix_nil.mp hpre
  | cons c rest ih =>
    by_cases h : name <+: c :: rest
    · exact .inr ⟨0, by simp [strstr, List.isPrefixOf_iff_prefix.mpr h], by simpa using h,
        Nat.zero_le _, by omega⟩
    · have hstep : strstr name (c :: rest) = (strstr name rest).map (· + 1) := by
        simp [strstr, h]
      rcases ih with ⟨hnone, hall⟩ | ⟨e, hsome, hpre, hle, hmin⟩
      · refine .inl ⟨by simp [hstep, hnone], fun e he => ?_⟩
        cases e with
        | zero => simpa using h
        | succ e => simpa using hall e (by simpa using he)
      · refine .inr ⟨e + 1, by simp [hstep, hsome], by simpa using hpre, by simpa using hle,
          fun e' he' => ?_⟩
        cases e' with
        | zero => simpa using h
        | succ e' => simpa using hmin e' (by omega)

section Search

variable {list name : Str}

/-- The name stands at a place of the list, and ends before `start`. -/
def Occurs (list name : Str) (start : Option Nat) (e : Nat) : Prop :=
  name <+: list.drop e ∧ ∀ s ∈ start, e + name.length ≤ s

theorem occurs_lt {e : Nat} (hname : name ≠ []) (h : name <+: list.drop e) :
    e + name.length ≤ list.length := by
  have hlen := h.length_le
  have hpos := List.length_pos_iff.mpr hname
  rw [List.length_drop] at hlen
  omega

/-- The loop keeps the last place found. -/
theorem reverseLoop_spec (hname : name ≠ []) (start : Option Nat) :
    ∀ fuel searched result, list.length < searched + fuel →
      (∀ e, result = some e → Occurs list name start e ∧ e < searched) →
      (∀ e, Occurs list name start e → e < searched → ∃ r, result = some r ∧ e ≤ r) →
      (reverseLoop list name start fuel searched result = none ∧
          ∀ e, ¬Occurs list name start e) ∨
        ∃ e, reverseLoop list name start fuel searched result = some e ∧
          Occurs list name start e ∧ ∀ e', Occurs list name start e' → e' ≤ e := by
  intro fuel
  have stop : ∀ searched result, (∀ e, Occurs list name start e → e < searched) →
      (∀ e, result = some e → Occurs list name start e ∧ e < searched) →
      (∀ e, Occurs list name start e → e < searched → ∃ r, result = some r ∧ e ≤ r) →
      (result = none ∧ ∀ e, ¬Occurs list name start e) ∨
        ∃ e, result = some e ∧ Occurs list name start e ∧
          ∀ e', Occurs list name start e' → e' ≤ e := by
    intro searched result hall hin hmax
    cases result with
    | none =>
      refine .inl ⟨rfl, fun e he => ?_⟩
      obtain ⟨r, hr, -⟩ := hmax e he (hall e he)
      cases hr
    | some r =>
      refine .inr ⟨r, rfl, (hin r rfl).1, fun e' he' => ?_⟩
      obtain ⟨r', hr', hle⟩ := hmax e' he' (hall e' he')
      cases hr'
      exact hle
  induction fuel with
  | zero =>
    intro searched result hfuel hin hmax
    refine stop searched result (fun e he => ?_) hin hmax
    have := occurs_lt hname he.1
    omega
  | succ fuel ih =>
    intro searched result hfuel hin hmax
    rw [reverseLoop]
    rcases strstr_cases name (list.drop searched) with ⟨hnone, hall⟩ | ⟨i, hsome, hpre, hle, hmin⟩
    · simp only [hnone]
      refine stop searched result (fun e he => ?_) hin hmax
      by_contra hge
      have hlt := occurs_lt hname he.1
      refine hall (e - searched) (by rw [List.length_drop]; omega) ?_
      rw [List.drop_drop, Nat.add_sub_cancel' (by omega)]
      exact he.1
    · rw [List.drop_drop] at hpre
      have hnext : ∀ e, Occurs list name start e → searched ≤ e → searched + i ≤ e := by
        intro e he hge
        by_contra hlt
        refine hmin (e - searched) (by omega) ?_
        rw [List.drop_drop, Nat.add_sub_cancel' hge]
        exact he.1
      simp only [hsome]
      by_cases hover : start.any (searched + i + name.length > ·) = true
      · rw [if_pos hover]
        refine stop searched result (fun e he => ?_) hin hmax
        by_contra hge
        have hfar := hnext e he (by omega)
        cases start with
        | none => simp at hover
        | some s =>
          have := he.2 s rfl
          simp only [Option.any_some, decide_eq_true_eq] at hover
          omega
      · rw [if_neg hover]
        have hocc : Occurs list name start (searched + i) := by
          refine ⟨hpre, fun s hs => ?_⟩
          rw [Option.mem_def.mp hs] at hover
          simpa using hover
        refine ih (searched + i + 1) (some (searched + i)) (by omega) ?_ ?_
        · rintro e ⟨⟩
          exact ⟨hocc, by omega⟩
        · intro e he hlt
          exact ⟨searched + i, rfl, by omega⟩

/-- `reverse_strstr` finds the last place. -/
theorem reverseStrstr_cases (hname : name ≠ []) (start : Option Nat) :
    (reverseStrstr list name start = none ∧ ∀ e, ¬Occurs list name start e) ∨
      ∃ e, reverseStrstr list name start = some e ∧ Occurs list name start e ∧
        ∀ e', Occurs list name start e' → e' ≤ e := by
  rw [reverseStrstr, if_neg hname]
  exact reverseLoop_spec hname start _ 0 none (by omega) (by simp) (by intros; omega)

end Search

/-! ### Entries of a list -/

/-- The attributes of the last entry for a name. -/
def lastOf (name : Str) : List (Str × Option Str) → Option (Option Str)
  | [] => none
  | (key, attributes) :: entries =>
    (lastOf name entries).or (if key = name then some attributes else none)

/-- A list without white space. -/
def PlainList (list : Str) : Prop := ∀ c ∈ list, isspace c = false

/-- A name that an entry can have. -/
structure PlainName (name : Str) : Prop where
  ne_nil : name ≠ []
  comma : comma ∉ name
  colon : colon ∉ name

/-- The name of an entry stands at a place of the list. -/
structure EntryAt (list name : Str) (e : Nat) : Prop where
  occurs : name <+: list.drop e
  front : e = 0 ∨ list[e - 1]? = some comma
  back : ∀ c ∈ list[e + name.length]?, c = colon ∨ c = comma

section Plain

variable {list rest entry name : Str}

theorem not_space_of_plain (h : PlainList list) {c : UInt8} (hc : c ∈ list) : c ≠ space := by
  rintro rfl
  exact absurd (h _ hc) (by decide)

theorem dropWhile_plain {p : UInt8 → Bool} (h : ∀ c ∈ list, p c = false) :
    list.dropWhile p = list := by
  cases list with
  | nil => rfl
  | cons c list => rw [List.dropWhile_cons_of_neg (by simp [h c])]

theorem strim_plain (h : PlainList list) : strim list = list := by
  rw [strim, dropWhile_plain h, dropWhile_plain (by simpa [PlainList] using h), List.reverse_reverse]

theorem entries_induction {P : Str → Prop} (last : ∀ entry, comma ∉ entry → P entry)
    (more : ∀ entry rest, comma ∉ entry → P rest → P (entry ++ comma :: rest)) :
    ∀ list, P list := by
  intro list
  induction hn : list.length using Nat.strongRecOn generalizing list with
  | ind n ih =>
    by_cases hmem : comma ∈ list
    · obtain ⟨entry, rest, rfl, hnot⟩ := List.eq_append_cons_of_mem hmem
      refine more entry rest hnot (ih rest.length ?_ rest rfl)
      rw [← hn, List.length_append, List.length_cons]
      omega
    · exact last list hmem

theorem splitEntries_ne_nil (list : Str) : splitEntries list ≠ [] := by
  cases list with
  | nil => simp [splitEntries]
  | cons c list =>
    rw [splitEntries]
    split
    · simp
    · split <;> simp

theorem splitEntries_last (h : comma ∉ entry) : splitEntries entry = [entry] := by
  induction entry with
  | nil => rfl
  | cons c entry ih =>
    rw [List.mem_cons, not_or] at h
    obtain ⟨hc, hrest⟩ := h
    rw [splitEntries, ih hrest]
    simp [Ne.symm hc]

theorem splitEntries_more (h : comma ∉ entry) (rest : Str) :
    splitEntries (entry ++ comma :: rest) = entry :: splitEntries rest := by
  induction entry with
  | nil =>
    rw [List.nil_append, splitEntries]
    cases hsplit : splitEntries rest with
    | nil => exact absurd hsplit (splitEntries_ne_nil rest)
    | cons first others => rfl
  | cons c entry ih =>
    rw [List.mem_cons, not_or] at h
    obtain ⟨hc, hrest⟩ := h
    rw [List.cons_append, splitEntries, ih hrest]
    simp [Ne.symm hc]

theorem first_entry_iff (hname : PlainName name) (hnot : comma ∉ entry) (tail : Str)
    (htail : ∀ c ∈ tail.head?, c = comma) :
    (name <+: entry ++ tail ∧ ∀ c ∈ (entry ++ tail)[name.length]?, c = colon ∨ c = comma) ↔
      entry.takeWhile (· ≠ colon) = name := by
  constructor
  · rintro ⟨hpre, hback⟩
    have hshort : name <+: entry := by
      refine List.prefix_of_prefix_length_le hpre (List.prefix_append _ _) ?_
      by_contra hlong
      -- the name would hold the comma behind the entry
      obtain ⟨more, hmore⟩ := hpre
      have hat : (entry ++ tail)[entry.length]? = name[entry.length]? := by
        rw [← hmore, List.getElem?_append_left (by omega)]
      rw [List.getElem?_append_right (Nat.le_refl _), Nat.sub_self] at hat
      have hget : name[entry.length]? = some name[entry.length] :=
        List.getElem?_eq_getElem (by omega)
      rw [hget, ← List.head?_eq_getElem?] at hat
      have hc := htail _ (Option.mem_def.mpr hat)
      exact hname.comma (hc ▸ List.getElem_mem _)
    obtain ⟨more, rfl⟩ := hshort
    have hall : ∀ c ∈ name, decide (c ≠ colon) = true := by
      intro c hc
      refine decide_eq_true ?_
      rintro rfl
      exact hname.colon hc
    rw [List.takeWhile_append_of_pos hall]
    cases more with
    | nil => simp
    | cons c more =>
      have hc := hback c (by simp)
      have hcolon : c = colon := hc.resolve_right (by
        rintro rfl
        exact hnot (by simp))
      simp [hcolon]
  · intro heq
    have hsplit : entry = name ++ entry.dropWhile (· ≠ colon) := by
      rw [← heq, List.takeWhile_append_dropWhile]
    refine ⟨?_, ?_⟩
    · rw [hsplit, List.append_assoc]
      exact List.prefix_append _ _
    · intro c hc
      rw [hsplit, List.append_assoc, List.getElem?_append_right (Nat.le_refl _), Nat.sub_self,
        ← List.head?_eq_getElem?] at hc
      cases hdrop : entry.dropWhile (· ≠ colon) with
      | nil =>
        rw [hdrop, List.nil_append] at hc
        exact .inr (htail c hc)
      | cons d more =>
        rw [hdrop] at hc
        have hd := List.head?_dropWhile_not (· ≠ colon) entry
        rw [hdrop] at hd
        simp only [List.cons_append, List.head?_cons, Option.mem_def, Option.some.injEq] at hc
        subst hc
        left
        simpa using hd

theorem entryAt_last (hname : PlainName name) (hnot : comma ∉ entry) {e : Nat} :
    EntryAt entry name e ↔ e = 0 ∧ entry.takeWhile (· ≠ colon) = name := by
  have hfirst := first_entry_iff hname hnot [] (by simp)
  rw [List.append_nil] at hfirst
  constructor
  · rintro ⟨occurs, front, back⟩
    have h0 : e = 0 := front.resolve_right fun h => hnot (List.mem_of_getElem? h)
    subst h0
    refine ⟨rfl, hfirst.mp ⟨by simpa using occurs, by simpa using back⟩⟩
  · rintro ⟨rfl, heq⟩
    obtain ⟨occurs, back⟩ := hfirst.mpr heq
    exact ⟨by simpa using occurs, .inl rfl, by simpa using back⟩

theorem entryAt_more (hname : PlainName name) (hnot : comma ∉ entry) {e : Nat} :
    EntryAt (entry ++ comma :: rest) name e ↔
      (e = 0 ∧ entry.takeWhile (· ≠ colon) = name) ∨
        ∃ e', e = entry.length + 1 + e' ∧ EntryAt rest name e' := by
  have hfirst := first_entry_iff hname hnot (comma :: rest) (by simp)
  have hdrop : ∀ e', (entry ++ comma :: rest).drop (entry.length + 1 + e') = rest.drop e' := by
    intro e'
    rw [Nat.add_assoc, ← List.drop_drop, List.drop_left, Nat.add_comm, List.drop_succ_cons]
  have hget : ∀ i, (entry ++ comma :: rest)[entry.length + 1 + i]? = rest[i]? := by
    intro i
    rw [List.getElem?_append_right (by omega), show entry.length + 1 + i - entry.length = i + 1 by
      omega, List.getElem?_cons_succ]
  constructor
  · rintro ⟨occurs, front, back⟩
    rcases Nat.lt_or_ge entry.length e with hlt | hge
    · obtain ⟨e', rfl⟩ : ∃ e', e = entry.length + 1 + e' := ⟨e - entry.length - 1, by omega⟩
      refine .inr ⟨e', rfl, by rwa [hdrop] at occurs, ?_, ?_⟩
      · rcases Nat.eq_zero_or_pos e' with h0 | hpos
        · exact .inl h0
        · right
          have hprev := front.resolve_left (by omega)
          rwa [show entry.length + 1 + e' - 1 = entry.length + 1 + (e' - 1) by omega, hget] at hprev
      · rwa [Nat.add_assoc, hget] at back
    · have h0 : e = 0 := by
        by_contra hne
        have hprev := front.resolve_left hne
        rw [List.getElem?_append_left (by omega)] at hprev
        exact hnot (List.mem_of_getElem? hprev)
      subst h0
      exact .inl ⟨rfl, hfirst.mp ⟨by simpa using occurs, by simpa using back⟩⟩
  · rintro (⟨rfl, heq⟩ | ⟨e', rfl, occurs, front, back⟩)
    · obtain ⟨occurs, back⟩ := hfirst.mpr heq
      exact ⟨by simpa using occurs, .inl rfl, by simpa using back⟩
    · refine ⟨by rwa [hdrop], .inr ?_, by rwa [Nat.add_assoc, hget]⟩
      rcases front with rfl | hprev
      · simp
      · rcases Nat.eq_zero_or_pos e' with rfl | hpos
        · simp
        · rw [show entry.length + 1 + e' - 1 = entry.length + 1 + (e' - 1) by omega, hget]
          exact hprev

/-! ### Both ways to read a list -/

theorem attributesAt_first (hnot : comma ∉ entry) (tail : Str) (hplain : PlainList (entry ++ tail))
    (htail : ∀ c ∈ tail.head?, c = comma) (heq : entry.takeWhile (· ≠ colon) = name) :
    attributesAt (entry ++ tail) name 0 =
      if colon ∈ entry then (entry.dropWhile (· ≠ colon)).drop 1 else [] := by
  have hdrop : (entry ++ tail).drop (0 + name.length) = entry.dropWhile (· ≠ colon) ++ tail := by
    conv_lhs => rw [← List.takeWhile_append_dropWhile (p := (· ≠ colon)) (l := entry), heq]
    rw [Nat.zero_add, List.append_assoc, List.drop_left]
  have hspace : ∀ l : Str, (∀ c ∈ l, c ∈ entry ++ tail) → l.dropWhile (· = space) = l := by
    intro l hl
    apply dropWhile_plain
    intro c hc
    exact decide_eq_false (not_space_of_plain hplain (hl c hc))
  have hmem : ∀ c ∈ entry.dropWhile (· ≠ colon) ++ tail, c ∈ entry ++ tail := by
    intro c hc
    rcases List.mem_append.mp hc with hc | hc
    · exact List.mem_append_left _ ((List.dropWhile_sublist _).subset hc)
    · exact List.mem_append_right _ hc
  rw [attributesAt, hdrop, hspace _ hmem]
  cases hrest : entry.dropWhile (· ≠ colon) with
  | nil =>
    have hcolon : colon ∉ entry := by
      intro hc
      have := List.dropWhile_eq_nil_iff.mp hrest colon hc
      simp at this
    rw [if_neg hcolon, List.nil_append]
    cases tail with
    | nil => rfl
    | cons c tail =>
      have hc : c = comma := htail c rfl
      simp only [hc]
      rfl
  | cons c more =>
    have hc : c = colon := by
      have hd := List.head?_dropWhile_not (· ≠ colon) entry
      rw [hrest] at hd
      simpa using hd
    have hcolon : colon ∈ entry := by
      rw [← hc]
      exact (List.dropWhile_sublist _).subset (hrest ▸ List.mem_cons_self)
    have hmore : ∀ c ∈ more, c ∈ entry := fun c hc =>
      (List.dropWhile_sublist _).subset (hrest ▸ List.mem_cons_of_mem _ hc)
    have hmem' : ∀ c ∈ more ++ tail, c ∈ entry ++ tail := by
      intro c hc
      rcases List.mem_append.mp hc with hc | hc
      · exact List.mem_append_left _ (hmore c hc)
      · exact List.mem_append_right _ hc
    have hall : ∀ c ∈ more, decide (c ≠ comma ∧ c ≠ space) = true := by
      intro c hc
      refine decide_eq_true ⟨?_, not_space_of_plain hplain
        (List.mem_append_left _ (hmore c hc))⟩
      rintro rfl
      exact hnot (hmore _ hc)
    have hstop : tail.takeWhile (fun c => decide (c ≠ comma ∧ c ≠ space)) = [] := by
      cases tail with
      | nil => rfl
      | cons c tail =>
        have hc : c = comma := htail c rfl
        simp [hc]
    rw [if_pos hcolon, List.cons_append]
    simp only [hc, ne_eq, not_true_eq_false, if_false]
    rw [hspace _ hmem', List.takeWhile_append_of_pos hall, hstop]
    simp

theorem attributesAt_more (entry rest name : Str) (e : Nat) :
    attributesAt (entry ++ comma :: rest) name (entry.length + 1 + e) =
      attributesAt rest name e := by
  have hdrop : (entry ++ comma :: rest).drop (entry.length + 1 + e + name.length) =
      rest.drop (e + name.length) := by
    rw [Nat.add_assoc, Nat.add_assoc, ← List.drop_drop, List.drop_left, Nat.add_comm,
      List.drop_succ_cons]
  rw [attributesAt, hdrop, attributesAt]

/-- What the walk makes of an entry. -/
theorem parseEntry_plain (hplain : PlainList entry) :
    parseEntry entry = if entry.takeWhile (· ≠ colon) = [] then none
      else some (entry.takeWhile (· ≠ colon),
        if colon ∈ entry then some ((entry.dropWhile (· ≠ colon)).drop 1) else none) := by
  have hname : PlainList (entry.takeWhile (· ≠ colon)) := fun c hc =>
    hplain c ((List.takeWhile_sublist _).subset hc)
  have hrest : PlainList ((entry.dropWhile (· ≠ colon)).drop 1) := fun c hc =>
    hplain c ((List.dropWhile_sublist _).subset ((List.drop_sublist _ _).subset hc))
  simp only [parseEntry, strim_plain hname, strim_plain hrest]

/-- The last entry that the walk has for the name stands at the last place where the
name of an entry stands. -/
theorem lastOf_walk (hname : PlainName name) :
    ∀ list, PlainList list →
      (lastOf name (envAttrWalk list) = none ∧ ∀ e, ¬EntryAt list name e) ∨
        ∃ attributes e, lastOf name (envAttrWalk list) = some attributes ∧ EntryAt list name e ∧
          attributesAt list name e = attributes.getD [] ∧ ∀ e', EntryAt list name e' → e' ≤ e := by
  have hfirst : ∀ entry tail : Str, comma ∉ entry → PlainList (entry ++ tail) →
      (∀ c ∈ tail.head?, c = comma) → entry.takeWhile (· ≠ colon) = name →
      ∃ attributes, parseEntry entry = some (name, attributes) ∧
        attributesAt (entry ++ tail) name 0 = attributes.getD [] := by
    intro entry tail hnot hplain htail heq
    have hentry : PlainList entry := fun c hc => hplain c (List.mem_append_left _ hc)
    refine ⟨if colon ∈ entry then some ((entry.dropWhile (· ≠ colon)).drop 1) else none, ?_, ?_⟩
    · rw [parseEntry_plain hentry, heq, if_neg hname.ne_nil]
    · rw [attributesAt_first hnot tail hplain htail heq]
      split <;> rfl
  have hother : ∀ entry : Str, PlainList entry → entry.takeWhile (· ≠ colon) ≠ name →
      ∀ entries, lastOf name ((parseEntry entry).toList ++ entries) = lastOf name entries := by
    intro entry hplain hne entries
    rw [parseEntry_plain hplain]
    split
    · rfl
    · rw [Option.toList_some, List.singleton_append, lastOf, if_neg hne, Option.or_none]
  apply entries_induction
  · intro entry hnot hplain
    have hwalk : envAttrWalk entry = (parseEntry entry).toList ++ [] := by
      rw [envAttrWalk, splitEntries_last hnot]
      cases h : parseEntry entry <;> simp [h]
    by_cases heq : entry.takeWhile (· ≠ colon) = name
    · obtain ⟨attributes, hparse, hattr⟩ := hfirst entry [] hnot (by simpa using hplain)
        (by simp) heq
      refine .inr ⟨attributes, 0, by simp [hwalk, hparse, lastOf],
        (entryAt_last hname hnot).mpr ⟨rfl, heq⟩, by simpa using hattr, fun e' he' => ?_⟩
      exact Nat.le_of_eq ((entryAt_last hname hnot).mp he').1
    · refine .inl ⟨by rw [hwalk, hother entry hplain heq]; rfl, fun e he => ?_⟩
      exact heq ((entryAt_last hname hnot).mp he).2
  · intro entry rest hnot ih hplain
    have hentry : PlainList entry := fun c hc => hplain c (List.mem_append_left _ hc)
    have hrest : PlainList rest := fun c hc => hplain c (by simp [hc])
    have hwalk : envAttrWalk (entry ++ comma :: rest) =
        (parseEntry entry).toList ++ envAttrWalk rest := by
      rw [envAttrWalk, splitEntries_more hnot, envAttrWalk]
      cases h : parseEntry entry <;> simp [h]
    rcases ih hrest with ⟨hnone, hall⟩ | ⟨attributes, e, hsome, hat, hattr, hmax⟩
    · by_cases heq : entry.takeWhile (· ≠ colon) = name
      · obtain ⟨attributes, hparse, hattr⟩ := hfirst entry (comma :: rest) hnot hplain
          (by simp) heq
        refine .inr ⟨attributes, 0, by simp [hwalk, hparse, lastOf, hnone],
          (entryAt_more hname hnot).mpr (.inl ⟨rfl, heq⟩), hattr, fun e' he' => ?_⟩
        rcases (entryAt_more hname hnot).mp he' with ⟨h0, -⟩ | ⟨e'', -, hat⟩
        · exact Nat.le_of_eq h0
        · exact absurd hat (hall e'')
      · refine .inl ⟨by rw [hwalk, hother entry hentry heq, hnone], fun e he => ?_⟩
        rcases (entryAt_more hname hnot).mp he with ⟨-, h⟩ | ⟨e', -, hat⟩
        · exact heq h
        · exact hall e' hat
    · have hlast : lastOf name (envAttrWalk (entry ++ comma :: rest)) = some attributes := by
        rw [hwalk]
        cases h : parseEntry entry with
        | none => simpa using hsome
        | some p => simp [lastOf, hsome]
      refine .inr ⟨attributes, entry.length + 1 + e, hlast,
        (entryAt_more hname hnot).mpr (.inr ⟨e, rfl, hat⟩), ?_, fun e' he' => ?_⟩
      · rw [attributesAt_more, hattr]
      · rcases (entryAt_more hname hnot).mp he' with ⟨h0, -⟩ | ⟨e'', rfl, hat'⟩
        · omega
        · have := hmax e'' hat'
          omega

theorem matchesAt_iff (hplain : PlainList list) (hnul : 0 ∉ list) (hname : name ≠ [])
    (before : UInt8) {e : Nat} (hocc : name <+: list.drop e) :
    matchesAt before list name e = true ↔ EntryAt list name e := by
  have hspace : ∀ l : Str, (∀ c ∈ l, c ∈ list) → l.dropWhile (· = space) = l := by
    intro l hl
    apply dropWhile_plain
    intro c hc
    exact decide_eq_false (not_space_of_plain hplain (hl c hc))
  have hprev : (list.take e).reverse.dropWhile (· = space) = (list.take e).reverse :=
    hspace _ fun c hc => List.mem_of_mem_take (List.mem_reverse.mp hc)
  have hnext : (list.drop (e + name.length)).dropWhile (· = space) =
      list.drop (e + name.length) := hspace _ fun c hc => List.mem_of_mem_drop hc
  have hfront : (e = 0 ∨ (list.take e).reverse.headD before = comma) ↔
      (e = 0 ∨ list[e - 1]? = some comma) := by
    rcases Nat.eq_zero_or_pos e with rfl | hpos
    · simp
    · have hlt := occurs_lt hname hocc
      have hget : list[e - 1]? = some list[e - 1] := List.getElem?_eq_getElem (by omega)
      rw [List.headD_eq_head?_getD, List.head?_reverse, List.getLast?_take, if_neg (by omega), hget]
      simp
  have hback : ((list.drop (e + name.length)).headD 0 = colon ∨
      (list.drop (e + name.length)).headD 0 = comma ∨
        (list.drop (e + name.length)).headD 0 = 0) ↔
      ∀ c ∈ list[e + name.length]?, c = colon ∨ c = comma := by
    rw [List.headD_eq_head?_getD, List.head?_drop]
    cases hget : list[e + name.length]? with
    | none => simp
    | some c =>
      have hc : c ≠ 0 := by
        rintro rfl
        exact hnul (List.mem_of_getElem? hget)
      simp [hc]
  simp only [matchesAt, hprev, hnext, decide_eq_true_eq, hfront, hback]
  exact ⟨fun h => ⟨hocc, h.1, h.2⟩, fun h => ⟨h.front, h.back⟩⟩

/-- Two places of the name overlap only if the first one is no entry. -/
theorem EntryAt.before (hname : PlainName name) {e e' : Nat} (h : EntryAt list name e)
    (hocc : name <+: list.drop e') (hlt : e < e') : e + name.length ≤ e' := by
  by_contra hover
  obtain ⟨tail, htail⟩ := hocc
  have hin : e + name.length - e' < name.length := by omega
  have hget : (name ++ tail)[e + name.length - e']? = name[e + name.length - e']? :=
    List.getElem?_append_left hin
  rw [htail, List.getElem?_drop, Nat.add_sub_cancel' (by omega)] at hget
  rw [List.getElem?_eq_getElem hin] at hget
  have hmem : name[e + name.length - e'] ∈ name := List.getElem_mem _
  rcases h.back _ hget with hc | hc
  · exact hname.colon (hc ▸ hmem)
  · exact hname.comma (hc ▸ hmem)

theorem lookupLoop_spec (hplain : PlainList list) (hnul : 0 ∉ list) (hname : PlainName name)
    (before : UInt8) :
    ∀ fuel entry, (∀ e, entry = some e → name <+: list.drop e ∧ e < fuel) →
      (∀ e, EntryAt list name e → ∃ e', entry = some e' ∧ e ≤ e') →
      (lookupLoop before list name fuel entry = none ∧ ∀ e, ¬EntryAt list name e) ∨
        ∃ e, lookupLoop before list name fuel entry = some e ∧ EntryAt list name e ∧
          ∀ e', EntryAt list name e' → e' ≤ e := by
  have hend : ∀ entry : Option Nat, entry = none →
      (∀ e, EntryAt list name e → ∃ e', entry = some e' ∧ e ≤ e') → ∀ e, ¬EntryAt list name e := by
    rintro entry rfl hmax e he
    obtain ⟨e', h, -⟩ := hmax e he
    cases h
  intro fuel
  induction fuel with
  | zero =>
    intro entry hin hmax
    cases entry with
    | none => exact .inl ⟨rfl, hend none rfl hmax⟩
    | some e => exact absurd (hin e rfl).2 (Nat.not_lt_zero _)
  | succ fuel ih =>
    intro entry hin hmax
    cases entry with
    | none => exact .inl ⟨rfl, hend none rfl hmax⟩
    | some e =>
      obtain ⟨hocc, hfuel⟩ := hin e rfl
      have hle : ∀ e', EntryAt list name e' → e' ≤ e := by
        intro e' he'
        obtain ⟨r, hr, h⟩ := hmax e' he'
        cases hr
        exact h
      rw [lookupLoop]
      by_cases hmatch : matchesAt before list name e = true
      · rw [if_pos hmatch]
        exact .inr ⟨e, rfl, (matchesAt_iff hplain hnul hname.ne_nil before hocc).mp hmatch, hle⟩
      · rw [if_neg hmatch]
        have hpos : 0 < name.length := List.length_pos_iff.mpr hname.ne_nil
        -- every entry ends before this place
        have hbefore : ∀ e', EntryAt list name e' → Occurs list name (some e) e' := by
          intro e' he'
          have hne : e' ≠ e := by
            rintro rfl
            exact hmatch ((matchesAt_iff hplain hnul hname.ne_nil before hocc).mpr he')
          refine ⟨he'.occurs, ?_⟩
          rintro s ⟨⟩
          exact he'.before hname hocc (Nat.lt_of_le_of_ne (hle e' he') hne)
        rcases @reverseStrstr_cases list name hname.ne_nil (some e) with
          ⟨hnone, hall⟩ | ⟨r, hsome, hr, hlast⟩
        · rw [hnone]
          exact ih none (by simp) fun e' he' => absurd (hbefore e' he') (hall e')
        · rw [hsome]
          refine ih (some r) ?_ fun e' he' => ⟨r, rfl, hlast e' (hbefore e' he')⟩
          rintro e' ⟨⟩
          have := hr.2 e rfl
          exact ⟨hr.1, by omega⟩

theorem envAttrLookup_eq (hplain : PlainList list) (hnul : 0 ∉ list) (hname : PlainName name)
    (before : UInt8) :
    envAttrLookup before list name =
      (lastOf name (envAttrWalk list)).map fun attributes => attributes.getD [] := by
  have hloop := lookupLoop_spec hplain hnul hname before (list.length + 1)
    (reverseStrstr list name none) (by
      intro e he
      rcases @reverseStrstr_cases list name hname.ne_nil none with
        ⟨hnone, -⟩ | ⟨r, hsome, hr, -⟩
      · simp [hnone] at he
      · rw [hsome, Option.some.injEq] at he
        subst he
        have := occurs_lt hname.ne_nil hr.1
        exact ⟨hr.1, by omega⟩) (by
      intro e he
      rcases @reverseStrstr_cases list name hname.ne_nil none with
        ⟨-, hall⟩ | ⟨r, hsome, -, hlast⟩
      · exact absurd ⟨he.occurs, by simp⟩ (hall e)
      · exact ⟨r, hsome, hlast e ⟨he.occurs, by simp⟩⟩)
  rw [envAttrLookup]
  rcases lastOf_walk hname list hplain with ⟨hnone, hall⟩ | ⟨attributes, e, hsome, hat, hattr, hmax⟩
  · rcases hloop with ⟨hloop, -⟩ | ⟨e, -, hat, -⟩
    · rw [hloop, hnone]
      rfl
    · exact absurd hat (hall e)
  · rcases hloop with ⟨-, hall⟩ | ⟨e', hloop, hat', hmax'⟩
    · exact absurd hat (hall e)
    · have heq : e' = e := Nat.le_antisymm (hmax e' hat') (hmax' e hat)
      rw [hloop, hsome, heq, Option.map_some, Option.map_some, hattr]

end Plain

end UBoot.Env.Flags
