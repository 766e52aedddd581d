import UBoot.Env.Flags.Attr

/-!
# The lookup on lists with spaces

The documented grammar of attribute lists allows spaces around names and
attributes. `env_attr_lookup` decides whether it has found a name by the characters
next to it past the spaces. It starts to look in front of the name even when the
list begins there, and then reads what stands in memory in front of the list.
-/

namespace UBoot.Env.Flags

open HashTable (Str)

/-! ### Lists of the grammar -/

def spaces (n : Nat) : Str := List.replicate n space

/-- No white space at either end. -/
def Trimmed (s : Str) : Prop := ∀ c, c ∈ s.head? ∨ c ∈ s.getLast? → isspace c = false

/-- The attributes of an entry, with the spaces around them. -/
structure Attributes where
  front : Nat
  text : Str
  back : Nat
  plain : ∀ c ∈ text, c ≠ comma ∧ c ≠ colon ∧ isspace c = false ∧ c ≠ 0

/-- An entry `name[:attributes]`, with spaces around the name and the attributes. -/
structure ListEntry where
  front : Nat
  name : Str
  back : Nat
  attributes : Option Attributes
  plain : ∀ c ∈ name, c ≠ comma ∧ c ≠ colon ∧ c ≠ 0
  trimmed : Trimmed name

namespace ListEntry

def nameField (entry : ListEntry) : Str := spaces entry.front ++ (entry.name ++ spaces entry.back)

def attributesField (entry : ListEntry) : Str :=
  match entry.attributes with
  | none => []
  | some attributes =>
    colon :: (spaces attributes.front ++ (attributes.text ++ spaces attributes.back))

def text (entry : ListEntry) : Str := entry.nameField ++ entry.attributesField

/-- What the walk reports for the entry. -/
def report (entry : ListEntry) : Option (Str × Option Str) :=
  if entry.name = [] then none else some (entry.name, entry.attributes.map (·.text))

end ListEntry

/-- The entries, separated by commas. -/
def listText (entries : List ListEntry) : Str := [comma].intercalate (entries.map ListEntry.text)

/-! ### Places that the lookup looks at -/

/-- The places of the name where `env_attr_lookup` looks at what is next to it. -/
def examined (before : UInt8) (list name : Str) : Nat → Option Nat → List Nat
  | _, none => []
  | 0, _ => []
  | fuel + 1, some entry =>
    entry :: if matchesAt before list name entry then []
      else examined before list name fuel (reverseStrstr list name (some entry))

/-- Looking back from one of the places over the spaces leaves the list. -/
def ReadsBefore (before : UInt8) (list name : Str) : Prop :=
  ∃ e ∈ examined before list name (list.length + 1) (reverseStrstr list name none),
    ∀ c ∈ list.take e, c = space

/-- The lookup agrees with the walk, and stays in the list. -/
structure LookupAgrees (before : UInt8) (list name : Str) : Prop where
  result : envAttrLookup before list name =
    (lastOf name (envAttrWalk list)).map fun attributes => attributes.getD []
  inside : ¬ReadsBefore before list name

/-- From a place of the name on, every time the last one that ends before. -/
def backFrom (list name : Str) : Nat → Option Nat → List Nat
  | _, none => []
  | 0, _ => []
  | fuel + 1, some entry =>
    entry :: backFrom list name fuel (reverseStrstr list name (some entry))

/-- Going back over the places of the name in this way, one comes to one with nothing
but spaces in front of it. -/
def ReachesFront (list name : Str) : Prop :=
  ∃ e ∈ backFrom list name (list.length + 1) (reverseStrstr list name none),
    ∀ c ∈ list.take e, c = space

/-- The name of an entry, between spaces, stands at a place of the list. -/
structure NamedAt (list name : Str) (e : Nat) : Prop where
  occurs : name <+: list.drop e
  front : ∀ c ∈ ((list.take e).reverse.dropWhile (· = space)).head?, c = comma
  back : ∀ c ∈ ((list.drop (e + name.length)).dropWhile (· = space)).head?, c = colon ∨ c = comma

/-! ### Trimming -/

section Spaces

variable {list rest name front back : Str}

theorem mem_spaces {n : Nat} {c : UInt8} (h : c ∈ spaces n) : c = space := List.eq_of_mem_replicate h

theorem isspace_space : isspace space = true := by decide

/-- Behind a run of bytes that pass, the first one that does not. -/
theorem dropWhile_run {p : UInt8 → Bool} (hfront : ∀ c ∈ front, p c = true)
    (hrest : ∀ c ∈ rest.head?, p c = false) : (front ++ rest).dropWhile p = rest := by
  rw [List.dropWhile_append_of_pos hfront]
  cases rest with
  | nil => rfl
  | cons c rest => exact List.dropWhile_cons_of_neg (by simp [hrest c rfl])

theorem strim_spaces (a b : Nat) (h : Trimmed name) :
    strim (spaces a ++ (name ++ spaces b)) = name := by
  have hspaces : ∀ n, ∀ c ∈ spaces n, isspace c = true := fun n c hc => mem_spaces hc ▸ isspace_space
  by_cases hname : name = []
  · subst hname
    rw [strim, List.nil_append, List.dropWhile_append_of_pos (hspaces a),
      List.dropWhile_eq_nil_iff.mpr (hspaces b)]
    rfl
  · have hhead : ∀ c ∈ (name ++ spaces b).head?, isspace c = false := by
      intro c hc
      cases name with
      | nil => exact absurd rfl hname
      | cons d name => exact h c (Or.inl hc)
    have hlast : ∀ c ∈ name.reverse.head?, isspace c = false := by
      intro c hc
      rw [List.head?_reverse] at hc
      exact h c (Or.inr hc)
    have hback : ∀ c ∈ (spaces b).reverse, isspace c = true := fun c hc =>
      hspaces b c (List.mem_reverse.mp hc)
    rw [strim, dropWhile_run (hspaces a) hhead, List.reverse_append, dropWhile_run hback hlast,
      List.reverse_reverse]

theorem Attributes.trimmed (attributes : Attributes) : Trimmed attributes.text := by
  rintro c (hc | hc)
  · exact (attributes.plain c (List.mem_of_mem_head? hc)).2.2.1
  · exact (attributes.plain c (List.mem_of_mem_getLast? hc)).2.2.1

end Spaces

/-! ### The walk over such a list -/

namespace ListEntry

variable (entry : ListEntry)

theorem nameField_plain : ∀ c ∈ entry.nameField, c ≠ comma ∧ c ≠ colon ∧ c ≠ 0 := by
  intro c hc
  rcases List.mem_append.mp hc with hc | hc
  · rw [mem_spaces hc]
    decide
  · rcases List.mem_append.mp hc with hc | hc
    · exact entry.plain c hc
    · rw [mem_spaces hc]
      decide

theorem attributesField_plain : ∀ c ∈ entry.attributesField, c ≠ comma ∧ c ≠ 0 := by
  intro c hc
  rw [attributesField] at hc
  split at hc
  · cases hc
  · rename_i attributes _
    rcases List.mem_cons.mp hc with rfl | hc
    · decide
    · rcases List.mem_append.mp hc with hc | hc
      · rw [mem_spaces hc]
        decide
      · rcases List.mem_append.mp hc with hc | hc
        · exact ⟨(attributes.plain c hc).1, (attributes.plain c hc).2.2.2⟩
        · rw [mem_spaces hc]
          decide

theorem comma_not_mem_text : comma ∉ entry.text := by
  intro hmem
  rcases List.mem_append.mp hmem with hmem | hmem
  · exact (entry.nameField_plain _ hmem).1 rfl
  · exact (entry.attributesField_plain _ hmem).1 rfl

/-- Behind the name field comes a colon, or the entry ends. -/
theorem head?_attributesField : ∀ c ∈ entry.attributesField.head?, c = colon := by
  intro c hc
  rw [attributesField] at hc
  split at hc
  · cases hc
  · exact (Option.some.inj hc).symm

theorem takeWhile_text : entry.text.takeWhile (· ≠ colon) = entry.nameField ∧
    entry.text.dropWhile (· ≠ colon) = entry.attributesField := by
  have hname : ∀ c ∈ entry.nameField, decide (c ≠ colon) = true := fun c hc =>
    decide_eq_true (entry.nameField_plain c hc).2.1
  have hstop : ∀ c ∈ entry.attributesField.head?, decide (c ≠ colon) = false := fun c hc => by
    rw [entry.head?_attributesField c hc]
    rfl
  refine ⟨?_, dropWhile_run hname hstop⟩
  rw [text, List.takeWhile_append_of_pos hname]
  cases hfield : entry.attributesField with
  | nil => simp
  | cons c rest =>
    rw [List.takeWhile_cons_of_neg, List.append_nil]
    simpa using hstop c (by rw [hfield]; rfl)

theorem parseEntry_text : parseEntry entry.text = entry.report := by
  obtain ⟨hname, hattributes⟩ := entry.takeWhile_text
  have hmem : colon ∈ entry.text ↔ entry.attributes.isSome = true := by
    rw [text, List.mem_append, attributesField]
    cases entry.attributes with
    | none =>
      simp only [List.not_mem_nil, or_false, Option.isSome_none, Bool.false_eq_true, iff_false]
      exact fun hmem => (entry.nameField_plain _ hmem).2.1 rfl
    | some attributes => simp
  rw [parseEntry, hname, hattributes, nameField, strim_spaces _ _ entry.trimmed, report]
  cases hsome : entry.attributes with
  | none => simp [hmem, hsome]
  | some attributes =>
    simp only [hmem, hsome, Option.isSome_some, if_true, attributesField, List.drop_one,
      List.tail_cons, strim_spaces _ _ attributes.trimmed, Option.map_some]

end ListEntry

theorem listText_induction {P : List ListEntry → Str → Prop} (empty : P [] [])
    (last : ∀ entry, P [entry] entry.text)
    (more : ∀ entry entries, entries ≠ [] → P entries (listText entries) →
      P (entry :: entries) (entry.text ++ comma :: listText entries)) :
    ∀ entries, P entries (listText entries) := by
  intro entries
  induction entries with
  | nil => exact empty
  | cons entry entries ih =>
    cases entries with
    | nil =>
      rw [listText, List.map_singleton, List.intercalate_singleton]
      exact last entry
    | cons next entries =>
      have := more entry (next :: entries) (List.cons_ne_nil _ _) ih
      rw [listText, List.map_cons, List.map_cons, List.intercalate_cons_cons, List.append_assoc,
        List.singleton_append]
      exact this

theorem envAttrWalk_last (entry : ListEntry) :
    envAttrWalk entry.text = entry.report.toList := by
  rw [envAttrWalk, splitEntries_last entry.comma_not_mem_text, List.filterMap_cons,
    entry.parseEntry_text]
  cases entry.report <;> rfl

theorem envAttrWalk_more (entry : ListEntry) (rest : Str) :
    envAttrWalk (entry.text ++ comma :: rest) = entry.report.toList ++ envAttrWalk rest := by
  rw [envAttrWalk, splitEntries_more entry.comma_not_mem_text, List.filterMap_cons,
    entry.parseEntry_text]
  cases entry.report <;> rfl

structure LookedUp (name : Str) : Prop extends PlainName name where
  space : space ∉ name

section Report

variable {name : Str} {entry : ListEntry} {entries : List (Str × Option Str)}

theorem lastOf_report_ne (hne : entry.name ≠ name) :
    lastOf name (entry.report.toList ++ entries) = lastOf name entries := by
  rw [ListEntry.report]
  split
  · rfl
  · rw [Option.toList_some, List.singleton_append, lastOf, if_neg hne, Option.or_none]

theorem lastOf_report_eq (hname : name ≠ []) (heq : entry.name = name) :
    lastOf name (entry.report.toList ++ entries) =
      (lastOf name entries).or (some (entry.attributes.map (·.text))) := by
  rw [ListEntry.report, if_neg (heq ▸ hname), Option.toList_some, List.singleton_append, lastOf,
    if_pos heq]

end Report

/-! ### Places where an entry is named -/

section Named

variable {list rest name : Str} {entry : ListEntry} {e : Nat}

/-- Nothing but spaces, back to the comma in front of them. -/
def OpensField (front : Str) : Prop := ∀ c ∈ (front.reverse.dropWhile (· = space)).head?, c = comma

/-- Nothing but spaces, up to the colon or comma behind them. -/
def ClosesField (back : Str) : Prop :=
  ∀ c ∈ (back.dropWhile (· = space)).head?, c = colon ∨ c = comma

theorem namedAt_iff (hname : name ≠ []) : NamedAt list name e ↔
    ∃ front back, list = front ++ (name ++ back) ∧ front.length = e ∧ OpensField front ∧
      ClosesField back := by
  constructor
  · rintro ⟨hocc, hfront, hend⟩
    have hle := occurs_lt hname hocc
    obtain ⟨back, hback⟩ := hocc
    refine ⟨list.take e, back, by rw [hback, List.take_append_drop], ?_, hfront, ?_⟩
    · rw [List.length_take, Nat.min_eq_left (by omega)]
    · rw [← List.drop_drop, ← hback, List.drop_left] at hend
      exact hend
  · rintro ⟨front, back, rfl, rfl, hfront, hback⟩
    refine ⟨?_, ?_, ?_⟩
    · rw [List.drop_left]
      exact List.prefix_append _ _
    · rw [List.take_left]
      exact hfront
    · rw [← List.drop_drop, List.drop_left, List.drop_left]
      exact hback

theorem OpensField.spaces (n : Nat) : OpensField (spaces n) := by
  intro c hc
  rw [Flags.spaces, List.reverse_replicate, List.dropWhile_eq_nil_iff.mpr] at hc
  · cases hc
  · intro c hc
    exact decide_eq_true (mem_spaces hc)

/-- A field without commas that opens in this way holds only spaces. -/
theorem OpensField.only_spaces {front : Str} (h : OpensField front) (hcomma : comma ∉ front) :
    ∀ c ∈ front, c = space := by
  rcases hdrop : front.reverse.dropWhile (· = space) with - | ⟨c, rest⟩
  · intro c hc
    simpa using List.dropWhile_eq_nil_iff.mp hdrop c (List.mem_reverse.mpr hc)
  · have hc := h c (by rw [hdrop]; rfl)
    have hmem : c ∈ front.reverse :=
      (List.dropWhile_sublist _).subset (hdrop ▸ List.mem_cons_self)
    exact absurd (hc ▸ List.mem_reverse.mp hmem) hcomma

/-- Only what is behind the last comma counts. -/
theorem opensField_comma (front rest : Str) :
    OpensField (front ++ comma :: rest) ↔ OpensField rest := by
  rw [OpensField, OpensField, List.reverse_append, List.reverse_cons, List.append_assoc,
    List.dropWhile_append]
  cases hdrop : rest.reverse.dropWhile (· = space) with
  | nil => simp [comma, space]
  | cons c more => simp

/-- A field does not open behind a colon. -/
theorem not_opensField_colon {front rest : Str} (hrest : comma ∉ rest) :
    ¬OpensField (front ++ colon :: rest) := by
  intro h
  rw [OpensField, List.reverse_append, List.reverse_cons, List.append_assoc,
    List.dropWhile_append] at h
  cases hdrop : rest.reverse.dropWhile (· = space) with
  | nil =>
    rw [hdrop] at h
    exact absurd (h colon (by simp [colon, space])) (by decide)
  | cons c more =>
    rw [hdrop] at h
    have hc := h c (by simp)
    have hmem : c ∈ rest.reverse :=
      (List.dropWhile_sublist _).subset (hdrop ▸ List.mem_cons_self)
    exact hrest (hc ▸ List.mem_reverse.mp hmem)

/-- What closes a field before the next colon or comma holds only spaces. -/
theorem ClosesField.only_spaces {back : Str} (h : ClosesField (back ++ rest))
    (hback : comma ∉ back ∧ colon ∉ back) : ∀ c ∈ back, c = space := by
  rcases hdrop : back.dropWhile (· = space) with - | ⟨c, more⟩
  · intro c hc
    simpa using List.dropWhile_eq_nil_iff.mp hdrop c hc
  · have hmem : c ∈ back := (List.dropWhile_sublist _).subset (hdrop ▸ List.mem_cons_self)
    rw [ClosesField, List.dropWhile_append, hdrop] at h
    rcases h c (by simp) with hc | hc
    · exact absurd (hc ▸ hmem) hback.2
    · exact absurd (hc ▸ hmem) hback.1

theorem closesField_spaces {back : Str} (hback : ∀ c ∈ back, c = space)
    (hrest : ∀ c ∈ rest.head?, c = colon ∨ c = comma) : ClosesField (back ++ rest) := by
  intro c hc
  rw [dropWhile_run (fun c hc => decide_eq_true (hback c hc))] at hc
  · exact hrest c hc
  · intro c hc
    rcases hrest c hc with rfl | rfl <;> rfl

/-- Where a name can be cut out of a text that goes on at a colon or comma. -/
theorem cut_name {field front back : Str} (hname : PlainName name)
    (hrest : ∀ c ∈ rest.head?, c = colon ∨ c = comma)
    (h : field ++ rest = front ++ (name ++ back)) :
    (∃ more, field = front ++ (name ++ more) ∧ back = more ++ rest) ∨
      ∃ more, front = field ++ more ∧ rest = more ++ (name ++ back) := by
  rcases List.append_eq_append_iff.mp h with ⟨more, hfront, hrest'⟩ | ⟨more, hfield, hname'⟩
  · exact Or.inr ⟨more, hfront, hrest'⟩
  · left
    rcases List.append_eq_append_iff.mp hname' with ⟨more', hmore, hback⟩ | ⟨cut, hcut, hrest'⟩
    · exact ⟨more', by rw [hfield, hmore], hback⟩
    · -- the name does not reach over the colon or comma
      cases cut with
      | nil =>
        rw [List.append_nil] at hcut
        exact ⟨[], by rw [hfield, hcut, List.append_nil], by simpa using hrest'.symm⟩
      | cons c cut =>
        have hmem : c ∈ name := hcut ▸ List.mem_append_right _ List.mem_cons_self
        rcases hrest c (by rw [hrest']; rfl) with rfl | rfl
        · exact absurd hmem hname.colon
        · exact absurd hmem hname.comma

/-- Text between spaces, cut out in two ways. -/
theorem trimmed_unique {front back front' back' : Str} (hname : LookedUp name) (htrim : Trimmed rest)
    (hfront : ∀ c ∈ front, c = space) (hback : ∀ c ∈ back, c = space)
    (hfront' : ∀ c ∈ front', c = space) (hback' : ∀ c ∈ back', c = space)
    (h : front ++ (name ++ back) = front' ++ (rest ++ back')) :
    rest = name ∧ front = front' := by
  have hspace : ∀ l : Str, (∀ c ∈ l, c = space) → ∀ c ∈ l, decide (c = space) = true :=
    fun l hl c hc => decide_eq_true (hl c hc)
  have hnot : ∀ c ∈ name, decide (c = space) = false := fun c hc =>
    decide_eq_false fun heq => hname.space (heq ▸ hc)
  have hnot' : ∀ c, c ∈ rest.head? ∨ c ∈ rest.getLast? → decide (c = space) = false := by
    intro c hc
    refine decide_eq_false ?_
    rintro rfl
    exact absurd (htrim space hc) (by decide)
  have hhead : (front ++ (name ++ back)).dropWhile (· = space) = name ++ back := by
    refine dropWhile_run (hspace front hfront) fun c hc => hnot c ?_
    obtain ⟨d, name, rfl⟩ := List.exists_cons_of_ne_nil hname.ne_nil
    exact Option.some.inj hc ▸ List.mem_cons_self
  rw [h] at hhead
  by_cases hrest : rest = []
  · -- nothing but spaces
    subst hrest
    rw [List.nil_append, ← List.append_nil (front' ++ back'), List.append_assoc,
      List.dropWhile_append_of_pos (hspace front' hfront'),
      List.dropWhile_append_of_pos (hspace back' hback')] at hhead
    exact absurd (List.append_eq_nil_iff.mp hhead.symm).1 hname.ne_nil
  · rw [dropWhile_run (hspace front' hfront')] at hhead
    · rw [hhead] at h
      refine ⟨?_, List.append_cancel_right h⟩
      have hrev := congrArg (fun l => l.reverse.dropWhile (· = space)) hhead
      simp only [List.reverse_append] at hrev
      rw [dropWhile_run, dropWhile_run] at hrev
      · exact List.reverse_inj.mp hrev
      · exact fun c hc => hspace back hback c (List.mem_reverse.mp hc)
      · exact fun c hc => hnot c (List.mem_reverse.mp (List.mem_of_mem_head? hc))
      · exact fun c hc => hspace back' hback' c (List.mem_reverse.mp hc)
      · intro c hc
        rw [List.head?_reverse] at hc
        exact hnot' c (Or.inr hc)
    · intro c hc
      obtain ⟨d, rest, rfl⟩ := List.exists_cons_of_ne_nil hrest
      exact hnot' c (Or.inl hc)

theorem namedAt_first (hname : LookedUp name) (tail : Str) (htail : ∀ c ∈ tail.head?, c = comma) :
    NamedAt (entry.text ++ tail) name e ∧ e ≤ entry.text.length ↔
      entry.name = name ∧ e = entry.front := by
  have hrest : ∀ c ∈ (entry.attributesField ++ tail).head?, c = colon ∨ c = comma := by
    intro c hc
    have hfield := entry.head?_attributesField
    cases hattributes : entry.attributesField with
    | nil =>
      rw [hattributes] at hc
      exact Or.inr (htail c hc)
    | cons d more =>
      rw [hattributes] at hc hfield
      exact Or.inl (hfield c hc)
  rw [namedAt_iff hname.ne_nil, ListEntry.text, List.append_assoc]
  constructor
  · rintro ⟨⟨front, back, hlist, rfl, hfront, hback⟩, hle⟩
    rcases cut_name hname.toPlainName hrest hlist with ⟨more, hfield, rfl⟩ | ⟨more, rfl, hfield⟩
    · have hplain := entry.nameField_plain
      have hmore : ∀ c ∈ more, c ∈ entry.nameField := fun c hc =>
        hfield ▸ List.mem_append_right _ (List.mem_append_right _ hc)
      have hspace := hfront.only_spaces fun hmem =>
        (hplain _ (hfield ▸ List.mem_append_left _ hmem)).1 rfl
      have hspace' := hback.only_spaces
        ⟨fun hmem => (hplain _ (hmore _ hmem)).1 rfl, fun hmem => (hplain _ (hmore _ hmem)).2.1 rfl⟩
      obtain ⟨heq, rfl⟩ := trimmed_unique hname entry.trimmed hspace hspace'
        (fun c => mem_spaces) (fun c => mem_spaces) hfield.symm
      exact ⟨heq, List.length_replicate⟩
    · -- in the attributes, a colon is in front of the name
      exfalso
      cases more with
      | nil =>
        obtain ⟨c, name, rfl⟩ := List.exists_cons_of_ne_nil hname.ne_nil
        rcases hrest c (by rw [hfield]; rfl) with rfl | rfl
        · exact hname.colon List.mem_cons_self
        · exact hname.comma List.mem_cons_self
      | cons c more =>
        have hlen : (c :: more).length ≤ entry.attributesField.length := by
          rw [List.length_append, List.length_append] at hle
          exact Nat.le_of_add_le_add_left hle
        have hin : c :: more <+: entry.attributesField :=
          List.prefix_of_prefix_length_le (by rw [hfield]; exact List.prefix_append _ _)
            (List.prefix_append _ tail) hlen
        obtain ⟨more', hmore'⟩ := hin
        have hcolon : c = colon := entry.head?_attributesField c (by rw [← hmore']; rfl)
        subst hcolon
        refine not_opensField_colon (fun hmem => ?_) hfront
        exact (entry.attributesField_plain comma (hmore' ▸ by simp [hmem])).1 rfl
  · rintro ⟨rfl, rfl⟩
    refine ⟨⟨spaces entry.front, spaces entry.back ++ (entry.attributesField ++ tail), ?_,
      List.length_replicate, OpensField.spaces _,
      closesField_spaces (fun c => mem_spaces) hrest⟩, ?_⟩
    · simp [ListEntry.nameField]
    · simp only [ListEntry.nameField, List.length_append, spaces, List.length_replicate]
      omega

theorem namedAt_shift (text : Str) {e' : Nat} :
    NamedAt (text ++ comma :: rest) name (text.length + 1 + e') ↔ NamedAt rest name e' := by
  have hdrop : ∀ n, (text ++ comma :: rest).drop (text.length + 1 + n) = rest.drop n := by
    intro n
    rw [Nat.add_assoc, ← List.drop_drop, List.drop_left, Nat.add_comm, List.drop_succ_cons]
  have htake : (text ++ comma :: rest).take (text.length + 1 + e') =
      text ++ comma :: rest.take e' := by
    rw [Nat.add_assoc, List.take_length_add_append, Nat.add_comm, List.take_succ_cons]
  have hfront := opensField_comma text (rest.take e')
  rw [← htake] at hfront
  constructor
  · rintro ⟨hocc, hopen, hclose⟩
    rw [hdrop] at hocc
    rw [Nat.add_assoc, hdrop] at hclose
    exact ⟨hocc, hfront.mp hopen, hclose⟩
  · rintro ⟨hocc, hopen, hclose⟩
    refine ⟨by rwa [hdrop], hfront.mpr hopen, by rwa [Nat.add_assoc, hdrop]⟩

theorem namedAt_more (hname : LookedUp name) :
    NamedAt (entry.text ++ comma :: rest) name e ↔
      (entry.name = name ∧ e = entry.front) ∨
        ∃ e', e = entry.text.length + 1 + e' ∧ NamedAt rest name e' := by
  have hfirst := @namedAt_first name entry e hname (comma :: rest)
    (fun c hc => (Option.some.inj hc).symm)
  constructor
  · intro h
    rcases Nat.lt_or_ge entry.text.length e with hlt | hle
    · obtain ⟨e', rfl⟩ := Nat.exists_eq_add_of_le (Nat.succ_le_of_lt hlt)
      exact Or.inr ⟨e', rfl, (namedAt_shift entry.text).mp h⟩
    · exact Or.inl (hfirst.mp ⟨h, hle⟩)
  · rintro (h | ⟨e', rfl, h⟩)
    · exact (hfirst.mpr h).1
    · exact (namedAt_shift entry.text).mpr h

theorem namedAt_last (hname : LookedUp name) :
    NamedAt entry.text name e ↔ entry.name = name ∧ e = entry.front := by
  have hfirst := @namedAt_first name entry e hname [] (fun c hc => by cases hc)
  rw [List.append_nil] at hfirst
  rw [← hfirst, iff_self_and]
  intro h
  have := occurs_lt hname.ne_nil h.occurs
  omega

/-- The attributes behind the name of the first entry. -/
theorem attributesAt_entry (entry : ListEntry) (tail : Str)
    (htail : ∀ c ∈ tail.head?, c = comma) :
    attributesAt (entry.text ++ tail) entry.name entry.front =
      (entry.attributes.map (·.text)).getD [] := by
  have hspaces : ∀ n, ∀ c ∈ spaces n, decide (c = space) = true := fun n c hc =>
    decide_eq_true (mem_spaces hc)
  have htail' : ∀ c ∈ tail.head?, decide (c = space) = false := by
    intro c hc
    rw [htail c hc]
    rfl
  have hdrop : (entry.text ++ tail).drop (entry.front + entry.name.length) =
      spaces entry.back ++ (entry.attributesField ++ tail) := by
    have hlen : entry.front + entry.name.length =
        (spaces entry.front ++ entry.name).length := by
      rw [List.length_append, spaces, List.length_replicate]
    rw [hlen, ListEntry.text, ListEntry.nameField, ← List.append_assoc, List.append_assoc,
      List.append_assoc, List.drop_left]
  have hnext : (spaces entry.back ++ (entry.attributesField ++ tail)).dropWhile (· = space) =
      entry.attributesField ++ tail := by
    refine dropWhile_run (hspaces _) ?_
    intro c hc
    have hcolon := entry.head?_attributesField
    cases hfield : entry.attributesField with
    | nil => exact htail' c (by rwa [hfield] at hc)
    | cons d more =>
      rw [hfield] at hc hcolon
      rw [hcolon c hc]
      rfl
  rw [attributesAt, hdrop, hnext, ListEntry.attributesField]
  cases entry.attributes with
  | none =>
    cases tail with
    | nil => rfl
    | cons c tail =>
      obtain rfl : c = comma := htail c rfl
      rfl
  | some attributes =>
    have htext : ∀ c ∈ attributes.text, c ≠ comma ∧ c ≠ space := by
      intro c hc
      refine ⟨(attributes.plain c hc).1, ?_⟩
      rintro rfl
      exact absurd (attributes.plain _ hc).2.2.1 (by decide)
    have hend : tail.takeWhile (fun c => decide (c ≠ comma ∧ c ≠ space)) = [] := by
      cases tail with
      | nil => rfl
      | cons c tail =>
        obtain rfl : c = comma := htail c rfl
        rfl
    have hstop : (spaces attributes.back ++ tail).takeWhile
        (fun c => decide (c ≠ comma ∧ c ≠ space)) = [] := by
      cases attributes.back with
      | zero => exact hend
      | succ n => rfl
    have hvalue : (((spaces attributes.front ++ (attributes.text ++ spaces attributes.back)) ++
        tail).dropWhile (· = space)).takeWhile (fun c => decide (c ≠ comma ∧ c ≠ space)) =
          attributes.text := by
      rw [List.append_assoc, List.append_assoc,
        List.dropWhile_append_of_pos (hspaces attributes.front)]
      cases hempty : attributes.text with
      | nil => rw [List.nil_append, dropWhile_run (hspaces _) htail', hend]
      | cons c more =>
        rw [hempty] at htext
        rw [List.cons_append, List.dropWhile_cons_of_neg, ← List.cons_append,
          List.takeWhile_append_of_pos, hstop, List.append_nil]
        · exact fun c hc => decide_eq_true (htext c hc)
        · simpa using (htext c List.mem_cons_self).2
    exact hvalue

/-! ### Both ways to read a list -/

/-- The last entry that the walk reports for a name stands at the last place where an
entry is named so. -/
theorem lastOf_listText (hname : LookedUp name) (entries : List ListEntry) :
    (lastOf name (envAttrWalk (listText entries)) = none ∧
        ∀ e, ¬NamedAt (listText entries) name e) ∨
      ∃ attributes e, lastOf name (envAttrWalk (listText entries)) = some attributes ∧
        NamedAt (listText entries) name e ∧
        attributesAt (listText entries) name e = attributes.getD [] ∧
        ∀ e', NamedAt (listText entries) name e' → e' ≤ e := by
  apply listText_induction (P := fun _ list =>
    (lastOf name (envAttrWalk list) = none ∧ ∀ e, ¬NamedAt list name e) ∨
      ∃ attributes e, lastOf name (envAttrWalk list) = some attributes ∧ NamedAt list name e ∧
        attributesAt list name e = attributes.getD [] ∧ ∀ e', NamedAt list name e' → e' ≤ e)
  case empty =>
    refine Or.inl ⟨rfl, fun e h => hname.ne_nil ?_⟩
    have := h.occurs
    rw [List.drop_nil] at this
    exact List.prefix_nil.mp this
  case last =>
    intro entry
    have hwalk : envAttrWalk entry.text = entry.report.toList ++ [] := by
      rw [envAttrWalk_last, List.append_nil]
    by_cases heq : entry.name = name
    · have hattributes := attributesAt_entry entry [] (fun c hc => by cases hc)
      rw [List.append_nil, heq] at hattributes
      refine Or.inr ⟨_, entry.front, ?_, (namedAt_last hname).mpr ⟨heq, rfl⟩, hattributes,
        fun e' he' => ((namedAt_last hname).mp he').2.le⟩
      rw [hwalk, lastOf_report_eq hname.ne_nil heq]
      rfl
    · refine Or.inl ⟨by rw [hwalk, lastOf_report_ne heq]; rfl, fun e he => ?_⟩
      exact heq ((namedAt_last hname).mp he).1
  case more =>
    intro entry entries _ ih
    rcases ih with ⟨hnone, hall⟩ | ⟨attributes, e, hsome, hat, hattr, hmax⟩
    · by_cases heq : entry.name = name
      · have hattributes := attributesAt_entry entry (comma :: listText entries)
          (fun c hc => (Option.some.inj hc).symm)
        rw [heq] at hattributes
        refine Or.inr ⟨_, entry.front, ?_, (namedAt_more hname).mpr (Or.inl ⟨heq, rfl⟩),
          hattributes, fun e' he' => ?_⟩
        · rw [envAttrWalk_more, lastOf_report_eq hname.ne_nil heq, hnone]
          rfl
        · rcases (namedAt_more hname).mp he' with ⟨-, h0⟩ | ⟨e'', -, hat⟩
          · exact h0.le
          · exact absurd hat (hall e'')
      · refine Or.inl ⟨by rw [envAttrWalk_more, lastOf_report_ne heq, hnone], fun e he => ?_⟩
        rcases (namedAt_more hname).mp he with ⟨h, -⟩ | ⟨e', -, hat⟩
        · exact heq h
        · exact hall e' hat
    · refine Or.inr ⟨attributes, entry.text.length + 1 + e, ?_,
        (namedAt_more hname).mpr (Or.inr ⟨e, rfl, hat⟩), ?_, fun e' he' => ?_⟩
      · rw [envAttrWalk_more]
        by_cases heq : entry.name = name
        · rw [lastOf_report_eq hname.ne_nil heq, hsome]
          rfl
        · rw [lastOf_report_ne heq, hsome]
      · rw [attributesAt_more, hattr]
      · rcases (namedAt_more hname).mp he' with ⟨-, h0⟩ | ⟨e'', rfl, hat'⟩
        · have : entry.front ≤ entry.text.length := by
            simp only [ListEntry.text, ListEntry.nameField, List.length_append, spaces,
              List.length_replicate]
            omega
          omega
        · have := hmax e'' hat'
          omega

/-- Some entry has the name, when one is named somewhere. -/
theorem exists_namedAt_iff (hname : LookedUp name) (entries : List ListEntry) :
    (∃ e, NamedAt (listText entries) name e) ↔ ∃ x ∈ entries, x.name = name := by
  apply listText_induction (P := fun entries list =>
    (∃ e, NamedAt list name e) ↔ ∃ x ∈ entries, x.name = name)
  case empty =>
    refine iff_of_false (fun ⟨e, h⟩ => hname.ne_nil ?_) (by simp)
    have := h.occurs
    rw [List.drop_nil] at this
    exact List.prefix_nil.mp this
  case last =>
    intro entry
    simp only [namedAt_last hname, exists_and_left, exists_eq, and_true, List.mem_singleton,
      exists_eq_left]
  case more =>
    intro entry entries _ ih
    simp only [List.mem_cons, exists_eq_or_imp, ← ih]
    constructor
    · rintro ⟨e, he⟩
      rcases (namedAt_more hname).mp he with ⟨h, -⟩ | ⟨e', -, h⟩
      · exact Or.inl h
      · exact Or.inr ⟨e', h⟩
    · rintro (h | ⟨e', h⟩)
      · exact ⟨entry.front, (namedAt_more hname).mpr (Or.inl ⟨h, rfl⟩)⟩
      · exact ⟨_, (namedAt_more hname).mpr (Or.inr ⟨e', rfl, h⟩)⟩

/-- A name with only spaces in front of it is in front of every other place, and of
every byte that is not a space. -/
theorem not_spaces_of_lt {k : Nat} (hname : LookedUp name) (hocc : name <+: list.drop k)
    (hlt : k < e) : ¬∀ c ∈ list.take e, c = space := by
  intro hall
  obtain ⟨c, more, hc⟩ := List.exists_cons_of_ne_nil hname.ne_nil
  obtain ⟨tail, htail⟩ := hocc
  have hget : list[k]? = some c := by
    have := congrArg (·[0]?) htail
    rw [hc] at this
    simpa [List.getElem?_drop] using this.symm
  have hmem : c ∈ list.take e := by
    apply List.mem_of_getElem?
    rw [List.getElem?_take_of_lt hlt]
    exact hget
  exact hname.space (hall c hmem ▸ hc ▸ List.mem_cons_self)

/-- Entries behind the first one are named behind the spaces that the list starts with. -/
theorem later_iff {k : Nat} (hname : LookedUp name) (entries : List ListEntry)
    (hocc : name <+: (listText entries).drop k)
    (hspaces : ∀ c ∈ (listText entries).take k, c = space) :
    (∃ x ∈ entries.tail, x.name = name) ↔ ∃ e, k < e ∧ NamedAt (listText entries) name e := by
  -- the first entry is named at `k`, or not at all
  have hfirst : ∀ (entry : ListEntry) (tail : Str), name <+: (entry.text ++ tail).drop k →
      ¬k < entry.front := by
    intro entry tail hocc hlt
    refine not_spaces_of_lt (e := entry.front) hname hocc hlt fun c hc => ?_
    rw [ListEntry.text, ListEntry.nameField, List.append_assoc, List.append_assoc] at hc
    rw [List.take_left' (by rw [spaces, List.length_replicate])] at hc
    exact mem_spaces hc
  revert hocc hspaces
  apply listText_induction (P := fun entries list => name <+: list.drop k →
    (∀ c ∈ list.take k, c = space) →
      ((∃ x ∈ entries.tail, x.name = name) ↔ ∃ e, k < e ∧ NamedAt list name e))
  case empty =>
    intro hocc
    rw [List.drop_nil] at hocc
    exact absurd (List.prefix_nil.mp hocc) hname.ne_nil
  case last =>
    intro entry hocc _
    rw [← List.append_nil entry.text] at hocc
    refine iff_of_false (by simp) ?_
    rintro ⟨e, hlt, he⟩
    rw [(namedAt_last hname).mp he |>.2] at hlt
    exact hfirst entry [] hocc hlt
  case more =>
    intro entry entries _ _ hocc hspaces
    rw [List.tail_cons, ← exists_namedAt_iff hname]
    constructor
    · rintro ⟨e', he'⟩
      refine ⟨_, ?_, (namedAt_more hname).mpr (Or.inr ⟨e', rfl, he'⟩)⟩
      by_contra hge
      -- the comma is no space
      have hmem : comma ∈ (entry.text ++ comma :: listText entries).take k := by
        apply List.mem_of_getElem?
        rw [List.getElem?_take_of_lt (show entry.text.length < k by omega),
          List.getElem?_append_right (Nat.le_refl _), Nat.sub_self]
        rfl
      exact absurd (hspaces comma hmem) (by decide)
    · rintro ⟨e, hlt, he⟩
      rcases (namedAt_more hname).mp he with ⟨-, rfl⟩ | ⟨e', -, he'⟩
      · exact absurd hlt (hfirst entry _ hocc)
      · exact ⟨e', he'⟩

end Named

/-! ### The loop of the lookup -/

section Loop

variable {before : UInt8} {list name : Str}

theorem matchesAt_iff_named (hnul : 0 ∉ list) {e : Nat} (hocc : name <+: list.drop e) :
    matchesAt before list name e = true ↔
      NamedAt list name e ∧ (e = 0 ∨ ((∀ c ∈ list.take e, c = space) → before = comma)) := by
  have hfront : (e = 0 ∨ ((list.take e).reverse.dropWhile (· = space)).headD before = comma) ↔
      (∀ c ∈ ((list.take e).reverse.dropWhile (· = space)).head?, c = comma) ∧
        (e = 0 ∨ ((∀ c ∈ list.take e, c = space) → before = comma)) := by
    rcases hdrop : (list.take e).reverse.dropWhile (· = space) with - | ⟨c, more⟩
    · have hall : ∀ c ∈ list.take e, c = space := by
        intro c hc
        simpa using List.dropWhile_eq_nil_iff.mp hdrop c (List.mem_reverse.mpr hc)
      have hbefore : ((∀ c ∈ list.take e, c = space) → before = comma) ↔ before = comma :=
        ⟨fun h => h hall, fun h _ => h⟩
      simp [hbefore]
    · have hmem : c ∈ (list.take e).reverse :=
        (List.dropWhile_sublist _).subset (hdrop ▸ List.mem_cons_self)
      have hc := List.head?_dropWhile_not (· = space) (list.take e).reverse
      rw [hdrop] at hc
      have hnot : ¬∀ c ∈ list.take e, c = space := fun hall =>
        absurd (hall c (List.mem_reverse.mp hmem)) (by simpa using hc)
      have hpos : e ≠ 0 := by
        rintro rfl
        simp at hmem
      simp [hnot, hpos]
  have hback : (((list.drop (e + name.length)).dropWhile (· = space)).headD 0 = colon ∨
      ((list.drop (e + name.length)).dropWhile (· = space)).headD 0 = comma ∨
        ((list.drop (e + name.length)).dropWhile (· = space)).headD 0 = 0) ↔
      ∀ c ∈ ((list.drop (e + name.length)).dropWhile (· = space)).head?,
        c = colon ∨ c = comma := by
    rcases hdrop : (list.drop (e + name.length)).dropWhile (· = space) with - | ⟨c, more⟩
    · simp
    · have hmem : c ∈ list := List.mem_of_mem_drop
        ((List.dropWhile_sublist _).subset (hdrop ▸ List.mem_cons_self))
      have hc : c ≠ 0 := fun h0 => hnul (h0 ▸ hmem)
      simp [hc]
  simp only [matchesAt, decide_eq_true_eq, hfront, hback]
  constructor
  · rintro ⟨⟨hopen, hbefore⟩, hclose⟩
    exact ⟨⟨hocc, hopen, hclose⟩, hbefore⟩
  · rintro ⟨⟨-, hopen, hclose⟩, hbefore⟩
    exact ⟨⟨hopen, hbefore⟩, hclose⟩

/-- Two places of the name overlap only if no entry is named at the first one. -/
theorem NamedAt.ends_before (hname : LookedUp name) {e e' : Nat} (h : NamedAt list name e)
    (hocc : name <+: list.drop e') (hlt : e < e') : e + name.length ≤ e' := by
  by_contra hover
  obtain ⟨tail, htail⟩ := hocc
  have hin : e + name.length - e' < name.length := by omega
  have hget : (name ++ tail)[e + name.length - e']? = name[e + name.length - e']? :=
    List.getElem?_append_left hin
  rw [htail, List.getElem?_drop, Nat.add_sub_cancel' (by omega), List.getElem?_eq_getElem hin]
    at hget
  -- the byte behind the first place belongs to the second one
  have hmem : name[e + name.length - e'] ∈ name := List.getElem_mem _
  generalize name[e + name.length - e'] = c at hget hmem
  have hspace : c ≠ space := fun hc => hname.space (hc ▸ hmem)
  obtain ⟨more, hmore⟩ : ∃ more, list.drop (e + name.length) = c :: more := by
    rw [← List.head?_drop] at hget
    exact List.head?_eq_some_iff.mp hget
  have hback := h.back c (by rw [hmore, List.dropWhile_cons_of_neg (by simpa using hspace)]; rfl)
  rcases hback with hc | hc
  · exact hname.colon (hc ▸ hmem)
  · exact hname.comma (hc ▸ hmem)

/-- The places gone back over are places of the name, and no place where an entry is
named is passed over. -/
theorem backFrom_spec (hname : LookedUp name) :
    ∀ fuel entry, (∀ e, entry = some e → name <+: list.drop e ∧ e < fuel) →
      (∀ e ∈ backFrom list name fuel entry, name <+: list.drop e) ∧
        ∀ m, entry = some m → ∀ e, NamedAt list name e → e ≤ m →
          e ∈ backFrom list name fuel entry := by
  intro fuel
  induction fuel with
  | zero =>
    intro entry hin
    cases entry with
    | none => exact ⟨by simp [backFrom], by simp⟩
    | some e => exact absurd (hin e rfl).2 (Nat.not_lt_zero _)
  | succ fuel ih =>
    intro entry hin
    cases entry with
    | none => exact ⟨by simp [backFrom], by simp⟩
    | some m =>
      obtain ⟨hocc, hfuel⟩ := hin m rfl
      have hpos : 0 < name.length := List.length_pos_iff.mpr hname.ne_nil
      have hcases := @reverseStrstr_cases list name hname.ne_nil (some m)
      obtain ⟨hall, hnamed⟩ := ih (reverseStrstr list name (some m)) (by
        intro e he
        rcases hcases with ⟨hnone, -⟩ | ⟨r, hsome, hr, -⟩
        · rw [hnone] at he
          cases he
        · obtain rfl : r = e := Option.some.inj (hsome.symm.trans he)
          have := hr.2 m rfl
          exact ⟨hr.1, by omega⟩)
      refine ⟨?_, ?_⟩
      · intro e he
        rcases List.mem_cons.mp he with rfl | he
        · exact hocc
        · exact hall e he
      · rintro _ ⟨⟩ e he hle
        rcases Nat.eq_or_lt_of_le hle with rfl | hlt
        · exact List.mem_cons_self
        · have hbefore : Occurs list name (some m) e := by
            refine ⟨he.occurs, ?_⟩
            rintro s ⟨⟩
            exact he.ends_before hname hocc hlt
          rcases hcases with ⟨-, hnone⟩ | ⟨r, hsome, -, hlast⟩
          · exact absurd hbefore (hnone e)
          · exact List.mem_cons_of_mem _ (hnamed r hsome e he (hlast e hbefore))

theorem reverseStrstr_lt (hname : name ≠ []) {m r : Nat}
    (h : reverseStrstr list name (some m) = some r) : r < m := by
  have hpos : 0 < name.length := List.length_pos_iff.mpr hname
  rcases @reverseStrstr_cases list name hname (some m) with ⟨hnone, -⟩ | ⟨r', hsome, hr, -⟩
  · rw [hnone] at h
    cases h
  · obtain rfl : r' = r := Option.some.inj (hsome.symm.trans h)
    have := hr.2 m rfl
    omega

theorem backFrom_le (hname : name ≠ []) :
    ∀ fuel m, ∀ e ∈ backFrom list name fuel (some m), e ≤ m := by
  intro fuel
  induction fuel with
  | zero => simp [backFrom]
  | succ fuel ih =>
    intro m e he
    rcases List.mem_cons.mp he with rfl | he
    · exact Nat.le_refl _
    · cases hnext : reverseStrstr list name (some m) with
      | none =>
        rw [hnext, backFrom.eq_def] at he
        cases fuel <;> cases he
      | some r =>
        rw [hnext] at he
        exact (ih r e he).trans (reverseStrstr_lt hname hnext).le

theorem examined_subset (before : UInt8) :
    ∀ fuel entry, ∀ e ∈ examined before list name fuel entry, e ∈ backFrom list name fuel entry := by
  intro fuel
  induction fuel with
  | zero =>
    intro entry e he
    cases entry <;> cases he
  | succ fuel ih =>
    intro entry e he
    cases entry with
    | none => cases he
    | some m =>
      rw [examined] at he
      rcases List.mem_cons.mp he with rfl | he
      · exact List.mem_cons_self
      · split at he
        · cases he
        · exact List.mem_cons_of_mem _ (ih _ e he)

/-- The loop goes back until it finds a place that matches. -/
theorem lookupLoop_examined (before : UInt8) (list : Str) (hname : name ≠ []) :
    ∀ fuel entry, (∀ e, entry = some e → e < fuel) →
      (∃ m, lookupLoop before list name fuel entry = some m ∧
          matchesAt before list name m = true ∧ m ∈ backFrom list name fuel entry ∧
          (∀ e ∈ examined before list name fuel entry, m ≤ e) ∧
          ∀ e ∈ backFrom list name fuel entry,
            (m ≤ e → e ∈ examined before list name fuel entry) ∧
              (m < e → matchesAt before list name e = false)) ∨
        (lookupLoop before list name fuel entry = none ∧
          examined before list name fuel entry = backFrom list name fuel entry ∧
          ∀ e ∈ backFrom list name fuel entry, matchesAt before list name e = false) := by
  intro fuel
  induction fuel with
  | zero =>
    intro entry hin
    cases entry with
    | none => exact Or.inr ⟨rfl, rfl, by simp [backFrom]⟩
    | some e => exact absurd (hin e rfl) (Nat.not_lt_zero _)
  | succ fuel ih =>
    intro entry hin
    cases entry with
    | none => exact Or.inr ⟨rfl, rfl, by simp [backFrom]⟩
    | some m =>
      rw [lookupLoop, examined, backFrom]
      by_cases hmatch : matchesAt before list name m = true
      · rw [if_pos hmatch, if_pos hmatch]
        refine Or.inl ⟨m, rfl, hmatch, List.mem_cons_self, by simp, fun e he => ?_⟩
        have hle := backFrom_le hname (fuel + 1) m e he
        exact ⟨fun hge => List.mem_singleton.mpr (Nat.le_antisymm hle hge),
          fun hlt => absurd hle (Nat.not_le.mpr hlt)⟩
      · rw [if_neg hmatch, if_neg hmatch]
        rw [Bool.not_eq_true] at hmatch
        have hlt := fun e he => @reverseStrstr_lt list name hname m e he
        rcases ih (reverseStrstr list name (some m)) (fun e he => by
          have := hlt e he
          have := hin m rfl
          omega) with ⟨m', hloop, hmatch', hmem, hleast, hback⟩ | ⟨hloop, hsame, hback⟩
        · have hless : m' < m := by
            cases hnext : reverseStrstr list name (some m) with
            | none =>
              rw [hnext, backFrom.eq_def] at hmem
              cases fuel <;> cases hmem
            | some r =>
              rw [hnext] at hmem
              exact Nat.lt_of_le_of_lt (backFrom_le hname fuel r m' hmem) (hlt r hnext)
          refine Or.inl ⟨m', hloop, hmatch', List.mem_cons_of_mem _ hmem, ?_, ?_⟩
          · intro e he
            rcases List.mem_cons.mp he with rfl | he
            · exact hless.le
            · exact hleast e he
          · intro e he
            rcases List.mem_cons.mp he with rfl | he
            · exact ⟨fun _ => List.mem_cons_self, fun _ => hmatch⟩
            · exact ⟨fun hge => List.mem_cons_of_mem _ ((hback e he).1 hge), (hback e he).2⟩
        · refine Or.inr ⟨hloop, by rw [hsame], fun e he => ?_⟩
          rcases List.mem_cons.mp he with rfl | he
          · exact hmatch
          · exact hback e he

end Loop

/-! ### Lookup and walk -/

theorem nul_not_mem_listText (entries : List ListEntry) : 0 ∉ listText entries := by
  apply listText_induction (P := fun _ list => 0 ∉ list)
  case empty => exact List.not_mem_nil
  case last =>
    intro entry hmem
    rcases List.mem_append.mp hmem with hmem | hmem
    · exact (entry.nameField_plain 0 hmem).2.2 rfl
    · exact (entry.attributesField_plain 0 hmem).2 rfl
  case more =>
    intro entry entries _ ih hmem
    rcases List.mem_append.mp hmem with hmem | hmem
    · rcases List.mem_append.mp hmem with hmem | hmem
      · exact (entry.nameField_plain 0 hmem).2.2 rfl
      · exact (entry.attributesField_plain 0 hmem).2 rfl
    · rcases List.mem_cons.mp hmem with hc | hmem
      · exact absurd hc (by decide)
      · exact ih hmem

/-- The lookup agrees with the walk and stays in the list, exactly when an entry behind
the first one has the name, or no place of the name that one comes to from behind has
only spaces in front of it. -/
theorem lookup_agrees_iff (before : UInt8) (entries : List ListEntry) (name : Str)
    (hplain : comma ∉ name ∧ colon ∉ name ∧ space ∉ name) :
    LookupAgrees before (listText entries) name ↔
      name ≠ [] ∧ ((∃ x ∈ entries.tail, x.name = name) ∨ ¬ReachesFront (listText entries) name) := by
  by_cases hne : name = []
  · -- the search for nothing ends at the start of the list
    subst hne
    refine iff_of_false (fun h => h.inside ⟨0, ?_, by simp⟩) (by simp)
    exact List.mem_cons_self
  have hname : LookedUp name := ⟨⟨hne, hplain.1, hplain.2.1⟩, hplain.2.2⟩
  have hnul := nul_not_mem_listText entries
  have hlater := fun k => @later_iff name k hname entries
  have hlast := lastOf_listText hname entries
  generalize listText entries = list at hnul hlater hlast ⊢
  have hstart : ∀ e, reverseStrstr list name none = some e →
      name <+: list.drop e ∧ e < list.length + 1 := by
    intro e he
    rcases @reverseStrstr_cases list name hne none with ⟨hnone, -⟩ | ⟨r, hsome, hr, -⟩
    · rw [hnone] at he
      cases he
    · obtain rfl : r = e := Option.some.inj (hsome.symm.trans he)
      have := occurs_lt hne hr.1
      exact ⟨hr.1, by omega⟩
  obtain ⟨hocc, hnamed⟩ := backFrom_spec hname (list.length + 1) (reverseStrstr list name none) hstart
  -- every place where an entry is named is gone back over
  have hchain : ∀ e, NamedAt list name e →
      e ∈ backFrom list name (list.length + 1) (reverseStrstr list name none) := by
    intro e he
    have hoccurs : Occurs list name none e := ⟨he.occurs, fun s hs => by cases hs⟩
    rcases @reverseStrstr_cases list name hne none with ⟨-, hnone⟩ | ⟨r, hsome, -, hmax⟩
    · exact absurd hoccurs (hnone e)
    · exact hnamed r hsome e he (hmax e hoccurs)
  have hexamined := lookupLoop_examined before list hne (list.length + 1)
    (reverseStrstr list name none) fun e he => (hstart e he).2
  have hmatches : ∀ {k e}, name <+: list.drop k → k < e → NamedAt list name e →
      matchesAt before list name e = true := by
    intro k e hocc hlt he
    exact (matchesAt_iff_named hnul he.occurs).mpr
      ⟨he, Or.inr fun hall => absurd hall (not_spaces_of_lt hname hocc hlt)⟩
  constructor
  · intro h
    refine ⟨hne, ?_⟩
    by_contra hcon
    rw [not_or, not_not] at hcon
    obtain ⟨hnot, k, hk, hspaces⟩ := hcon
    refine h.inside ⟨k, ?_, hspaces⟩
    rcases hexamined with ⟨m, -, hm, hmem, -, hback⟩ | ⟨-, hsame, -⟩
    · refine (hback k hk).1 (Nat.not_lt.mp fun hlt => hnot ?_)
      exact (hlater k (hocc k hk) hspaces).mpr
        ⟨m, hlt, ((matchesAt_iff_named hnul (hocc m hmem)).mp hm).1⟩
    · exact hsame ▸ hk
  · rintro ⟨-, hcond⟩
    have hinside : ¬ReadsBefore before list name := by
      rintro ⟨e, he, hspaces⟩
      have hback := examined_subset before _ _ e he
      have hafter := hcond.resolve_right (not_not.mpr ⟨e, hback, hspaces⟩)
      obtain ⟨e', hlt, hat⟩ := (hlater e (hocc e hback) hspaces).mp hafter
      have hm := hmatches (hocc e hback) hlt hat
      rcases hexamined with ⟨m, -, -, -, hleast, hall⟩ | ⟨-, -, hall⟩
      · rw [(hall e' (hchain e' hat)).2 (Nat.lt_of_le_of_lt (hleast e he) hlt)] at hm
        cases hm
      · rw [hall e' (hchain e' hat)] at hm
        cases hm
    refine ⟨?_, hinside⟩
    rw [envAttrLookup]
    rcases hexamined with ⟨m, hloop, hm, hmem, -, hall⟩ | ⟨hloop, hsame, hall⟩
    · have hat := ((matchesAt_iff_named hnul (hocc m hmem)).mp hm).1
      have hgreatest : ∀ e, NamedAt list name e → e ≤ m := by
        intro e he
        by_contra hlt
        have hm' := hmatches (hocc m hmem) (Nat.not_le.mp hlt) he
        rw [(hall e (hchain e he)).2 (Nat.not_le.mp hlt)] at hm'
        cases hm'
      rcases hlast with ⟨-, hnone⟩ | ⟨attributes, e, hsome, he, hattributes, hmax⟩
      · exact absurd hat (hnone m)
      · rw [hloop, hsome, Nat.le_antisymm (hmax m hat) (hgreatest e he), Option.map_some,
          Option.map_some, hattributes]
    · rcases hlast with ⟨hnone, -⟩ | ⟨attributes, e, -, he, -, -⟩
      · rw [hloop, hnone]
        rfl
      · -- the first entry has the name, and is not found because of the spaces
        exfalso
        refine hinside ⟨e, hsame ▸ hchain e he, ?_⟩
        by_contra hspaces
        have hm : matchesAt before list name e = true :=
          (matchesAt_iff_named hnul he.occurs).mpr ⟨he, Or.inr fun hall => absurd hall hspaces⟩
        rw [hall e (hchain e he)] at hm
        cases hm

/-- An entry of one letter without attributes, with a space in front. -/
def letterEntry (c : UInt8) (h : c ≠ comma ∧ c ≠ colon ∧ c ≠ 0) (hspace : isspace c = false) :
    ListEntry where
  front := 1
  name := [c]
  back := 0
  attributes := none
  plain := by simpa using h
  trimmed := by
    intro d hd
    simp only [List.head?_cons, List.getLast?_singleton, or_self, Option.mem_def,
      Option.some.injEq] at hd
    exact hd ▸ hspace

def entryA : ListEntry := letterEntry 97 (by decide) (by decide)
def entryB : ListEntry := letterEntry 98 (by decide) (by decide)

/-- The second entry of ` a, b`. -/
theorem lookup_agrees_second : LookupAgrees 0 (listText [entryA, entryB]) [98] :=
  (lookup_agrees_iff 0 [entryA, entryB] [98] (by decide)).mpr
    ⟨by decide, Or.inl ⟨entryB, by simp, rfl⟩⟩

/-- The only entry of ` a` is not found, unless a comma stands in memory in front of the
list. -/
theorem lookup_misses_first :
    ¬∀ (before : UInt8) (entries : List ListEntry) (name : Str), name ≠ [] →
      comma ∉ name ∧ colon ∉ name ∧ space ∉ name →
        LookupAgrees before (listText entries) name := by
  intro h
  have hresult := (h 0 [entryA] [97] (by decide) (by decide)).result
  exact absurd hresult (by decide)

end UBoot.Env.Flags
