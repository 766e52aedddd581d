import Mathlib.Data.List.TakeWhile
import UBoot.HashTable.Parse

/-!
# The text of an import

The parser of `himport_r` does not look at the table, so an import is the list of
entries found in the text, applied one after another. Only the turns of the loop
are checked against the size of the buffer: within a turn the parser runs on to
the next NUL or separator, in the buffer or behind it. `Terminated` describes the
texts that it does not leave.
-/

namespace UBoot.HashTable

/-- The loop of `himport_r` without the table: the entries it finds. An entry
with a value but no name ends the import. -/
def parseLoop (sep : UInt8) (size : Nat) : Nat → List UInt8 → Nat → Option (List Parsed)
  | 0, _, _ => none
  | fuel + 1, data, dp => do
    let (data, dp, parsed) ← parseEntry sep data dp
    match parsed with
    | .noName => return [.noName]
    | parsed =>
      if dp < size then
        if (← data[dp]?) ≠ 0 then return parsed :: (← parseLoop sep size fuel data dp)
        else return [parsed]
      else return [parsed]

/-- The entries that the import finds in the buffer it has copied. -/
def importText (env : List UInt8) (sep : UInt8) (crlfIsLf : Bool) : Option (List Parsed) :=
  let (data, ignored) := if crlfIsLf then removeCrs env.length env 0 0 else (env, 0)
  parseLoop sep (env.length - ignored) (env.length + 1) data 0

/-- The entries applied to the table. -/
def applyAll (ctx : Context) (flag : Nat) (htab : HsearchData) (vars : List (Option Str)) :
    List Parsed → Option Imported
  | [] => some (.ok htab vars)
  | parsed :: rest => do
    match ← applyParsed ctx flag htab vars parsed with
    | none => return .failed htab
    | some (htab, vars) => applyAll ctx flag htab vars rest

/-- The test at the end of a turn. -/
def goesOn (size : Nat) (data : List UInt8) (dp : Nat) : Option Bool :=
  if dp < size then data[dp]?.map (· ≠ 0) else some false

section Loop

variable {sep : UInt8} {size dp dp' : Nat} {data data' : List UInt8} {parsed : Parsed}

theorem parseLoop_noName (fuel : Nat)
    (hparse : parseEntry sep data dp = some (data', dp', .noName)) :
    parseLoop sep size (fuel + 1) data dp = some [.noName] := by
  rw [parseLoop, hparse]
  rfl

theorem parseLoop_turn (fuel : Nat)
    (hparse : parseEntry sep data dp = some (data', dp', parsed)) (hname : parsed ≠ .noName) :
    parseLoop sep size (fuel + 1) data dp =
      (goesOn size data' dp').bind fun more =>
        if more then (parseLoop sep size fuel data' dp').map (parsed :: ·) else some [parsed] := by
  rw [parseLoop, hparse, goesOn]
  cases parsed with
  | noName => exact absurd rfl hname
  | _ =>
    simp only [Option.bind_eq_bind, Option.bind_some, Option.pure_def]
    by_cases hlt : dp' < size
    · rw [if_pos hlt, if_pos hlt]
      cases data'[dp']? with
      | none => rfl
      | some c =>
        by_cases hc : c = 0
        · simp [hc]
        · simp only [hc, Option.bind_some, Option.map_some, ne_eq, not_false_eq_true,
            decide_true, if_true]
          cases parseLoop sep size fuel data' dp' <;> rfl
    · rw [if_neg hlt, if_neg hlt]
      rfl

/-- Only an entry without a name ends the import. -/
theorem applyParsed_cases (ctx : Context) (flag : Nat) (htab : HsearchData)
    (vars : List (Option Str)) (hname : parsed ≠ .noName) :
    applyParsed ctx flag htab vars parsed = none ∨
      ∃ htab' vars', applyParsed ctx flag htab vars parsed = some (some (htab', vars')) := by
  cases parsed with
  | comment => exact .inr ⟨htab, vars, rfl⟩
  | noName => exact absurd rfl hname
  | delete name =>
    simp only [applyParsed]
    split
    · cases hdeleteR ctx name htab flag with
      | none => exact .inl rfl
      | some r => exact .inr ⟨_, _, rfl⟩
    · exact .inr ⟨_, _, rfl⟩
  | enter name value =>
    simp only [applyParsed]
    split
    · cases hsearchR ctx name (some value) .enter htab flag with
      | none => exact .inl rfl
      | some r => exact .inr ⟨_, _, rfl⟩
    · exact .inr ⟨_, _, rfl⟩

variable {ctx : Context} {flag : Nat} {htab htab' : HsearchData} {vars vars' : List (Option Str)}

theorem importLoop_noName (fuel : Nat)
    (hparse : parseEntry sep data dp = some (data', dp', .noName)) :
    importLoop ctx sep flag size (fuel + 1) htab vars data dp = some (.failed htab) := by
  rw [importLoop, hparse]
  rfl

theorem importLoop_stuck (fuel : Nat) (hparse : parseEntry sep data dp = some (data', dp', parsed))
    (happly : applyParsed ctx flag htab vars parsed = none) :
    importLoop ctx sep flag size (fuel + 1) htab vars data dp = none := by
  simp only [importLoop, hparse, Option.bind_eq_bind, Option.bind_some, happly, Option.bind_none]

theorem importLoop_applied (fuel : Nat)
    (hparse : parseEntry sep data dp = some (data', dp', parsed))
    (happly : applyParsed ctx flag htab vars parsed = some (some (htab', vars'))) :
    importLoop ctx sep flag size (fuel + 1) htab vars data dp =
      (goesOn size data' dp').bind fun more =>
        if more then importLoop ctx sep flag size fuel htab' vars' data' dp'
        else some (.ok htab' vars') := by
  simp only [importLoop, hparse, Option.bind_eq_bind, Option.bind_some, happly, goesOn,
    Option.pure_def]
  by_cases hlt : dp' < size
  · rw [if_pos hlt, if_pos hlt]
    cases data'[dp']? with
    | none => rfl
    | some c => by_cases hc : c = 0 <;> simp [hc]
  · rw [if_neg hlt, if_neg hlt]
    rfl

theorem applyAll_stuck (rest : List Parsed)
    (happly : applyParsed ctx flag htab vars parsed = none) :
    applyAll ctx flag htab vars (parsed :: rest) = none := by
  rw [applyAll, happly]
  rfl

theorem applyAll_applied (rest : List Parsed)
    (happly : applyParsed ctx flag htab vars parsed = some (some (htab', vars'))) :
    applyAll ctx flag htab vars (parsed :: rest) = applyAll ctx flag htab' vars' rest := by
  rw [applyAll, happly]
  rfl

end Loop

theorem importLoop_eq (ctx : Context) (sep : UInt8) (flag size : Nat) :
    ∀ (fuel : Nat) (htab : HsearchData) (vars : List (Option Str)) (data : List UInt8) (dp : Nat),
      importLoop ctx sep flag size fuel htab vars data dp =
        (parseLoop sep size fuel data dp).bind (applyAll ctx flag htab vars) := by
  intro fuel
  induction fuel with
  | zero => intro htab vars data dp; rfl
  | succ fuel ih =>
    intro htab vars data dp
    cases hparse : parseEntry sep data dp with
    | none => simp only [importLoop, parseLoop, hparse, Option.bind_eq_bind, Option.bind_none]
    | some turn =>
      obtain ⟨data', dp', parsed⟩ := turn
      by_cases hname : parsed = .noName
      · subst hname
        rw [importLoop_noName fuel hparse, parseLoop_noName fuel hparse]
        rfl
      · rw [parseLoop_turn fuel hparse hname]
        rcases applyParsed_cases ctx flag htab vars hname with hstuck | ⟨htab', vars', happly⟩
        · rw [importLoop_stuck fuel hparse hstuck]
          have hall := fun rest => @applyAll_stuck parsed ctx flag htab vars rest hstuck
          cases goesOn size data' dp' with
          | none => rfl
          | some more =>
            cases more with
            | false => exact (hall []).symm
            | true =>
              cases parseLoop sep size fuel data' dp' with
              | none => simp
              | some rest => simp [hall]
        · rw [importLoop_applied fuel hparse happly]
          have hall := fun rest => applyAll_applied rest happly
          cases goesOn size data' dp' with
          | none => rfl
          | some more =>
            cases more with
            | false => exact (hall []).symm
            | true =>
              simp only [Option.bind_some, if_true, ih]
              cases parseLoop sep size fuel data' dp' with
              | none => rfl
              | some rest => exact (hall rest).symm

/-- An import with a table to go on with: its text, applied to the table. -/
theorem himportR_eq {ctx : Context} {htab : HsearchData} {env : List UInt8} {sep : UInt8}
    {flag : Nat} {crlfIsLf : Bool} {vars : List Str} (hflag : flag &&& H_NOCLEAR ≠ 0)
    (hactive : htab.active = true) (hne : env ≠ []) :
    himportR ctx htab env sep flag crlfIsLf vars true true =
      (importText env sep crlfIsLf).bind fun entries =>
        (applyAll ctx flag htab (vars.map some) entries).bind fun
          | .failed htab => some (0, htab)
          | .ok htab vars => (deleteRest ctx flag htab vars).map (1, ·) := by
  have hsize : env.length ≠ 0 := by simpa using hne
  rw [himportR]
  simp only [Bool.not_true, Bool.false_eq_true, if_false, hflag, hactive, if_true,
    Option.bind_eq_bind, Option.bind_some, Nat.one_ne_zero, hsize, importLoop_eq, Option.pure_def,
    importText]
  cases parseLoop sep _ (env.length + 1) _ 0 with
  | none => rfl
  | some entries =>
    simp only [Option.bind_some]
    cases applyAll ctx flag htab (vars.map some) entries with
    | none => rfl
    | some imported =>
      cases imported with
      | failed htab => rfl
      | ok htab vars =>
        simp only [Option.bind_some]
        cases deleteRest ctx flag htab vars <;> rfl

/-! ### Texts that end in the buffer -/

/-- What is left behind a value, when it ends: at a NUL, or at a separator that no
backslash precedes. -/
def afterValue (sep : UInt8) : List UInt8 → Option (List UInt8)
  | [] => none
  | c :: rest =>
    if c = 0 ∨ c = sep then some rest
    else if c = chBackslash then
      match rest with
      | [] => none
      | d :: rest => if d = 0 then some rest else afterValue sep rest
    else afterValue sep rest

section AfterValue

variable {sep c d : UInt8} {rest : List UInt8}

theorem afterValue_end (h : c = 0 ∨ c = sep) : afterValue sep (c :: rest) = some rest := by
  rw [afterValue.eq_def]
  exact if_pos h

theorem afterValue_plain (h : ¬(c = 0 ∨ c = sep)) (hc : c ≠ chBackslash) :
    afterValue sep (c :: rest) = afterValue sep rest := by
  rw [afterValue.eq_def]
  dsimp only
  rw [if_neg h, if_neg hc]

theorem afterValue_backslash (h : ¬(chBackslash = 0 ∨ chBackslash = sep)) :
    afterValue sep [chBackslash] = none := by
  rw [afterValue.eq_def]
  dsimp only
  rw [if_neg h, if_pos rfl]

theorem afterValue_escaped (h : ¬(chBackslash = 0 ∨ chBackslash = sep)) :
    afterValue sep (chBackslash :: d :: rest) =
      if d = 0 then some rest else afterValue sep rest := by
  rw [afterValue.eq_def]
  dsimp only
  rw [if_neg h, if_pos rfl]

end AfterValue

def nameByte (sep c : UInt8) : Bool := c ≠ chEquals ∧ c ≠ 0 ∧ c ≠ sep

/-- What is left behind an entry, from the end of its name on, and whether it has a
value but no name. A name that ends at a separator or at `=` is followed by another
byte of the buffer. -/
def afterName (sep : UInt8) (nameless : Bool) : List UInt8 → Option (List UInt8 × Bool)
  | [] => none
  | [c] => if c = 0 then some ([], false) else none
  | c :: d :: rest =>
    if c = 0 ∨ c ≠ chEquals then some (d :: rest, false)
    else if d = 0 ∨ d = sep ∨ sep = chEquals then some (rest, false)
    else (afterValue sep (d :: rest)).map (·, nameless)

/-- What is left behind an entry, when the text has a whole one. -/
def afterEntry (sep : UInt8) (text : List UInt8) : Option (List UInt8 × Bool) :=
  match text.dropWhile fun c => c = chSpace ∨ c = chTab with
  | [] => none
  | c :: rest =>
    if c = chHash then
      match (c :: rest).dropWhile fun c => c ≠ 0 ∧ c ≠ sep with
      | [] => none
      | _ :: rest => some (rest, false)
    else afterName sep (c = chEquals) ((c :: rest).dropWhile (nameByte sep))

/-- The buffer is made up of whole entries, up to one that is followed by a NUL,
reaches the last `beyond` bytes, or has a value but no name. -/
inductive Terminated (sep : UInt8) (beyond : Nat) : List UInt8 → Prop
  | last {text rest : List UInt8} {nameless : Bool} (entry : afterEntry sep text = some (rest, nameless))
      (stop : nameless = true ∨ rest.length ≤ beyond ∨ rest.head? = some 0) :
      Terminated sep beyond text
  | next {text rest : List UInt8} (entry : afterEntry sep text = some (rest, false))
      (more : Terminated sep beyond rest) : Terminated sep beyond text

/-! ### One turn of the parser -/

/-- A scan stops at the first byte that does not pass. -/
theorem scanWhile_eq (p : UInt8 → Bool) (front text : List UInt8) :
    scanWhile p (front ++ text) front.length =
      if text.dropWhile p = [] then none
      else some (front.length + (text.takeWhile p).length) := by
  rcases hdrop : text.dropWhile p with - | ⟨c, rest⟩
  · have hall : ∀ c ∈ text, p c = true := by
      simpa using List.dropWhile_eq_nil_iff.mp hdrop
    rw [if_pos rfl, scanWhile, List.drop_left, List.findIdx?_eq_none_iff.mpr (by simpa using hall)]
    rfl
  · have hstop : p c = false := by
      have := List.head?_dropWhile_not p text
      rw [hdrop] at this
      simpa using this
    rw [if_neg (by simp)]
    have := scanWhile_append (p := p) front (text.takeWhile p) c rest
      (fun x hx => List.mem_takeWhile_imp hx) hstop
    rwa [← hdrop, List.takeWhile_append_dropWhile] at this

/-- What the loop over a value does from a position on: the value moves to the end of
`front`, and the rest of the buffer stays as it is. -/
def ValueRead (sep : UInt8) (fuel : Nat) (front junk text : List UInt8) : Prop :=
  (afterValue sep text = none ∧
    valueLoop sep fuel (front ++ (junk ++ text)) front.length (front.length + junk.length) =
      none) ∨
  ∃ rest value junk' stop, afterValue sep text = some rest ∧
    value.length + junk'.length + 1 + rest.length = junk.length + text.length ∧
    valueLoop sep fuel (front ++ (junk ++ text)) front.length (front.length + junk.length) =
      some (front ++ (value ++ (junk' ++ stop :: rest)), front.length + value.length,
        front.length + value.length + junk'.length)

/-- A turn that moves the byte `x`, for the bytes `code` that stand for it. -/
theorem ValueRead.turn {sep : UInt8} {fuel : Nat} {front junk code text : List UInt8} (x : UInt8)
    (hcode : code ≠ [])
    (h : ValueRead sep fuel (front ++ [x]) (junk ++ code).tail text)
    (hafter : afterValue sep (code ++ text) = afterValue sep text)
    (hloop : valueLoop sep (fuel + 1) (front ++ (junk ++ (code ++ text))) front.length
        (front.length + junk.length) =
      valueLoop sep fuel ((front ++ [x]) ++ ((junk ++ code).tail ++ text)) (front ++ [x]).length
        ((front ++ [x]).length + (junk ++ code).tail.length)) :
    ValueRead sep (fuel + 1) front junk (code ++ text) := by
  have hpos : 0 < code.length := List.length_pos_iff.mpr hcode
  rcases h with ⟨hnone, hout⟩ | ⟨rest, value, junk', stop, hsome, hlen, hread⟩
  · exact .inl ⟨hafter.trans hnone, hloop.trans hout⟩
  · refine .inr ⟨rest, x :: value, junk', stop, hafter.trans hsome, ?_, ?_⟩
    · simp only [List.length_tail, List.length_append, List.length_cons] at hlen ⊢
      omega
    · rw [hloop, hread]
      simp only [List.append_assoc, List.cons_append, List.nil_append, List.length_append,
        List.length_cons, List.length_nil]
      congr 3 <;> omega

section ValueLoop

variable {sep c d : UInt8} {fuel : Nat} {front junk code text : List UInt8}

theorem getElem?_code (front junk code tail : List UInt8) (y : UInt8) :
    (front ++ (junk ++ (code ++ y :: tail)))[front.length + junk.length + code.length]? =
      some y := by
  rw [← List.append_assoc, ← List.append_assoc, ← List.length_append, ← List.length_append]
  exact getElem?_front ..

theorem putByte_code (hcode : code ≠ []) (y : UInt8) :
    putByte (front ++ (junk ++ (code ++ text))) front.length y =
      some ((front ++ [y]) ++ ((junk ++ code).tail ++ text)) := by
  rw [← List.append_assoc junk]
  exact putByte_head front (junk ++ code) text y (by simp [hcode])

theorem length_code (hcode : code ≠ []) (y : UInt8) :
    front.length + junk.length + code.length =
      (front ++ [y]).length + (junk ++ code).tail.length := by
  have hpos := List.length_pos_iff.mpr hcode
  simp only [List.length_append, List.length_cons, List.length_nil, List.length_tail]
  omega

theorem valueLoop_plain (hgo : c ≠ 0 ∧ c ≠ sep) (hbs : c ≠ chBackslash) :
    valueLoop sep (fuel + 1) (front ++ (junk ++ ([c] ++ text))) front.length
        (front.length + junk.length) =
      valueLoop sep fuel ((front ++ [c]) ++ ((junk ++ [c]).tail ++ text)) (front ++ [c]).length
        ((front ++ [c]).length + (junk ++ [c]).tail.length) := by
  have hc := getElem?_code front junk [] text c
  rw [List.nil_append, List.length_nil, Nat.add_zero] at hc
  rw [valueLoop, List.singleton_append, hc]
  simp only [Option.bind_eq_bind, Option.bind_some, if_pos hgo, if_neg hbs, ne_eq,
    not_true_eq_false, if_false, hc]
  rw [← List.singleton_append, putByte_code (List.cons_ne_nil c []), Option.bind_some,
    ← length_code (List.cons_ne_nil c [])]
  simp

/-- A backslash in front of a NUL stands for itself. -/
theorem valueLoop_backslash (hgo : chBackslash ≠ 0 ∧ chBackslash ≠ sep) :
    valueLoop sep (fuel + 1) (front ++ (junk ++ ([chBackslash] ++ 0 :: text))) front.length
        (front.length + junk.length) =
      valueLoop sep fuel ((front ++ [chBackslash]) ++ ((junk ++ [chBackslash]).tail ++ 0 :: text))
        (front ++ [chBackslash]).length
        ((front ++ [chBackslash]).length + (junk ++ [chBackslash]).tail.length) := by
  have hc := getElem?_code front junk [] (0 :: text) chBackslash
  rw [List.nil_append, List.length_nil, Nat.add_zero] at hc
  have hd := getElem?_code front junk [chBackslash] text 0
  rw [List.singleton_append, List.length_singleton] at hd
  rw [valueLoop, List.singleton_append, hc]
  simp only [Option.bind_eq_bind, Option.bind_some, if_pos hgo, if_true, hd, ne_eq,
    not_true_eq_false, if_false, hc]
  rw [← List.singleton_append, putByte_code (List.cons_ne_nil chBackslash []), Option.bind_some,
    ← length_code (List.cons_ne_nil chBackslash [])]
  simp

theorem valueLoop_escaped (hgo : chBackslash ≠ 0 ∧ chBackslash ≠ sep) (h0 : d ≠ 0) :
    valueLoop sep (fuel + 1) (front ++ (junk ++ ([chBackslash, d] ++ text))) front.length
        (front.length + junk.length) =
      valueLoop sep fuel ((front ++ [d]) ++ ((junk ++ [chBackslash, d]).tail ++ text))
        (front ++ [d]).length
        ((front ++ [d]).length + (junk ++ [chBackslash, d]).tail.length) := by
  have hc := getElem?_code front junk [] (d :: text) chBackslash
  rw [List.nil_append, List.length_nil, Nat.add_zero] at hc
  have hd := getElem?_code front junk [chBackslash] text d
  rw [List.singleton_append, List.length_singleton] at hd
  have hput : putByte (front ++ (junk ++ chBackslash :: d :: text)) front.length d = _ :=
    putByte_code (List.cons_ne_nil chBackslash [d]) d
  rw [valueLoop, List.cons_append, List.singleton_append, hc]
  simp only [Option.bind_eq_bind, Option.bind_some, if_pos hgo, if_true, hd, ne_eq, h0,
    not_false_eq_true]
  rw [hput, Option.bind_some, ← length_code (List.cons_ne_nil chBackslash [d])]
  simp

end ValueLoop

theorem valueRead (sep : UInt8) : ∀ (fuel : Nat) (text front junk : List UInt8),
    text.length < fuel → ValueRead sep fuel front junk text := by
  intro fuel
  induction fuel with
  | zero => intro text front junk h; omega
  | succ fuel ih =>
    intro text front junk hfuel
    cases text with
    | nil => exact .inl ⟨rfl, by simp [valueLoop]⟩
    | cons c text =>
      have hc := getElem?_code front junk [] text c
      rw [List.nil_append, List.length_nil, Nat.add_zero] at hc
      rw [List.length_cons] at hfuel
      by_cases hend : c = 0 ∨ c = sep
      · refine .inr ⟨text, [], junk, c, afterValue_end hend, ?_, ?_⟩
        · simp only [List.length_nil, List.length_cons]
          omega
        · rw [valueLoop, hc]
          simp only [Option.bind_eq_bind, Option.bind_some]
          rw [if_neg (by rintro ⟨h0, hs⟩; exact hend.elim h0 hs)]
          rfl
      · have hgo : c ≠ 0 ∧ c ≠ sep := not_or.mp hend
        by_cases hbs : c = chBackslash
        · subst hbs
          cases text with
          | nil =>
            refine .inl ⟨afterValue_backslash hend, ?_⟩
            rw [valueLoop, hc]
            simp only [Option.bind_eq_bind, Option.bind_some, if_pos hgo, if_true]
            rw [List.getElem?_eq_none (by simp; omega), Option.bind_none]
          | cons d text =>
            by_cases h0 : d = 0
            · subst h0
              have hafter : afterValue sep ([chBackslash] ++ 0 :: text) =
                  afterValue sep (0 :: text) := by
                rw [List.singleton_append, afterValue_escaped hend, if_pos rfl,
                  afterValue_end (.inl rfl)]
              exact ValueRead.turn chBackslash (List.cons_ne_nil _ [])
                (ih (0 :: text) _ _ (by omega)) hafter (valueLoop_backslash hgo)
            · have hafter : afterValue sep ([chBackslash, d] ++ text) = afterValue sep text := by
                rw [List.cons_append, List.singleton_append, afterValue_escaped hend, if_neg h0]
              rw [List.length_cons] at hfuel
              exact ValueRead.turn d (List.cons_ne_nil _ [d]) (ih text _ _ (by omega)) hafter
                (valueLoop_escaped hgo h0)
        · have hafter : afterValue sep ([c] ++ text) = afterValue sep text := by
            rw [List.singleton_append, afterValue_plain hend hbs]
          exact ValueRead.turn c (List.cons_ne_nil c []) (ih text _ _ (by omega)) hafter
            (valueLoop_plain hgo hbs)

/-- What one turn of the parser does from a position on. -/
def EntryRead (sep : UInt8) (front text : List UInt8) : Prop :=
  (afterEntry sep text = none ∧ parseEntry sep (front ++ text) front.length = none) ∨
  ∃ rest nameless front' parsed, afterEntry sep text = some (rest, nameless) ∧
    rest.length < text.length ∧ front'.length + rest.length = front.length + text.length ∧
    (nameless = true ↔ parsed = .noName) ∧
    parseEntry sep (front ++ text) front.length = some (front' ++ rest, front'.length, parsed)

section Turn

variable {sep c : UInt8} {front text rest : List UInt8}

theorem dropWhile_not {p : UInt8 → Bool} (h : text.dropWhile p = c :: rest) : p c = false := by
  have := List.head?_dropWhile_not p text
  rw [h] at this
  simpa using this

theorem dropWhile_of_not {p : UInt8 → Bool} (h : p c = false) :
    (c :: rest).dropWhile p = c :: rest := by
  rw [List.dropWhile_cons, h]
  rfl

theorem takeWhile_of_not {p : UInt8 → Bool} (h : p c = false) : (c :: rest).takeWhile p = [] := by
  rw [List.takeWhile_cons, h]
  rfl

theorem parseEntry_skip
    (h : (text.dropWhile fun c => c = chSpace ∨ c = chTab) = c :: rest) :
    parseEntry sep (front ++ text) front.length =
      parseEntry sep ((front ++ text.takeWhile fun c => c = chSpace ∨ c = chTab) ++ c :: rest)
        (front ++ text.takeWhile fun c => c = chSpace ∨ c = chTab).length := by
  have hc := dropWhile_not h
  have htext : front ++ text =
      (front ++ text.takeWhile fun c => c = chSpace ∨ c = chTab) ++ c :: rest := by
    rw [← h, List.append_assoc, List.takeWhile_append_dropWhile]
  have hfirst : scanWhile (fun c => c = chSpace ∨ c = chTab) (front ++ text) front.length =
      some (front ++ text.takeWhile fun c => c = chSpace ∨ c = chTab).length := by
    rw [scanWhile_eq, if_neg (by rw [h]; simp), List.length_append]
  have hagain : scanWhile (fun c => c = chSpace ∨ c = chTab)
      ((front ++ text.takeWhile fun c => c = chSpace ∨ c = chTab) ++ c :: rest)
        (front ++ text.takeWhile fun c => c = chSpace ∨ c = chTab).length =
      some (front ++ text.takeWhile fun c => c = chSpace ∨ c = chTab).length := by
    rw [scanWhile_eq, if_neg (by rw [dropWhile_of_not hc]; simp), takeWhile_of_not hc,
      List.length_nil, Nat.add_zero]
  rw [parseEntry, parseEntry, hagain, hfirst, htext]

/-- Such blanks do not matter for what is left. -/
theorem EntryRead.skip (h : (text.dropWhile fun c => c = chSpace ∨ c = chTab) = c :: rest)
    (hread : EntryRead sep (front ++ text.takeWhile fun c => c = chSpace ∨ c = chTab)
      (c :: rest)) : EntryRead sep front text := by
  have hafter : afterEntry sep text = afterEntry sep (c :: rest) := by
    rw [afterEntry, afterEntry, h, dropWhile_of_not (dropWhile_not h)]
  have hlen : (text.takeWhile fun c => c = chSpace ∨ c = chTab).length + (c :: rest).length =
      text.length := by
    rw [← h, ← List.length_append, List.takeWhile_append_dropWhile]
  rw [EntryRead, hafter, parseEntry_skip h]
  rcases hread with hnone | ⟨rest', nameless, front', parsed, hsome, hlt, hsum, hname, hparse⟩
  · exact .inl hnone
  · rw [List.length_append] at hsum
    exact .inr ⟨rest', nameless, front', parsed, hsome, by omega, by omega, hname, hparse⟩

/-- A comment reaches to the next NUL or separator. -/
theorem entryRead_comment (front rest : List UInt8) : EntryRead sep front (chHash :: rest) := by
  have hblank : scanWhile (fun c => c = chSpace ∨ c = chTab) (front ++ chHash :: rest)
      front.length = some front.length := by
    rw [scanWhile_eq, dropWhile_of_not (by decide), takeWhile_of_not (by decide)]
    simp
  have hafter : afterEntry sep (chHash :: rest) =
      match (chHash :: rest).dropWhile fun c => c ≠ 0 ∧ c ≠ sep with
      | [] => none
      | _ :: rest => some (rest, false) := by
    rw [afterEntry, dropWhile_of_not (by decide)]
    exact if_pos rfl
  have hparse : parseEntry sep (front ++ chHash :: rest) front.length =
      (scanWhile (fun c => c ≠ 0 ∧ c ≠ sep) (front ++ chHash :: rest) front.length).bind fun dp =>
        some (front ++ chHash :: rest, dp + 1, .comment) := by
    rw [parseEntry, hblank]
    simp only [Option.bind_eq_bind, Option.bind_some, getElem?_front, if_true]
    rfl
  rw [EntryRead, hafter, hparse, scanWhile_eq]
  have happ := List.takeWhile_append_dropWhile (p := fun c => c ≠ 0 ∧ c ≠ sep) (l := chHash :: rest)
  rcases hdrop : (chHash :: rest).dropWhile (fun c => c ≠ 0 ∧ c ≠ sep) with - | ⟨t, tail⟩
  · exact .inl ⟨rfl, rfl⟩
  · rw [hdrop] at happ
    refine .inr ⟨tail, false, front ++ ((chHash :: rest).takeWhile fun c => c ≠ 0 ∧ c ≠ sep) ++ [t],
      .comment, rfl, ?_, ?_, by simp, ?_⟩
    · have := congrArg List.length happ
      rw [List.length_append, List.length_cons] at this
      omega
    · have := congrArg List.length happ
      rw [List.length_append, List.length_cons] at this
      simp only [List.length_append, List.length_singleton]
      omega
    · rw [if_neg (by simp), Option.bind_some]
      have happ' : front ++ chHash :: rest =
          front ++ ((chHash :: rest).takeWhile fun c => c ≠ 0 ∧ c ≠ sep) ++ [t] ++ tail := by
        rw [List.append_assoc, List.append_assoc, List.singleton_append, happ]
      rw [happ']
      simp only [List.length_append, List.length_singleton, Nat.add_assoc]

/-- There is a string wherever a NUL follows. -/
theorem exists_stringAt (front xs tail : List UInt8) :
    ∃ str, stringAt (front ++ (xs ++ 0 :: tail)) front.length = some str := by
  have hne : (xs ++ 0 :: tail).dropWhile (fun c => decide (c ≠ 0)) ≠ [] := by
    rw [Ne, List.dropWhile_eq_nil_iff]
    exact fun h => absurd (h 0 (by simp)) (by decide)
  exact ⟨_, by rw [stringAt, scanWhile_eq, if_neg hne]; rfl⟩

/-- A name that ends at `c`, and that neither a blank nor `#` starts. -/
structure NameEnd (sep c : UInt8) (name tail : List UInt8) : Prop where
  bytes : ∀ x ∈ name, nameByte sep x = true
  stop : nameByte sep c = false
  blank : ∀ x ∈ (name ++ c :: tail).head?, decide (x = chSpace ∨ x = chTab) = false
  hash : ∀ x ∈ (name ++ c :: tail).head?, x ≠ chHash

section Name

variable {name tail : List UInt8}

theorem NameEnd.takeWhile_eq (h : NameEnd sep c name tail) :
    (name ++ c :: tail).takeWhile (nameByte sep) = name := by
  rw [List.takeWhile_append_of_pos h.bytes, takeWhile_of_not h.stop, List.append_nil]

theorem NameEnd.dropWhile_eq (h : NameEnd sep c name tail) :
    (name ++ c :: tail).dropWhile (nameByte sep) = c :: tail := by
  rw [List.dropWhile_append_of_pos h.bytes, dropWhile_of_not h.stop]

/-- The name is read back, whatever is behind its NUL. -/
theorem NameEnd.stringAt_eq (h : NameEnd sep c name tail) (text : List UInt8) :
    stringAt ((front ++ name ++ [0]) ++ text) front.length = some name := by
  have hnul : 0 ∉ name := fun h0 => by simpa [nameByte] using h.bytes 0 h0
  simpa [List.append_assoc] using stringAt_append front name text hnul

theorem NameEnd.afterEntry_eq (h : NameEnd sep c name tail) :
    ∃ nameless, (c = chEquals → (nameless = true ↔ name = [])) ∧
      afterEntry sep (name ++ c :: tail) = afterName sep nameless (c :: tail) := by
  obtain ⟨first, rest, heq⟩ := List.exists_cons_of_ne_nil (show name ++ c :: tail ≠ [] by simp)
  have hfirst : first ∈ (name ++ c :: tail).head? := by rw [heq]; rfl
  refine ⟨decide (first = chEquals), ?_, ?_⟩
  · rintro rfl
    rw [decide_eq_true_iff]
    constructor
    · rintro rfl
      rw [← h.takeWhile_eq, heq]
      exact takeWhile_of_not (by simp [nameByte])
    · rintro rfl
      rw [List.nil_append, List.cons.injEq] at heq
      exact heq.1.symm
  · have hblank := h.blank first hfirst
    rw [heq, afterEntry, dropWhile_of_not hblank, ← h.dropWhile_eq, heq]
    exact if_neg (h.hash _ hfirst)

/-- The turn from the end of the name on. -/
theorem NameEnd.parseEntry_eq (h : NameEnd sep c name tail) :
    parseEntry sep (front ++ (name ++ c :: tail)) front.length =
      (if c = 0 then some 0 else tail.head?).bind fun next =>
        if c = 0 ∨ next = 0 ∨ c = sep ∨ next = sep then
          (if c = chEquals then
              putByte ((front ++ name ++ [0]) ++ tail) (front ++ name ++ [0]).length 0
            else some ((front ++ name ++ [0]) ++ tail)).bind fun data =>
              (stringAt data front.length).bind fun text => some (data,
                (if c = chEquals then front.length + name.length + 1
                  else front.length + name.length) + 1, .delete text)
        else
          (valueLoop sep (((front ++ name ++ [0]) ++ tail).length + 1)
              ((front ++ name ++ [0]) ++ tail) (front ++ name ++ [0]).length
              (front ++ name ++ [0]).length).bind fun found =>
            (putByte found.1 found.2.1 0).bind fun data =>
              (stringAt data front.length).bind fun text =>
                if text = [] then some (data, found.2.2 + 1, .noName)
                else (stringAt data (front ++ name ++ [0]).length).bind fun value =>
                  some (data, found.2.2 + 1, .enter text value) := by
  have hstart : scanWhile (fun c => c = chSpace ∨ c = chTab) (front ++ (name ++ c :: tail))
      front.length = some front.length := by
    obtain ⟨first, rest, heq⟩ := List.exists_cons_of_ne_nil (show name ++ c :: tail ≠ [] by simp)
    have hblank := h.blank first (by rw [heq]; rfl)
    rw [scanWhile_eq, heq, dropWhile_of_not hblank, takeWhile_of_not hblank]
    simp
  have hfirst : ∃ first, (front ++ (name ++ c :: tail))[front.length]? = some first ∧
      first ≠ chHash := by
    obtain ⟨first, rest, heq⟩ := List.exists_cons_of_ne_nil (show name ++ c :: tail ≠ [] by simp)
    exact ⟨first, by rw [heq, getElem?_front], h.hash first (by rw [heq]; rfl)⟩
  have hend : scanWhile (fun c => c ≠ chEquals ∧ c ≠ 0 ∧ c ≠ sep) (front ++ (name ++ c :: tail))
      front.length = some (front.length + name.length) := by
    have := scanWhile_eq (nameByte sep) front (name ++ c :: tail)
    rw [h.dropWhile_eq, if_neg (List.cons_ne_nil _ _), h.takeWhile_eq] at this
    exact this
  have hget : (front ++ (name ++ c :: tail))[front.length + name.length]? = some c := by
    rw [← List.append_assoc, ← List.length_append]
    exact getElem?_front ..
  have hnext : (front ++ (name ++ c :: tail))[front.length + name.length + 1]? = tail.head? := by
    rw [← List.append_assoc, ← List.length_append, List.getElem?_append_right (by omega)]
    simp [List.head?_eq_getElem?]
  have hput : putByte (front ++ (name ++ c :: tail)) (front.length + name.length) 0 =
      some ((front ++ name ++ [0]) ++ tail) := by
    rw [← List.append_assoc, ← List.length_append, putByte_front]
    simp
  have hlen : (front ++ name ++ [0]).length = front.length + name.length + 1 := by
    simp only [List.length_append, List.length_singleton]
  obtain ⟨first, hbyte, hhash⟩ := hfirst
  rw [parseEntry]
  simp only [Option.bind_eq_bind, hstart, hbyte, Option.bind_some, if_neg hhash, hend, hget, hnext,
    hlen, Option.pure_def]
  by_cases h0 : c = 0
  · simp only [if_pos h0, Option.bind_some]
    split_ifs <;> simp [hput]
  · simp only [if_neg h0]
    cases tail.head? with
    | none => rfl
    | some next =>
      simp only [Option.bind_some]
      split_ifs <;> simp [hput]

/-- A name that a NUL or a separator ends. -/
theorem NameEnd.entryRead_plain (h : NameEnd sep c name tail) (hc : c ≠ chEquals)
    (htail : c = 0 ∨ tail ≠ []) : EntryRead sep front (name ++ c :: tail) := by
  obtain ⟨nameless, -, hafter⟩ := h.afterEntry_eq
  have hsep : c = 0 ∨ c = sep := by
    simpa [nameByte, hc, or_iff_not_imp_left] using h.stop
  have hrest : afterName sep nameless (c :: tail) = some (tail, false) := by
    cases tail with
    | nil => exact if_pos (htail.resolve_right (not_not.mpr rfl))
    | cons d rest => exact if_pos (Or.inr hc)
  obtain ⟨next, hnext⟩ : ∃ next, (if c = 0 then some 0 else tail.head?) = some next := by
    split_ifs with h0
    · exact ⟨_, rfl⟩
    · exact ⟨_, List.head?_eq_some_head (htail.resolve_left h0)⟩
  have hturn : c = 0 ∨ next = 0 ∨ c = sep ∨ next = sep :=
    hsep.imp_right fun hs => .inr (.inl hs)
  refine .inr ⟨tail, false, front ++ name ++ [0], .delete name, hafter.trans hrest, ?_, ?_,
    by simp, ?_⟩
  · simp only [List.length_append, List.length_cons]
    omega
  · simp only [List.length_append, List.length_cons, List.length_nil]
    omega
  · rw [h.parseEntry_eq, hnext, Option.bind_some, if_pos hturn, if_neg hc, Option.bind_some,
      h.stringAt_eq, Option.bind_some, if_neg hc]
    simp only [List.length_append, List.length_singleton]

/-- A name and `=`, without a value: both `=` and the byte behind it are overwritten. -/
theorem NameEnd.entryRead_empty {d : UInt8} (h : NameEnd sep chEquals name (d :: tail))
    (hdelete : d = 0 ∨ d = sep ∨ sep = chEquals) :
    EntryRead sep front (name ++ chEquals :: d :: tail) := by
  obtain ⟨nameless, -, hafter⟩ := h.afterEntry_eq
  have hturn : chEquals = 0 ∨ d = 0 ∨ chEquals = sep ∨ d = sep := by
    rcases hdelete with h | h | h
    exacts [.inr (.inl h), .inr (.inr (.inr h)), .inr (.inr (.inl h.symm))]
  have hput := putByte_front (front ++ name ++ [0]) d 0 tail
  have hstr : stringAt ((front ++ name ++ [0]) ++ 0 :: tail) front.length = some name :=
    h.stringAt_eq _
  refine .inr ⟨tail, false, front ++ name ++ [0, 0], .delete name, hafter.trans ?_, ?_, ?_,
    by simp, ?_⟩
  · rw [afterName, if_neg (by decide), if_pos hdelete]
  · simp only [List.length_append, List.length_cons]
    omega
  · simp only [List.length_append, List.length_cons, List.length_nil]
    omega
  · rw [h.parseEntry_eq, if_neg (by decide), List.head?_cons, Option.bind_some, if_pos hturn,
      if_pos rfl, hput, Option.bind_some, hstr, Option.bind_some, if_pos rfl]
    simp [Nat.add_assoc]

/-- A name and a value. -/
theorem NameEnd.entryRead_value {d : UInt8} (h : NameEnd sep chEquals name (d :: tail))
    (hdelete : ¬(d = 0 ∨ d = sep ∨ sep = chEquals)) :
    EntryRead sep front (name ++ chEquals :: d :: tail) := by
  obtain ⟨nameless, hnameless, hafter⟩ := h.afterEntry_eq
  rw [afterName, if_neg (by decide), if_neg hdelete] at hafter
  have hturn : ¬(chEquals = 0 ∨ d = 0 ∨ chEquals = sep ∨ d = sep) := by
    rintro (h | h | h | h)
    exacts [absurd h (by decide), hdelete (.inl h), hdelete (.inr (.inr h.symm)),
      hdelete (.inr (.inl h))]
  have hparse := @NameEnd.parseEntry_eq sep chEquals front name (d :: tail) h
  rw [if_neg (by decide), List.head?_cons, Option.bind_some, if_neg hturn] at hparse
  have hread := valueRead sep (((front ++ name ++ [0]) ++ d :: tail).length + 1)
    (d :: tail) (front ++ name ++ [0]) [] (by
      rw [List.length_append]
      omega)
  simp only [ValueRead, List.nil_append, List.length_nil, Nat.add_zero] at hread
  rcases hread with ⟨hnone, hout⟩ | ⟨rest, value, junk, stop, hsome, hsum, hloop⟩
  · exact .inl ⟨by rw [hafter, hnone]; rfl, by rw [hparse, hout]; rfl⟩
  · have hput : putByte ((front ++ name ++ [0]) ++ (value ++ (junk ++ stop :: rest)))
        ((front ++ name ++ [0]).length + value.length) 0 =
          some ((front ++ name ++ [0]) ++ (value ++ 0 :: ((junk ++ [stop]).tail ++ rest))) := by
      have := putByte_head ((front ++ name ++ [0]) ++ value) (junk ++ [stop]) rest 0 (by simp)
      rw [List.length_append] at this
      simpa [List.append_assoc] using this
    obtain ⟨str, hvalue⟩ := exists_stringAt (front ++ name ++ [0]) value
      ((junk ++ [stop]).tail ++ rest)
    refine .inr ⟨rest, nameless, front ++ name ++ [0] ++ value ++ [0] ++ (junk ++ [stop]).tail,
      if name = [] then .noName else .enter name str, by rw [hafter, hsome]; rfl, ?_, ?_, ?_, ?_⟩
    · simp only [List.length_append, List.length_cons] at hsum ⊢
      omega
    · simp only [List.length_append, List.length_cons, List.length_nil, List.length_tail]
        at hsum ⊢
      omega
    · rw [hnameless rfl]
      by_cases hn : name = []
      · exact iff_of_true hn (if_pos hn)
      · exact iff_of_false hn (by rw [if_neg hn]; simp)
    · rw [hparse, hloop, Option.bind_some, hput, Option.bind_some, h.stringAt_eq,
        Option.bind_some, hvalue]
      have hnext : front ++ name ++ [0] ++ value ++ [0] ++ (junk ++ [stop]).tail ++ rest =
          front ++ name ++ [0] ++ (value ++ 0 :: ((junk ++ [stop]).tail ++ rest)) := by
        simp only [List.append_assoc, List.cons_append, List.nil_append]
      have hend : (front ++ name ++ [0] ++ value ++ [0] ++ (junk ++ [stop]).tail).length =
          (front ++ name ++ [0]).length + value.length + junk.length + 1 := by
        simp
        omega
      rw [hnext, hend]
      split_ifs <;> rfl

/-- The turn for an entry that starts with its name. -/
theorem NameEnd.entryRead (h : NameEnd sep c name tail) :
    EntryRead sep front (name ++ c :: tail) := by
  by_cases hc : c = chEquals
  · subst hc
    cases tail with
    | nil =>
      obtain ⟨nameless, -, hafter⟩ := h.afterEntry_eq
      refine .inl ⟨hafter.trans rfl, ?_⟩
      rw [h.parseEntry_eq, if_neg (by decide), List.head?_nil, Option.bind_none]
    | cons d tail =>
      by_cases hdelete : d = 0 ∨ d = sep ∨ sep = chEquals
      · exact h.entryRead_empty hdelete
      · exact h.entryRead_value hdelete
  · by_cases htail : c = 0 ∨ tail ≠ []
    · exact h.entryRead_plain hc htail
    · obtain ⟨nameless, -, hafter⟩ := h.afterEntry_eq
      obtain ⟨h0, hnil⟩ := not_or.mp htail
      rw [not_not] at hnil
      subst hnil
      refine .inl ⟨hafter.trans (if_neg h0), ?_⟩
      rw [h.parseEntry_eq, if_neg h0, List.head?_nil, Option.bind_none]

end Name

end Turn

/-- One turn of the parser finds the end of the entry, or leaves the buffer. -/
theorem entryRead (sep : UInt8) (front text : List UInt8) : EntryRead sep front text := by
  have hparse : ∀ l : List UInt8, (l.dropWhile fun c => c = chSpace ∨ c = chTab) = [] →
      parseEntry sep (front ++ l) front.length = none := by
    intro l h
    rw [parseEntry, scanWhile_eq, if_pos h]
    rfl
  rcases hblank : text.dropWhile (fun c => c = chSpace ∨ c = chTab) with - | ⟨first, rest⟩
  · exact .inl ⟨by rw [afterEntry, hblank], hparse text hblank⟩
  · apply EntryRead.skip hblank
    have hfirst : ¬(first = chSpace ∨ first = chTab) := by simpa using dropWhile_not hblank
    by_cases hhash : first = chHash
    · subst hhash
      exact entryRead_comment _ rest
    · rcases hdrop : (first :: rest).dropWhile (nameByte sep) with - | ⟨c, tail⟩
      · -- the name reaches to the end of the buffer
        have hfirst' : decide (first = chSpace ∨ first = chTab) = false := decide_eq_false hfirst
        have hname : scanWhile (fun c => c ≠ chEquals ∧ c ≠ 0 ∧ c ≠ sep)
            ((front ++ text.takeWhile fun c => c = chSpace ∨ c = chTab) ++ first :: rest)
              (front ++ text.takeWhile fun c => c = chSpace ∨ c = chTab).length = none := by
          have := scanWhile_eq (nameByte sep)
            (front ++ text.takeWhile fun c => c = chSpace ∨ c = chTab) (first :: rest)
          rwa [hdrop, if_pos rfl] at this
        refine .inl ⟨?_, ?_⟩
        · rw [afterEntry, dropWhile_of_not hfirst']
          dsimp only
          rw [if_neg hhash, hdrop, afterName]
        · rw [parseEntry, scanWhile_eq, dropWhile_of_not hfirst', takeWhile_of_not hfirst']
          simp only [reduceCtorEq, if_false, List.length_nil, Nat.add_zero, Option.bind_eq_bind,
            Option.bind_some, getElem?_front, if_neg hhash, hname, Option.bind_none]
      · have happ : (first :: rest).takeWhile (nameByte sep) ++ c :: tail = first :: rest := by
          rw [← hdrop, List.takeWhile_append_dropWhile]
        have hname : NameEnd sep c ((first :: rest).takeWhile (nameByte sep)) tail := by
          refine ⟨fun x hx => List.mem_takeWhile_imp hx, dropWhile_not hdrop, ?_, ?_⟩
          all_goals
            rw [happ]
            rintro x ⟨⟩
          · exact decide_eq_false hfirst
          · exact hhash
        rw [← happ]
        exact hname.entryRead

/-! ### All turns -/

/-- Where the last turn may end, in terms of what is left of the buffer. -/
theorem goesOn_eq {size beyond : Nat} {front rest : List UInt8}
    (hsize : size + beyond = front.length + rest.length) :
    goesOn size (front ++ rest) front.length =
      some (decide (beyond < rest.length ∧ rest.head? ≠ some 0)) := by
  rw [goesOn]
  by_cases hlt : beyond < rest.length
  · cases rest with
    | nil => simp at hlt
    | cons c rest =>
      rw [if_pos (by omega), getElem?_front]
      simpa using fun _ => hlt
  · rw [if_neg (by omega)]
    simp [hlt]

/-- The parser stays in the buffer exactly when the text ends in it. -/
theorem parseLoop_isSome_iff (sep : UInt8) (size beyond : Nat) :
    ∀ (fuel : Nat) (text front : List UInt8), text.length < fuel →
      size + beyond = front.length + text.length →
        ((parseLoop sep size fuel (front ++ text) front.length).isSome = true ↔
          Terminated sep beyond text) := by
  intro fuel
  induction fuel with
  | zero => intro text front h; omega
  | succ fuel ih =>
    intro text front hfuel hsize
    rcases entryRead sep front text with
      ⟨hnone, hparse⟩ | ⟨rest, nameless, front', parsed, hafter, hlt, hlen, hname, hparse⟩
    · refine iff_of_false (by simp [parseLoop, hparse]) fun h => ?_
      cases h with
      | last entry => simp [hnone] at entry
      | next entry => simp [hnone] at entry
    · cases nameless with
      | true =>
        obtain rfl := hname.mp rfl
        exact iff_of_true (by rw [parseLoop_noName fuel hparse]; rfl)
          (.last hafter (.inl rfl))
      | false =>
        have hne : parsed ≠ .noName := fun h => by simpa using hname.mpr h
        have hsize' : size + beyond = front'.length + rest.length := by omega
        rw [parseLoop_turn fuel hparse hne, goesOn_eq hsize', Option.bind_some]
        by_cases hmore : beyond < rest.length ∧ rest.head? ≠ some 0
        · rw [if_pos (by simpa using hmore), Option.isSome_map, ih rest front' (by omega)
            hsize']
          constructor
          · exact .next hafter
          · intro h
            cases h with
            | last entry stop =>
              rw [hafter, Option.some.injEq, Prod.mk.injEq] at entry
              obtain ⟨rfl, rfl⟩ := entry
              rcases stop with stop | stop | stop
              · cases stop
              · omega
              · exact absurd stop hmore.2
            | next entry more =>
              rw [hafter, Option.some.injEq, Prod.mk.injEq] at entry
              obtain ⟨rfl, -⟩ := entry
              exact more
        · refine iff_of_true (by rw [if_neg (by simpa using hmore)]; rfl)
            (.last hafter (.inr ?_))
          rw [not_and_or, Nat.not_lt, not_not] at hmore
          exact hmore

/-! ### Carriage returns -/

/-- A text without the carriage returns in front of its line feeds. -/
def dropCrs : List UInt8 → List UInt8
  | [] => []
  | c :: rest => if c = chCr ∧ rest.head? = some chLf then dropCrs rest else c :: dropCrs rest

/-- The buffer after the removal: the text up to its first NUL has become shorter, and
the bytes behind it are the old ones. -/
def cleaned (env : List UInt8) : List UInt8 :=
  let short := dropCrs (env.takeWhile (· ≠ 0))
  short ++ env.drop short.length

/-- How many bytes were removed. -/
def removed (env : List UInt8) : Nat :=
  (env.takeWhile (· ≠ 0)).length - (dropCrs (env.takeWhile (· ≠ 0))).length

theorem length_dropCrs_le (text : List UInt8) : (dropCrs text).length ≤ text.length := by
  induction text with
  | nil => exact Nat.le_refl 0
  | cons c rest ih =>
    rw [dropCrs]
    split
    · exact Nat.le_succ_of_le ih
    · exact Nat.succ_le_succ ih

/-- The loop that removes them, from a position on. What is done already is `done`. -/
theorem removeCrs_eq (env : List UInt8) :
    ∀ (fuel : Nat) (todo done : List UInt8) (dp ignored : Nat), todo.length ≤ fuel →
      env.drop dp = todo → dp = done.length + ignored →
        removeCrs fuel (done ++ env.drop done.length) dp ignored =
          (done ++ dropCrs (todo.takeWhile (· ≠ 0)) ++
              env.drop (done ++ dropCrs (todo.takeWhile (· ≠ 0))).length,
            ignored + ((todo.takeWhile (· ≠ 0)).length -
              (dropCrs (todo.takeWhile (· ≠ 0))).length)) := by
  intro fuel
  induction fuel with
  | zero =>
    intro todo done dp ignored hfuel _ _
    obtain rfl : todo = [] := List.length_eq_zero_iff.mp (Nat.le_zero.mp hfuel)
    simp [removeCrs, dropCrs]
  | succ fuel ih =>
    intro todo done dp ignored hfuel htodo hdp
    -- the bytes from `done` on are still the old ones
    have hget : ∀ i, (done ++ env.drop done.length)[dp + i]? = todo[i]? := by
      intro i
      rw [List.getElem?_append_right (by omega), List.getElem?_drop, ← htodo,
        List.getElem?_drop]
      congr 1
      omega
    have hat := hget 0
    rw [Nat.add_zero] at hat
    cases todo with
    | nil =>
      rw [removeCrs, hat]
      simp [dropCrs]
    | cons c todo =>
      have hnext := hget 1
      rw [List.getElem?_cons_zero] at hat
      rw [List.getElem?_cons_succ] at hnext
      have hdrop : env.drop (dp + 1) = todo := by
        rw [← List.drop_drop, htodo, List.drop_one, List.tail_cons]
      rw [List.length_cons] at hfuel
      rw [removeCrs, hat]
      dsimp only
      by_cases h0 : c = 0
      · rw [if_pos h0, List.takeWhile_cons_of_neg (by simpa using h0)]
        simp [dropCrs]
      · have hhead : (todo.takeWhile (· ≠ 0)).head? = some chLf ↔ todo[0]? = some chLf := by
          cases todo with
          | nil => simp
          | cons d todo =>
            by_cases hd : d = 0
            · subst hd
              simp [chLf]
            · simp [hd]
        rw [if_neg h0, List.takeWhile_cons_of_pos (by simpa using h0), dropCrs, hnext]
        simp only [hhead]
        by_cases hcr : c = chCr ∧ todo[0]? = some chLf
        · have hle := length_dropCrs_le (todo.takeWhile (· ≠ 0))
          rw [if_pos hcr, if_pos hcr, ih todo done (dp + 1) (ignored + 1) (by omega) hdrop
            (by omega), List.length_cons, Prod.mk.injEq]
          exact ⟨rfl, by omega⟩
        · have hpos : done.length < env.length := by
            have := congrArg List.length htodo
            rw [List.length_drop, List.length_cons] at this
            omega
          have hset : (done ++ env.drop done.length).set (dp - ignored) c =
              (done ++ [c]) ++ env.drop (done ++ [c]).length := by
            rw [show dp - ignored = done.length by omega,
              List.set_append_right _ _ (Nat.le_refl _), Nat.sub_self,
              List.drop_eq_getElem_cons hpos, List.set_cons_zero]
            simp
          rw [if_neg hcr, if_neg hcr, hset, ih todo (done ++ [c]) (dp + 1) ignored (by omega)
            hdrop (by simp; omega), List.length_cons, List.length_cons]
          simp [List.append_assoc]

/-- What is parsed: the copied bytes, and how many of them at the end are not meant. -/
def parsedText (env : List UInt8) (crlfIsLf : Bool) : List UInt8 × Nat :=
  if crlfIsLf then (cleaned env, removed env) else (env, 0)

theorem importText_eq (env : List UInt8) (sep : UInt8) (crlfIsLf : Bool) :
    importText env sep crlfIsLf =
      parseLoop sep (env.length - (parsedText env crlfIsLf).2) (env.length + 1)
        (parsedText env crlfIsLf).1 0 := by
  cases crlfIsLf with
  | false => rfl
  | true =>
    have hremove := removeCrs_eq env env.length env [] 0 0 (Nat.le_refl _) rfl rfl
    simp only [List.nil_append, List.length_nil, List.drop_zero, Nat.zero_add] at hremove
    rw [importText, if_pos rfl, hremove]
    rfl

theorem length_parsedText (env : List UInt8) (crlfIsLf : Bool) :
    (parsedText env crlfIsLf).1.length = env.length ∧
      (parsedText env crlfIsLf).2 ≤ env.length := by
  cases crlfIsLf with
  | false => exact ⟨rfl, Nat.zero_le _⟩
  | true =>
    have hle := length_dropCrs_le (env.takeWhile (· ≠ 0))
    have htake := (List.takeWhile_prefix (p := (· ≠ (0 : UInt8))) (l := env)).length_le
    constructor
    · simp only [parsedText, if_true, cleaned, List.length_append, List.length_drop]
      omega
    · simp only [parsedText, if_true, removed]
      omega

/-- The import stays in the bytes it has copied, exactly when the text ends in them. -/
theorem himport_stays_iff (env : List UInt8) (sep : UInt8) (crlfIsLf : Bool) :
    importText env sep crlfIsLf ≠ none ↔
      Terminated sep (parsedText env crlfIsLf).2 (parsedText env crlfIsLf).1 := by
  obtain ⟨hlen, hle⟩ := length_parsedText env crlfIsLf
  rw [importText_eq, Option.ne_none_iff_isSome]
  exact parseLoop_isSome_iff sep _ _ (env.length + 1) (parsedText env crlfIsLf).1 [] (by omega)
    (by rw [List.length_nil]; omega)

/-- A line without its line feed, and a name in front of the last one: the parser goes on
behind the buffer. -/
theorem himport_leaves_buffer :
    ¬∀ (env : List UInt8) (sep : UInt8) (crlfIsLf : Bool), env ≠ [] →
      importText env sep crlfIsLf ≠ none := by
  intro h
  exact h [97, chEquals, 98] chLf false (by simp) (by decide)

end UBoot.HashTable
