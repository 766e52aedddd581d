import Mathlib.Data.List.TakeWhile
import Mathlib.Tactic.Common
import UBoot.HashTable.Basic

/-!
# The simple command line

`common/cli_simple.c`: a line is cut into commands at its semicolons, and in each
command one level of escapes and quotes is removed and the names of variables are
replaced by their values. A character directly behind a backslash is escaped, for both
scanners, and both look back at the character before.
-/

namespace UBoot.Cli

open HashTable (Str)

def backslash : UInt8 := 92
def quote : UInt8 := 39
def dollar : UInt8 := 36
def semicolon : UInt8 := 59

/-! ### Macros -/

/-- The states 0 to 3 of the scanner. -/
inductive Scan where
  | dollar
  | paren
  | close
  | quote
  deriving DecidableEq, Repr

/-- The variables of `cli_simple_process_macros`; `varname` is the input read from
`varname_start` on. -/
structure Macros where
  state : Scan
  prev : UInt8
  varname : Str
  output : Str
  outputcnt : Nat
  deriving DecidableEq

/-- A character is output. -/
def Macros.putc (m : Macros) (c : UInt8) : Macros :=
  { m with output := m.output ++ [c], outputcnt := m.outputcnt - 1 }

/-- The loop that copies a value. -/
def Macros.copyVal (m : Macros) : Str → Macros
  | [] => m
  | c :: envval => if m.outputcnt = 0 then m else (m.putc c).copyVal envval

def isOpen (c : UInt8) : Bool := c = 40 ∨ c = 123
def isClose (c : UInt8) : Bool := c = 41 ∨ c = 125

/-- The `switch` on the state, and `prev = c`. -/
def Macros.step (getenv : Str → Option Str) (m : Macros) (c : UInt8) : Macros :=
  let m' : Macros :=
    match m.state with
    | .dollar =>
      if c = quote ∧ m.prev ≠ backslash then { m with state := .quote }
      else if c = dollar ∧ m.prev ≠ backslash then { m with state := .paren }
      else m.putc c
    | .paren =>
      if isOpen c then { m with state := .close, varname := [] }
      else
        let m := { m with state := .dollar }.putc dollar
        if m.outputcnt ≠ 0 then m.putc c else m
    | .close =>
      if isClose c then { m with state := .dollar }.copyVal ((getenv m.varname).getD [])
      else { m with varname := m.varname ++ [c] }
    | .quote =>
      if c = quote ∧ m.prev ≠ backslash then { m with state := .dollar } else m.putc c
  { m' with prev := c }

/-- An escape character is removed, and the next one is read. -/
def Macros.escape (m : Macros) : Macros :=
  { m with prev := backslash, varname := m.varname ++ [backslash] }

/-- The loop over the input. -/
def macroLoop (getenv : Str → Option Str) : Macros → Str → Macros
  | m, [] => m
  | m, c :: input =>
    if m.outputcnt = 0 then m
    else if m.state ≠ .quote ∧ c = backslash ∧ m.prev ≠ backslash then
      match input with
      | [] => m
      | c :: input => macroLoop getenv (m.escape.step getenv c) input
    else macroLoop getenv (m.step getenv c) input

/-- `cli_simple_process_macros`: what it leaves in the output buffer. `cbsize` is
`CONFIG_SYS_CBSIZE`. -/
def processMacros (getenv : Str → Option Str) (cbsize : Nat) (input : Str) : Str :=
  let m := macroLoop getenv ⟨.dollar, 0, [], [], cbsize⟩ input
  if m.outputcnt ≠ 0 then m.output ++ [0] else m.output.dropLast ++ [0]

/-! ### Commands -/

/-- The loop that looks for a separator: how many characters come before it. `prev` is
the character in front, and is missing where that is outside `cmdbuf`. -/
def sepLoop : Option UInt8 → Bool → Bool → Str → Option Nat
  | _, _, _, [] => some 0
  | prev, first, inquotes, c :: sep => do
    let inquotes ← if c = quote then prev.map fun p => if p ≠ backslash then !inquotes else inquotes
      else some inquotes
    if !inquotes ∧ c = semicolon ∧ !first ∧ prev ≠ some backslash then some 0
    else (sepLoop (some c) false inquotes sep).map (· + 1)

/-- The loop of `cli_simple_run_command`: the tokens it processes. The separator in front
of a token was overwritten by a NUL. -/
def splitCommands : Nat → Option UInt8 → Str → Option (List Str)
  | _, _, [] => some []
  | 0, _, _ => none
  | fuel + 1, prev, str => do
    let n ← sepLoop prev true false str
    let tokens ← splitCommands fuel (some 0) (str.drop (n + 1))
    some (str.take n :: tokens)

def lineTokens (line : Str) : Option (List Str) := splitCommands line.length none line

/-! ### The expansion of a command -/

/-- The text up to the closing quote, and what follows the quote. -/
def quotedText : UInt8 → Str → Str × Str
  | _, [] => ([], [])
  | prev, c :: s =>
    if c = quote ∧ prev ≠ backslash then ([], s)
    else
      let (body, rest) := quotedText c s
      (c :: body, rest)

theorem length_quotedText_le (prev : UInt8) (s : Str) :
    (quotedText prev s).2.length ≤ s.length := by
  induction s generalizing prev with
  | nil => exact Nat.le_refl 0
  | cons c s ih =>
    rw [quotedText]
    split_ifs
    · exact Nat.le_succ _
    · exact Nat.le_succ_of_le (ih c)

/-- The name of a variable up to the closing parenthesis, and what follows the
parenthesis, with it; there is nothing behind a name without an end. -/
def macroName (s : Str) : Str × Option (UInt8 × Str) :=
  (s.takeWhile (!isClose ·), (s.dropWhile (!isClose ·)).head?.map fun c =>
    (c, (s.dropWhile (!isClose ·)).tail))

/-- What a dollar sign begins is the character behind it, without an escape. -/
def unescapeFirst (prev : UInt8) (s : Str) : Option (UInt8 × Str) :=
  match s with
  | [] => none
  | c :: s =>
    if c = backslash ∧ prev ≠ backslash then
      match s with
      | [] => none
      | c :: s => some (c, s)
    else some (c, s)

theorem length_macroName_lt {s name rest : Str} {c : UInt8}
    (h : macroName s = (name, some (c, rest))) : rest.length < s.length := by
  rw [macroName, Prod.mk.injEq] at h
  obtain ⟨-, h⟩ := h
  have hle := (List.dropWhile_suffix (!isClose · : UInt8 → Bool) (l := s)).length_le
  cases hdrop : s.dropWhile (!isClose ·) with
  | nil => rw [hdrop] at h; cases h
  | cons d more =>
    rw [hdrop] at h hle
    simp only [List.head?_cons, Option.map_some, List.tail_cons, Option.some.injEq,
      Prod.mk.injEq] at h
    rw [← h.2]
    exact hle

theorem length_unescapeFirst_lt {prev c : UInt8} {s rest : Str}
    (h : unescapeFirst prev s = some (c, rest)) : rest.length < s.length := by
  rw [unescapeFirst.eq_def] at h
  split at h
  · cases h
  · split_ifs at h
    · split at h
      · cases h
      · obtain ⟨rfl, rfl⟩ := Prod.mk.inj (Option.some.inj h)
        simp only [List.length_cons]
        omega
    · obtain ⟨rfl, rfl⟩ := Prod.mk.inj (Option.some.inj h)
      exact Nat.lt_succ_self _

/-- The command with one level of escapes and quotes removed and the variables replaced:
* a character directly behind a backslash stands for itself;
* another backslash is removed;
* the text between two quotes stays as it is;
* `$(name)` or `${name}` is the value of the variable, or nothing;
* `$` in front of another character stays with it. -/
def expand (getenv : Str → Option Str) (prev : UInt8) : Str → Str
  | [] => []
  | c :: s =>
    if prev = backslash then c :: expand getenv c s
    else if c = backslash then expand getenv c s
    else if c = quote then (quotedText c s).1 ++ expand getenv quote (quotedText c s).2
    else if c = dollar then
      match _hfirst : unescapeFirst c s with
      | none => []
      | some (d, rest) =>
        if isOpen d then
          match _hname : macroName rest with
          | (_, none) => []
          | (name, some (e, rest')) => (getenv name).getD [] ++ expand getenv e rest'
        else dollar :: d :: expand getenv d rest
    else c :: expand getenv c s
termination_by s => s.length
decreasing_by
  · exact Nat.lt_succ_self _
  · exact Nat.lt_succ_self _
  · exact Nat.lt_succ_of_le (length_quotedText_le _ _)
  · exact Nat.lt_succ_of_lt ((length_macroName_lt _hname).trans (length_unescapeFirst_lt _hfirst))
  · exact Nat.lt_succ_of_lt (length_unescapeFirst_lt _hfirst)
  · exact Nat.lt_succ_self _

/-! ### The scanner computes the expansion -/

/-- What a name that has been read up to here expands to, and what follows it. -/
def expandName (getenv : Str → Option Str) (varname s : Str) : Str :=
  match macroName s with
  | (_, none) => []
  | (name, some (e, rest)) => (getenv (varname ++ name)).getD [] ++ expand getenv e rest

/-- What follows a dollar sign. -/
def expandDollar (getenv : Str → Option Str) (prev : UInt8) (s : Str) : Str :=
  match unescapeFirst prev s with
  | none => []
  | some (d, rest) =>
    if isOpen d then expandName getenv [] rest else dollar :: d :: expand getenv d rest

/-- What the scanner still has to output for the rest of the input. -/
def Macros.rest (getenv : Str → Option Str) (m : Macros) (s : Str) : Str :=
  match m.state with
  | .dollar => expand getenv m.prev s
  | .paren => expandDollar getenv m.prev s
  | .close => expandName getenv m.varname s
  | .quote => (quotedText m.prev s).1 ++ expand getenv quote (quotedText m.prev s).2

section Expansion

variable {getenv : Str → Option Str} {m : Macros} {c prev : UInt8} {s : Str}

theorem expand_nil (prev : UInt8) : expand getenv prev [] = [] := by
  rw [expand]

theorem expand_escaped (s : Str) : expand getenv backslash (c :: s) = c :: expand getenv c s := by
  rw [expand, if_pos rfl]

theorem expand_backslash (h : prev ≠ backslash) (s : Str) :
    expand getenv prev (backslash :: s) = expand getenv backslash s := by
  rw [expand, if_neg h, if_pos rfl]

theorem expand_quote (h : prev ≠ backslash) (s : Str) :
    expand getenv prev (quote :: s) =
      (quotedText quote s).1 ++ expand getenv quote (quotedText quote s).2 := by
  rw [expand, if_neg h, if_neg (by decide), if_pos rfl]

theorem expand_dollar (h : prev ≠ backslash) (s : Str) :
    expand getenv prev (dollar :: s) = expandDollar getenv dollar s := by
  rw [expand, if_neg h, if_neg (by decide), if_neg (by decide), if_pos rfl, expandDollar]
  cases hfirst : unescapeFirst dollar s with
  | none => rfl
  | some r =>
    obtain ⟨d, rest⟩ := r
    simp only [expandName]
    split_ifs
    · cases hname : macroName rest with
      | mk name more => cases more <;> rfl
    · rfl

theorem expand_plain (h : prev ≠ backslash) (hb : c ≠ backslash) (hq : c ≠ quote) (hd : c ≠ dollar)
    (s : Str) : expand getenv prev (c :: s) = c :: expand getenv c s := by
  rw [expand, if_neg h, if_neg hb, if_neg hq, if_neg hd]

theorem macroName_cons (h : isClose c = false) (s : Str) :
    macroName (c :: s) = (c :: (macroName s).1, (macroName s).2) := by
  simp [macroName, h]

theorem expandName_cons (h : isClose c = false) (varname s : Str) :
    expandName getenv varname (c :: s) = expandName getenv (varname ++ [c]) s := by
  rw [expandName, expandName, macroName_cons h]
  cases hname : macroName s with
  | mk name more => cases more <;> simp

theorem expandName_close (h : isClose c = true) (varname s : Str) :
    expandName getenv varname (c :: s) = (getenv varname).getD [] ++ expand getenv c s := by
  simp [expandName, macroName, h]

/-- At the end of the input nothing is left to output. -/
theorem rest_nil : m.rest getenv [] = [] := by
  rw [Macros.rest]
  cases m.state
  · exact expand_nil _
  · rfl
  · rfl
  · exact expand_nil _

/-- Removing an escape character leaves the same to output. -/
theorem rest_escape (hstate : m.state ≠ .quote) (hprev : m.prev ≠ backslash) (s : Str) :
    m.rest getenv (backslash :: s) = m.escape.rest getenv s := by
  rw [Macros.rest, Macros.rest, Macros.escape]
  cases hs : m.state with
  | dollar => exact expand_backslash hprev s
  | paren =>
    simp only [expandDollar]
    have hfirst : unescapeFirst m.prev (backslash :: s) = unescapeFirst backslash s := by
      cases s <;> simp [unescapeFirst, hprev]
    rw [hfirst]
  | close => exact expandName_cons (by decide) _ _
  | quote => exact absurd hs hstate

/-- What is output is the next part of the text, as far as it fits. -/
structure Macros.Emits (total : Nat) (m m' : Macros) (text : Str) : Prop where
  output : m'.output = (m.output ++ text).take total
  count : m'.output.length + m'.outputcnt = total

variable {total : Nat}

theorem take_take_append (n : Nat) (xs ys : Str) : (xs.take n ++ ys).take n = (xs ++ ys).take n := by
  rw [List.take_append, List.take_append, List.take_take, Nat.min_self, List.length_take]
  congr 2
  omega

theorem emits_nil (h : m.output.length + m.outputcnt = total) : m.Emits total m [] := by
  refine ⟨?_, h⟩
  rw [List.append_nil, List.take_of_length_le (by omega)]

theorem emits_copyVal (h : m.output.length + m.outputcnt = total) (text : Str) :
    m.Emits total (m.copyVal text) text := by
  induction text generalizing m with
  | nil => exact emits_nil h
  | cons c text ih =>
    rw [Macros.copyVal]
    split_ifs with hcnt
    · have hfull : m.output.length = total := by omega
      refine ⟨?_, h⟩
      rw [List.take_append_of_le_length hfull.ge, List.take_of_length_le hfull.le]
    · have hputc : (m.putc c).output.length + (m.putc c).outputcnt = total := by
        simp only [Macros.putc, List.length_append, List.length_singleton]
        omega
      obtain ⟨houtput, hcount⟩ := ih hputc
      exact ⟨by rw [houtput, Macros.putc, List.append_assoc, List.singleton_append], hcount⟩

theorem emits_putc (h : m.output.length + m.outputcnt = total) (hcnt : m.outputcnt ≠ 0) (c : UInt8) :
    m.Emits total (m.putc c) [c] := by
  have hcopy := emits_copyVal h [c]
  rwa [Macros.copyVal, if_neg hcnt] at hcopy

theorem Macros.Emits.append {m m' m'' : Macros} {first second : Str} (h : m.Emits total m' first)
    (h' : m'.Emits total m'' second) : m.Emits total m'' (first ++ second) := by
  refine ⟨?_, h'.count⟩
  rw [h'.output, h.output, ← List.append_assoc]
  exact take_take_append _ _ _

theorem Macros.Emits.congr {m m' m'' : Macros} {text : Str} (h : m.Emits total m' text)
    (houtput : m''.output = m'.output) (hcnt : m''.outputcnt = m'.outputcnt) :
    m.Emits total m'' text :=
  ⟨houtput.trans h.output, by rw [houtput, hcnt]; exact h.count⟩

theorem Macros.Emits.of_output_eq {m m₀ m' : Macros} {text : Str} (h : m₀.Emits total m' text)
    (houtput : m.output = m₀.output) : m.Emits total m' text :=
  ⟨houtput ▸ h.output, h.count⟩

theorem copyVal_state (m : Macros) (text : Str) : (m.copyVal text).state = m.state := by
  induction text generalizing m with
  | nil => rfl
  | cons c text ih =>
    rw [Macros.copyVal]
    split_ifs
    · rfl
    · exact ih _

/-- The switch outputs the next part of the text, unless it has to remove an escape. -/
theorem step_spec (h : m.output.length + m.outputcnt = total) (hcnt : m.outputcnt ≠ 0)
    (hescape : ¬(m.state ≠ .quote ∧ c = backslash ∧ m.prev ≠ backslash)) :
    ∃ text, m.Emits total (m.step getenv c) text ∧
      ∀ s, m.rest getenv (c :: s) = text ++ (m.step getenv c).rest getenv s := by
  cases hstate : m.state with
  | dollar =>
    simp only [hstate, ne_eq, reduceCtorEq, not_false_eq_true, true_and, not_and, not_not]
      at hescape
    by_cases hq : c = quote ∧ m.prev ≠ backslash
    · have hstep : m.step getenv c = { m with state := .quote, prev := c } := by
        simp [Macros.step, hstate, hq]
      rw [hstep]
      refine ⟨[], (emits_nil h).congr rfl rfl, fun s => ?_⟩
      simp only [Macros.rest, hstate]
      rw [hq.1, expand_quote hq.2]
      rfl
    by_cases hd : c = dollar ∧ m.prev ≠ backslash
    · have hstep : m.step getenv c = { m with state := .paren, prev := c } := by
        simp only [Macros.step, hstate]
        rw [if_neg hq, if_pos hd]
      rw [hstep]
      refine ⟨[], (emits_nil h).congr rfl rfl, fun s => ?_⟩
      simp only [Macros.rest, hstate]
      rw [hd.1, expand_dollar hd.2]
      rfl
    · have hstep : m.step getenv c = { m.putc c with prev := c } := by
        simp only [Macros.step, hstate]
        rw [if_neg hq, if_neg hd]
      rw [hstep]
      refine ⟨[c], (emits_putc h hcnt c).congr rfl rfl, fun s => ?_⟩
      simp only [Macros.rest, Macros.putc, hstate]
      by_cases hprev : m.prev = backslash
      · rw [hprev, expand_escaped]
        rfl
      · rw [expand_plain hprev (fun hc => hprev (hescape hc)) (fun hc => hq ⟨hc, hprev⟩)
          fun hc => hd ⟨hc, hprev⟩]
        rfl
  | paren =>
    simp only [hstate, ne_eq, reduceCtorEq, not_false_eq_true, true_and] at hescape
    have hfirst : ∀ s, unescapeFirst m.prev (c :: s) = some (c, s) := fun s => by
      rw [unescapeFirst.eq_def]
      exact if_neg hescape
    by_cases hopen : isOpen c
    · have hstep : m.step getenv c = { m with state := .close, varname := [], prev := c } := by
        simp [Macros.step, hstate, hopen]
      rw [hstep]
      refine ⟨[], (emits_nil h).congr rfl rfl, fun s => ?_⟩
      simp only [Macros.rest, hstate, expandDollar, hfirst]
      rw [if_pos hopen]
      rfl
    · let start : Macros := { m with state := .dollar }
      have hstep : m.step getenv c = { start.copyVal [dollar, c] with prev := c } := by
        have hcopy : start.copyVal [dollar, c] =
            if (start.putc dollar).outputcnt ≠ 0 then (start.putc dollar).putc c
            else start.putc dollar := by
          rw [Macros.copyVal, if_neg hcnt, Macros.copyVal, ite_not]
          rfl
        rw [hcopy]
        simp only [Macros.step, hstate]
        rw [if_neg hopen]
      rw [hstep]
      have hemits := (@emits_copyVal start _ h [dollar, c]).of_output_eq (show m.output = _ from rfl)
      refine ⟨[dollar, c], hemits.congr rfl rfl, fun s => ?_⟩
      simp only [Macros.rest, hstate, expandDollar, hfirst, copyVal_state]
      rw [if_neg hopen]
      rfl
  | close =>
    by_cases hclose : isClose c
    · let start : Macros := { m with state := .dollar }
      have hstep : m.step getenv c =
          { start.copyVal ((getenv m.varname).getD []) with prev := c } := by
        simp only [Macros.step, hstate]
        rw [if_pos hclose]
      rw [hstep]
      have hemits := (@emits_copyVal start _ h ((getenv m.varname).getD [])).of_output_eq
        (show m.output = _ from rfl)
      refine ⟨_, hemits.congr rfl rfl, fun s => ?_⟩
      simp only [Macros.rest, hstate, copyVal_state]
      exact expandName_close hclose _ _
    · have hstep : m.step getenv c = { m with varname := m.varname ++ [c], prev := c } := by
        simp [Macros.step, hstate, hclose]
      rw [hstep]
      refine ⟨[], (emits_nil h).congr rfl rfl, fun s => ?_⟩
      simp only [Macros.rest, hstate, List.nil_append]
      exact expandName_cons (Bool.eq_false_iff.mpr hclose) _ _
  | quote =>
    by_cases hq : c = quote ∧ m.prev ≠ backslash
    · have hstep : m.step getenv c = { m with state := .dollar, prev := c } := by
        simp [Macros.step, hstate, hq]
      rw [hstep]
      refine ⟨[], (emits_nil h).congr rfl rfl, fun s => ?_⟩
      simp only [Macros.rest, hstate, List.nil_append]
      rw [quotedText, if_pos hq, hq.1]
      rfl
    · have hstep : m.step getenv c = { m.putc c with prev := c } := by
        simp only [Macros.step, hstate]
        rw [if_neg hq]
      rw [hstep]
      refine ⟨[c], (emits_putc h hcnt c).congr rfl rfl, fun s => ?_⟩
      simp only [Macros.rest, Macros.putc, hstate]
      rw [quotedText, if_neg hq]
      rfl

theorem macroLoop_cons (s : Str) : macroLoop getenv m (c :: s) =
    if m.outputcnt = 0 then m
    else if m.state ≠ .quote ∧ c = backslash ∧ m.prev ≠ backslash then
      match s with
      | [] => m
      | d :: s => macroLoop getenv (m.escape.step getenv d) s
    else macroLoop getenv (m.step getenv c) s := by
  rw [macroLoop.eq_def]
  cases s <;> rfl

/-- The loop outputs all that is left, as far as it fits. -/
theorem macroLoop_spec (h : m.output.length + m.outputcnt = total) (s : Str) :
    m.Emits total (macroLoop getenv m s) (m.rest getenv s) := by
  induction hn : s.length using Nat.strong_induction_on generalizing m s with
  | _ n ih =>
    cases s with
    | nil =>
      rw [macroLoop, rest_nil]
      exact emits_nil h
    | cons c s =>
      rw [List.length_cons] at hn
      by_cases hcnt : m.outputcnt = 0
      · -- the buffer is full
        have hfull : m.output.length = total := by omega
        rw [macroLoop_cons, if_pos hcnt]
        refine ⟨?_, h⟩
        rw [List.take_append_of_le_length hfull.ge, List.take_of_length_le hfull.le]
      by_cases hescape : m.state ≠ .quote ∧ c = backslash ∧ m.prev ≠ backslash
      · obtain ⟨hstate, rfl, hprev⟩ := hescape
        rw [rest_escape hstate hprev]
        cases s with
        | nil =>
          rw [macroLoop_cons, if_neg hcnt, if_pos ⟨hstate, rfl, hprev⟩, rest_nil]
          exact emits_nil h
        | cons d s =>
          have hno : ¬(m.escape.state ≠ .quote ∧ d = backslash ∧ m.escape.prev ≠ backslash) :=
            fun hbad => hbad.2.2 rfl
          obtain ⟨text, hstep, hrest⟩ := @step_spec getenv m.escape d total h hcnt hno
          rw [List.length_cons] at hn
          rw [macroLoop_cons, if_neg hcnt, if_pos ⟨hstate, rfl, hprev⟩, hrest]
          have hemits : m.Emits total (m.escape.step getenv d) text :=
            hstep.of_output_eq rfl
          exact hemits.append (ih _ (by omega) hstep.count s rfl)
      · obtain ⟨text, hstep, hrest⟩ := @step_spec getenv m c total h hcnt hescape
        rw [macroLoop_cons, if_neg hcnt, if_neg hescape, hrest]
        exact hstep.append (ih _ (by omega) hstep.count s rfl)

end Expansion

/-- The buffer holds the expansion as far as it fits, and a NUL. -/
theorem processMacros_eq (getenv : Str → Option Str) {cbsize : Nat} (hpos : 0 < cbsize) (s : Str) :
    processMacros getenv cbsize s = (expand getenv 0 s).take (cbsize - 1) ++ [0] := by
  obtain ⟨houtput, hcount⟩ :=
    @macroLoop_spec getenv ⟨.dollar, 0, [], [], cbsize⟩ cbsize (Nat.zero_add _) s
  rw [List.nil_append] at houtput
  change _ = (expand getenv 0 s).take cbsize at houtput
  rw [processMacros]
  split_ifs with hfull
  · rw [houtput, List.length_take] at hcount
    rw [houtput, List.take_of_length_le (by omega), List.take_of_length_le (by omega)]
  · rw [houtput, List.length_take] at hcount
    rw [houtput, List.dropLast_eq_take, List.take_take, List.length_take]
    congr 2
    omega

/-! ### The scanner and the separators agree -/

/-- One character for the scanner: an escape character, or the switch. -/
def Macros.read (getenv : Str → Option Str) (m : Macros) (c : UInt8) : Macros :=
  if m.state ≠ .quote ∧ c = backslash ∧ m.prev ≠ backslash then m.escape else m.step getenv c

/-- The scanner behind the beginning of a token. -/
def scanned (getenv : Str → Option Str) (cbsize : Nat) (q : Str) : Macros :=
  q.foldl (Macros.read getenv) ⟨.dollar, 0, [], [], cbsize⟩

/-- For the scanner the character behind `q` is inside of quotes or escaped. -/
def Shielded (getenv : Str → Option Str) (cbsize : Nat) (q : Str) : Prop :=
  (scanned getenv cbsize q).state = .quote ∨ (scanned getenv cbsize q).prev = backslash

/-- No quote is read as a part of a macro, unless it is escaped. -/
def Straight (getenv : Str → Option Str) (cbsize : Nat) (token : Str) : Prop :=
  ∀ p s, token = p ++ quote :: s → (scanned getenv cbsize p).prev ≠ backslash →
    (scanned getenv cbsize p).state = .dollar ∨ (scanned getenv cbsize p).state = .quote

/-- A token ends where it should: each of its semicolons but the one it begins with is
shielded, and the semicolon behind it is not. -/
structure CutsAt (getenv : Str → Option Str) (cbsize : Nat) (token rest : Str) : Prop where
  inner : ∀ p s, token = p ++ semicolon :: s → p ≠ [] → Shielded getenv cbsize p
  outer : ∀ s, rest = semicolon :: s → ¬Shielded getenv cbsize token

/-- The line is the tokens, with a semicolon behind each but the last one, which may have
one. -/
inductive SplitsAt (getenv : Str → Option Str) (cbsize : Nat) : Str → List Str → Prop
  | none : SplitsAt getenv cbsize [] []
  | last {token : Str} (hne : token ≠ [])
      (hcut : Straight getenv cbsize token → CutsAt getenv cbsize token []) :
      SplitsAt getenv cbsize token [token]
  | sep {token rest : Str} {tokens : List Str} (hne : token ≠ [])
      (hcut : Straight getenv cbsize token → CutsAt getenv cbsize token (semicolon :: rest))
      (hrest : SplitsAt getenv cbsize rest tokens) :
      SplitsAt getenv cbsize (token ++ semicolon :: rest) (token :: tokens)

section Separators

variable {getenv : Str → Option Str} {cbsize : Nat} {m : Macros} {c : UInt8} {s : Str}

theorem scanned_concat (q : Str) (c : UInt8) :
    scanned getenv cbsize (q ++ [c]) = (scanned getenv cbsize q).read getenv c := by
  rw [scanned, scanned, List.foldl_append]
  rfl

theorem read_prev (m : Macros) (c : UInt8) : (m.read getenv c).prev = c := by
  rw [Macros.read]
  split_ifs with hescape
  · exact hescape.2.1.symm
  · rfl

/-- A quote that is not escaped switches the quoting; nothing else does. -/
theorem read_state_quote (h : c = quote → m.prev ≠ backslash → m.state = .dollar ∨ m.state = .quote) :
    (m.read getenv c).state = .quote ↔
      if c = quote ∧ m.prev ≠ backslash then m.state ≠ .quote else m.state = .quote := by
  by_cases hq : c = quote ∧ m.prev ≠ backslash
  · obtain ⟨rfl, hprev⟩ := hq
    have hb : ¬(m.state ≠ .quote ∧ quote = backslash ∧ m.prev ≠ backslash) :=
      fun hbad => absurd hbad.2.1 (by decide)
    rw [if_pos ⟨rfl, hprev⟩, Macros.read, if_neg hb]
    rcases h rfl hprev with hs | hs <;> simp [Macros.step, hs, hprev]
  · rw [if_neg hq, Macros.read]
    split_ifs with hescape
    · rfl
    · cases hs : m.state with
      | dollar =>
        simp only [Macros.step, hs, if_neg hq]
        split_ifs <;> simp [Macros.putc, hs]
      | paren =>
        simp only [Macros.step, hs]
        split_ifs <;> simp [Macros.putc]
      | close =>
        simp only [Macros.step, hs]
        split_ifs <;> simp [copyVal_state]
      | quote => simp [Macros.step, hs, hq, Macros.putc]

theorem sepLoop_cons (prev c : UInt8) (first inquotes : Bool) (s : Str) :
    sepLoop (some prev) first inquotes (c :: s) =
      if !(if c = quote ∧ prev ≠ backslash then !inquotes else inquotes) ∧ c = semicolon ∧ !first ∧
        prev ≠ backslash then some 0
      else (sepLoop (some c) false (if c = quote ∧ prev ≠ backslash then !inquotes else inquotes)
        s).map (· + 1) := by
  rw [sepLoop]
  by_cases hc : c = quote
  · by_cases hprev : prev = backslash
    · simp [hc, hprev]
    · simp [hc, hprev]
  · simp [hc]

theorem sepLoop_some (s : Str) (prev : UInt8) (first inquotes : Bool) :
    ∃ n, sepLoop (some prev) first inquotes s = some n ∧ n ≤ s.length ∧
      (s ≠ [] → first = true → 0 < n) ∧
      (s.drop n = [] ∨ ∃ rest, s.drop n = semicolon :: rest) := by
  induction s generalizing prev first inquotes with
  | nil => exact ⟨0, by rw [sepLoop], Nat.le_refl 0, fun h => absurd rfl h, Or.inl rfl⟩
  | cons c s ih =>
    rw [sepLoop_cons]
    set inquotes' := if c = quote ∧ prev ≠ backslash then !inquotes else inquotes
    by_cases hsep : !inquotes' ∧ c = semicolon ∧ !first ∧ prev ≠ backslash
    · rw [if_pos hsep]
      refine ⟨0, rfl, Nat.zero_le _, fun _ hfirst => ?_, Or.inr ⟨s, ?_⟩⟩
      · simp [hfirst] at hsep
      · rw [List.drop_zero, hsep.2.1]
    · rw [if_neg hsep]
      obtain ⟨n, hn, hle, -, hstop⟩ := ih c false inquotes'
      refine ⟨n + 1, by rw [hn]; rfl, Nat.succ_le_succ hle, fun _ _ => Nat.succ_pos n, ?_⟩
      rwa [List.drop_succ_cons]

/-- The loop keeps track of the quotes that the scanner sees: it stops at the first semicolon
that is not shielded. -/
theorem sepLoop_shielded (p : Str) {inquotes : Bool} {n : Nat}
    (hquotes : inquotes = true ↔ (scanned getenv cbsize p).state = .quote)
    (hn : sepLoop (some (scanned getenv cbsize p).prev) p.isEmpty inquotes s = some n)
    (hstraight : Straight getenv cbsize (p ++ s.take n)) :
    (∀ q r, s.take n = q ++ semicolon :: r → p ++ q ≠ [] → Shielded getenv cbsize (p ++ q)) ∧
      ∀ r, s.drop n = semicolon :: r → ¬Shielded getenv cbsize (p ++ s.take n) := by
  induction s generalizing p inquotes n with
  | nil =>
    rw [List.take_nil, List.drop_nil]
    exact ⟨fun q r h => absurd h (by simp), fun r h => absurd h (by simp)⟩
  | cons c s ih =>
    set m := scanned getenv cbsize p with hm
    rw [sepLoop_cons] at hn
    set inquotes' := if c = quote ∧ m.prev ≠ backslash then !inquotes else inquotes with hin
    by_cases hsep : !inquotes' ∧ c = semicolon ∧ !p.isEmpty ∧ m.prev ≠ backslash
    · rw [if_pos hsep] at hn
      obtain rfl := Option.some.inj hn
      refine ⟨fun q r h => absurd h (by simp), fun r _ hshield => ?_⟩
      rw [List.take_zero, List.append_nil] at hshield
      obtain ⟨hout, rfl, hfirst, hprev⟩ := hsep
      rw [if_neg fun h => absurd h.1 (by decide)] at hin
      rcases hshield with hstate | hback
      · rw [hin, hquotes.mpr hstate] at hout
        exact absurd hout (by decide)
      · exact hprev hback
    · rw [if_neg hsep] at hn
      obtain ⟨k, hk, rfl⟩ := Option.map_eq_some_iff.mp hn
      rw [List.take_succ_cons] at hstraight ⊢
      have hconcat : ∀ t, p ++ c :: t = (p ++ [c]) ++ t := fun t => by simp
      have hscan : scanned getenv cbsize (p ++ [c]) = m.read getenv c := scanned_concat p c
      have hquotes' : inquotes' = true ↔ (scanned getenv cbsize (p ++ [c])).state = .quote := by
        rw [hscan, read_state_quote fun hc => hstraight p (s.take k) (by rw [hc]), hin]
        split_ifs
        · rw [Bool.not_eq_true', ← Bool.not_eq_true, hquotes]
        · exact hquotes
      have hk' : sepLoop (some (scanned getenv cbsize (p ++ [c])).prev) (p ++ [c]).isEmpty
          inquotes' s = some k := by
        have hempty : (p ++ [c]).isEmpty = false := by cases p <;> rfl
        rw [hscan, read_prev, hempty]
        exact hk
      rw [hconcat] at hstraight ⊢
      obtain ⟨hinner, houter⟩ := ih (p ++ [c]) hquotes' hk' hstraight
      refine ⟨fun q r h hne => ?_, fun r h => houter r h⟩
      cases q with
      | nil =>
        -- the loop has gone on at a semicolon
        rw [List.nil_append, List.cons.injEq] at h
        obtain ⟨rfl, -⟩ := h
        rw [List.append_nil] at hne ⊢
        rw [if_neg fun h => absurd h.1 (by decide)] at hin
        by_contra hshield
        refine hsep ⟨?_, rfl, ?_, fun hback => hshield (Or.inr hback)⟩
        · rw [hin, Bool.not_eq_true', ← Bool.not_eq_true, hquotes]
          exact fun hstate => hshield (Or.inl hstate)
        · simpa using hne
      | cons d q =>
        rw [List.cons_append, List.cons.injEq] at h
        obtain ⟨rfl, h⟩ := h
        rw [hconcat]
        exact hinner q r h (by simp)

theorem sepLoop_cutsAt {n : Nat} (hn : sepLoop (some 0) true false s = some n)
    (hstraight : Straight getenv cbsize (s.take n)) :
    CutsAt getenv cbsize (s.take n) (s.drop n) := by
  obtain ⟨hinner, houter⟩ := @sepLoop_shielded getenv cbsize s [] false n
    (iff_of_false Bool.false_ne_true fun h : Scan.dollar = .quote => Scan.noConfusion h) hn hstraight
  exact ⟨fun p r h hne => hinner p r h hne, fun r h => houter r h⟩

theorem splitCommands_spec {fuel : Nat} (hfuel : s.length ≤ fuel) :
    ∃ tokens, splitCommands fuel (some 0) s = some tokens ∧
      ∀ getenv cbsize, SplitsAt getenv cbsize s tokens := by
  induction fuel generalizing s with
  | zero =>
    rw [List.length_eq_zero_iff.mp (Nat.le_zero.mp hfuel)]
    exact ⟨[], by rw [splitCommands], fun _ _ => .none⟩
  | succ fuel ih =>
    by_cases hnil : s = []
    · rw [hnil]
      exact ⟨[], by rw [splitCommands], fun _ _ => .none⟩
    obtain ⟨n, hn, hle, hpos, hstop⟩ := sepLoop_some s 0 true false
    have hpos := hpos hnil rfl
    have hlen : 0 < s.length := List.length_pos_iff.mpr hnil
    have hne : s.take n ≠ [] := by
      rw [← List.length_pos_iff, List.length_take]
      omega
    have hdrop : (s.drop (n + 1)).length ≤ fuel := by
      rw [List.length_drop]
      omega
    obtain ⟨tokens, htokens, hsplits⟩ := ih hdrop
    refine ⟨s.take n :: tokens, ?_, fun getenv cbsize => ?_⟩
    · cases s with
      | nil => exact absurd rfl hnil
      | cons c s =>
        rw [splitCommands, hn, Option.bind_eq_bind, Option.bind_some, htokens]
        · rfl
        · exact hnil
    · have hcut := @sepLoop_cutsAt getenv cbsize s n hn
      have hsplit := hsplits getenv cbsize
      rw [← List.tail_drop] at hsplit
      rcases hstop with hend | ⟨rest, hrest⟩
      · rw [hend] at hcut hsplit
        have hall : s.take n = s := by
          rw [List.take_of_length_le (List.drop_eq_nil_iff.mp hend)]
        have hnone : s.drop (n + 1) = [] := by rw [← List.tail_drop, hend, List.tail_nil]
        rw [hnone, splitCommands] at htokens
        rw [hall] at hcut ⊢
        rw [← Option.some.inj htokens]
        exact .last hnil hcut
      · rw [hrest] at hcut hsplit
        have hline : s = s.take n ++ semicolon :: rest := by rw [← hrest, List.take_append_drop]
        rw [List.tail_cons] at hsplit
        conv => lhs; rw [hline]
        exact .sep hne hcut hsplit

/-- Of the character in front of the line only a quote at its beginning asks. -/
theorem sepLoop_none (hne : s ≠ []) (hquote : s.head? ≠ some quote) :
    sepLoop none true false s = sepLoop (some 0) true false s := by
  cases s with
  | nil => exact absurd rfl hne
  | cons c s =>
    have hc : c ≠ quote := fun hc => hquote (by rw [hc]; rfl)
    simp [sepLoop, hc]

theorem lineTokens_eq (hquote : s.head? ≠ some quote) :
    lineTokens s = splitCommands s.length (some 0) s := by
  cases s with
  | nil => rfl
  | cons c s =>
    rw [lineTokens, List.length_cons, splitCommands, splitCommands,
      sepLoop_none (List.cons_ne_nil c s) hquote]
    · exact List.cons_ne_nil c s
    · exact List.cons_ne_nil c s

end Separators

/-- A line that does not begin with a quote is cut at the semicolons that the scanner does not
take for escaped or quoted, and each token is expanded into a buffer of the size. -/
theorem commands_expand (cbsize : Nat) (line : Str) (hlen : line.length < cbsize)
    (hquote : line.head? ≠ some quote) :
    ∃ tokens, lineTokens line = some tokens ∧ ∀ getenv, SplitsAt getenv cbsize line tokens ∧
      ∀ token ∈ tokens, (processMacros getenv cbsize token).length ≤ cbsize ∧
        processMacros getenv cbsize token =
          (expand getenv 0 token).take (cbsize - 1) ++ [0] := by
  obtain ⟨tokens, htokens, hsplits⟩ := @splitCommands_spec line _ (Nat.le_refl _)
  have hpos : 0 < cbsize := Nat.zero_lt_of_lt hlen
  refine ⟨tokens, (lineTokens_eq hquote).trans htokens, fun getenv => ⟨hsplits getenv cbsize, ?_⟩⟩
  intro token _
  rw [processMacros_eq getenv hpos, List.length_append, List.length_singleton, List.length_take]
  exact ⟨by omega, rfl⟩

/-- `a\;b;'c;d'${e}` -/
def macroLine : Str := [97, 92, 59, 98, 59, 39, 99, 59, 100, 39, 36, 123, 101, 125]

def macroEnv (name : Str) : Option Str := if name = [101] then some [120] else none

/-- An escaped semicolon, a quoted one, and a macro. -/
theorem commands_expand_two :
    ∃ tokens, lineTokens macroLine = some tokens ∧ SplitsAt macroEnv 16 macroLine tokens ∧
      tokens.map (processMacros macroEnv 16) = [[97, 59, 98, 0], [99, 59, 100, 120, 0]] ∧
      ∀ token ∈ tokens,
        processMacros macroEnv 16 token = (expand macroEnv 0 token).take 15 ++ [0] := by
  obtain ⟨tokens, htokens, hall⟩ := commands_expand 16 macroLine (by decide) (by decide)
  obtain ⟨hsplits, hexpand⟩ := hall macroEnv
  refine ⟨tokens, htokens, hsplits, ?_, fun token htoken => (hexpand token htoken).2⟩
  have hcut : lineTokens macroLine =
      some [[97, 92, 59, 98], [39, 99, 59, 100, 39, 36, 123, 101, 125]] := by decide
  obtain rfl := Option.some.inj (htokens.symm.trans hcut)
  decide

/-- In `a;;b` the second semicolon is neither escaped nor quoted, and the second command begins
with it; a dollar sign at the end is lost. -/
theorem not_commands_expand :
    (lineTokens [97, 59, 59, 98] = some [[97], [59, 98]] ∧ ¬Shielded (fun _ => none) 8 []) ∧
      processMacros (fun _ => none) 8 [97, 36] = [97, 0] := by
  refine ⟨⟨by decide, ?_⟩, by decide⟩
  rintro (h | h)
  · exact Scan.noConfusion h
  · exact absurd h (by decide)

end UBoot.Cli
