import Mathlib.Logic.Function.Basic
import UBoot.Verification.Bytes

/-!
# Flashing the environment as text

`parse_env` and `saveenv_to_ptn` of `drivers/usb/gadget/f_fastboot.c`. Pointers into the
transfer buffer are offsets. A call of `save_env` is noted with the strings that it gets;
there is no result when a string does not end in the buffer. `debug` is 0.
-/

namespace UBoot.Fastboot.Saveenv

open Verification

def isBlank (c : UInt8) : Bool := c = 32 || c = 9

/-- A line ends with a carriage return or a line feed. -/
def isEol (c : UInt8) : Bool := c = 13 || c = 10

/-- A call of `save_env`: the name, and the value unless it is unset. -/
abbrev Assignment := List UInt8 × Option (List UInt8)

/-- The variables of `parse_env`, the transfer buffer and the calls of `save_env`. -/
structure Parse where
  buff : Ptr
  commentStart : Bool
  var : Option Nat
  varEnd : Option Nat
  val : Option Nat
  valEnd : Option Nat
  sets : Nat
  log : List Assignment

/-- Why `parse_env` stops in the middle: its own error, or an access through a null
pointer or behind the terminator. -/
inductive Fault
  | internal
  | access

/-- A byte of the buffer is stored. -/
def poke (buff : Ptr) (k : Nat) (c : UInt8) : Ptr := Function.update buff k c

/-- The string at an offset, which has to end in the next `left` bytes. -/
def cString (buff : Ptr) : Nat → Nat → Except Fault (List UInt8)
  | 0, _ => .error .access
  | left + 1, p =>
    if buff p = 0 then .ok [] else (cString buff left (p + 1)).map (buff p :: ·)

section

variable (save : Bool) (size : Nat)

/-- `save_env` -/
def saveEnv (s : Parse) : Except Fault Parse :=
  match s.var, s.val with
  | none, _ => .error .access
  | some var, none => do
    let name ← cString s.buff (size + 1 - var) var
    .ok { s with log := s.log ++ [(name, none)] }
  | some var, some val => do
    let name ← cString s.buff (size + 1 - var) var
    let value ← cString s.buff (size + 1 - val) val
    .ok { s with log := s.log ++ [(name, some value)] }

/-- A line end that is escaped, and its backslash, are replaced by blanks. -/
def joinLines (buff : Ptr) (i : Nat) : Ptr :=
  let dos := if buff i = 13 ∧ buff (i + 1) = 10 then poke buff (i + 1) 32 else buff
  poke (poke dos i 32) (i - 1) 32

/-- The first half of a round of the loop: what the character means. -/
def scanChar (i : Nat) (s : Parse) : Except Fault Parse :=
  let c := s.buff i
  if s.var = none then
    if s.commentStart ∨ c = 35 then .ok { s with commentStart := !isEol c }
    else if isBlank c ∨ isEol c then .ok s
    else .ok { s with var := some i }
  else if (s.varEnd = none ∨ s.val = none) ∧ isEol c then do
    let s ← if save then saveEnv size { s with buff := poke s.buff i 0 } else .ok s
    .ok { s with var := none, varEnd := none, sets := s.sets + 1 }
  else if s.varEnd = none then .ok (if isBlank c then { s with varEnd := some i } else s)
  else if s.val = none then .ok (if isBlank c then s else { s with val := some i })
  else if s.valEnd = none then
    if isEol c then
      if s.buff (i - 1) = 92 then .ok { s with buff := joinLines s.buff i }
      else .ok { s with valEnd := some i }
    else .ok s
  else .error .internal

/-- The second half: a pair that is ready. -/
def finishPair (s : Parse) : Except Fault Parse :=
  match s.valEnd, s.varEnd with
  | none, _ => .ok s
  | some _, none => .error .access
  | some valEnd, some varEnd => do
    let s ←
      if save then saveEnv size { s with buff := poke (poke s.buff varEnd 0) valEnd 0 }
      else .ok s
    .ok { s with
      var := none, varEnd := none, val := none, valEnd := none, sets := s.sets + 1 }

/-- The loop, with the number of characters that are left. -/
def parseLoop : Nat → Nat → Parse → Except Fault Parse
  | 0, _, s => .ok s
  | left + 1, i, s => do
    let s ← scanChar save size i s
    let s ← finishPair save size s
    parseLoop left (i + 1) s

/-- The end of the text without a line end. -/
def finishText (s : Parse) : Except Fault Parse :=
  if s.var ≠ none ∧ s.valEnd = none then do
    let s ←
      if save then
        saveEnv size (match s.varEnd with
          | none => s
          | some varEnd => { s with buff := poke s.buff varEnd 0 })
      else .ok s
    .ok { s with sets := s.sets + 1 }
  else .ok s

/-- `parse_env`; the result is 0 if `sets` is not. -/
def parseEnv (buff : Ptr) : Except Fault Parse := do
  let buff := if save then poke buff size 0 else buff
  let s ← parseLoop save size size 0 ⟨buff, false, none, none, none, none, 0, []⟩
  finishText save size s

end

/-- What `saveenv_to_ptn` returns, with the message and what it did. -/
structure Saved where
  ret : Int
  errString : String
  buff : Ptr
  log : List Assignment

/-- `saveenv_to_ptn` -/
def saveenvToPtn (size : Nat) (buff : Ptr) : Except Fault Saved := do
  let first ← parseEnv false size buff
  if first.sets = 0 then .ok ⟨1, "No variables set", first.buff, first.log⟩
  else
    let second ← parseEnv true size first.buff
    if second.sets = 0 then .ok ⟨1, "No variables set", second.buff, second.log⟩
    else .ok ⟨0, "Unknown Error", second.buff, second.log⟩

/-! ## What the text says -/

/-- What a line assigns: nothing if it is blank or a comment. -/
def lineAssignment (line : List UInt8) : Option Assignment :=
  match line.dropWhile isBlank with
  | [] => none
  | c :: rest =>
    if c = 35 then none
    else
      let value := ((c :: rest).dropWhile fun c => !isBlank c).dropWhile isBlank
      some ((c :: rest).takeWhile fun c => !isBlank c, if value = [] then none else some value)

/-- A line whose value ends with a backslash goes on behind the line end. -/
def EndsEscaped (line : List UInt8) : Prop :=
  (∃ name value, lineAssignment line = some (name, some value)) ∧ line.getLast? = some 92

instance (line : List UInt8) : Decidable (EndsEscaped line) :=
  match h : lineAssignment line with
  | some (name, some value) =>
    decidable_of_iff (line.getLast? = some 92) ⟨fun hl => ⟨⟨name, value, h⟩, hl⟩, And.right⟩
  | none => .isFalse fun ⟨⟨_, _, heq⟩, _⟩ => nomatch h.symm.trans heq
  | some (_, none) => .isFalse fun ⟨⟨_, _, heq⟩, _⟩ => nomatch h.symm.trans heq

/-- The lines of a text behind `line`, and whether they end with a line end. Blanks take
the place of a line end in a value; `cr` tells that a line feed still belongs to it. -/
def logicalLines (cr : Bool) (line : List UInt8) : List UInt8 → List (List UInt8 × Bool)
  | [] => [(line, false)]
  | c :: text =>
    if cr ∧ c = 10 then logicalLines false (line ++ [32]) text
    else if isEol c then
      if EndsEscaped line then logicalLines (c = 13) (line.dropLast ++ [32, 32]) text
      else (line, true) :: logicalLines false [] text
    else logicalLines false (line ++ [c]) text

def assignments (text : List UInt8) : List Assignment :=
  (logicalLines false [] text).filterMap fun l => lineAssignment l.1

/-- The first pass does not change the text, the second one makes the assignments of the
text, and nothing is changed behind the terminator. -/
structure SaveenvRight (buff : Ptr) (size : Nat) : Prop where
  first : ∃ s, parseEnv false size buff = .ok s ∧ s.buff.bytes size = buff.bytes size
  saved : ∃ r, saveenvToPtn size buff = .ok r ∧ r.log = assignments (buff.bytes size) ∧
    (r.ret = 0 ↔ assignments (buff.bytes size) ≠ []) ∧ ∀ k, size < k → r.buff k = buff k

/-- No line end in a value is escaped. -/
def Plain (line : List UInt8) : List UInt8 → Prop
  | [] => True
  | c :: text =>
    if isEol c then ¬EndsEscaped line ∧ Plain [] text else Plain (line ++ [c]) text

/-- A line that is saved as it is: there is no NUL in its name and its value, and if it has
no value the line end is right behind the name. -/
def LineFine (l : List UInt8 × Bool) : Prop :=
  match lineAssignment l.1 with
  | none => True
  | some (name, none) => 0 ∉ name ∧ (l.2 = true → l.1.dropWhile isBlank = name)
  | some (name, some value) => 0 ∉ name ∧ 0 ∉ value

/-- The texts that are saved as they are. -/
structure EnvText (text : List UInt8) : Prop where
  plain : Plain [] text
  fine : ∀ l ∈ logicalLines false [] text, LineFine l

end UBoot.Fastboot.Saveenv
