import Mathlib.Algebra.GroupWithZero.Nat
import UBoot.HashTable.Basic

/-!
# Export and import

`hexport_r` writes a table as text, one `name=value` entry after another, and
`himport_r` reads such a text back. Both work on buffers of bytes. An access past
the end of a buffer, or through a null pointer, has no result (`none`).
-/

namespace UBoot.HashTable

def H_NOCLEAR : Nat := 1
def H_HIDE_DOT : Nat := 8

def CONFIG_ENV_MIN_ENTRIES : Nat := 64
def CONFIG_ENV_MAX_ENTRIES : Nat := 512

/-- The bytes with a meaning in the text: `=`, `#`, backslash, dot, space, tab,
carriage return and line feed. -/
def chEquals : UInt8 := 61
def chHash : UInt8 := 35
def chBackslash : UInt8 := 92
def chDot : UInt8 := 46
def chSpace : UInt8 := 32
def chTab : UInt8 := 9
def chCr : UInt8 := 13
def chLf : UInt8 := 10

/-! ### Sorting -/

/-- `strcmp`, whose difference is kept in a signed char. -/
def strcmp : Str → Str → Int
  | [], [] => 0
  | [], b :: _ => (128 - (b.toNat : Int)) % 256 - 128
  | a :: _, [] => ((a.toNat : Int) + 128) % 256 - 128
  | a :: as, b :: bs =>
    let res := ((a.toNat : Int) - b.toNat + 128) % 256 - 128
    if res ≠ 0 then res else strcmp as bs

section Qsort

variable {α : Type} (comp : α → α → Int)

/-- The first loop of `qsort`, which makes the first gap. -/
def firstGap (nel : Nat) : Nat → Nat → Nat
  | 0, wgap => wgap
  | fuel + 1, wgap =>
    let wgap := 3 * wgap + 1
    if wgap < (nel - 1) / 3 then firstGap nel fuel wgap else wgap

/-- The innermost loop of `qsort`: move the element at `j` down in steps of the
gap. There are at most `j` steps. -/
def siftDown (wgap : Nat) : Nat → Nat → Array α → Array α
  | 0, _, base => base
  | fuel + 1, j, base =>
    let j := j - wgap
    match base[j]?, base[j + wgap]? with
    | some a, some b =>
      if comp a b ≤ 0 then base
      else
        let base := base.swapIfInBounds j (j + wgap)
        if wgap ≤ j then siftDown wgap fuel j base else base
    | _, _ => base

/-- One pass of `qsort` with a gap. -/
def gapPass (wgap : Nat) (base : Array α) : Array α :=
  (List.range (base.size - wgap)).foldl (fun base d => siftDown comp wgap (wgap + d) (wgap + d) base)
    base

/-- The passes of `qsort`, with gaps down to one. -/
def gapPasses : Nat → Nat → Array α → Array α
  | 0, _, base => base
  | fuel + 1, wgap, base =>
    let base := gapPass comp wgap base
    let wgap := (wgap - 1) / 3
    if wgap ≠ 0 then gapPasses fuel wgap base else base

/-- `qsort` -/
def qsort (list : List α) : List α :=
  let nel := list.length
  if nel > 1 then
    let wgap := firstGap nel nel 0
    (gapPasses comp wgap wgap list.toArray).toList
  else list

end Qsort

/-! ### Export -/

/-- The key and the data of a slot in use. -/
def entryText (slot : Slot) : Option (Str × Str) := do
  return (← slot.entry.key, ← slot.entry.data)

/-- Pass 1 of `hexport_r`: the entries to write. `matched` is `match_entry`, when
there are patterns to match. -/
def collectEntries (htab : HsearchData) (flag : Nat) (matched : Option (Entry → Bool)) :
    Option (List (Str × Str)) := do
  let slots := (List.range htab.size).map fun i => htab.table (i + 1)
  let used := slots.filter fun slot => 0 < slot.used ∧ matched.all (· slot.entry)
  let entries ← used.mapM entryText
  return entries.filter fun (key, _) => ¬ (flag &&& H_HIDE_DOT ≠ 0 ∧ key.head? = some chDot)

/-- The room that pass 1 reserves for an entry. -/
def reservedLength (sep : UInt8) (entry : Str × Str) : Nat :=
  entry.1.length + 2 +
    (if sep = 0 then entry.2.length
     else entry.2.length + entry.2.countP fun c => c = sep ∨ c = chBackslash) + 2

/-- Separators and backslashes of a value are preceded by a backslash. -/
def escape (sep : UInt8) (value : Str) : Str :=
  value.flatMap fun c => if c = sep ∨ c = chBackslash then [chBackslash, c] else [c]

/-- What pass 2 writes for an entry. -/
def exportEntry (sep : UInt8) (entry : Str × Str) : List UInt8 :=
  entry.1 ++ chEquals :: (escape sep entry.2 ++ [sep])

/-- The text that pass 2 writes. -/
def exportText (sep : UInt8) (entries : List (Str × Str)) : List UInt8 :=
  (qsort (fun a b => strcmp a.1 b.1) entries).flatMap (exportEntry sep) ++ [0]

/-- `hexport_r`: the buffer of `size` bytes, or of the length computed in pass 1
when `size` is 0. `haveBuffer` says that it was given or could be allocated. -/
def hexportR (htab : HsearchData) (sep : UInt8) (flag : Nat) (matched : Option (Entry → Bool))
    (size : Nat) (haveBuffer : Bool) : Option (Except Errno (List UInt8)) := do
  let entries ← collectEntries htab flag matched
  let totlen := (entries.map (reservedLength sep)).sum
  if size ≠ 0 ∧ size < totlen + 1 then return .error .enomem
  else if !haveBuffer then return .error .enomem
  else
    let size := if size = 0 then totlen + 1 else size
    let text := exportText sep entries
    if text.length ≤ size then return .ok (text ++ List.replicate (size - text.length) 0)
    else none

/-! ### Import -/

/-- `while (p(*dp)) ++dp;` -/
def scanWhile (p : UInt8 → Bool) (data : List UInt8) (dp : Nat) : Option Nat :=
  ((data.drop dp).findIdx? fun c => !p c).map (dp + ·)

/-- The string at a position of the buffer. -/
def stringAt (data : List UInt8) (dp : Nat) : Option Str := do
  let stop ← scanWhile (· ≠ 0) data dp
  return (data.drop dp).take (stop - dp)

def putByte (data : List UInt8) (i : Nat) (c : UInt8) : Option (List UInt8) :=
  if i < data.length then some (data.set i c) else none

/-- The loop that removes carriage returns in front of line feeds: the buffer and
how many were removed. -/
def removeCrs : Nat → List UInt8 → Nat → Nat → List UInt8 × Nat
  | 0, data, _, ignored => (data, ignored)
  | fuel + 1, data, dp, ignored =>
    match data[dp]? with
    | none => (data, ignored)
    | some c =>
      if c = 0 then (data, ignored)
      else if c = chCr ∧ data[dp + 1]? = some chLf then
        removeCrs fuel data (dp + 1) (ignored + 1)
      else removeCrs fuel (data.set (dp - ignored) c) (dp + 1) ignored

/-- The loop that parses a value: it is moved to `sp` without its escapes. -/
def valueLoop (sep : UInt8) : Nat → List UInt8 → Nat → Nat → Option (List UInt8 × Nat × Nat)
  | 0, _, _, _ => none
  | fuel + 1, data, sp, dp => do
    let c ← data[dp]?
    if c ≠ 0 ∧ c ≠ sep then
      let next ← if c = chBackslash then data[dp + 1]? else some 0
      let dp := if next ≠ 0 then dp + 1 else dp
      let data ← putByte data sp (← data[dp]?)
      valueLoop sep fuel data (sp + 1) (dp + 1)
    else return (data, sp, dp)

/-- What one turn of the parser finds. -/
inductive Parsed where
  | comment
  | delete (name : Str)
  | noName
  | enter (name value : Str)

/-- One turn of the parser: the buffer, the next position, and what was found. -/
def parseEntry (sep : UInt8) (data : List UInt8) (dp : Nat) :
    Option (List UInt8 × Nat × Parsed) := do
  let dp ← scanWhile (fun c => c = chSpace ∨ c = chTab) data dp
  if (← data[dp]?) = chHash then
    let dp ← scanWhile (fun c => c ≠ 0 ∧ c ≠ sep) data dp
    return (data, dp + 1, .comment)
  else
    let name := dp
    let dp ← scanWhile (fun c => c ≠ chEquals ∧ c ≠ 0 ∧ c ≠ sep) data dp
    let c ← data[dp]?
    -- the byte after is looked at only when this one is not NUL
    let next ← if c = 0 then some 0 else data[dp + 1]?
    if c = 0 ∨ next = 0 ∨ c = sep ∨ next = sep then
      let data ← if c = chEquals then putByte data dp 0 else some data
      let dp := if c = chEquals then dp + 1 else dp
      let data ← putByte data dp 0
      return (data, dp + 1, .delete (← stringAt data name))
    else
      let data ← putByte data dp 0
      let value := dp + 1
      let (data, sp, dp) ← valueLoop sep (data.length + 1) data value value
      let data ← putByte data sp 0
      let nameText ← stringAt data name
      if nameText = [] then return (data, dp + 1, .noName)
      else return (data, dp + 1, .enter nameText (← stringAt data value))

/-- `drop_var_from_set` -/
def dropVarFromSet (name : Str) (vars : List (Option Str)) : Bool × List (Option Str) :=
  if vars = [] then (true, vars)
  else (vars.contains (some name), vars.map fun v => if v = some name then none else v)

/-- The effect of one entry on the table. `none` inside ends the import with an
error. -/
def applyParsed (ctx : Context) (flag : Nat) (htab : HsearchData) (vars : List (Option Str)) :
    Parsed → Option (Option (HsearchData × List (Option Str)))
  | .comment => some (some (htab, vars))
  | .noName => some none
  | .delete name => do
    let (listed, vars) := dropVarFromSet name vars
    if listed then return some ((← hdeleteR ctx name htab flag).htab, vars)
    else return some (htab, vars)
  | .enter name value => do
    let (listed, vars) := dropVarFromSet name vars
    if listed then return some ((← hsearchR ctx name (some value) .enter htab flag).htab, vars)
    else return some (htab, vars)

/-- How the loop of `himport_r` ends: with an error, or at the end of the text. -/
inductive Imported where
  | failed (htab : HsearchData)
  | ok (htab : HsearchData) (vars : List (Option Str))

/-- The loop of `himport_r`. Each turn moves on by a byte at least. -/
def importLoop (ctx : Context) (sep : UInt8) (flag size : Nat) :
    Nat → HsearchData → List (Option Str) → List UInt8 → Nat → Option Imported
  | 0, _, _, _, _ => none
  | fuel + 1, htab, vars, data, dp => do
    let (data, dp, parsed) ← parseEntry sep data dp
    match ← applyParsed ctx flag htab vars parsed with
    | none => return .failed htab
    | some (htab, vars) =>
      if dp < size then
        if (← data[dp]?) ≠ 0 then importLoop ctx sep flag size fuel htab vars data dp
        else return .ok htab vars
      else return .ok htab vars

/-- The last loop of `himport_r`: listed variables that were not in the text. -/
def deleteRest (ctx : Context) (flag : Nat) (htab : HsearchData) (vars : List (Option Str)) :
    Option HsearchData :=
  (vars.filterMap id).foldlM (fun htab name => return (← hdeleteR ctx name htab flag).htab) htab

/-- `himport_r`: the value it returns and the table. `mallocOk` and `callocOk`
say whether its own allocations succeed. -/
def himportR (ctx : Context) (htab : HsearchData) (env : List UInt8) (sep : UInt8) (flag : Nat)
    (crlfIsLf : Bool) (vars : List Str) (mallocOk callocOk : Bool) :
    Option (Nat × HsearchData) := do
  let size := env.length
  if !mallocOk then return (0, htab)
  else
    let htab := if flag &&& H_NOCLEAR = 0 then hdestroyR htab else htab
    let nent := min (CONFIG_ENV_MIN_ENTRIES + size / 8) CONFIG_ENV_MAX_ENTRIES
    let (created, htab) ← if htab.active then some (1, htab) else hcreateR nent htab callocOk
    if created = 0 then return (0, htab)
    else if size = 0 then return (1, htab)
    else
      let (data, ignored) := if crlfIsLf then removeCrs size env 0 0 else (env, 0)
      match ← importLoop ctx sep flag (size - ignored) (size + 1) htab (vars.map some) data 0 with
      | .failed htab => return (0, htab)
      | .ok htab vars => return (1, ← deleteRest ctx flag htab vars)

end UBoot.HashTable
