import Mathlib.Logic.Function.Basic

/-!
# The hash table of the environment

`lib/hashtable.c`: open addressing with double hashing. A slot with `used == 0`
was never used, `used == -1` marks a deleted entry, and any other value is the
first hash index of the entry's key. Strings are lists of bytes without NUL, and
a pointer to a string may be null (`none`).

The table is allocated with `size + 1` slots, so an index above `size` is out of
bounds. Such an access, or `strcmp` with a null pointer, has no result
(`none`). Arithmetic on `unsigned int` is taken modulo `2 ^ 32`.
-/

namespace UBoot.HashTable

/-- A string, without its terminating NUL. -/
abbrev Str := List UInt8

/-- `ACTION` -/
inductive Action where
  | find
  | enter
  deriving DecidableEq, Repr

/-- `enum env_op` -/
inductive EnvOp where
  | create
  | delete
  | overwrite
  deriving DecidableEq, Repr

/-- The error numbers set here. -/
inductive Errno where
  | einval
  | enomem
  | eperm
  | esrch
  deriving DecidableEq, Repr

/-- A callback of a variable; `true` stands for a result other than 0, which
rejects the change. -/
abbrev Callback := Str → Option Str → EnvOp → Int → Bool

/-- `ENTRY` -/
structure Entry where
  key : Option Str
  data : Option Str
  callback : Option Callback
  flags : Int

/-- `_ENTRY` -/
structure Slot where
  used : Int
  entry : Entry

def Slot.zero : Slot := ⟨0, ⟨none, none, none, 0⟩⟩

/-- `struct hsearch_data`. `active` says that `table` is not null; `change_ok`
rejects with `true`. -/
structure HsearchData where
  active : Bool
  table : Nat → Slot
  size : Nat
  filled : Nat
  changeOk : Option (Entry → Option Str → EnvOp → Int → Bool)

/-- Store one slot. -/
def HsearchData.set (htab : HsearchData) (idx : Nat) (slot : Slot) : HsearchData :=
  { htab with table := Function.update htab.table idx slot }

/-- What a call gets from the rest of the program: which of its `strdup` calls
succeed, and what `env_callback_init` and `env_flags_init` set for an entry. -/
structure Context where
  strdupKey : Bool
  strdupData : Bool
  callbackInit : Entry → Option Callback
  flagsInit : Entry → Int

/-- The table after a call, the value returned, the slot `*retval` points into,
and `errno` when it was set. -/
structure Result where
  htab : HsearchData
  ret : Nat
  retval : Option Nat
  errno : Option Errno

/-- A call that fails returns 0. -/
def Result.failed (htab : HsearchData) (errno : Errno) : Result := ⟨htab, 0, none, some errno⟩

/-! ### Creating a table -/

/-- More iterations than a loop over 32-bit numbers needs. -/
def iterations : Nat := 4294967296

/-- The loop of `isprime`: the final value of `div`. -/
def isprimeLoop (number : Nat) : Nat → Nat → Option Nat
  | 0, _ => none
  | fuel + 1, div =>
    if div * div % 4294967296 < number ∧ number % div ≠ 0 then
      isprimeLoop number fuel ((div + 2) % 4294967296)
    else some div

/-- `isprime` -/
def isprime (number : Nat) : Option Bool := do
  let div ← isprimeLoop number iterations 3
  return number % div ≠ 0

/-- The loop of `hcreate_r`: the first number from `nel` on, in steps of two,
that passes the test. -/
def primeLoop : Nat → Nat → Option Nat
  | 0, _ => none
  | fuel + 1, nel => do
    if ← isprime nel then return nel
    else primeLoop fuel ((nel + 2) % 4294967296)

/-- `sizeof(_ENTRY)` -/
def ENTRY_BYTES : Nat := 20

/-- `hcreate_r`. The allocation fails when `callocOk` says so, and when the
table does not fit the address space. -/
def hcreateR (nel : Nat) (htab : HsearchData) (callocOk : Bool) :
    Option (Nat × HsearchData) :=
  if htab.active then some (0, htab)
  else do
    let size ← primeLoop iterations (nel ||| 1)
    let htab := { htab with size := size, filled := 0 }
    if callocOk ∧ (size + 1) * ENTRY_BYTES < 4294967296 then
      return (1, { htab with active := true, table := fun _ => Slot.zero })
    else return (0, htab)

/-- `hdestroy_r` -/
def hdestroyR (htab : HsearchData) : HsearchData := { htab with active := false }

/-! ### Searching -/

/-- The value computed for a string, from its last byte to its first. -/
def hashValue (key : Str) : Nat :=
  key.foldr (fun c hval => (hval * 16 + c.toNat) % 4294967296) (key.length % 4294967296)

/-- The first hash function, which is also the first index tried. -/
def firstIndex (size : Nat) (key : Str) : Nat :=
  if hashValue key % size = 0 then 1 else hashValue key % size

def secondHash (size hval : Nat) : Nat :=
  (1 + hval % ((size + 4294967296 - 2) % 4294967296)) % 4294967296

def nextIndex (size hval2 idx : Nat) : Nat :=
  if idx ≤ hval2 then (size + idx + 4294967296 - hval2) % 4294967296 else idx - hval2

/-- What `_compare_and_overwrite_entry` does with the entry it was looking for. -/
def foundEntry (ctx : Context) (key : Str) (data : Option Str) (action : Action)
    (htab : HsearchData) (flag : Int) (idx : Nat) : Result :=
  let slot := htab.table idx
  match action, data with
  | .enter, some value =>
    if htab.changeOk.any (· slot.entry (some value) .overwrite flag) then
      .failed htab .eperm
    else if slot.entry.callback.any (· key (some value) .overwrite flag) then
      .failed htab .einval
    else if ctx.strdupData then
      ⟨htab.set idx { slot with entry.data := some value }, idx, some idx, none⟩
    else .failed (htab.set idx { slot with entry.data := none }) .enomem
  | _, _ => ⟨htab, idx, some idx, none⟩

/-- `_compare_and_overwrite_entry`, with `none` inside for -1, to keep searching. -/
def compareAndOverwriteEntry (ctx : Context) (key : Str) (data : Option Str) (action : Action)
    (htab : HsearchData) (flag : Int) (hval idx : Nat) : Option (Option Result) :=
  let slot := htab.table idx
  if slot.used = hval then
    match slot.entry.key with
    | none => none
    | some stored =>
      if key = stored then some (some (foundEntry ctx key data action htab flag idx))
      else some none
  else some none

/-- How the search of `hsearch_r` ends: with a result, or at an index where the
key may be entered. -/
inductive Probe where
  | done (result : Result)
  | at (idx : Nat)

/-- The loop of `hsearch_r`. -/
def probeLoop (ctx : Context) (key : Str) (data : Option Str) (action : Action)
    (htab : HsearchData) (flag : Int) (hval hval2 : Nat) : Nat → Nat → Option Probe
  | 0, _ => none
  | fuel + 1, idx =>
    let idx := nextIndex htab.size hval2 idx
    if idx = hval then some (.at idx)
    else if htab.size < idx then none
    else do
      match ← compareAndOverwriteEntry ctx key data action htab flag hval idx with
      | some result => return .done result
      | none =>
        if (htab.table idx).used ≠ 0 then
          probeLoop ctx key data action htab flag hval hval2 fuel idx
        else return .at idx

/-- The search of `hsearch_r`. -/
def probe (ctx : Context) (key : Str) (data : Option Str) (action : Action)
    (htab : HsearchData) (flag : Int) (hval : Nat) : Option Probe :=
  if (htab.table hval).used ≠ 0 then do
    match ← compareAndOverwriteEntry ctx key data action htab flag hval hval with
    | some result => return .done result
    | none =>
      probeLoop ctx key data action htab flag hval (secondHash htab.size hval) iterations hval
  else some (.at hval)

/-- `++htab->filled` and `--htab->filled`, as `unsigned int`. -/
def incr32 (n : Nat) : Nat := (n + 1) % 4294967296
def decr32 (n : Nat) : Nat := (n + 4294967296 - 1) % 4294967296

/-- `_hdelete` -/
def hdelete (htab : HsearchData) (idx : Nat) : HsearchData :=
  let slot := htab.table idx
  { htab.set idx { used := -1, entry := { slot.entry with callback := none, flags := 0 } } with
    filled := decr32 htab.filled }

/-- The end of `hsearch_r` for a new entry at `idx`. -/
def enterNew (ctx : Context) (key : Str) (data : Option Str) (htab : HsearchData) (flag : Int)
    (hval idx : Nat) : Result :=
  let entry := { (htab.table idx).entry with
    key := if ctx.strdupKey then some key else none
    data := if ctx.strdupData then data else none }
  if entry.key = none ∨ entry.data = none then
    .failed (htab.set idx ⟨hval, entry⟩) .enomem
  else
    let entry := { entry with callback := ctx.callbackInit entry }
    let entry := { entry with flags := ctx.flagsInit entry }
    let htab := { htab.set idx ⟨hval, entry⟩ with filled := incr32 htab.filled }
    if htab.changeOk.any (· entry data .create flag) then
      .failed (hdelete htab idx) .eperm
    else if entry.callback.any (· key data .create flag) then
      .failed (hdelete htab idx) .einval
    else ⟨htab, 1, some idx, none⟩

/-- `hsearch_r` -/
def hsearchR (ctx : Context) (key : Str) (data : Option Str) (action : Action)
    (htab : HsearchData) (flag : Int) : Option Result :=
  let hval := firstIndex htab.size key
  -- only the first slot tried is remembered when it is a deleted one
  let firstDeleted := if (htab.table hval).used = -1 then hval else 0
  do
    match ← probe ctx key data action htab flag hval with
    | .done result => return result
    | .at idx =>
      match action with
      | .find => return .failed htab .esrch
      | .enter =>
        if htab.filled = htab.size then return .failed htab .enomem
        else
          let idx := if firstDeleted ≠ 0 then firstDeleted else idx
          return enterNew ctx key data htab flag hval idx

/-- `hdelete_r` -/
def hdeleteR (ctx : Context) (key : Str) (htab : HsearchData) (flag : Int) : Option Result := do
  let found ← hsearchR ctx key none .find htab 0
  let idx := found.ret
  let slot := htab.table idx
  if idx = 0 then return .failed htab .esrch
  else if htab.changeOk.any (· slot.entry none .delete flag) then return .failed htab .eperm
  else if slot.entry.callback.any (· key none .delete flag) then return .failed htab .einval
  else return ⟨hdelete htab idx, 1, none, none⟩

end UBoot.HashTable
