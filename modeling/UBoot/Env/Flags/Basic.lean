import UBoot.Env.Flags.Attr

/-!
# Flags of environment variables

`common/env_flags.c` keeps type and access flags with every variable. A variable that
is created takes them from the list that `flags_list` points to, which is set at the
first call of `env_flags_init`, and otherwise from the static list. The callback of
`.flags` assigns them anew to all variables.

The hash table is a map from names to variables here. Allocations succeed, except that
the table may be full.
-/

namespace UBoot.Env.Flags

open HashTable (Str EnvOp)

/-! ### Types and access -/

/-- `enum env_flags_vartype` -/
inductive VarType where
  | string
  | decimal
  | hex
  | bool
  | ipaddr
  | macaddr
  deriving DecidableEq, Repr

/-- `enum env_flags_varaccess` -/
inductive VarAccess where
  | any
  | readonly
  | writeonce
  | changedefault
  deriving DecidableEq, Repr

def PREVENT_DELETE : Nat := 0x08
def PREVENT_CREATE : Nat := 0x10
def PREVENT_OVERWR : Nat := 0x20
def PREVENT_NONDEF_OVERWR : Nat := 0x40

/-- `env_flags_vartype_rep`, with the number of each type -/
def vartypeRep : List (UInt8 × VarType) :=
  [(115, .string), (100, .decimal), (120, .hex), (98, .bool), (105, .ipaddr), (109, .macaddr)]

def VarType.toNat : VarType → Nat
  | .string => 0
  | .decimal => 1
  | .hex => 2
  | .bool => 3
  | .ipaddr => 4
  | .macaddr => 5

/-- The type in the binary flags; the remaining numbers do not stand for a type. -/
def VarType.ofFlags (flags : Nat) : Option VarType :=
  (vartypeRep[flags &&& 7]?).map (·.2)

/-- `env_flags_varaccess_rep` -/
def varaccessRep : List (UInt8 × VarAccess) :=
  [(97, .any), (114, .readonly), (111, .writeonce), (99, .changedefault)]

/-- `env_flags_varaccess_mask` -/
def VarAccess.mask : VarAccess → Nat
  | .any => 0
  | .readonly => PREVENT_DELETE ||| PREVENT_CREATE ||| PREVENT_OVERWR
  | .writeonce => PREVENT_DELETE ||| PREVENT_OVERWR
  | .changedefault => PREVENT_DELETE ||| PREVENT_NONDEF_OVERWR

/-- `env_flags_parse_vartype` -/
def envFlagsParseVartype (flags : Str) : VarType :=
  (flags[0]?.bind fun c => List.lookup c vartypeRep).getD .string

/-- `env_flags_parse_varaccess` -/
def envFlagsParseVaraccess (flags : Str) : VarAccess :=
  (flags[1]?.bind fun c => List.lookup c varaccessRep).getD .any

/-- `env_parse_flags_to_bin` -/
def envParseFlagsToBin (flags : Str) : Nat :=
  (envFlagsParseVartype flags).toNat &&& 7 ||| (envFlagsParseVaraccess flags).mask

/-! ### Checking a value -/

def isdigit (c : UInt8) : Bool := 48 ≤ c ∧ c ≤ 57
def isxdigit (c : UInt8) : Bool := isdigit c ∨ (97 ≤ c ∧ c ≤ 102) ∨ (65 ≤ c ∧ c ≤ 70)

/-- `is_hex_prefix` -/
def hexMark (value : Str) : Bool := value[0]? = some 48 ∧ (value[1]? = some 120 ∨ value[1]? = some 88)

/-- `skip_num`: what follows the number; no bound stands for `max_digits` -1. -/
def skipNum (hex : Bool) (value : Str) (maxDigits : Option Nat) : Str :=
  let value := if hex && hexMark value then value.drop 2 else value
  let digit := if hex then isxdigit else isdigit
  match maxDigits with
  | none => value.dropWhile digit
  | some n => (value.take n).dropWhile digit ++ value.drop n

/-- The loops over the parts of an IP or a MAC address, `parts` of them to go. -/
def validateParts (hex : Bool) (maxDigits : Nat) (delim : UInt8) : Nat → Str → Bool
  | 0, _ => true
  | parts + 1, cur =>
    let rest := skipNum hex cur (some maxDigits)
    if rest.length = cur.length then false
    else if hex && hexMark cur && rest.length + 2 == cur.length then false
    else if rest.headD 0 ≠ (if parts = 0 then 0 else delim) then false
    else validateParts hex maxDigits delim parts (rest.drop 1)

/-- `_env_flags_validate_type` -/
def validateType (value : Str) : VarType → Bool
  | .string => true
  | .decimal => skipNum false value none = []
  | .hex => skipNum true value none = [] ∧ ¬(value.length = 2 ∧ hexMark value)
  | .bool => value[0]?.any (· ∈ [49, 121, 116, 89, 84, 48, 110, 102, 78, 70]) ∧ value.length = 1
  | .ipaddr => validateParts false 3 46 4 value
  | .macaddr => validateParts true 2 58 6 value

/-- What the build fixes: the static list, the default environment and
`CONFIG_ENV_ACCESS_IGNORE_FORCE`. -/
structure Config where
  staticList : Str
  getenvDefault : Str → Option Str
  ignoreForce : Bool

/-- An entry of the hash table. -/
structure Var where
  value : Str
  flags : Nat
  deriving DecidableEq, Repr

/-- `env_flags_validate`: may the variable be changed? -/
def envFlagsValidate (config : Config) (name : Str) (var : Var) (newval : Str) (op : EnvOp)
    (force : Bool) : Bool :=
  if op ≠ .delete ∧ ¬(VarType.ofFlags var.flags).all (validateType newval) then false
  else if force ∧ ¬config.ignoreForce then true
  else
    match op with
    | .delete => var.flags &&& PREVENT_DELETE = 0
    | .overwrite =>
      if var.flags &&& PREVENT_OVERWR ≠ 0 then false
      else if var.flags &&& PREVENT_NONDEF_OVERWR ≠ 0 then
        var.value = (config.getenvDefault name).getD []
      else true
    | .create => var.flags &&& PREVENT_CREATE = 0

/-! ### The environment -/

/-- `ENV_FLAGS_VAR` -/
def flagsVar : Str := [46, 102, 108, 97, 103, 115]

/-- What the static pointer `flags_list` points to: the data of the entry for `.flags`,
or other memory, as the buffer for reading the raw environment or data that has been
freed. -/
inductive FlagsList where
  | null
  | current
  | other
  deriving DecidableEq, Repr

/-- The hash table, and the static variables of `env_flags.c`. -/
structure State where
  vars : Str → Option Var
  firstCall : Bool
  flagsList : FlagsList

/-- Nothing has been inserted yet. -/
def State.initial : State := ⟨fun _ => none, true, .null⟩

/-- What an operation meets besides the environment: `GD_FLG_ENV_READY`, whether the raw
environment has `.flags`, the text in the other memory, the bytes in front of the lists,
room in the table, and the answer of the variable's callback. -/
structure Surroundings where
  ready : Bool
  stored : Bool
  otherText : Str
  before : UInt8
  beforeStatic : UInt8
  room : Bool
  callbackOk : Bool

/-- The value of `.flags`. -/
def State.flagsText (env : State) : Option Str := (env.vars flagsVar).map (·.value)

/-- `getenv(ENV_FLAGS_VAR)` -/
def getenvFlags (env : State) (sur : Surroundings) : FlagsList :=
  if sur.ready then if (env.vars flagsVar).isSome then .current else .null
  else if sur.stored then .other else .null

/-- `flags_list` as the next call of `env_flags_init` uses it. -/
def State.cachedList (env : State) (sur : Surroundings) : FlagsList :=
  if env.firstCall then getenvFlags env sur else env.flagsList

/-- The text behind `flags_list`. -/
def State.cachedText (env : State) (sur : Surroundings) : Option Str :=
  match env.cachedList sur with
  | .null => none
  | .current => env.flagsText
  | .other => some sur.otherText

/-- `env_flags_lookup` -/
def envFlagsLookup (config : Config) (sur : Surroundings) (list : Option Str) (name : Str) :
    Option Str :=
  (list.bind fun list => envAttrLookup sur.before list name).or
    (envAttrLookup sur.beforeStatic config.staticList name)

/-- `ENV_FLAGS_ATTR_MAX_LEN` -/
def ATTR_MAX_LEN : Nat := 2

/-- The flags that `env_flags_init` gives to a new entry. There is no result when the
attributes do not fit into its array. -/
def initialFlags (config : Config) (sur : Surroundings) (list : Option Str) (name : Str) :
    Option Nat :=
  match envFlagsLookup config sur list name with
  | none => some 0
  | some attributes =>
    if attributes.length > ATTR_MAX_LEN then none
    else if attributes = [] then some 0
    else some (envParseFlagsToBin attributes)

/-- `clear_flags` for all entries -/
def clearFlags (vars : Str → Option Var) : Str → Option Var :=
  fun name => (vars name).map fun var => { var with flags := 0 }

/-- `set_flags` -/
def setFlags (vars : Str → Option Var) (entry : Str × Option Str) : Str → Option Var :=
  fun name => (vars name).map fun var =>
    if name = entry.1 then
      { var with flags :=
        if entry.2.getD [] = [] then 0 else envParseFlagsToBin (entry.2.getD []) }
    else var

/-- `on_flags`; the value is missing when `.flags` is deleted. -/
def onFlags (config : Config) (vars : Str → Option Var) (value : Option Str) :
    Str → Option Var :=
  let vars := (envAttrWalk config.staticList).foldl setFlags (clearFlags vars)
  match value with
  | none => vars
  | some value => (envAttrWalk value).foldl setFlags vars

/-- The callback of a variable, called before the value is changed. -/
def callback (config : Config) (vars : Str → Option Var) (name : Str) (value : Option Str) :
    Str → Option Var :=
  if name = flagsVar then onFlags config vars value else vars

/-- A pointer to the data of `.flags` is left behind when that data is freed. -/
def FlagsList.freed (list : FlagsList) (name : Str) : FlagsList :=
  if name = flagsVar ∧ list = .current then .other else list

/-- The new entry as `env_flags_init` finds it. -/
def State.entered (env : State) (name value : Str) : State :=
  { env with vars := Function.update env.vars name (some ⟨value, 0⟩) }

/-- `hsearch_r` with `ENTER` for a name that is not in the table. -/
def create (config : Config) (sur : Surroundings) (env : State) (name value : Str) (force : Bool) :
    Option State :=
  if sur.room then
    let list := (env.entered name value).cachedList sur
    match initialFlags config sur ((env.entered name value).cachedText sur) name with
    | none => none
    | some flags =>
      if envFlagsValidate config name ⟨value, flags⟩ value .create force ∧
          (name = flagsVar ∨ sur.callbackOk) then
        let vars := Function.update env.vars name (some ⟨value, flags⟩)
        some ⟨callback config vars name (some value), false, list⟩
      else some ⟨env.vars, false, list.freed name⟩
  else some env

/-- `hsearch_r` with `ENTER` for a variable of the table. -/
def overwrite (config : Config) (sur : Surroundings) (env : State) (name value : Str) (var : Var)
    (force : Bool) : State :=
  if envFlagsValidate config name var value .overwrite force ∧
      (name = flagsVar ∨ sur.callbackOk) then
    let vars := callback config env.vars name (some value)
    { env with
      vars := Function.update vars name ((vars name).map fun var => { var with value := value })
      flagsList := env.flagsList.freed name }
  else env

/-- `hdelete_r` for a variable of the table. -/
def delete (config : Config) (sur : Surroundings) (env : State) (name : Str) (var : Var)
    (force : Bool) : State :=
  if envFlagsValidate config name var [] .delete force ∧ (name = flagsVar ∨ sur.callbackOk) then
    { env with
      vars := Function.update (callback config env.vars name none) name none
      flagsList := env.flagsList.freed name }
  else env

/-- The operations on variables, with the `H_FORCE` flag. -/
inductive Op where
  | set (name value : Str) (force : Bool)
  | delete (name : Str) (force : Bool)
  deriving DecidableEq, Repr

/-- One operation. -/
def step (config : Config) (env : State) : Surroundings × Op → Option State
  | (sur, .set name value force) =>
    match env.vars name with
    | none => create config sur env name value force
    | some var => some (overwrite config sur env name value var force)
  | (sur, .delete name force) =>
    match env.vars name with
    | none => some env
    | some var => some (delete config sur env name var force)

end UBoot.Env.Flags
