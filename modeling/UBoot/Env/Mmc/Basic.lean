import Mathlib.Data.List.Basic

/-!
# The redundant environment on MMC

Two copies of the environment are kept at fixed offsets of the card. Each has
a CRC, a one-byte serial `flags` and its contents. `env_flags` and
`gd->env_valid` are volatile: the first is the serial last used, the second
names the copy in use (1 or 2). `saveenv` writes the other copy under the next
serial; `env_relocate_spec` picks a copy at boot.

The contents are left abstract. A failing `write_env` leaves the copy it was
writing untouched or with a wrong CRC; the other failures of `saveenv` happen
before anything is written.
-/

namespace UBoot.Env.Mmc

universe u

/-- One stored `env_t`, as the boot code sees it. -/
structure EnvCopy (α : Type u) where
  crcOk : Bool
  flags : UInt8
  data : α
  deriving DecidableEq, Repr

/-- The two stored copies and the volatile variables. -/
structure State (α : Type u) where
  env1 : EnvCopy α
  env2 : EnvCopy α
  envFlags : UInt8
  envValid : Nat
  deriving DecidableEq, Repr

/-- How the calls below `saveenv` turn out. -/
inductive SaveResult where
  | initFail
  | exportFail
  | addrFail
  | writeFail (damaged : Bool)
  | written
  deriving DecidableEq, Repr

/-- How the calls below `env_relocate_spec` turn out. -/
structure BootResult where
  initFail : Bool := false
  addrFail : Bool := false
  read1Fail : Bool := false
  read2Fail : Bool := false
  deriving DecidableEq, Repr

variable {α : Type u}

/-- Mark a copy as hit by an interrupted write. -/
def EnvCopy.damage (copy : EnvCopy α) (damaged : Bool) : EnvCopy α :=
  if damaged then { copy with crcOk := false } else copy

/-- `saveenv` with the exported contents `data`; the second component is its
return value. The serial is advanced before the write and stays advanced when
the write fails. -/
def saveenv (data : α) (result : SaveResult) (s : State α) : State α × Nat :=
  match result with
  | .initFail => (s, 1)
  | .exportFail => (s, 1)
  | .addrFail => ({ s with envFlags := s.envFlags + 1 }, 1)
  | .writeFail damaged =>
    let s := { s with envFlags := s.envFlags + 1 }
    if s.envValid = 1 then ({ s with env2 := s.env2.damage damaged }, 1)
    else ({ s with env1 := s.env1.damage damaged }, 1)
  | .written =>
    let s := { s with envFlags := s.envFlags + 1 }
    let copy : EnvCopy α := { crcOk := true, flags := s.envFlags, data := data }
    let s' := if s.envValid = 1 then { s with env2 := copy } else { s with env1 := copy }
    ({ s' with envValid := if s.envValid = 2 then 1 else 2 }, 0)

/-- The serial comparison of `env_relocate_spec` when both CRCs are right. -/
def checkSerial (flags1 flags2 : UInt8) : Nat :=
  if flags1 = 255 ∧ flags2 = 0 then 2
  else if flags2 = 255 ∧ flags1 = 0 then 1
  else if flags1 > flags2 then 1
  else if flags2 > flags1 then 2
  else 1

/-- `env_relocate_spec`; the second component is the environment imported, with
`none` for `set_default_env`. -/
def envRelocateSpec (result : BootResult) (s : State α) : State α × Option α :=
  if result.initFail then (s, none)
  else if result.addrFail then (s, none)
  else
    let crc1Ok := !result.read1Fail && s.env1.crcOk
    let crc2Ok := !result.read2Fail && s.env2.crcOk
    if !crc1Ok && !crc2Ok then (s, none)
    else
      let envValid :=
        if crc1Ok && !crc2Ok then 1
        else if !crc1Ok && crc2Ok then 2
        else checkSerial s.env1.flags s.env2.flags
      let ep := if envValid = 1 then s.env1 else s.env2
      ({ s with envValid := envValid, envFlags := ep.flags }, some ep.data)

/-- Power is lost: the copies stay, `env_flags` is zeroed with the BSS and
`env_init` sets `gd->env_valid` to 1. -/
def reset (s : State α) : State α :=
  { s with envFlags := 0, envValid := 1 }

/-- A boot in which the card answers. -/
def boot (s : State α) : State α × Option α :=
  envRelocateSpec {} (reset s)

/-- The copy `gd->env_valid` names. -/
def State.current (s : State α) : EnvCopy α :=
  if s.envValid = 1 then s.env1 else s.env2

/-- The copy the next `saveenv` writes. -/
def State.target (s : State α) : EnvCopy α :=
  if s.envValid = 1 then s.env2 else s.env1

end UBoot.Env.Mmc
