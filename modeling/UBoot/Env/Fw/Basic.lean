import Mathlib.Tactic.Common
import UBoot.Env.Mmc.Basic

/-!
# The Linux tools on the redundant environment

`fw_env_open` reads both copies, decides by the type of the two devices how
the flag byte is to be read, and loads one copy into `environment`.
`fw_setenv` edits the loaded contents, and `fw_env_close` writes them to the
device that is not the current one. The tools keep nothing between two runs.

A run that fails to read a device ends before it writes anything and is not
modelled. The same two copies are the ones U-Boot sees, so the operations act
on the card of `Mmc.State` and leave U-Boot's volatile variables alone.
-/

namespace UBoot.Env.Fw

open Mmc

universe u

variable {α : Type u}

/-- The device types `flash_read` accepts. A device that is not a character
device, as a partition of an MMC card, is `MTD_ABSENT`. -/
inductive MtdType where
  | absent
  | norFlash
  | nandFlash
  | dataFlash
  | ubiVolume
  deriving DecidableEq, Repr

inductive FlagScheme where
  | boolean
  | incremental
  deriving DecidableEq, Repr

def activeFlag : UInt8 := 1

def obsoleteFlag : UInt8 := 0

/-- The check of flag scheme compatibility, `none` for two incompatible types. -/
def flagScheme (type0 type1 : MtdType) : Option FlagScheme :=
  if type1 = .norFlash ∧ type0 = .norFlash then some .boolean
  else if type1 = .nandFlash ∧ type0 = .nandFlash then some .incremental
  else if type1 = .dataFlash ∧ type0 = .dataFlash then some .boolean
  else if type1 = .ubiVolume ∧ type0 = .ubiVolume then some .incremental
  else if type1 = .absent ∧ type0 = .absent then some .incremental
  else none

/-- The choice between two copies with right CRCs: the number of the device. -/
def checkFlags (scheme : FlagScheme) (flag0 flag1 : UInt8) : Nat :=
  match scheme with
  | .boolean =>
    if flag0 = activeFlag ∧ flag1 = obsoleteFlag then 0
    else if flag0 = obsoleteFlag ∧ flag1 = activeFlag then 1
    else if flag0 = flag1 then 0
    else if flag0 = 0xFF then 0
    else if flag1 = 0xFF then 1
    else 0
  | .incremental =>
    if flag0 = 255 ∧ flag1 = 0 then 1
    else if (flag1 = 255 ∧ flag0 = 0) ∨ flag0 ≥ flag1 then 0
    else 1

/-- `dev_current` and what `environment` points to after `fw_env_open`. -/
structure Environment (α : Type u) where
  devCurrent : Nat
  scheme : FlagScheme
  flags : UInt8
  data : α

/-- `fw_env_open` on two devices. `useDefault` copies `default_environment`
over the contents it is given. -/
def fwEnvOpen (type0 type1 : MtdType) (useDefault : α → α) (s : State α) :
    Option (Environment α) :=
  match flagScheme type0 type1 with
  | none => none
  | some scheme =>
    let crc0Ok := s.env1.crcOk
    let crc1Ok := s.env2.crcOk
    let devCurrent :=
      if crc0Ok && !crc1Ok then 0
      else if !crc0Ok && crc1Ok then 1
      else if !crc0Ok && !crc1Ok then 0
      else checkFlags scheme s.env1.flags s.env2.flags
    if !crc0Ok && !crc1Ok then
      some ⟨devCurrent, scheme, s.env1.flags, useDefault s.env1.data⟩
    else if devCurrent = 0 then
      some ⟨devCurrent, scheme, s.env1.flags, s.env1.data⟩
    else
      some ⟨devCurrent, scheme, s.env2.flags, s.env2.data⟩

/-- The flag byte `flash_write` stores with the new contents. -/
def FlagScheme.next (scheme : FlagScheme) (flags : UInt8) : UInt8 :=
  match scheme with
  | .boolean => activeFlag
  | .incremental => flags + 1

/-- The copy left on the current device: the boolean scheme marks it obsolete. -/
def FlagScheme.retire (scheme : FlagScheme) (copy : EnvCopy α) : EnvCopy α :=
  match scheme with
  | .boolean => { copy with flags := obsoleteFlag }
  | .incremental => copy

/-- `flash_write` to the device that is not the current one, after
`fw_env_close` has stored the CRC of the contents. -/
def flashWrite (env : Environment α) (s : State α) : State α :=
  let copy : EnvCopy α := ⟨true, env.scheme.next env.flags, env.data⟩
  if env.devCurrent = 0 then
    { s with env2 := copy, env1 := env.scheme.retire s.env1 }
  else
    { s with env1 := copy, env2 := env.scheme.retire s.env2 }

/-- A run of `fw_setenv` that gets to its end; `edit` is what `fw_env_write`
does to the contents. -/
def fwSetenv (type0 type1 : MtdType) (useDefault edit : α → α) (s : State α) :
    Option (State α) :=
  match fwEnvOpen type0 type1 useDefault s with
  | none => none
  | some env => some (flashWrite { env with data := edit env.data } s)

end UBoot.Env.Fw
