import Mathlib.Algebra.GroupWithZero.Nat
import Mathlib.Data.List.Basic

/-!
# The partition tables of `mtdparts`

`devices` is the list of flash devices that have partitions; each device keeps
its partitions sorted by offset together with their number. The current
partition is a pointer to a device and an 8-bit index into its list.

Objects on the heap are told apart by `ptr`. It is handed out by a counter, so
an address that was freed is not seen again; the source keeps no pointer to a
freed object that it later compares. Strings are lists of characters without
the terminating zero.
-/

namespace UBoot.Mtdparts

/-! ### Numbers in text -/

def isDigit (c : Char) : Bool := '0' ≤ c ∧ c ≤ '9'

def isXdigit (c : Char) : Bool := isDigit c ∨ ('a' ≤ c ∧ c ≤ 'f') ∨ ('A' ≤ c ∧ c ≤ 'F')

def digitValue (c : Char) : Nat :=
  if isDigit c then c.toNat - 48 else if 'a' ≤ c then c.toNat - 87 else c.toNat - 55

/-- The base `simple_strtoul` finds when it is called with base 0, and where
the digits start. -/
def numberBase : List Char → Nat × List Char
  | '0' :: 'x' :: c :: cp => if isXdigit c then (16, c :: cp) else (8, 'x' :: c :: cp)
  | '0' :: cp => (8, cp)
  | cp => (10, cp)

/-- The loop over the digits, in a type of the given width. -/
def digitLoop (bits base : Nat) : List Char → Nat → Nat × List Char
  | [], result => (result, [])
  | c :: cp, result =>
    if isXdigit c ∧ digitValue c < base then
      digitLoop bits base cp ((result * base + digitValue c) % 2 ^ bits)
    else (result, c :: cp)

/-- `simple_strtoul` (32 bits) and `simple_strtoull` (64 bits) with base 0: the
number and the rest of the text. -/
def simpleStrtou (bits : Nat) (cp : List Char) : Nat × List Char :=
  let (base, cp) := numberBase cp
  digitLoop bits base cp 0

/-! ### Devices and partitions -/

/-- `MTD_DEV_TYPE_NOR` and so on. -/
inductive MtdType where
  | nor
  | nand
  | onenand
  deriving DecidableEq, Repr

/-- An entry of the `mtdids` mapping. -/
structure MtdIds where
  type : MtdType
  num : UInt8
  size : UInt64
  mtdId : List Char
  deriving DecidableEq, Repr

/-- A region of blocks of one size. -/
structure EraseRegion where
  offset : UInt64
  erasesize : UInt32
  numblocks : Nat
  deriving DecidableEq, Repr

/-- What the flash driver says about a device. -/
structure MtdInfo where
  erasesize : UInt32
  eraseregions : List EraseRegion
  deriving DecidableEq, Repr

structure PartInfo where
  ptr : Nat
  name : List Char
  autoName : Bool
  size : UInt64
  offset : UInt64
  maskFlags : UInt32
  deriving DecidableEq, Repr

structure MtdDevice where
  ptr : Nat
  id : MtdIds
  numParts : UInt16
  parts : List PartInfo
  deriving DecidableEq, Repr

/-- The global variables. `partition` and `mtddev` are the environment
variables `partition`, and `mtddevnum` with `mtddevname`; the name is missing
where the source reads it through a null pointer. -/
structure State where
  devices : List MtdDevice
  currentMtdDev : Option Nat
  currentMtdPartnum : UInt8
  partition : Option (MtdType × UInt8 × UInt8)
  mtddev : Option (UInt16 × Option (List Char))
  nextPtr : Nat
  deriving DecidableEq, Repr

/-- Nothing defined yet. -/
def State.init : State where
  devices := []
  currentMtdDev := none
  currentMtdPartnum := 0
  partition := none
  mtddev := none
  nextPtr := 1

/-- `mtd_part_info` -/
def mtdPartInfo (dev : MtdDevice) (partNum : Nat) : Option PartInfo :=
  if partNum ≥ dev.numParts.toNat then none else dev.parts[partNum]?

def State.deviceAt (s : State) (ptr : Nat) : Option MtdDevice :=
  s.devices.find? (·.ptr = ptr)

/-- The device `current_mtd_dev` points to. -/
def State.currentDevice (s : State) : Option MtdDevice :=
  s.currentMtdDev.bind s.deviceAt

def State.currentPart (s : State) : Option PartInfo :=
  s.currentDevice.bind fun dev => mtdPartInfo dev s.currentMtdPartnum.toNat

/-- `index_partitions` -/
def indexPartitions (s : State) : State :=
  match s.currentMtdDev with
  | none => { s with mtddev := none }
  | some ptr =>
    let before := s.devices.takeWhile (·.ptr ≠ ptr)
    let mtddevnum := before.foldl (fun n dev => n + dev.numParts) 0 +
      s.currentMtdPartnum.toUInt16
    { s with mtddev := some (mtddevnum, s.currentPart.map PartInfo.name) }

/-- `current_save` -/
def currentSave (s : State) : State :=
  indexPartitions { s with
    partition := s.currentDevice.map fun dev =>
      (dev.id.type, dev.id.num, s.currentMtdPartnum) }

/-! ### Validation -/

/-- `SIZE_REMAINING` and `OFFSET_NOT_SPECIFIED` -/
def sizeRemaining : UInt64 := 0xffffffffffffffff

/-- The block starts of one region, and the address behind it. -/
def EraseRegion.starts (region : EraseRegion) : List UInt32 :=
  (List.range (region.numblocks + 1)).map fun j =>
    region.offset.toUInt32 + UInt32.ofNat j * region.erasesize

/-- `part_validate_eraseblock`, without the sector size it stores. The
addresses compared with several regions are of type `ulong`. -/
def partValidateEraseblock (mtd : MtdInfo) (part : PartInfo) : Bool :=
  if mtd.eraseregions = [] then
    part.offset % mtd.erasesize.toUInt64 = 0 ∧ part.size % mtd.erasesize.toUInt64 = 0
  else
    let starts := mtd.eraseregions.flatMap fun region => region.starts.dropLast
    let last := (mtd.eraseregions.getLast?.bind fun region => region.starts.getLast?).toList
    starts.any (fun start => part.offset = start.toUInt64) ∧
      (starts ++ last).any fun start => part.offset + part.size = start.toUInt64

/-- `part_validate` with the flash devices given by `getMtdInfo`. A remaining
size is filled in. -/
def partValidate (getMtdInfo : MtdType → UInt8 → Option MtdInfo) (id : MtdIds)
    (part : PartInfo) : Option PartInfo :=
  let part := if part.size = sizeRemaining then
    { part with size := id.size - part.offset } else part
  if part.offset > id.size then none
  else if part.offset + part.size ≤ part.offset then none
  else if part.offset + part.size > id.size then none
  else
    match getMtdInfo id.type id.num with
    | none => none
    | some mtd => if partValidateEraseblock mtd part then some part else none

/-! ### Adding and deleting -/

/-- The loop of `part_sort_add`: the list with the partition in it, and the
entry it was put in front of. A second partition at offset 0 is refused. -/
def sortAdd (part : PartInfo) : List PartInfo → Option (List PartInfo × Option PartInfo)
  | [] => some ([part], none)
  | pi :: rest =>
    if part.offset = pi.offset ∧ pi.offset = 0 then none
    else if part.offset ≤ pi.offset then some (part :: pi :: rest, some pi)
    else (sortAdd part rest).map fun (parts, next) => (pi :: parts, next)

/-- Replace the device with the same pointer. -/
def State.setDevice (s : State) (dev : MtdDevice) : State :=
  { s with devices := s.devices.map fun d => if d.ptr = dev.ptr then dev else d }

/-- `part_sort_add` on a device of the list. -/
def partSortAdd (s : State) (dev : MtdDevice) (part : PartInfo) : Option State :=
  match sortAdd part dev.parts with
  | none => none
  | some (parts, next) =>
    let currPi := if s.currentMtdDev = some dev.ptr then
      mtdPartInfo dev s.currentMtdPartnum.toNat else none
    let s' := s.setDevice { dev with numParts := dev.numParts + 1, parts := parts }
    match next, currPi with
    | some pi, some currPi =>
      if pi.offset ≤ currPi.offset then
        some (currentSave { s' with currentMtdPartnum := s.currentMtdPartnum + 1 })
      else some (indexPartitions s')
    | _, _ => some (indexPartitions s')

/-- `part_add`; a failing one changes nothing. -/
def partAdd (getMtdInfo : MtdType → UInt8 → Option MtdInfo) (s : State) (dev : MtdDevice)
    (part : PartInfo) : Option State :=
  (partValidate getMtdInfo dev.id part).bind fun part => partSortAdd s dev part

/-- `device_del` -/
def deviceDel (s : State) (dev : MtdDevice) : State :=
  let s' := { s with devices := s.devices.filter (·.ptr ≠ dev.ptr) }
  if s.currentMtdDev = some dev.ptr then
    match s'.devices with
    | [] => currentSave { s' with currentMtdDev := none }
    | first :: _ =>
      currentSave { s' with currentMtdDev := some first.ptr, currentMtdPartnum := 0 }
  else indexPartitions s'

/-- `part_del` -/
def partDel (s : State) (dev : MtdDevice) (part : PartInfo) : State :=
  if dev.numParts = 1 then deviceDel s dev
  else
    let s' := s.setDevice { dev with
      numParts := dev.numParts - 1
      parts := dev.parts.filter (·.ptr ≠ part.ptr) }
    let currPi := if s.currentMtdDev = some dev.ptr then
      mtdPartInfo dev s.currentMtdPartnum.toNat else none
    match currPi with
    | none => indexPartitions s'
    | some currPi =>
      if currPi.ptr = part.ptr then currentSave { s' with currentMtdPartnum := 0 }
      else if part.offset ≤ currPi.offset then
        currentSave { s' with currentMtdPartnum := s.currentMtdPartnum - 1 }
      else currentSave s'

/-- `device_add` -/
def deviceAdd (s : State) (dev : MtdDevice) : State :=
  let s' := { s with devices := s.devices ++ [dev] }
  if s.devices = [] then
    currentSave { s' with currentMtdDev := some dev.ptr, currentMtdPartnum := 0 }
  else indexPartitions s'

/-- The last loop of `device_parse`, on a device that is not on the list yet. -/
def addAll : List PartInfo → MtdDevice → Option MtdDevice
  | [], dev => some dev
  | part :: rest, dev =>
    match sortAdd part dev.parts with
    | none => none
    | some (parts, _) => addAll rest { dev with numParts := dev.numParts + 1, parts := parts }

/-- Give consecutive pointers to the partitions. -/
def allocate : Nat → List PartInfo → List PartInfo
  | _, [] => []
  | ptr, part :: rest => { part with ptr := ptr } :: allocate (ptr + 1) rest

/-! ### Selecting -/

/-- `mtd_id_parse` -/
def mtdIdParse (id : List Char) : Option (MtdType × UInt8 × List Char) :=
  let parsed :=
    if "nand".toList.isPrefixOf id then some (MtdType.nand, id.drop 4)
    else if "nor".toList.isPrefixOf id then some (MtdType.nor, id.drop 3)
    else if "onenand".toList.isPrefixOf id then some (MtdType.onenand, id.drop 7)
    else none
  match parsed with
  | some (type, c :: p) =>
    if isDigit c then
      let (num, p) := simpleStrtou 32 (c :: p)
      some (type, UInt8.ofNat num, p)
    else none
  | _ => none

/-- `device_find` -/
def deviceFind (s : State) (type : MtdType) (num : UInt8) : Option MtdDevice :=
  s.devices.find? fun dev => dev.id.type = type ∧ dev.id.num = num

/-- The inner loop of `find_dev_and_part`, with its 8-bit counter. -/
def findName (id : List Char) : List PartInfo → UInt8 → Option (UInt8 × PartInfo)
  | [], _ => none
  | part :: rest, partNum =>
    if part.name = id then some (partNum, part) else findName id rest (partNum + 1)

/-- `find_dev_and_part`: a name anywhere, else a device and a number. -/
def findDevAndPart (s : State) (id : List Char) : Option (MtdDevice × UInt8 × PartInfo) :=
  let named := s.devices.findSome? fun dev =>
    (findName id dev.parts 0).map fun (partNum, part) => (dev, partNum, part)
  match named with
  | some found => some found
  | none =>
    match mtdIdParse id with
    | some (type, dnum, ',' :: c :: p) =>
      let (pnum, p) := simpleStrtou 32 (c :: p)
      if p = [] then
        (deviceFind s type dnum).bind fun dev =>
          (mtdPartInfo dev (UInt8.ofNat pnum).toNat).map fun part =>
            (dev, UInt8.ofNat pnum, part)
      else none
    | _ => none

/-- `do_chpart` -/
def chpart (s : State) (id : List Char) : State :=
  match findDevAndPart s id with
  | none => s
  | some (dev, pnum, _) =>
    currentSave { s with currentMtdDev := some dev.ptr, currentMtdPartnum := pnum }

end UBoot.Mtdparts
