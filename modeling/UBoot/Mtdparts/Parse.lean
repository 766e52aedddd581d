import UBoot.Mtdparts.Basic

/-!
# Reading and writing the `mtdparts` variable

The text is `mtdparts=<mtd-id>:<part>,<part>;<mtd-id>:<part>` with partitions
`<size>[@<offset>][(<name>)][ro]`. The parsers return what they have read and
the rest of the text; a parser that reports an error has no result.

The loops are bounded by the length of the text: every turn takes at least one
character. `mtdids` and the flash devices stay the same throughout.
-/

namespace UBoot.Mtdparts

/-! ### Sizes -/

/-- `memsize_parse` -/
def memsizeParse (p : List Char) : UInt64 × List Char :=
  match simpleStrtou 64 p with
  | (ret, []) => (UInt64.ofNat ret, [])
  | (ret, c :: rest) =>
    if c = 'G' ∨ c = 'g' then (UInt64.ofNat (ret * 2 ^ 30), rest)
    else if c = 'M' ∨ c = 'm' then (UInt64.ofNat (ret * 2 ^ 20), rest)
    else if c = 'K' ∨ c = 'k' then (UInt64.ofNat (ret * 2 ^ 10), rest)
    else (UInt64.ofNat ret, c :: rest)

/-- `memsize_format` -/
def memsizeFormat (size : UInt64) : List Char :=
  if size.toNat % 2 ^ 30 = 0 then Nat.toDigits 10 (size.toNat / 2 ^ 30) ++ ['g']
  else if size.toNat % 2 ^ 20 = 0 then Nat.toDigits 10 (size.toNat / 2 ^ 20) ++ ['m']
  else if size.toNat % 2 ^ 10 = 0 then Nat.toDigits 10 (size.toNat / 2 ^ 10) ++ ['k']
  else Nat.toDigits 10 size.toNat

/-- The conversion `%08llx`. -/
def hex8 (n : UInt64) : List Char :=
  let digits := Nat.toDigits 16 n.toNat
  List.replicate (8 - digits.length) '0' ++ digits

/-! ### Partitions -/

def minPartSize : UInt64 := 4096

def offsetNotSpecified : UInt64 := 0xffffffffffffffff

/-- The size, where `-` stands for all that remains. -/
def partSize : List Char → Option (UInt64 × List Char)
  | '-' :: p => some (sizeRemaining, p)
  | p =>
    let (size, p) := memsizeParse p
    if size < minPartSize then none else some (size, p)

def partOffset : List Char → UInt64 × List Char
  | '@' :: p => memsizeParse p
  | p => (offsetNotSpecified, p)

/-- The name in parentheses; `none` inside stands for no name. -/
def partName : List Char → Option (Option (List Char) × List Char)
  | '(' :: p =>
    match p.span (· ≠ ')') with
    | (_, []) => none
    | ([], _) => none
    | (name, _ :: p) => some (some name, p)
  | p => some (none, p)

def partFlags : List Char → UInt32 × List Char
  | 'r' :: 'o' :: p => (1, p)
  | p => (0, p)

/-- What follows the definition. A comma is taken, a semicolon stays. -/
def partEnd (size : UInt64) : List Char → Option (List Char)
  | ',' :: p => if size = sizeRemaining then none else some p
  | ';' :: p => some (';' :: p)
  | [] => some []
  | _ => none

/-- The name given to a partition without one, as far as it fits. -/
def autoPartName (size offset : UInt64) : List Char :=
  ("0x".toList ++ hex8 size ++ "@0x".toList ++ hex8 offset).take 21

/-- `part_parse` -/
def partParse (p : List Char) : Option (PartInfo × List Char) := do
  let (size, p) ← partSize p
  let (offset, p) := partOffset p
  let (name, p) ← partName p
  let (maskFlags, p) := partFlags p
  let p ← partEnd size p
  some ({ ptr := 0
          name := name.getD (autoPartName size offset)
          autoName := name.isNone
          size := size
          offset := offset
          maskFlags := maskFlags }, p)

/-! ### Devices -/

variable (ids : List MtdIds) (getMtdInfo : MtdType → UInt8 → Option MtdInfo)

/-- The loop of `device_parse` over the partitions. A partition without an
offset starts at `offset`, the end of the one before. -/
def partsLoop (id : MtdIds) : Nat → List Char → UInt64 → Option (List PartInfo × List Char)
  | _, [], _ => some ([], [])
  | _, ';' :: p, _ => some ([], ';' :: p)
  | 0, _, _ => none
  | fuel + 1, p, offset => do
    let (part, p) ← partParse p
    let part := if part.offset = offsetNotSpecified then { part with offset := offset } else part
    let part ← partValidate getMtdInfo id part
    let (rest, p) ← partsLoop id fuel p (part.offset + part.size)
    some (part :: rest, p)

/-- The offset `device_parse` starts with: the end of the last partition of a
device that exists. -/
def startOffset (s : State) (id : MtdIds) : UInt64 :=
  match deviceFind s id.type id.num with
  | none => 0
  | some dev =>
    match dev.parts.getLast? with
    | none => 0
    | some part => part.offset + part.size

/-- `device_parse` -/
def deviceParse (s : State) (text : List Char) : Option (MtdDevice × List Char) :=
  match text.span (· ≠ ':') with
  | (_, []) => none
  | (mtdId, _ :: p) => do
    let id ← ids.find? (·.mtdId = mtdId)
    let (parts, p) ← partsLoop getMtdInfo id p.length p (startOffset s id)
    if parts = [] then none
    else
      let dev ← addAll (allocate (s.nextPtr + 1) parts)
        { ptr := s.nextPtr, id := id, numParts := 0, parts := [] }
      some (dev, p.drop 1)

/-- Take the pointers of a new device and its partitions. -/
def State.allocated (s : State) (dev : MtdDevice) : State :=
  { s with nextPtr := s.nextPtr + 1 + dev.parts.length }

/-- The loop of `parse_mtdparts` over the devices. -/
def devicesLoop : Nat → State → List Char → Option State
  | _, s, [] => some s
  | 0, _, _ => none
  | fuel + 1, s, text => do
    let (dev, rest) ← deviceParse ids getMtdInfo s text
    if (deviceFind s dev.id.type dev.id.num).isSome then none
    else devicesLoop fuel { s.allocated dev with devices := s.devices ++ [dev] } rest

/-- `mtd_devices_init` -/
def mtdDevicesInit (s : State) : State :=
  { s with devices := [], currentMtdDev := none, partition := none, mtddev := none }

/-- `parse_mtdparts`: the state, and whether it succeeded. A failing one leaves
no devices. -/
def parseMtdparts (s : State) (text : List Char) : State × Bool :=
  let s := mtdDevicesInit s
  if "mtdparts=".toList.isPrefixOf text ∧ text.drop 9 ≠ [] then
    match devicesLoop ids getMtdInfo (text.drop 9).length s (text.drop 9) with
    | none => (s, false)
    | some s' => (s', true)
  else (s, false)

/-- The part of `mtdparts_init` that reads a changed `mtdparts`: the first
partition of the first device becomes the current one. -/
def mtdpartsInit (s : State) (text : List Char) : State :=
  match parseMtdparts ids getMtdInfo s text with
  | (s, false) => s
  | (s, true) =>
    currentSave { s with currentMtdDev := s.devices.head?.map MtdDevice.ptr
                         currentMtdPartnum := 0 }

/-! ### Commands -/

/-- `mtdparts add <mtd-dev> <size>[@<offset>] <name> [ro]`. The length of the
description is kept in 8 bits; what a longer one than `tmpbuf` overwrites is not in the
model. -/
def mtdpartsAdd (s : State) (mtdDev size name : List Char) (ro : Option (List Char)) :
    Option State := do
  let (type, num, _) ← mtdIdParse mtdDev
  let id ← ids.find? fun id => id.type = type ∧ id.num = num
  let len := id.mtdId.length + 1 + size.length + name.length + 2 +
    if (ro.map List.length) = some 2 then 2 else 0
  if len % 256 ≥ 64 then none
  else
    let (dev, _) ← deviceParse ids getMtdInfo s
      (id.mtdId ++ ':' :: size ++ '(' :: name ++ ')' :: ro.getD [])
    match deviceFind s dev.id.type dev.id.num with
    | none => some (deviceAdd (s.allocated dev) dev)
    | some old => dev.parts.head?.bind fun part => partAdd getMtdInfo (s.allocated dev) old part

/-- `mtdparts del`, which is `delete_partition`. -/
def deletePartition (s : State) (id : List Char) : Option State :=
  (findDevAndPart s id).map fun (dev, _, part) => partDel s dev part

/-! ### Writing -/

/-- Append to the buffer if it fits; the number is `maxlen`. -/
def put (text : List Char) (out : List Char × Nat) : Option (List Char × Nat) :=
  if text.length > out.2 then none else some (out.1 ++ text, out.2 - text.length)

/-- There is a gap between the previous partition, or the start of the flash,
and this one. -/
def gapBefore (prev : Option PartInfo) (part : PartInfo) : Bool :=
  match prev with
  | none => part.offset ≠ 0
  | some prev => prev.offset + prev.size ≠ part.offset

def offsetText (prev : Option PartInfo) (part : PartInfo) : List Char :=
  if gapBefore prev part then '@' :: memsizeFormat part.offset else []

def nameText (part : PartInfo) : List Char :=
  if part.autoName then [] else '(' :: part.name ++ [')']

def flagsText (part : PartInfo) : List Char :=
  if part.maskFlags ≠ 0 then ['r', 'o'] else []

/-- The loop of `generate_mtdparts` over the partitions of a device. -/
def generateParts (numParts : UInt16) :
    Option PartInfo → Nat → List PartInfo → List Char × Nat → Option (List Char × Nat)
  | _, _, [], out => some out
  | prev, partCnt, part :: rest, out => do
    let out ← put (memsizeFormat part.size) out
    let out ← put (offsetText prev part) out
    let out ← put (nameText part) out
    let out ← put (flagsText part) out
    let out ← put (if numParts.toNat > partCnt + 1 then [','] else []) out
    generateParts numParts (some part) (partCnt + 1) rest out

/-- The loop over the devices. -/
def generateDevices : List MtdDevice → List Char × Nat → Option (List Char × Nat)
  | [], out => some out
  | dev :: rest, out => do
    let out ← put (dev.id.mtdId ++ [':']) out
    let out ← generateParts dev.numParts none 0 dev.parts out
    let out ← put (if rest = [] then [] else [';']) out
    generateDevices rest out

/-- `generate_mtdparts` for a buffer of the given length, a `u32`. The nine
characters in front are not counted. -/
def generateMtdparts (devices : List MtdDevice) (buflen : Nat) : Option (List Char) :=
  if devices = [] then some []
  else
    let maxlen := (buflen + (2 ^ 32 - 1)) % 2 ^ 32
    (generateDevices devices ("mtdparts=".toList, maxlen)).map Prod.fst

end UBoot.Mtdparts
