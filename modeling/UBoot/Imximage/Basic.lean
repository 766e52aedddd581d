import UBoot.Verification.Bytes

/-!
# The configuration file of an i.MX boot image

`parse_cfg_file` of `tools/imximage.c`, without `CONFIG_USE_PLUGIN`, and the parts
of `set_imx_hdr` that place the DCD table. The header is the union of the formats
of both versions. All its fields have whole words, so memory is kept by words,
each with the value of its bytes read in big-endian order, as the boot ROM reads
the second version. Every word that is written is noted.
-/

namespace UBoot.Imximage

open Verification

/-! ## Tokens -/

abbrev Token := List Char

/-- The line up to its end, as `strtok_r` finds it. -/
def lineText (line : List Char) : List Char :=
  ((line.takeWhile (· ≠ '\x00')).dropWhile (· = '\r')).takeWhile (· ≠ '\r')

def lineTokens (line : List Char) : List Token :=
  (((lineText line).splitOnP fun c => c = ' ' ∨ c = '\t').filter (· ≠ [])).takeWhile
    (·.head? ≠ some '#')

def fileLines (file : List Char) : List (List Token) := (file.splitOn '\n').map lineTokens

/-- The value of a hexadecimal digit. -/
def hexDigit (c : Char) : Option Nat :=
  if '0' ≤ c ∧ c ≤ '9' then some (c.toNat - '0'.toNat)
  else if 'a' ≤ c ∧ c ≤ 'f' then some (c.toNat - 'a'.toNat + 10)
  else if 'A' ≤ c ∧ c ≤ 'F' then some (c.toNat - 'A'.toNat + 10)
  else none

/-- The digits that `strtoul` reads in base 16, with an optional prefix. -/
def hexDigits : List Char → List Nat
  | '0' :: x :: c :: rest =>
    if (x = 'x' ∨ x = 'X') ∧ (hexDigit c).isSome then
      ((c :: rest).takeWhile fun c => (hexDigit c).isSome).filterMap hexDigit
    else (('0' :: x :: c :: rest).takeWhile fun c => (hexDigit c).isSome).filterMap hexDigit
  | s => (s.takeWhile fun c => (hexDigit c).isSome).filterMap hexDigit

/-- `strtoul` in base 16 on a host with 64 bits; nothing without a digit or when the
value is out of range. -/
def strtoul16 (s : List Char) : Option Nat :=
  let s := s.dropWhile fun c => c = '\x0b' ∨ c = '\x0c'
  let unsigned (s : List Char) : Option Nat :=
    let value := (hexDigits s).foldl (fun v d => v * 16 + d) 0
    if hexDigits s = [] ∨ value ≥ 2 ^ 64 then none else some value
  match s with
  | '-' :: s => (unsigned s).map fun v => (2 ^ 64 - v) % 2 ^ 64
  | '+' :: s => unsigned s
  | s => unsigned s

/-- `get_cfg_value` -/
def getCfgValue (token : Token) : Option UInt32 := (strtoul16 token).map UInt32.ofNat

/-- `strcasecmp` finds no difference. -/
def sameName (name : String) (token : Token) : Bool :=
  name.toList.map Char.toLower = token.map Char.toLower

/-- `get_table_entry_id` -/
def getTableEntryId {α : Type} (table : List (String × α)) (token : Token) : Option α :=
  (table.find? fun entry => sameName entry.1 token).map Prod.snd

inductive Cmd
  | invalid
  | imageVersion
  | bootFrom
  | bootOffset
  | data
  | clrBit
  | checkBitsSet
  | checkBitsClr
  | csf
  deriving DecidableEq

def imximageCmds : List (String × Cmd) :=
  [("BOOT_FROM", .bootFrom), ("BOOT_OFFSET", .bootOffset), ("DATA", .data), ("CLR_BIT", .clrBit),
    ("CHECK_BITS_SET", .checkBitsSet), ("CHECK_BITS_CLR", .checkBitsClr), ("CSF", .csf),
    ("IMAGE_VERSION", .imageVersion)]

/-- `imximage_boot_offset` and `imximage_boot_loadsize`. -/
def imximageBoot : List (String × UInt32 × UInt32) :=
  [("onenand", 0x100, 0x400), ("nand", 0x400, 0x1000), ("nor", 0x1000, 0), ("sata", 0x400, 0x1000),
    ("sd", 0x400, 0x1000), ("spi", 0x400, 0x1000), ("qspi", 0x1000, 0)]

/-- The commands that make entries of the DCD table. -/
def Cmd.isDcd : Cmd → Bool
  | .data | .clrBit | .checkBitsSet | .checkBitsClr => true
  | _ => false

/-! ## The state of the parser -/

inductive Error
  | invalidCommand (lineno : Nat) (token : Token)
  | invalidHexData (lineno : Nat) (token : Token)
  | invalidRegisterSize (lineno : Nat) (value : UInt32)
  | unsupportedVersion (version : UInt32)
  | versionNotFirst (lineno : Nat)
  | invalidBootDevice (lineno : Nat) (token : Token)
  | csfVersion (lineno : Nat) (token : Token)
  | dcdTableExceeds (lineno : Nat) (maxDcdEntries : Nat)
  | noBootFrom

/-- The header, the static variables of the parser, and the words written. -/
structure State where
  mem : Nat → UInt32 := fun _ => 0
  written : List Nat := []
  version : UInt32 := 1
  ivtOffset : UInt32 := 0xFFFFFFFF
  csfSize : UInt32 := 0
  initLoadsize : UInt32 := 0
  dataindex : UInt32 := 0
  dcdLen : Nat := 0
  precmd : Cmd := .invalid
  cmdVerFirst : Option Bool := none

def State.store (st : State) (i : Nat) (w : UInt32) : State :=
  { st with mem := Function.update st.mem i w, written := i :: st.written }

/-- A word of the host, which is little-endian, by the order of its bytes. -/
def hostWord (w : UInt32) : UInt32 := UInt32.ofNat (leValue (beBytes 4 w.toNat))

def commandWord (tag length param : Nat) : UInt32 :=
  UInt32.ofNat (tag * 2 ^ 24 + length % 2 ^ 16 * 2 ^ 8 + param)

inductive Fld
  | command
  | regSize
  | regAddress
  | regValue
  deriving DecidableEq

/-- The first word of the entries of the first version, and of the commands of the
second one. -/
def addrDataV1 : Nat := 9

def dcdDataV2 : Nat := 12

/-- `set_dcd_val_v1` -/
def setDcdValV1 (lineno : Nat) (st : State) (fld : Fld) (value : UInt32) (off : Nat) :
    Except Error State :=
  match fld with
  | .regSize =>
    if value ≠ 1 ∧ value ≠ 2 ∧ value ≠ 4 then .error (.invalidRegisterSize lineno value)
    else .ok (st.store (addrDataV1 + 3 * off) (hostWord value))
  | .regAddress => .ok (st.store (addrDataV1 + 3 * off + 1) (hostWord value))
  | .regValue => .ok (st.store (addrDataV1 + 3 * off + 2) (hostWord value))
  | .command => .ok st

def commandHead (cmd : Cmd) (off : Nat) : Option UInt32 :=
  match cmd with
  | .data => some (commandWord 0xCC (off * 8 + 4) 0x4)
  | .clrBit => some (commandWord 0xCC (off * 8 + 4) 0xC)
  | .checkBitsSet => some (commandWord 0xCF 0xC 0x14)
  | .checkBitsClr => some (commandWord 0xCF 0xC 0x4)
  | _ => none

/-- `set_dcd_val_v2`. The case of the command has no `break` and goes on to store the
value as the address of the entry. -/
def setDcdValV2 (st : State) (fld : Fld) (cmd : Cmd) (value : UInt32) (off : Nat) : State :=
  let block := dcdDataV2 + st.dataindex.toNat
  match fld with
  | .command =>
    let st := match commandHead cmd off with
      | some head => st.store block head
      | none => st
    st.store (block + 1 + 2 * off) value
  | .regAddress => st.store (block + 1 + 2 * off) value
  | .regValue => st.store (block + 2 + 2 * off) value
  | .regSize => st

/-- `set_dcd_val` -/
def setDcdVal (lineno : Nat) (st : State) (fld : Fld) (cmd : Cmd) (value : UInt32) (off : Nat) :
    Except Error State :=
  if st.version = 1 then setDcdValV1 lineno st fld value off
  else .ok (setDcdValV2 st fld cmd value off)

/-- `max_dcd_entries` -/
def State.maxDcdEntries (st : State) : Nat := if st.version = 1 then 60 else 220

/-- A command other than `IMAGE_VERSION` has been seen. -/
def State.seen (st : State) : State :=
  if st.cmdVerFirst = some true then st else { st with cmdVerFirst := some false }

/-- `get_cfg_value`, with its error. -/
def cfgValue (lineno : Nat) (token : Token) : Except Error UInt32 :=
  match getCfgValue token with
  | some value => .ok value
  | none => .error (.invalidHexData lineno token)

/-- `parse_cfg_cmd` -/
def parseCfgCmd (lineno : Nat) (st : State) (cmd : Cmd) (token : Token) : Except Error State :=
  match cmd with
  | .imageVersion => do
    let version ← cfgValue lineno token
    if st.cmdVerFirst = some false then .error (.versionNotFirst lineno)
    else if version ≠ 1 ∧ version ≠ 2 then .error (.unsupportedVersion version)
    else .ok { st with version := version, cmdVerFirst := some true }
  | .bootFrom =>
    match getTableEntryId imximageBoot token with
    | none => .error (.invalidBootDevice lineno token)
    | some (offset, loadsize) =>
      .ok { st.seen with ivtOffset := offset, initLoadsize := max loadsize offset }
  | .bootOffset => do
    let value ← cfgValue lineno token
    .ok { st.seen with ivtOffset := value }
  | .data => do
    let value ← cfgValue lineno token
    let st ← setDcdVal lineno st .regSize cmd value st.dcdLen
    .ok st.seen
  | .csf =>
    if st.version ≠ 2 then .error (.csfVersion lineno token)
    else do
      let value ← cfgValue lineno token
      .ok { st.seen with csfSize := value }
  | _ => .ok st

def State.closeBlock (st : State) (cmd : Cmd) : State :=
  if st.precmd.isDcd ∧ cmd ≠ st.precmd then
    { st with dataindex := st.dataindex + UInt32.ofNat ((st.dcdLen * 8 + 4) / 4), dcdLen := 0 }
  else st

/-- `parse_cfg_fld` on the first token of a line. -/
def parseCommand (lineno : Nat) (st : State) (token : Token) : Except Error (State × Cmd) :=
  match getTableEntryId imximageCmds token with
  | none => .error (.invalidCommand lineno token)
  | some cmd => do
    let st := st.closeBlock cmd
    let st ← if cmd.isDcd then setDcdVal lineno st .command cmd 0 (st.dcdLen + 1) else .ok st
    .ok ({ st with precmd := cmd }, cmd)

/-- `parse_cfg_fld` on the tokens of an entry. -/
def parseEntryFld (lineno : Nat) (st : State) (cmd : Cmd) (fld : Fld) (token : Token) :
    Except Error State :=
  if cmd.isDcd then do
    let value ← cfgValue lineno token
    let st ← setDcdVal lineno st fld cmd value st.dcdLen
    if fld = .regValue then
      if st.dcdLen + 1 > st.maxDcdEntries then .error (.dcdTableExceeds lineno st.maxDcdEntries)
      else .ok { st with dcdLen := st.dcdLen + 1 }
    else .ok st
  else .ok st

/-- The loop over the tokens of a line. -/
def parseLine (lineno : Nat) (st : State) (tokens : List Token) : Except Error State :=
  match tokens with
  | [] => .ok st
  | command :: fields => do
    let (st, cmd) ← parseCommand lineno st command
    match fields with
    | [] => .ok st
    | size :: fields => do
      let st ← parseCfgCmd lineno st cmd size
      match fields with
      | [] => .ok st
      | [address] => parseEntryFld lineno st cmd .regAddress address
      | address :: value :: _ => do
        let st ← parseEntryFld lineno st cmd .regAddress address
        parseEntryFld lineno st cmd .regValue value

/-- The loop over the lines. -/
def parseLines (lineno : Nat) (st : State) : List (List Token) → Except Error State
  | [] => .ok st
  | line :: lines => do
    let st ← parseLine lineno st line
    parseLines (lineno + 1) st lines

/-- `set_dcd_rst_v1` and `set_dcd_rst_v2`. -/
def setDcdRst (st : State) : State :=
  if st.version = 1 then
    (st.store 7 (hostWord 0xB17219E9)).store 8 (hostWord (UInt32.ofNat (st.dcdLen * 12)))
  else
    st.store 11 (commandWord 0xD2 ((st.dataindex.toNat + 1) * 4 + st.dcdLen * 8 + 4) 0x40)

/-- `parse_cfg_file` -/
def parseCfgFile (file : List Char) : Except Error State := do
  let st ← parseLines 1 {} (fileLines file)
  let st := setDcdRst st
  if st.ivtOffset = 0xFFFFFFFF then .error .noBootFrom else .ok st

/-- The initial load size of the second version, which holds the whole header. -/
def loadsizeV2 (ivtOffset initLoadsize : UInt32) : UInt32 :=
  if initLoadsize.toNat < ivtOffset.toNat + 2096 then ivtOffset + 2096 else initLoadsize

/-- The `dcd_ptr` that `set_imx_hdr` stores for an entry point. -/
def dcdPtr (st : State) (entryPoint : UInt32) : UInt32 :=
  if st.version = 1 then entryPoint - 4096 + 28
  else if st.dcdLen > 0 then entryPoint - loadsizeV2 st.ivtOffset st.initLoadsize + st.ivtOffset + 44
  else 0

end UBoot.Imximage
