import UBoot.Imximage.Basic

/-!
# The register commands of a file and the table that the ROM reads

What the file says, line by line, and how the boot ROM reads the DCD table: the
length in its head, then blocks with a tag, a length, a parameter and pairs of an
address and a value.
-/

namespace UBoot.Imximage

open Verification

/-! ## The file -/

/-- A register command. -/
structure RegCmd where
  kind : Cmd
  size : UInt32
  addr : UInt32
  value : UInt32
  deriving DecidableEq

structure CmdLine where
  cmd : Cmd
  fields : List Token

/-- The command of a line, unless the line is empty. -/
def cmdLine : List Token → Option CmdLine
  | [] => none
  | command :: fields => (getTableEntryId imximageCmds command).map fun cmd => ⟨cmd, fields⟩

def cmdLines (file : List Char) : List CmdLine := (fileLines file).filterMap cmdLine

/-- The register command of a line that has all its fields. -/
def CmdLine.regCmd (line : CmdLine) : Option RegCmd :=
  if line.cmd.isDcd then
    match line.fields with
    | size :: addr :: value :: _ => do
      let size ← getCfgValue size
      let addr ← getCfgValue addr
      let value ← getCfgValue value
      return ⟨line.cmd, size, addr, value⟩
    | _ => none
  else none

def commands (lines : List CmdLine) : List RegCmd := lines.filterMap CmdLine.regCmd

def CmdLine.versionAfter (line : CmdLine) (version : UInt32) : UInt32 :=
  match line.cmd, line.fields with
  | .imageVersion, token :: _ => (getCfgValue token).getD version
  | _, _ => version

/-- The offset of the image and its load size after a line. -/
def CmdLine.bootAfter (line : CmdLine) (boot : UInt32 × UInt32) : UInt32 × UInt32 :=
  match line.cmd, line.fields with
  | .bootFrom, token :: _ =>
    match getTableEntryId imximageBoot token with
    | some (offset, loadsize) => (offset, max loadsize offset)
    | none => boot
  | .bootOffset, token :: _ => ((getCfgValue token).getD boot.1, boot.2)
  | _, _ => boot

/-- The offset and the load size of a file. -/
def bootOf (lines : List CmdLine) : UInt32 × UInt32 :=
  lines.foldl (fun boot line => line.bootAfter boot) (0xFFFFFFFF, 0)

/-! ## The blocks of the second version -/

/-- A block of commands of one kind. -/
structure Block where
  kind : Cmd
  entries : List (UInt32 × UInt32)

def Block.words (b : Block) : List UInt32 :=
  (commandHead b.kind b.entries.length).getD 0 :: b.entries.flatMap fun e => [e.1, e.2]

def dcdWords (blocks : List Block) : List UInt32 := blocks.flatMap Block.words

/-- The blocks that are complete and the one that further lines may extend. -/
structure Acc where
  closed : List Block
  current : Option Block

def Acc.blocks (a : Acc) : List Block := a.closed ++ a.current.toList

/-- The entries to which a command of a kind is added. -/
def Acc.entriesFor (a : Acc) (kind : Cmd) : List (UInt32 × UInt32) :=
  match a.current with
  | some b => if b.kind = kind then b.entries else []
  | none => []

/-- The blocks before those entries. -/
def Acc.closedFor (a : Acc) (kind : Cmd) : List Block :=
  match a.current with
  | some b => if b.kind = kind then a.closed else a.closed ++ [b]
  | none => a.closed

/-- Neighbouring lines of one kind share a block. -/
def Acc.step (a : Acc) (line : CmdLine) : Acc :=
  match line.regCmd with
  | some r => ⟨a.closedFor r.kind, some ⟨r.kind, a.entriesFor r.kind ++ [(r.addr, r.value)]⟩⟩
  | none => ⟨a.blocks, none⟩

def blocksOf (lines : List CmdLine) : List Block := (lines.foldl Acc.step ⟨[], none⟩).blocks

/-! ## The ROM -/

/-- The tag, the length and the parameter in the head of a block. -/
def headTag (w : UInt32) : Nat := w.toNat / 2 ^ 24

def headLength (w : UInt32) : Nat := w.toNat / 2 ^ 8 % 2 ^ 16

def headParam (w : UInt32) : Nat := w.toNat % 2 ^ 8

/-- The command of a block, for registers of four bytes. -/
def romKind (tag param : Nat) : Option Cmd :=
  if tag = 0xCC ∧ param = 0x4 then some .data
  else if tag = 0xCC ∧ param = 0xC then some .clrBit
  else if tag = 0xCF ∧ param = 0x14 then some .checkBitsSet
  else if tag = 0xCF ∧ param = 0x4 then some .checkBitsClr
  else none

def Cmd.isCheck : Cmd → Bool
  | .checkBitsSet | .checkBitsClr => true
  | _ => false

/-- The pairs of an address and a value. -/
def romPairs (kind : Cmd) : List UInt32 → List RegCmd
  | addr :: value :: rest => ⟨kind, 4, addr, value⟩ :: romPairs kind rest
  | _ => []

/-- The blocks, which have to fill the words. -/
def romBlocks : Nat → List UInt32 → Option (List RegCmd)
  | _, [] => some []
  | 0, _ :: _ => none
  | fuel + 1, head :: rest =>
    match romKind (headTag head) (headParam head) with
    | none => none
    | some kind =>
      let n := headLength head / 8
      if headLength head = 8 * n + 4 ∧ 2 * n ≤ rest.length ∧ (kind.isCheck → n = 1) then
        (romBlocks fuel (rest.drop (2 * n))).map (romPairs kind (rest.take (2 * n)) ++ ·)
      else none

/-- The words behind an index. -/
def wordsAt (mem : Nat → UInt32) (start n : Nat) : List UInt32 :=
  (List.range n).map fun i => mem (start + i)

/-- The table of the second version. -/
def romV2 (mem : Nat → UInt32) : Option (List RegCmd) :=
  let head := mem 11
  let n := headLength head / 4 - 1
  if headTag head = 0xD2 ∧ headParam head = 0x40 ∧ headLength head = 4 * n + 4 then
    romBlocks n (wordsAt mem dcdDataV2 n)
  else none

/-- The table of the first version. -/
def romV1 (mem : Nat → UInt32) : Option (List RegCmd) :=
  let n := (hostWord (mem 8)).toNat / 12
  if hostWord (mem 7) = 0xB17219E9 ∧ (hostWord (mem 8)).toNat = 12 * n then
    some ((List.range n).map fun i =>
      ⟨.data, hostWord (mem (addrDataV1 + 3 * i)), hostWord (mem (addrDataV1 + 3 * i + 1)),
        hostWord (mem (addrDataV1 + 3 * i + 2))⟩)
  else none

/-- The words of the table, with its head. -/
def tableRange (version : UInt32) : Nat × Nat := if version = 1 then (7, 189) else (11, 524)

/-- The table of a parsed file holds the commands. -/
structure Exact (st : State) (cmds : List RegCmd) (entryPoint : UInt32) : Prop where
  read : (if st.version = 1 then romV1 st.mem else romV2 st.mem) = some cmds
  ptr : dcdPtr st entryPoint ≠ 0 ↔ cmds ≠ []
  inside : ∀ i ∈ st.written, (tableRange st.version).1 ≤ i ∧ i < (tableRange st.version).2

/-- The table that is built for a file holds the commands of the file. -/
def BuildsTable (file : List Char) (entryPoint : UInt32) : Prop :=
  ∀ st, parseCfgFile file = .ok st → Exact st (commands (cmdLines file)) entryPoint

/-! ## The files whose table is right -/

/-- The lines after the first register command, when the command before them is
`prev`: the register commands are complete and of four bytes, no check follows a
check of its kind, the version stays, and the last line is a register command. -/
def Ordered (prev : Cmd) : List CmdLine → Prop
  | [] => prev.isDcd = true
  | line :: lines =>
    (line.cmd.isDcd = true → ∃ r, line.regCmd = some r ∧ r.size = 4) ∧
    (line.cmd.isCheck = true → line.cmd ≠ prev) ∧
    line.versionAfter 2 = 2 ∧ Ordered line.cmd lines

/-- The lines without a register command at the start, and the version behind them. -/
structure Preamble (pre : List CmdLine) (version : UInt32) : Prop where
  other : ∀ line ∈ pre, line.cmd.isDcd = false
  version : pre.foldl (fun v line => line.versionAfter v) 1 = version

/-- Files of the second version. -/
structure RegularV2 (lines : List CmdLine) (entryPoint : UInt32) : Prop where
  order : ∃ pre rest, lines = pre ++ rest ∧ Preamble pre 2 ∧ Ordered .invalid rest
  fits : (dcdWords (blocksOf lines)).length < 512
  ptr : entryPoint - loadsizeV2 (bootOf lines).1 (bootOf lines).2 + (bootOf lines).1 + 44 ≠ 0

/-- The lines after those, with `n` register commands before them: only `DATA` lines follow a
register command. A line that breaks off stores in the next entry, which has to be one of the 60,
and counts nothing. -/
def OrderedV1 : Nat → List CmdLine → Prop
  | _, [] => True
  | n, line :: lines =>
    (line.cmd = .data ∨ n = 0) ∧ line.versionAfter 1 = 1 ∧
      match line.regCmd with
      | some _ => line.cmd = .data ∧ OrderedV1 (n + 1) lines
      | none => (line.cmd.isDcd = true → line.fields.length < 3 ∧ (line.fields = [] ∨ n < 60)) ∧
          OrderedV1 n lines

/-- Files of the first version. -/
structure RegularV1 (lines : List CmdLine) (entryPoint : UInt32) : Prop where
  order : ∃ pre rest, lines = pre ++ rest ∧ Preamble pre 1 ∧ OrderedV1 0 rest
  ptr : entryPoint - 4096 + 28 ≠ 0 ↔ commands lines ≠ []

end UBoot.Imximage
