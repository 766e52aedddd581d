import Mathlib.Data.UInt
import UBoot.Nand.Basic

/-!
# Flashing a partition in NAND

`write_to_ptn` of `drivers/usb/gadget/f_fastboot.c` with
`CONFIG_FASTBOOT_STORAGE_NAND`. The commands that it composes are run by a
parameter, which returns the result of the command and the flash behind it. The
address of a write in memory is relative to the transfer buffer. The search for a
contiguous block has no bound in the source; here it takes fuel.
-/

namespace UBoot.Fastboot.Ptn

open Verification UBoot.Nand

/-- Where and how a `struct fastboot_ptentry` is written. -/
structure PtEntry where
  start : UInt32
  length : UInt32
  flags : UInt32

/-- `FASTBOOT_PTENTRY_FLAGS_REPEAT_MASK` -/
def REPEAT_MASK : UInt32 := 0x0000000F

/-- `FASTBOOT_PTENTRY_FLAGS_WRITE_NEXT_GOOD_BLOCK` -/
def WRITE_NEXT_GOOD_BLOCK : UInt32 := 0x00000010

/-- `FASTBOOT_PTENTRY_FLAGS_WRITE_CONTIGUOUS_BLOCK` -/
def WRITE_CONTIGUOUS_BLOCK : UInt32 := 0x00000020

/-- `FASTBOOT_PTENTRY_FLAGS_WRITE_I` -/
def WRITE_I : UInt32 := 0x00000100

/-- `FASTBOOT_PTENTRY_FLAGS_WRITE_TRIMFFS` -/
def WRITE_TRIMFFS : UInt32 := 0x00000200

def PtEntry.has (ptn : PtEntry) (flag : UInt32) : Prop := ptn.flags &&& flag ≠ 0

instance (ptn : PtEntry) (flag : UInt32) : Decidable (ptn.has flag) :=
  inferInstanceAs (Decidable (_ ≠ _))

/-- What the function reads besides the partition. -/
structure Gadget where
  /-- `interface.nand_block_size` -/
  nandBlockSize : UInt32
  nandCurrDevice : Int
  downloadBytes : UInt32
  downloadBytesUnpadded : UInt32
  /-- `CONFIG_CMD_NAND_LOCK_UNLOCK` -/
  lockUnlock : Bool
  /-- `CONFIG_CMD_NAND_TRIMFFS` -/
  trimffs : Bool

/-- `write_type` -/
inductive WriteType
  | write
  | writeI
  | writeTrimffs
  deriving DecidableEq

/-- A `nand` command. -/
inductive Command
  | unlock (off len : UInt32)
  | lock (off len : UInt32)
  | erase (off len : UInt32)
  | write (type : WriteType) (src off len : UInt32)
  deriving DecidableEq

/-- A command, or a call of `save_parts_values`. -/
inductive Event
  | command (c : Command)
  | savePartsValues (offset size : UInt32)
  deriving DecidableEq

/-- `run_command`: 0 is success. -/
abbrev RunCommand := Command → Flash → Int × Flash

/-- The value of `ret`, the flash, and what has been done. -/
structure Progress where
  ret : Int
  flash : Flash
  log : List Event

/-- A command whose result is not looked at. -/
def Progress.command (run : RunCommand) (c : Command) (s : Progress) : Progress :=
  { s with flash := (run c s.flash).2, log := s.log ++ [.command c] }

/-- A command whose result is stored in `ret`. -/
def Progress.write (run : RunCommand) (c : Command) (s : Progress) : Progress where
  ret := (run c s.flash).1
  flash := (run c s.flash).2
  log := s.log ++ [.command c]

def Progress.save (offset size : UInt32) (s : Progress) : Progress :=
  { s with log := s.log ++ [.savePartsValues offset size] }

section

variable (run : RunCommand) (nand : NandInfo) (g : Gadget) (ptn : PtEntry)

def writeType : WriteType :=
  if ptn.has WRITE_I then .writeI
  else if g.trimffs ∧ ptn.has WRITE_TRIMFFS then .writeTrimffs
  else .write

/-- `repeat_max` -/
def repeatMax : UInt32 :=
  if ptn.has REPEAT_MASK then
    if ptn.has WRITE_CONTIGUOUS_BLOCK then 1 else ptn.flags &&& REPEAT_MASK
  else 1

/-- The loop for the next good block, with the number of blocks that are left. -/
def writeBlocks (base : UInt32) : Nat → UInt32 → UInt32 → Progress → Progress
  | 0, _, _, s => s
  | left + 1, i, offset, s =>
    if offset ≥ ptn.length then s
    else
      let s := s.write run (.write (writeType g ptn) (i * g.nandBlockSize) (base + offset)
        g.nandBlockSize)
      if s.ret ≠ 0 then s
      else writeBlocks base left (i + 1) (offset + g.nandBlockSize) s

/-- The search for a contiguous block: the value of `ok_start` behind the loop. -/
def findOkStart : Nat → UInt32 → UInt32 → Option UInt32
  | 0, _, _ => none
  | fuel + 1, off, okStart =>
    if off < ptn.start + ptn.length then
      let okStart :=
        if nand.bad off.toNat then off + UInt32.ofNat nand.erasesize else okStart
      if okStart - off ≥ g.downloadBytes then some okStart
      else findOkStart fuel (off + UInt32.ofNat nand.erasesize) okStart
    else some okStart

/-- There is enough space behind `ok_start`. -/
def enoughSpace (okStart : UInt32) : Prop :=
  okStart + g.downloadBytes ≤ ptn.start + ptn.length

instance (okStart : UInt32) : Decidable (enoughSpace g ptn okStart) :=
  inferInstanceAs (Decidable (_ ≤ _))

def writeContiguous (fuel : Nat) (s : Progress) : Option Progress :=
  if g.nandBlockSize = 0 ∨ g.nandCurrDevice ≠ 0 then some s
  else do
    let okStart ← findOkStart nand g ptn fuel ptn.start ptn.start
    if enoughSpace g ptn okStart then
      let s := s.write run (.write (writeType g ptn) 0 okStart g.downloadBytes)
      some (if s.ret ≠ 0 then s.save ptn.start 0 else s.save okStart g.downloadBytes)
    else some s

def writeLength : UInt32 :=
  if g.trimffs ∧ ptn.has WRITE_TRIMFFS then g.downloadBytesUnpadded else g.downloadBytes

def writeNormal (round base : UInt32) (s : Progress) : Progress :=
  let s := s.write run (.write (writeType g ptn) 0 base (writeLength g ptn))
  if round = 0 then
    if s.ret ≠ 0 then s.save ptn.start 0 else s.save ptn.start g.downloadBytes
  else s

def writeCopy (fuel : Nat) (round base : UInt32) (s : Progress) : Option Progress :=
  if ptn.has WRITE_NEXT_GOOD_BLOCK ∧ ptn.has WRITE_CONTIGUOUS_BLOCK then some s
  else if ptn.has WRITE_NEXT_GOOD_BLOCK then
    if g.nandBlockSize = 0 then some s
    else some (writeBlocks run g ptn base (g.downloadBytes / g.nandBlockSize).toNat 0 0 s)
  else if ptn.has WRITE_CONTIGUOUS_BLOCK then writeContiguous run nand g ptn fuel s
  else some (writeNormal run g ptn round base s)

/-- The loop of `write_to_ptn`, with the number of repetitions that are left. -/
def writeRounds (fuel : Nat) : Nat → UInt32 → Progress → Option Progress
  | 0, _, s => some s
  | left + 1, round, s => do
    let base := ptn.start + round * ptn.length
    let length := ptn.length * repeatMax ptn
    let s := if g.lockUnlock then s.command run (.unlock base length) else s
    let s := s.command run (.erase base length)
    let s ← writeCopy run nand g ptn fuel round base s
    let s := if g.lockUnlock then s.command run (.lock base length) else s
    if s.ret ≠ 0 then some s else writeRounds fuel left (round + 1) s

/-- `write_to_ptn` -/
def writeToPtn (fuel : Nat) (flash : Flash) : Option Progress :=
  writeRounds run nand g ptn fuel (repeatMax ptn).toNat 0 ⟨1, flash, []⟩

end

end UBoot.Fastboot.Ptn
