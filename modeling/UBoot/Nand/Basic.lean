import UBoot.Verification.Bytes

/-!
# NAND accesses that skip bad blocks

`nand_write_skip_bad` and `nand_read_skip_bad` of `drivers/mtd/nand/nand_util.c`
with `CONFIG_CMD_NAND_TRIMFFS`, on a machine with a `size_t` of 32 bits; a
`loff_t` has 64. `nand_write`, `nand_read` and `nand_block_isbad` act on the
address that they are given, and programming can only clear bits. A program
error may happen anywhere. The loops have no bound in the source; here they take
fuel. Every access is logged with its address and its length.
-/

namespace UBoot.Nand

open Verification

/-- `nand_info_t`, with the table of bad blocks. -/
structure NandInfo where
  size : Nat
  erasesize : Nat
  writesize : Nat
  bad : Nat → Bool
  writesize_pos : 0 < writesize
  writesize_dvd : writesize ∣ erasesize
  erasesize_pow : ∃ k, k < 32 ∧ erasesize = 2 ^ k
  size_dvd : erasesize ∣ size

/-- For small chips. -/
theorem four_eq_pow : ∃ k, k < 32 ∧ 4 = 2 ^ k := ⟨2, by decide, rfl⟩

theorem four_dvd_eight : 4 ∣ 8 := ⟨2, rfl⟩

/-- The bytes of the flash, by address. -/
abbrev Flash := Ptr

inductive Error
  | einval
  | efbig
  | eio
  deriving DecidableEq

/-- The options of a write. -/
structure Flags where
  dropFfs : Bool
  wrVerify : Bool

/-- An access to the flash: its address and its length. -/
abbrev Access := Nat × Nat

section

variable (nand : NandInfo)

/-- `offset & ~(loff_t)(nand->erasesize - 1)` -/
def blockStart (offset : Nat) : Nat := offset - offset % nand.erasesize

/-- `offset & ~(nand->erasesize - 1)`, where the mask has 32 bits. -/
def blockStart32 (offset : Nat) : Nat := offset % 2 ^ 32 - offset % nand.erasesize

/-- `nand_write`; `progFails` are the addresses at which the chip reports an error. -/
def nandWrite (progFails : Nat → Bool) (flash : Flash) (offset len : Nat) (buf : Ptr) :
    Option Flash :=
  if offset + len > nand.size ∨ progFails offset then none
  else some fun q =>
    if offset ≤ q ∧ q < offset + len then flash q &&& buf (q - offset) else flash q

/-- `nand_read` -/
def nandRead (flash : Flash) (offset len : Nat) : Option (List UInt8) :=
  if offset + len > nand.size then none else some ((flash.add offset).bytes len)

/-- What `check_skip_len` returns: the image does not fit, or it fits with or
without bad blocks. -/
inductive SkipLen
  | outside
  | fits (needSkip : Bool)
  deriving DecidableEq

/-- The loop of `check_skip_len`, with the value of `*used`. -/
def checkSkipLen (length : UInt32) : Nat → Nat → UInt32 → Bool → UInt32 → Option (SkipLen × UInt32)
  | 0, _, _, _, _ => none
  | fuel + 1, offset, lenExclBad, ret, used =>
    if lenExclBad < length then
      if offset ≥ nand.size then some (.outside, used)
      else
        let blockOff := offset % nand.erasesize
        let blockLen := nand.erasesize - blockOff
        if nand.bad (blockStart nand offset) then
          checkSkipLen length fuel (offset + blockLen) lenExclBad true
            (used + UInt32.ofNat blockLen)
        else
          checkSkipLen length fuel (offset + blockLen) (lenExclBad + UInt32.ofNat blockLen) ret
            (used + UInt32.ofNat blockLen)
    else if lenExclBad > length then some (.fits ret, used - (lenExclBad - length))
    else some (.fits ret, used)

/-- `drop_ffs`: the length without the pages of `0xff` at the end. -/
def dropFfs (buf : Ptr) (len : Nat) : Nat :=
  let l := ((buf.bytes len).reverse.dropWhile (· = 0xFF)).length
  min ((l + nand.writesize - 1) / nand.writesize * nand.writesize) len

/-- The loop of `nand_verify`, with its accesses. `verofs` has 32 bits. -/
def nandVerify (flash : Flash) (stop : Nat) : Nat → UInt32 → Ptr → List Access →
    Option (Bool × List Access)
  | 0, _, _, _ => none
  | fuel + 1, verofs, buf, log =>
    if verofs.toNat < stop then
      let verlen := min nand.writesize ((stop - verofs.toNat) % 2 ^ 32)
      match nandRead nand flash verofs.toNat verlen with
      | none => some (false, log)
      | some verbuf =>
        if verbuf = buf.bytes verlen then
          nandVerify flash stop fuel (verofs + UInt32.ofNat verlen) (buf.add verlen)
            ((verofs.toNat, verlen) :: log)
        else some (false, (verofs.toNat, verlen) :: log)
    else some (true, log)

/-- A write and, when it is asked for, its verification. -/
def writeAndVerify (progFails : Nat → Bool) (flags : Flags) (fuel : Nat) (flash : Flash)
    (offset len : Nat) (buf : Ptr) (log : List Access) : Option (Bool × Flash × List Access) :=
  match nandWrite nand progFails flash offset len buf with
  | none => some (false, flash, (offset, len) :: log)
  | some flash' =>
    if flags.wrVerify then
      (nandVerify nand flash' (offset + len) fuel (UInt32.ofNat offset) buf
        ((offset, len) :: log)).map fun (ok, log) => (ok, flash', log)
    else some (true, flash', (offset, len) :: log)

structure WriteResult where
  error : Option Error
  actual : UInt32
  flash : Flash
  log : List Access

/-- The loop of `nand_write_skip_bad` over the blocks. -/
def writeLoop (progFails : Nat → Bool) (flags : Flags) (actual : UInt32) :
    Nat → Nat → UInt32 → Ptr → Flash → List Access → Option WriteResult
  | 0, _, _, _, _, _ => none
  | fuel + 1, offset, leftToWrite, buf, flash, log =>
    if leftToWrite = 0 then some ⟨none, actual, flash, log⟩
    else
      let blockOffset := offset % nand.erasesize
      if nand.bad (blockStart32 nand offset) then
        writeLoop progFails flags actual fuel (offset + (nand.erasesize - blockOffset))
          leftToWrite buf flash log
      else
        let writeSize := min leftToWrite.toNat (nand.erasesize - blockOffset)
        let truncatedWriteSize :=
          if flags.dropFfs then dropFfs nand buf writeSize else writeSize
        match writeAndVerify nand progFails flags fuel flash offset truncatedWriteSize buf log with
        | none => none
        | some (false, flash, log) => some ⟨some .eio, actual, flash, log⟩
        | some (true, flash, log) =>
          writeLoop progFails flags actual fuel (offset + writeSize)
            (leftToWrite - UInt32.ofNat writeSize) (buf.add writeSize) flash log

/-- `nand_write_skip_bad` -/
def nandWriteSkipBad (progFails : Nat → Bool) (flags : Flags) (fuel : Nat) (offset : Nat)
    (length : UInt32) (lim : Nat) (buf : Ptr) (flash : Flash) : Option WriteResult :=
  if offset % nand.writesize ≠ 0 then some ⟨some .einval, 0, flash, []⟩
  else
    match checkSkipLen nand length fuel offset 0 false 0 with
    | none => none
    | some (.outside, used) => some ⟨some .einval, used, flash, []⟩
    | some (.fits needSkip, used) =>
      if used.toNat > lim then some ⟨some .efbig, used, flash, []⟩
      else if !needSkip && !flags.dropFfs then
        (writeAndVerify nand progFails flags fuel flash offset length.toNat buf []).map
          fun (ok, flash, log) => ⟨if ok then none else some .eio, used, flash, log⟩
      else writeLoop nand progFails flags used fuel offset length buf flash []

structure ReadResult where
  error : Option Error
  actual : UInt32
  data : List UInt8
  log : List Access
  deriving DecidableEq

/-- The loop of `nand_read_skip_bad` over the blocks. -/
def readLoop (flash : Flash) (actual : UInt32) :
    Nat → Nat → UInt32 → List UInt8 → List Access → Option ReadResult
  | 0, _, _, _, _ => none
  | fuel + 1, offset, leftToRead, data, log =>
    if leftToRead = 0 then some ⟨none, actual, data, log⟩
    else
      let blockOffset := offset % nand.erasesize
      if nand.bad (blockStart32 nand offset) then
        readLoop flash actual fuel (offset + (nand.erasesize - blockOffset)) leftToRead data log
      else
        let readLength := min leftToRead.toNat (nand.erasesize - blockOffset)
        match nandRead nand flash offset readLength with
        | none => some ⟨some .eio, actual, data, (offset, readLength) :: log⟩
        | some bytes =>
          readLoop flash actual fuel (offset + readLength)
            (leftToRead - UInt32.ofNat readLength) (data ++ bytes)
            ((offset, readLength) :: log)

/-- `nand_read_skip_bad` -/
def nandReadSkipBad (fuel : Nat) (offset : Nat) (length : UInt32) (lim : Nat) (flash : Flash) :
    Option ReadResult :=
  if offset % nand.writesize ≠ 0 then some ⟨some .einval, 0, [], []⟩
  else
    match checkSkipLen nand length fuel offset 0 false 0 with
    | none => none
    | some (.outside, used) => some ⟨some .einval, used, [], []⟩
    | some (.fits needSkip, used) =>
      if used.toNat > lim then some ⟨some .efbig, used, [], []⟩
      else if !needSkip then
        match nandRead nand flash offset length.toNat with
        | none => some ⟨some .eio, used, [], [(offset, length.toNat)]⟩
        | some data => some ⟨none, used, data, [(offset, length.toNat)]⟩
      else readLoop nand flash used fuel offset length [] []

end

end UBoot.Nand
