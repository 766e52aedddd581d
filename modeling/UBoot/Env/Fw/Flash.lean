import UBoot.Env.Fw.Basic
import UBoot.Verification.Bytes
import UBoot.Verification.GoodBlocks

/-!
# Reading and writing the environment device

`flash_read_buf` and `flash_write_buf` of `tools/env/fw_env.c`. Sizes and offsets are
natural numbers. When the range ends before the offset, `erase_len` wraps in the source and
is 0 here; the loop stops at its first check in both cases. Locking is left out, since its
results are not looked at, and a seek is a part of the read or the write behind it.
-/

namespace UBoot.Env.Fw

open Verification

/-- What `struct envdev_s` says about the place of the environment. -/
structure EnvDev where
  devoff : Nat
  eraseSize : Nat
  envSectors : Nat

/-- What the system answers: `MEMGETBADBLOCK` at an offset, and the erases, writes and
allocations that fail. -/
structure System where
  getBadBlock : Nat → Int
  eraseFails : Nat → Nat → Bool
  writeFails : Nat → Nat → Bool
  mallocFails : Nat → Bool

/-- A device or a file. -/
structure Flash where
  bytes : Ptr
  size : Nat

structure Buffer where
  bytes : Ptr
  len : Nat

inductive FlashEvent
  | erase (start length : Nat)
  /-- `length` bytes of the data from `first` on are written. -/
  | write (pos first length : Nat)
  deriving DecidableEq

/-- The return value of `flash_write_buf`, with the device, what was done to it and the buffer
that was written. -/
structure Written where
  ret : Int
  flash : Flash
  events : List FlashEvent
  data : Buffer

section

variable (sys : System) (type : MtdType)

/-- `MEMERASE` -/
def Flash.erase (flash : Flash) (start length : Nat) : Option Flash :=
  if flash.size < start + length ∨ sys.eraseFails start length then none
  else some { flash with bytes := flash.bytes.write start length fun _ => 255 }

/-- `write`: a file grows and has zeros in a hole, a dataflash is written over, and in the
other devices bits are cleared. -/
def Flash.write (flash : Flash) (pos length : Nat) (data : Ptr) : Option Flash :=
  if sys.writeFails pos length then none
  else if type = .absent then
    let bytes : Ptr := fun i => if flash.size ≤ i ∧ i < pos then 0 else flash.bytes i
    some ⟨bytes.write pos length data, max flash.size (pos + length)⟩
  else if flash.size < pos + length then none
  else if type = .dataFlash then some { flash with bytes := flash.bytes.write pos length data }
  else
    let old := flash.bytes.add pos
    some { flash with bytes := flash.bytes.write pos length fun i => old i &&& data i }

/-- `flash_bad_block` -/
def flashBadBlock (blockstart : Nat) : Int :=
  if type = .nandFlash then sys.getBadBlock blockstart else 0

/-- The loop of `flash_read_buf`. There is no result when `room` bytes do not hold what is
read. -/
def readLoop (flash : Flash) (room count blocklen topOfRange : Nat) :
    Nat → Nat → Nat → Nat → Nat → Ptr → Option (Int × Ptr)
  | 0, _, _, _, _, _ => none
  | fuel + 1, processed, readlen, blockSeek, blockstart, buf =>
    if processed < count then
      let rc := flashBadBlock sys type blockstart
      if rc < 0 then some (-1, buf)
      else if blockstart + blockSeek + readlen > topOfRange then some (-1, buf)
      else if rc ≠ 0 then
        readLoop flash room count blocklen topOfRange fuel processed readlen blockSeek
          (blockstart + blocklen) buf
      else if flash.size < blockstart + blockSeek + readlen then some (-1, buf)
      else if room < processed + readlen then none
      else
        let buf := buf.write processed readlen (flash.bytes.add (blockstart + blockSeek))
        let processed := processed + readlen
        readLoop flash room count blocklen topOfRange fuel processed
          (min blocklen (count - processed)) 0 (blockstart + blocklen) buf
    else some (processed, buf)

/-- `flash_read_buf` into `room` bytes; a division by zero has no result. -/
def flashReadBuf (dev : EnvDev) (flash : Flash) (room : Nat) (buf : Ptr) (count offset : Nat) :
    Option (Int × Ptr) :=
  if dev.eraseSize = 0 then none
  else
    let blockstart := offset / dev.eraseSize * dev.eraseSize
    let blockSeek := offset - blockstart
    if type = .nandFlash then
      let blocklen := dev.eraseSize
      let topOfRange := (dev.devoff / blocklen + dev.envSectors) * blocklen
      readLoop sys type flash room count blocklen topOfRange (topOfRange + 2) 0
        (min count (blocklen - blockSeek)) blockSeek blockstart buf
    else
      readLoop sys type flash room count 0 (offset + count) (offset + count + 2) 0 count blockSeek
        blockstart buf

/-- A block, or the whole area, is erased and written. -/
def renewBlock (data : Buffer) (erasesize processed blockstart : Nat) (flash : Flash) :
    Option (Flash × List FlashEvent) := do
  let written : FlashEvent := .write blockstart processed erasesize
  let data := data.bytes.add processed
  if type ≠ .absent ∧ type ≠ .dataFlash then
    let flash ← flash.erase sys blockstart erasesize
    let flash ← flash.write sys type blockstart erasesize data
    some (flash, [.erase blockstart erasesize, written])
  else
    let flash ← flash.write sys type blockstart erasesize data
    some (flash, [written])

/-- The loop of `flash_write_buf`. -/
def writeLoop (data : Buffer) (blocklen erasesize topOfRange writeTotal : Nat) :
    Nat → Nat → Nat → Flash → List FlashEvent → Option Written
  | 0, _, _, _, _ => none
  | fuel + 1, processed, blockstart, flash, events =>
    if processed < writeTotal then
      let rc := flashBadBlock sys type blockstart
      if rc < 0 then some ⟨rc, flash, events, data⟩
      else if blockstart + erasesize > topOfRange then some ⟨-1, flash, events, data⟩
      else if rc ≠ 0 then
        writeLoop data blocklen erasesize topOfRange writeTotal fuel processed
          (blockstart + blocklen) flash events
      else
        match renewBlock sys type data erasesize processed blockstart flash with
        | none => some ⟨-1, flash, events, data⟩
        | some (flash, done) =>
          writeLoop data blocklen erasesize topOfRange writeTotal fuel
            (processed + erasesize) (blockstart + erasesize) flash (events ++ done)
    else some ⟨processed, flash, events, data⟩

/-- The data that `flash_write_buf` writes, when it is not `buf` itself: the area is read into
fresh memory and the environment is copied over it. The outer result is missing when there is
none, the inner one when an error is returned. -/
def preserve (dev : EnvDev) (flash : Flash) (fresh buf : Ptr)
    (count eraseOffset blockSeek eraseLen writeTotal : Nat) : Option (Option Buffer) :=
  if sys.mallocFails eraseLen then some none
  else do
    let (rc, data) ← flashReadBuf sys type dev flash eraseLen fresh writeTotal eraseOffset
    if (writeTotal : Int) ≠ rc then some none
    else some (some ⟨data.write blockSeek count buf, eraseLen⟩)

/-- `flash_write_buf`; `fresh` is what the memory from `malloc` holds. -/
def flashWriteBuf (dev : EnvDev) (flash : Flash) (fresh buf : Ptr) (count offset : Nat) :
    Option Written :=
  if type = .absent then
    writeLoop sys type ⟨buf, count⟩ count count (offset + count) count (offset + count + 2) 0
      offset flash []
  else if dev.eraseSize = 0 then none
  else
    let blocklen := dev.eraseSize
    let topOfRange := (dev.devoff / blocklen + dev.envSectors) * blocklen
    let eraseOffset := offset / blocklen * blocklen
    let eraseLen := topOfRange - eraseOffset
    let blockSeek := offset - eraseOffset
    let writeTotal := (blockSeek + count + blocklen - 1) / blocklen * blocklen
    let erasesize := if type = .nandFlash then blocklen else eraseLen
    do
      let data ←
        if writeTotal > count then
          preserve sys type dev flash fresh buf count eraseOffset blockSeek eraseLen writeTotal
        else some (some ⟨buf, count⟩)
      match data with
      | none => some ⟨-1, flash, [], ⟨buf, count⟩⟩
      | some data =>
        writeLoop sys type data blocklen erasesize topOfRange writeTotal (topOfRange + 2) 0
          eraseOffset flash []

/-! ## What a write ought to do -/

def GoodBlock (dev : EnvDev) (b : Nat) : Prop := flashBadBlock sys type (b * dev.eraseSize) = 0

instance (dev : EnvDev) : DecidablePred (GoodBlock sys type dev) :=
  fun _ => inferInstanceAs (Decidable (_ = _))

/-- The byte `k` of the environment is at `p`, when bad blocks are skipped. -/
def EnvByte (dev : EnvDev) (offset k p : Nat) : Prop :=
  offset / dev.eraseSize ≤ p / dev.eraseSize ∧ GoodBlock sys type dev (p / dev.eraseSize) ∧
    goodPlace (GoodBlock sys type dev) dev.eraseSize (offset / dev.eraseSize) p =
      offset % dev.eraseSize + k

/-- The part of the device lies in the sectors of the environment; a file has no sectors. -/
def InSectors (dev : EnvDev) (count offset start stop : Nat) : Prop :=
  if type = .absent then offset ≤ start ∧ stop ≤ offset + count
  else dev.devoff / dev.eraseSize * dev.eraseSize ≤ start ∧
    stop ≤ (dev.devoff / dev.eraseSize + dev.envSectors) * dev.eraseSize

/-- What a write that succeeds ought to have done. -/
structure WriteSound (dev : EnvDev) (flash : Flash) (buf : Ptr) (count offset : Nat)
    (r : Written) : Prop where
  readBack : ∀ into, ∃ data,
    flashReadBuf sys type dev r.flash count into count offset = some ((count : Int), data) ∧
      data.bytes count = buf.bytes count
  kept : ∀ p < flash.size, GoodBlock sys type dev (p / dev.eraseSize) →
    (∀ k < count, ¬EnvByte sys type dev offset k p) → r.flash.bytes p = flash.bytes p
  erased : ∀ start length, .erase start length ∈ r.events →
    InSectors type dev count offset start (start + length)
  written : ∀ pos first length, .write pos first length ∈ r.events →
    InSectors type dev count offset pos (pos + length) ∧ first + length ≤ r.data.len

end

/-- Every write that succeeds is sound. -/
def FlashRight (type : MtdType) (dev : EnvDev) (count offset : Nat) : Prop :=
  ∀ (sys : System) (flash : Flash) (fresh buf : Ptr) (r : Written),
    flashWriteBuf sys type dev flash fresh buf count offset = some r → 0 ≤ r.ret →
      WriteSound sys type dev flash buf count offset r

/-- The blocks that the environment reaches into. -/
def neededBlocks (dev : EnvDev) (count offset : Nat) : Nat :=
  (offset % dev.eraseSize + count + dev.eraseSize - 1) / dev.eraseSize

/-- The blocks from the one of the offset up to the end of the sectors. -/
def rangeBlocks (dev : EnvDev) (offset : Nat) : Nat :=
  dev.devoff / dev.eraseSize + dev.envSectors - offset / dev.eraseSize

/-- The arguments for which a write that succeeds is sound. -/
def Fitting (type : MtdType) (dev : EnvDev) (count offset : Nat) : Prop :=
  match type with
  | .absent => dev.eraseSize ≠ 0
  | .nandFlash =>
    neededBlocks dev count offset = 0 ∨ rangeBlocks dev offset < neededBlocks dev count offset ∨
      dev.devoff / dev.eraseSize ≤ offset / dev.eraseSize
  | _ =>
    neededBlocks dev count offset = 0 ∨ rangeBlocks dev offset < neededBlocks dev count offset ∨
      (dev.devoff / dev.eraseSize ≤ offset / dev.eraseSize ∧
        rangeBlocks dev offset = neededBlocks dev count offset)

end UBoot.Env.Fw
