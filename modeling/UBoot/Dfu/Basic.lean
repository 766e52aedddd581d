import Mathlib.Data.Nat.Init
import UBoot.Verification.Bytes

/-!
# Device firmware upgrade

`drivers/dfu/dfu.c` and `drivers/dfu/dfu_mmc.c`: what the host sends is collected in the
buffer `dfu_buf`, which is drained to the medium of the selected entity. The buffer is
shared by all entities, and an entity may keep a position in a buffer that has been
freed. Using such a position, or writing behind the end of the buffer, has no result
(`none`). The heap is small enough for lengths not to overflow.
-/

namespace UBoot.Dfu

open Verification

/-- How an operation of the medium turns out. A block operation that fails has
transferred some blocks. -/
inductive Outcome where
  | done
  | failed (blocks : Nat)
  deriving DecidableEq, Repr

/-- The area of a raw entity: blocks of a device whose block count fits into 32 bits. -/
structure Area where
  lbaStart : Nat
  lbaSize : Nat
  blkLog : Nat
  blocks : Nat
  onDevice : lbaStart + lbaSize ≤ blocks
  blocks_lt : blocks < 4294967296

/-- `lba_blk_size`, a power of two -/
def Area.blk (area : Area) : Nat := 2 ^ area.blkLog

/-- The place of the area on the device, in bytes. -/
def Area.start (area : Area) : Nat := area.lbaStart * area.blk
def Area.size (area : Area) : Nat := area.lbaSize * area.blk

/-- `ALIGN` to a multiple of the block size -/
def Area.align (area : Area) (len : Nat) : Nat := (len + (area.blk - 1)) / area.blk * area.blk

/-- The layouts `DFU_RAW_ADDR` and `DFU_FS_FAT` or `DFU_FS_EXT4`. -/
inductive Layout where
  | raw (area : Area)
  | file (alt : Nat)

/-- What all entities share: `dfu_buf` with its contents and `dfu_buf_size`, the bytes in
`dfu_file_buf`, and the media. Every buffer that is allocated has another number. -/
structure Device where
  buf : Ptr
  live : Option Nat
  next : Nat
  bufSize : Nat
  fileBuf : List UInt8
  disk : Ptr
  files : Nat → List UInt8

/-- The state of a transfer in `struct dfu_entity`: `i_buf_start` is in the buffer with
the number `start`, and `fill` and `room` are the distances of `i_buf` and `i_buf_end`. -/
structure Entity where
  offset : Nat
  seqNum : Nat
  start : Option Nat
  fill : Nat
  room : Nat
  rLeft : Nat
  bLeft : Nat
  inited : Bool

/-- What the build and the environment fix: `CONFIG_SYS_DFU_DATA_BUF_SIZE`,
`CONFIG_SYS_DFU_MAX_FILE_SIZE`, the size of the heap, and `dfu_bufsiz`. -/
structure Config where
  dataBufSize : Nat
  maxFileSize : Nat
  mallocLen : Nat
  dfuBufsiz : Option Nat
  dataBufSize_pos : 0 < dataBufSize

/-- The size that `dfu_get_buf` allocates; no entity on MMC has a `max_buf_size`. -/
def Config.bufsiz (config : Config) : Nat :=
  match config.dfuBufsiz with
  | none => config.dataBufSize
  | some n => if n = 0 then config.dataBufSize else n

/-- What a call meets: whether memory is left, what is in a new buffer, and how the
operations of the medium turn out. -/
structure Call where
  allocOk : Bool
  garbage : Ptr
  outcome : Nat → Outcome

/-! ### The media -/

/-- The test of `mmc_block_op`: the first block, and how many, when the request is in
the area and on the device. -/
def blockRange (area : Area) (offset len : Nat) : Option (Nat × Nat) :=
  let blkStart := (area.lbaStart + offset / area.blk % 4294967296) % 4294967296
  let blkCount := len / area.blk
  if (area.lbaStart + area.lbaSize) % 4294967296 < (blkStart + blkCount) % 4294967296 then none
  else if area.blocks < blkStart + blkCount then none
  else some (blkStart, blkCount)

/-- `mmc_block_op` for writing: the medium and whether it succeeds. -/
def mmcBlockWrite (area : Area) (disk : Ptr) (offset : Nat) (buf : Ptr) (len : Nat) :
    Outcome → Ptr × Bool
  | outcome =>
    match blockRange area offset len with
    | none => (disk, false)
    | some (blkStart, blkCount) =>
      match outcome with
      | .done => (disk.write (blkStart * area.blk) len buf, true)
      | .failed n => (disk.write (blkStart * area.blk) (min n blkCount * area.blk) buf, false)

/-- `write_medium`: the device, the length that is reported back, and whether it
succeeds. -/
def writeMedium (config : Config) (dev : Device) (offset len : Nat) (outcome : Outcome) :
    Layout → Device × Nat × Bool
  | .raw area =>
    let len := area.align len
    let (disk, ok) := mmcBlockWrite area dev.disk offset dev.buf len outcome
    ({ dev with disk := disk }, len, ok)
  | .file _ =>
    -- `mmc_file_buffer`
    if dev.fileBuf.length + len > config.maxFileSize then
      ({ dev with fileBuf := [] }, len, false)
    else ({ dev with fileBuf := dev.fileBuf ++ dev.buf.bytes len }, len, true)

/-- `flush_medium` -/
def flushMedium (dev : Device) (outcome : Outcome) : Layout → Device × Bool
  | .raw _ => (dev, true)
  | .file alt =>
    match outcome with
    | .done => ({ dev with files := Function.update dev.files alt dev.fileBuf, fileBuf := [] },
        true)
    | .failed _ => ({ dev with fileBuf := [] }, false)

/-! ### Download -/

/-- `dfu_get_buf`; the size is set even where there is no memory. -/
def dfuGetBuf (config : Config) (call : Call) (dev : Device) : Option (Device × Nat) :=
  match dev.live with
  | some n => some (dev, n)
  | none =>
    if config.bufsiz ≤ config.mallocLen ∧ call.allocOk then
      some ({ dev with buf := call.garbage, live := some dev.next, next := dev.next + 1,
                       bufSize := config.bufsiz }, dev.next)
    else none

/-- `dfu_write_buffer_drain` -/
def dfuWriteBufferDrain (config : Config) (layout : Layout) (outcome : Outcome) (dev : Device)
    (dfu : Entity) : Option (Device × Entity × Bool) :=
  if dfu.fill = 0 then some (dev, dfu, true)
  else if dfu.start ≠ dev.live then none
  else
    let (dev, len, ok) := writeMedium config dev dfu.offset dfu.fill outcome layout
    some (dev, { dfu with fill := 0, offset := dfu.offset + len }, ok)

/-- `dfu_write_transaction_cleanup` -/
def dfuWriteTransactionCleanup (dev : Device) (dfu : Entity) : Device × Entity :=
  ({ dev with live := none },
    { dfu with offset := 0, seqNum := 0, start := none, fill := 0, room := 0, inited := false })

/-- `dfu_flush` -/
def dfuFlush (config : Config) (layout : Layout) (call : Call) (dev : Device) (dfu : Entity) :
    Option (Device × Entity × Bool) := do
  let (dev, dfu, ok) ← dfuWriteBufferDrain config layout (call.outcome 0) dev dfu
  if !ok then return (dev, dfu, false)
  else
    let (dev, ok) := flushMedium dev (call.outcome 1) layout
    let (dev, dfu) := dfuWriteTransactionCleanup dev dfu
    return (dev, dfu, ok)

/-- The initial state of `dfu_write`; `none` inside stands for `-ENOMEM`. -/
def startWrite (config : Config) (call : Call) (dev : Device) (dfu : Entity) :
    Option (Device × Entity) :=
  if dfu.inited then some (dev, dfu)
  else
    match dfuGetBuf config call dev with
    | none => none
    | some (dev, n) =>
      some (dev, { dfu with offset := 0, seqNum := 0, start := some n, fill := 0,
                            room := dev.bufSize, inited := true })

/-- The end of a call that fails. -/
def failWrite (dev : Device) (dfu : Entity) : Option (Device × Entity × Bool) :=
  let (dev, dfu) := dfuWriteTransactionCleanup dev dfu
  some (dev, dfu, false)

/-- The buffer is drained, or not, and the call fails when that does not succeed. -/
def drainIf (needed : Bool) (config : Config) (layout : Layout) (outcome : Outcome)
    (dev : Device) (dfu : Entity) (next : Device → Entity → Option (Device × Entity × Bool)) :
    Option (Device × Entity × Bool) :=
  if needed then
    match dfuWriteBufferDrain config layout outcome dev dfu with
    | none => none
    | some (dev, dfu, ok) => if ok then next dev dfu else failWrite dev dfu
  else next dev dfu

/-- The second half of `dfu_write`: the block is put into the buffer, which is drained
when another one of its size does not fit. -/
def putBlock (config : Config) (layout : Layout) (outcome : Outcome) (data : List UInt8)
    (dev : Device) (dfu : Entity) : Option (Device × Entity × Bool) :=
  let size := data.length
  if dfu.fill + size > dfu.room then failWrite dev dfu
  else if size ≠ 0 ∧ dfu.start ≠ dev.live then none
  else
    let dev := { dev with buf := dev.buf.write dfu.fill size (Ptr.ofList data) }
    let dfu := { dfu with fill := dfu.fill + size }
    drainIf (size = 0 ∨ dfu.fill + size > dfu.room) config layout outcome dev dfu
      fun dev dfu => some (dev, dfu, true)

/-- `dfu_write`, whether it returns 0 as the last component -/
def dfuWrite (config : Config) (layout : Layout) (call : Call) (dev : Device) (dfu : Entity)
    (data : List UInt8) (blkSeqNum : Nat) : Option (Device × Entity × Bool) :=
  match startWrite config call dev dfu with
  | none =>
    some ({ dev with bufSize := config.bufsiz },
      { dfu with offset := 0, seqNum := 0, start := none }, false)
  | some (dev, dfu) =>
    if dfu.seqNum ≠ blkSeqNum then failWrite dev dfu
    else
      drainIf (dfu.fill + data.length > dfu.room) config layout (call.outcome 0) dev
        { dfu with seqNum := (dfu.seqNum + 1) % 65536 }
        (putBlock config layout (call.outcome 1) data)

/-! ### Upload -/

/-- `read_medium` for a raw entity: the buffer, and the length that is reported back.
Nothing may be read behind the end of the buffer. -/
def mmcBlockRead (area : Area) (dev : Device) (offset len : Nat) (outcome : Outcome) :
    Option (Device × Nat × Bool) :=
  let len := area.align len
  match blockRange area offset len with
  | none => some (dev, len, false)
  | some (blkStart, blkCount) =>
    if dev.bufSize < len then none
    else
      let src := dev.disk.add (blkStart * area.blk)
      match outcome with
      | .done => some ({ dev with buf := dev.buf.write 0 len src }, len, true)
      | .failed n =>
        let buf := dev.buf.write 0 (min n blkCount * area.blk) src
        some ({ dev with buf := buf }, len, false)

/-- The loop of `dfu_read_buffer_fill` for a raw entity; what is read is the last
component, when no operation fails. Every turn but the first one yields a byte. -/
def dfuReadBufferFill (area : Area) (call : Call) :
    Nat → Device → Entity → Nat → Option (Device × Entity × Option (List UInt8))
  | 0, _, _, _ => none
  | fuel + 1, dev, dfu, size =>
    let chunk := min size dfu.bLeft
    if size = 0 then some (dev, dfu, some [])
    else if (chunk ≠ 0 ∨ size ≠ chunk ∧ dfu.rLeft ≠ 0) ∧ dfu.start ≠ dev.live then none
    else
      let data := (dev.buf.add dfu.fill).bytes chunk
      let dfu := { dfu with fill := dfu.fill + chunk, bLeft := dfu.bLeft - chunk }
      let size := size - chunk
      if size = 0 then some (dev, dfu, some data)
      else if dfu.rLeft = 0 then some (dev, dfu, some data)
      else
        match mmcBlockRead area dev dfu.offset (min dfu.room dfu.rLeft) (call.outcome fuel) with
        | none => none
        | some (dev, len, ok) =>
          let dfu := { dfu with fill := 0, bLeft := len }
          if !ok then some (dev, dfu, none)
          else
            let dfu := { dfu with offset := dfu.offset + len, rLeft := dfu.rLeft - len }
            match dfuReadBufferFill area call fuel dev dfu size with
            | none => none
            | some (dev, dfu, result) => some (dev, dfu, result.map (data ++ ·))

/-- The initial state of `dfu_read` for a raw entity. -/
def startRead (config : Config) (area : Area) (call : Call) (dev : Device) (dfu : Entity) :
    Option (Device × Entity) :=
  if dfu.inited then some (dev, dfu)
  else
    match dfuGetBuf config call dev with
    | none => none
    | some (dev, n) =>
      some (dev, { offset := 0, seqNum := 0, start := some n, fill := 0, room := dev.bufSize,
                   rLeft := area.size, bLeft := 0, inited := true })

/-- `dfu_read` for a raw entity: the bytes that are returned, `none` for an error. -/
def dfuRead (config : Config) (area : Area) (call : Call) (dev : Device) (dfu : Entity)
    (size blkSeqNum : Nat) : Option (Device × Entity × Option (List UInt8)) :=
  match startRead config area call dev dfu with
  | none => some ({ dev with bufSize := config.bufsiz }, { dfu with start := none }, none)
  | some (dev, dfu) =>
    if dfu.seqNum ≠ blkSeqNum then some (dev, dfu, none)
    else
      let dfu := { dfu with seqNum := (dfu.seqNum + 1) % 65536 }
      match dfuReadBufferFill area call (size + 1) dev dfu size with
      | none => none
      | some (dev, dfu, none) => some (dev, dfu, none)
      | some (dev, dfu, some data) =>
        if data.length < size then
          some ({ dev with live := none },
            { dfu with offset := 0, seqNum := 0, start := none, fill := 0, room := 0,
                       bLeft := 0, inited := false }, some data)
        else some (dev, dfu, some data)

end UBoot.Dfu
