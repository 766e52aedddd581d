import UBoot.Sparse.Basic

/-!
# What `write_sparse_image` does, access by access

The function for every partition, device and heap: a device may refuse blocks, memory may
run out, and a division by zero hangs. The accesses to the image, the blocks that are passed
to the device and the divisors are listed in the order in which they happen. `data` is an
offset in the image and does not wrap.
-/

namespace UBoot.Sparse

open Verification

/-- The partition as it is given: `disk_partition_t`. -/
structure Info where
  start : UInt32
  size : UInt32
  blksz : UInt32

/-- What the device and the heap answer, call by call. -/
structure Env where
  /-- The blocks that a call of `block_write` takes. -/
  blockWrite : Nat → UInt32 → UInt32 → UInt32
  memalign : Nat → Bool

inductive Event where
  /-- Bytes of the image are read. -/
  | read (offset len : Nat)
  /-- Blocks are passed to `block_write`. -/
  | write (blk blkcnt : UInt32)
  | divide (divisor : UInt32)
  deriving DecidableEq

/-- The variables of the loop, and the calls so far. -/
structure Vars where
  data : Nat
  blk : UInt32
  totalBlocks : UInt32
  writes : Nat
  allocs : Nat

/-- How a chunk ends. -/
inductive Outcome where
  | next (s : Vars)
  | stop (why : String)
  | hang

section

variable (info : Info) (image : Ptr) (env : Env) (h : Header)

def chunkType (data : Nat) : Nat := field image data 2

def chunkSz (data : Nat) : UInt32 := UInt32.ofNat (field image (data + 4) 4)

def totalSz (data : Nat) : UInt32 := UInt32.ofNat (field image (data + 8) 4)

/-- The data behind the header of a chunk. -/
def chunkData (data : Nat) : Nat :=
  let data := data + chunkHeaderSize
  if h.chunkHdrSz > chunkHeaderSize then data + (h.chunkHdrSz - chunkHeaderSize) else data

/-- `chunk_data_sz`, a product of 32 bits. -/
def chunkDataSz (data : Nat) : UInt32 := h.blkSz * chunkSz image data

/-- `blkcnt` -/
def blkcnt (data : Nat) : UInt32 := chunkDataSz image h data / info.blksz

/-- The check of a chunk that is written. -/
def Exceeds (blk blkcnt : UInt32) : Prop := blk + blkcnt > info.start + info.size

instance (blk blkcnt : UInt32) : Decidable (Exceeds info blk blkcnt) :=
  inferInstanceAs (Decidable (_ > _))

/-- The `for` loop that writes a filled buffer: the blocks, and whether all were taken. -/
def fillWrites : Nat → Nat → UInt32 → List Event × Bool
  | 0, _, _ => ([], true)
  | left + 1, writes, blk =>
    if env.blockWrite writes blk 1 ≠ 1 then ([.write blk 1], false)
    else
      let rest := fillWrites left (writes + 1) (blk + 1)
      (.write blk 1 :: rest.1, rest.2)

/-- `case CHUNK_TYPE_RAW` -/
def rawChunk (s : Vars) : List Event × Outcome :=
  let blkcnt := blkcnt info image h s.data
  if totalSz image s.data ≠ UInt32.ofNat h.chunkHdrSz + chunkDataSz image h s.data then
    ([.read (s.data + 8) 4], .stop "Bogus chunk size for chunk type Raw")
  else if Exceeds info s.blk blkcnt then
    ([.read (s.data + 8) 4], .stop "Request would exceed partition size!")
  else
    let events := [.read (s.data + 8) 4,
      .read (chunkData h s.data) (blkcnt.toNat * info.blksz.toNat), .write s.blk blkcnt]
    if env.blockWrite s.writes s.blk blkcnt ≠ blkcnt then (events, .stop "flash write failure")
    else
      (events, .next { s with
        data := chunkData h s.data + (chunkDataSz image h s.data).toNat
        blk := s.blk + blkcnt
        totalBlocks := s.totalBlocks + chunkSz image s.data
        writes := s.writes + 1 })

/-- `case CHUNK_TYPE_FILL` -/
def fillChunk (s : Vars) : List Event × Outcome :=
  let blkcnt := blkcnt info image h s.data
  if totalSz image s.data ≠ UInt32.ofNat h.chunkHdrSz + 4 then
    ([.read (s.data + 8) 4], .stop "Bogus chunk size for chunk type FILL")
  else if !env.memalign s.allocs then
    ([.read (s.data + 8) 4], .stop "Malloc failed for: CHUNK_TYPE_FILL")
  else
    let events := [.read (s.data + 8) 4, .read (chunkData h s.data) 4]
    if Exceeds info s.blk blkcnt then (events, .stop "Request would exceed partition size!")
    else
      let fill := fillWrites env blkcnt.toNat s.writes s.blk
      if !fill.2 then (events ++ fill.1, .stop "flash write failure")
      else
        let events := events ++ (fill.1 ++ [.divide h.blkSz])
        if h.blkSz = 0 then (events, .hang)
        else
          (events, .next {
            data := chunkData h s.data + 4
            blk := s.blk + blkcnt
            totalBlocks := s.totalBlocks + chunkDataSz image h s.data / h.blkSz
            writes := s.writes + blkcnt.toNat
            allocs := s.allocs + 1 })

/-- `case CHUNK_TYPE_DONT_CARE` -/
def dontCareChunk (s : Vars) : List Event × Outcome :=
  ([], .next { s with
    data := chunkData h s.data
    blk := s.blk + blkcnt info image h s.data
    totalBlocks := s.totalBlocks + chunkSz image s.data })

/-- `case CHUNK_TYPE_CRC32` -/
def crc32Chunk (s : Vars) : List Event × Outcome :=
  if totalSz image s.data ≠ UInt32.ofNat h.chunkHdrSz then
    ([.read (s.data + 8) 4], .stop "Bogus chunk size for chunk type Dont Care")
  else
    ([.read (s.data + 8) 4], .next { s with
      data := chunkData h s.data + (chunkDataSz image h s.data).toNat
      totalBlocks := s.totalBlocks + chunkSz image s.data })

/-- The `switch` over the type of a chunk. -/
def chunkCase (s : Vars) : List Event × Outcome :=
  if chunkType image s.data = CHUNK_TYPE_RAW then rawChunk info image env h s
  else if chunkType image s.data = CHUNK_TYPE_FILL then fillChunk info image env h s
  else if chunkType image s.data = CHUNK_TYPE_DONT_CARE then dontCareChunk info image h s
  else if chunkType image s.data = CHUNK_TYPE_CRC32 then crc32Chunk image h s
  else ([], .stop "Unknown chunk type")

/-- The fields that are read of every chunk, and the division by the block size. -/
def chunkHead (s : Vars) : List Event :=
  [.read s.data 2, .read (s.data + 4) 4, .divide info.blksz]

/-- One round of the loop. -/
def chunkStep (s : Vars) : List Event × Outcome :=
  if info.blksz = 0 then (chunkHead info s, .hang)
  else
    let rest := chunkCase info image env h s
    (chunkHead info s ++ rest.1, rest.2)

/-- The rounds that are left. -/
def chunkRun : Nat → Vars → List Event × Outcome
  | 0, s => ([], .next s)
  | chunks + 1, s =>
    let step := chunkStep info image env h s
    match step.2 with
    | .next s' =>
      let rest := chunkRun chunks s'
      (step.1 ++ rest.1, rest.2)
    | outcome => (step.1, outcome)

/-- The chunks begin behind the header of the image. -/
def firstChunk : Nat :=
  if h.fileHdrSz > sparseHeaderSize then h.fileHdrSz + (h.fileHdrSz - sparseHeaderSize)
  else h.fileHdrSz

/-- The variables before the loop. -/
def startVars : Vars := ⟨firstChunk h, info.start, 0, 0, 0⟩

/-- The check of the block size of the image. -/
def BlkSzOk : Prop := h.blkSz = h.blkSz &&& ~~~(info.blksz - 1)

instance : Decidable (BlkSzOk info h) := inferInstanceAs (Decidable (_ = _))

/-- `write_sparse_image`: the accesses, and what is told to the host, if it returns. -/
def writeSparseImageEvents : List Event × Option (List Report) :=
  let h := readHeader image
  if ¬BlkSzOk info h then
    ([.read 8 2, .read 12 4], some [.fail "sparse image block size issue"])
  else
    let run := chunkRun info image env h h.totalChunks (startVars info h)
    -- the number of chunks, the size of their headers and the number of blocks
    let events := [.read 8 2, .read 12 4, .read 20 4, .read 10 2, .read 16 4] ++ run.1
    match run.2 with
    | .next s =>
      (events, some (if s.totalBlocks ≠ h.totalBlks then
        [.fail "sparse image write failure", .okay] else [.okay]))
    | .stop why => (events, some [.fail why])
    | .hang => (events, none)

end

end UBoot.Sparse
