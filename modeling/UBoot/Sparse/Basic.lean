import UBoot.Verification.Bytes

/-!
# Writing Android sparse images

`write_sparse_image` of `common/aboot.c` and the format of
`include/sparse_format.h`. An `lbaint_t` has 32 bits. The device takes every
write, memory for the fill buffer is always there, and the counter that is only
printed is left out.
-/

namespace UBoot.Sparse

open Verification

def CHUNK_TYPE_RAW : Nat := 0xCAC1
def CHUNK_TYPE_FILL : Nat := 0xCAC2
def CHUNK_TYPE_DONT_CARE : Nat := 0xCAC3
def CHUNK_TYPE_CRC32 : Nat := 0xCAC4

/-- `sizeof(sparse_header_t)` -/
def sparseHeaderSize : Nat := 28

/-- `sizeof(chunk_header_t)` -/
def chunkHeaderSize : Nat := 12

/-- The partition: `disk_partition_t`, with blocks of a power of two bytes. -/
structure Partition where
  start : UInt32
  size : UInt32
  blksz : UInt32
  end_lt : start.toNat + size.toNat < 2 ^ 32
  blksz_pow : ∃ k, 2 ≤ k ∧ blksz.toNat = 2 ^ k

/-- The bytes on the device. -/
abbrev Disk := Ptr

/-- `dev_desc->block_write` -/
def blockWrite (info : Partition) (disk : Disk) (blk blkcnt : UInt32) (buf : Ptr) : Disk :=
  disk.write (blk.toNat * info.blksz.toNat) (blkcnt.toNat * info.blksz.toNat) buf

/-- What is told to the host. -/
inductive Report
  | okay
  | fail (why : String)
  deriving DecidableEq

/-- A little-endian field of `n` bytes. -/
def field (p : Ptr) (offset n : Nat) : Nat := leValue ((p.add offset).bytes n)

/-- The buffer that is filled with a value. -/
def fillBuf (fillVal : List UInt8) : Ptr := fun i => fillVal.getD (i % 4) 0

/-- The loop that writes a filled buffer block by block. -/
def fillLoop (info : Partition) (buf : Ptr) : Nat → UInt32 → Disk → Disk
  | 0, _, disk => disk
  | n + 1, blk, disk => fillLoop info buf n (blk + 1) (blockWrite info disk blk 1 buf)

section

variable (info : Partition) (image : Ptr)

/-- The fields of the sparse header that the loop uses. -/
structure Header where
  fileHdrSz : Nat
  chunkHdrSz : Nat
  blkSz : UInt32
  totalBlks : UInt32
  totalChunks : Nat

/-- `sparse_header_t` at the start of the image. -/
def readHeader : Header where
  fileHdrSz := field image 8 2
  chunkHdrSz := field image 10 2
  blkSz := UInt32.ofNat (field image 12 4)
  totalBlks := UInt32.ofNat (field image 16 4)
  totalChunks := field image 20 4

/-- The loop over the chunks that are left. `data` is the offset in the image. -/
def chunkLoop (h : Header) : Nat → Nat → UInt32 → UInt32 → Disk → Disk × List Report
  | 0, _, _, totalBlocks, disk =>
    (disk, if totalBlocks ≠ h.totalBlks then [.fail "sparse image write failure", .okay]
      else [.okay])
  | chunks + 1, data, blk, totalBlocks, disk =>
    let chunkType := field image data 2
    let chunkSz := UInt32.ofNat (field image (data + 4) 4)
    let totalSz := UInt32.ofNat (field image (data + 8) 4)
    let data := data + chunkHeaderSize
    let data := if h.chunkHdrSz > chunkHeaderSize then data + (h.chunkHdrSz - chunkHeaderSize)
      else data
    let chunkDataSz := h.blkSz * chunkSz
    let blkcnt := chunkDataSz / info.blksz
    if chunkType = CHUNK_TYPE_RAW then
      if totalSz ≠ UInt32.ofNat h.chunkHdrSz + chunkDataSz then
        (disk, [.fail "Bogus chunk size for chunk type Raw"])
      else if blk + blkcnt > info.start + info.size then
        (disk, [.fail "Request would exceed partition size!"])
      else
        chunkLoop h chunks (data + chunkDataSz.toNat) (blk + blkcnt) (totalBlocks + chunkSz)
          (blockWrite info disk blk blkcnt (image.add data))
    else if chunkType = CHUNK_TYPE_FILL then
      if totalSz ≠ UInt32.ofNat h.chunkHdrSz + 4 then
        (disk, [.fail "Bogus chunk size for chunk type FILL"])
      else if blk + blkcnt > info.start + info.size then
        (disk, [.fail "Request would exceed partition size!"])
      else
        chunkLoop h chunks (data + 4) (blk + blkcnt) (totalBlocks + chunkDataSz / h.blkSz)
          (fillLoop info (fillBuf ((image.add data).bytes 4)) blkcnt.toNat blk disk)
    else if chunkType = CHUNK_TYPE_DONT_CARE then
      chunkLoop h chunks data (blk + blkcnt) (totalBlocks + chunkSz) disk
    else if chunkType = CHUNK_TYPE_CRC32 then
      if totalSz ≠ UInt32.ofNat h.chunkHdrSz then
        (disk, [.fail "Bogus chunk size for chunk type Dont Care"])
      else
        chunkLoop h chunks (data + chunkDataSz.toNat) blk (totalBlocks + chunkSz) disk
    else (disk, [.fail "Unknown chunk type"])

/-- `write_sparse_image` -/
def writeSparseImage (disk : Disk) : Disk × List Report :=
  let h := readHeader image
  let data := h.fileHdrSz
  let data := if h.fileHdrSz > sparseHeaderSize then data + (h.fileHdrSz - sparseHeaderSize)
    else data
  if h.blkSz ≠ h.blkSz &&& ~~~(info.blksz - 1) then
    (disk, [.fail "sparse image block size issue"])
  else chunkLoop info image h h.totalChunks data info.start 0 disk

end

/-! ### The format -/

/-- What a chunk stands for. -/
inductive Content
  | raw (data : List UInt8)
  | fill (value : Vector UInt8 4)
  | dontCare
  | crc32 (value : Vector UInt8 4)

/-- A chunk: its size in blocks of the image, and the bytes that the format does
not define. -/
structure Chunk where
  content : Content
  chunkSz : UInt32
  reserved : Vector UInt8 2
  padding : List UInt8

def Content.data : Content → List UInt8
  | .raw data => data
  | .fill value => value.toList
  | .dontCare => []
  | .crc32 value => value.toList

def Content.type : Content → Nat
  | .raw _ => CHUNK_TYPE_RAW
  | .fill _ => CHUNK_TYPE_FILL
  | .dontCare => CHUNK_TYPE_DONT_CARE
  | .crc32 _ => CHUNK_TYPE_CRC32

def Chunk.toBytes (chunkHdrSz : Nat) (c : Chunk) : List UInt8 :=
  leBytes 2 c.content.type ++ (c.reserved.toList ++ (leBytes 4 c.chunkSz.toNat ++
    (leBytes 4 (chunkHdrSz + c.content.data.length) ++ (c.padding ++ c.content.data))))

/-- A chunk has a header of the given size and as much data as its kind asks for;
its total size has 32 bits. -/
structure Chunk.WellFormed (chunkHdrSz blkSz : Nat) (c : Chunk) : Prop where
  padding : chunkHeaderSize + c.padding.length = chunkHdrSz
  total_lt : chunkHdrSz + c.content.data.length < 2 ^ 32
  raw : ∀ data, c.content = .raw data → data.length = blkSz * c.chunkSz.toNat
  crc32 : ∀ value, c.content = .crc32 value → c.chunkSz = 0

structure Image where
  version : Vector UInt8 4
  blkSz : UInt32
  checksum : Vector UInt8 4
  padding : List UInt8
  chunkHdrSz : Nat
  chunks : List Chunk

/-- `SPARSE_HEADER_MAGIC` -/
def SPARSE_HEADER_MAGIC : Nat := 0xed26ff3a

def Image.fileHdrSz (img : Image) : Nat := sparseHeaderSize + img.padding.length

/-- The blocks of the expanded image. -/
def Image.totalBlks (img : Image) : Nat := (img.chunks.map fun c => c.chunkSz.toNat).sum

def Image.toBytes (img : Image) : List UInt8 :=
  leBytes 4 SPARSE_HEADER_MAGIC ++ (img.version.toList ++ (leBytes 2 img.fileHdrSz ++
    (leBytes 2 img.chunkHdrSz ++ (leBytes 4 img.blkSz.toNat ++ (leBytes 4 img.totalBlks ++
    (leBytes 4 img.chunks.length ++ (img.checksum.toList ++ (img.padding ++
    img.chunks.flatMap (Chunk.toBytes img.chunkHdrSz)))))))))

structure Image.WellFormed (img : Image) : Prop where
  fileHdrSz_lt : img.fileHdrSz < 2 ^ 16
  chunkHdrSz_lt : img.chunkHdrSz < 2 ^ 16
  chunkHdrSz_le : chunkHeaderSize ≤ img.chunkHdrSz
  blkSz_pos : 0 < img.blkSz.toNat
  blkSz_four : img.blkSz.toNat % 4 = 0
  totalBlks_lt : img.totalBlks < 2 ^ 32
  totalChunks_lt : img.chunks.length < 2 ^ 32
  chunks : ∀ c ∈ img.chunks, c.WellFormed img.chunkHdrSz img.blkSz.toNat

def Image.LoadedAt (img : Image) (p : Ptr) : Prop :=
  p.bytes img.toBytes.length = img.toBytes

/-! ### The expansion -/

/-- The bytes that a chunk covers. -/
def Chunk.span (blkSz : Nat) (c : Chunk) : Nat := blkSz * c.chunkSz.toNat

def Chunk.put (blkSz : Nat) (c : Chunk) (pos : Nat) (disk : Disk) : Disk :=
  match c.content with
  | .raw data => disk.write pos (c.span blkSz) (Ptr.ofList data)
  | .fill value => disk.write pos (c.span blkSz) (fillBuf value.toList)
  | _ => disk

/-- The expansion of some chunks from a place of the device on. -/
def expand (blkSz : Nat) : List Chunk → Nat → Disk → Disk
  | [], _, disk => disk
  | c :: chunks, pos, disk => expand blkSz chunks (pos + c.span blkSz) (c.put blkSz pos disk)

/-- The expansion fits the partition. -/
def Image.Fits (img : Image) (info : Partition) : Prop :=
  img.blkSz.toNat * img.totalBlks ≤ info.size.toNat * info.blksz.toNat

instance (img : Image) (info : Partition) : Decidable (img.Fits info) :=
  inferInstanceAs (Decidable (_ ≤ _))

end UBoot.Sparse
