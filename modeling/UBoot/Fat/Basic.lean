import UBoot.Verification.Bytes

/-!
# Reading a file of a FAT file system

`get_fatent`, `get_cluster` and `get_contents` of `fs/fat/fat.c`, with the macros of
`include/fat.h`. Blocks that do not lie on the device are not read. There is no result where
C leaves the behaviour undefined, which is a sum that is no `loff_t` and bytes behind
`get_contents_vfatname_block`, and where a loop takes longer than its fuel.
-/

namespace UBoot.Fat

open Verification

/-- `cur_dev` and `cur_part_info`: the blocks of a device, and where the partition starts. -/
structure Disk where
  start : UInt32
  lba : Nat
  blksz : Nat
  bytes : Ptr

/-- The fields of `fsdata` that are set when a file system is opened. -/
structure FsData where
  fatsize : Nat
  fatlength : UInt32
  fatSect : UInt16
  rootdirSect : UInt32
  sectSize : UInt16
  clustSize : UInt16
  /-- The sector of the first cluster, can be negative. -/
  dataBegin : Int32

/-- The fields that `get_fatent` changes. -/
structure FatBuf where
  fatbuf : Ptr
  /-- The number of the part of the FAT that is held, −1 when there is none. -/
  fatbufnum : UInt32

/-- The fields of `dir_entry` that say where a file is. -/
structure DirEntry where
  starthi : UInt16
  start : UInt16
  size : UInt32

def FATBUFBLOCKS : UInt32 := 6

/-- `CONFIG_FS_FAT_MAX_CLUSTSIZE`, when it is not set. -/
def MAX_CLUSTSIZE : Nat := 65536

/-- `disk_read`: the number of blocks that are read, and the memory. -/
def diskRead (disk : Disk) (block nrBlocks : UInt32) (mem : Ptr) (buf : Nat) : Nat × Ptr :=
  let blk := (disk.start + block).toNat
  if blk + nrBlocks.toNat ≤ disk.lba then
    (nrBlocks.toNat, mem.write buf (nrBlocks.toNat * disk.blksz)
      (disk.bytes.add (blk * disk.blksz)))
  else (0, mem)

section

variable (fs : FsData) (disk : Disk)

/-! ### The table -/

def FATBUFSIZE : UInt32 := fs.sectSize.toUInt32 * FATBUFBLOCKS

/-- `FAT12BUFSIZE`, `FAT16BUFSIZE` and `FAT32BUFSIZE`: the entries of a buffer. -/
def bufEntries : UInt32 :=
  if fs.fatsize = 32 then FATBUFSIZE fs / 4
  else if fs.fatsize = 16 then FATBUFSIZE fs / 2
  else FATBUFSIZE fs * 2 / 3

/-- Read a new block of FAT entries into the cache. -/
def readFat (bufnum : UInt32) (buf : FatBuf) : FatBuf :=
  let startblock := bufnum * FATBUFBLOCKS
  let getsize :=
    if startblock + FATBUFBLOCKS > fs.fatlength then fs.fatlength - startblock else FATBUFBLOCKS
  ⟨(diskRead disk (startblock + fs.fatSect.toUInt32) getsize buf.fatbuf 0).2, bufnum⟩

/-- An element of a `__u16 *`. -/
def u16At (p : Ptr) (i : Nat) : Nat := leValue ((p.add (2 * i)).bytes 2)

/-- An element of a `__u32 *`. -/
def u32At (p : Ptr) (i : Nat) : Nat := leValue ((p.add (4 * i)).bytes 4)

/-- Get the actual entry from the table. -/
def bufEntry (fatbuf : Ptr) (offset : Nat) : Nat :=
  if fs.fatsize = 32 then u32At fatbuf offset
  else if fs.fatsize = 16 then u16At fatbuf offset
  else
    let off16 := offset * 3 / 4
    match offset &&& 3 with
    | 0 => u16At fatbuf off16 &&& 0xfff
    | 1 =>
      let val1 := u16At fatbuf off16 &&& 0xf000
      let val2 := u16At fatbuf (off16 + 1) &&& 0x00ff
      val2 <<< 4 ||| val1 >>> 12
    | 2 =>
      let val1 := u16At fatbuf off16 &&& 0xff00
      let val2 := u16At fatbuf (off16 + 1) &&& 0x000f
      val2 <<< 8 ||| val1 >>> 8
    | _ => (u16At fatbuf off16 &&& 0xfff0) >>> 4

/-- `get_fatent` -/
def getFatent (buf : FatBuf) (entry : UInt32) : UInt32 × FatBuf :=
  if fs.fatsize ≠ 32 ∧ fs.fatsize ≠ 16 ∧ fs.fatsize ≠ 12 then (0, buf)
  else
    let bufnum := entry / bufEntries fs
    let offset := entry - bufnum * bufEntries fs
    let buf := if bufnum ≠ buf.fatbufnum then readFat fs disk bufnum buf else buf
    (UInt32.ofNat (bufEntry fs buf.fatbuf offset.toNat), buf)

/-- `CHECK_CLUST`: the entry is no cluster of a file. -/
def CHECK_CLUST (x : UInt32) : Prop :=
  x ≤ 1 ∨ x ≥ if fs.fatsize ≠ 32 then (if fs.fatsize ≠ 16 then 0xff0 else 0xfff0) else 0xffffff0

instance (x : UInt32) : Decidable (CHECK_CLUST fs x) := inferInstanceAs (Decidable (_ ∨ _))

/-! ### A cluster -/

/-- The first sector of a cluster. -/
def startsect (clustnum : UInt32) : UInt32 :=
  if clustnum > 0 then fs.dataBegin.toUInt32 + clustnum * fs.clustSize.toUInt32
  else fs.rootdirSect

def readSectors : Nat → UInt32 → Ptr → Nat → Int × Ptr
  | 0, _, mem, _ => (0, mem)
  | left + 1, startsect, mem, buffer =>
    let read := diskRead disk startsect 1 (fun _ => 0) 0
    if read.1 ≠ 1 then (-1, mem)
    else
      readSectors left (startsect + 1) (mem.write buffer fs.sectSize.toNat read.2)
        (buffer + fs.sectSize.toNat)

/-- `get_cluster`, with `ARCH_DMA_MINALIGN`. `idx` sectors are read as a whole, and a part of
one more. -/
def getCluster (minalign : Nat) (clustnum : UInt32) (mem : Ptr) (buffer size : Nat) : Int × Ptr :=
  let startsect := startsect fs clustnum
  let idx := size / fs.sectSize.toNat
  let whole :=
    if buffer &&& (minalign - 1) ≠ 0 then readSectors fs disk idx startsect mem buffer
    else
      let read := diskRead disk startsect (UInt32.ofNat idx) mem buffer
      (if read.1 ≠ idx then -1 else 0, read.2)
  let size := size % fs.sectSize.toNat
  if whole.1 ≠ 0 then whole
  else if size ≠ 0 then
    let read := diskRead disk (startsect + UInt32.ofNat idx) 1 (fun _ => 0) 0
    if read.1 ≠ 1 then (-1, whole.2)
    else (0, whole.2.write (buffer + idx * fs.sectSize.toNat) size read.2)
  else whole

/-! ### A file -/

/-- `START` -/
def START (dent : DirEntry) : UInt32 :=
  dent.start.toUInt32 + (if fs.fatsize ≠ 32 then 0 else dent.starthi.toUInt32 <<< 16 : UInt32)

def bytesperclust : Nat := fs.clustSize.toNat * fs.sectSize.toNat

/-- Where the search for the cluster at `pos` ends. -/
inductive Sought where
  | found (actsize : Nat) (curclust : UInt32) (buf : FatBuf)
  | invalid (buf : FatBuf)

/-- Go to the cluster at `pos`. -/
def seek (pos : Nat) : Nat → Nat → UInt32 → FatBuf → Option Sought
  | 0, _, _, _ => none
  | fuel + 1, actsize, curclust, buf =>
    if actsize ≤ pos then
      let entry := getFatent fs disk buf curclust
      if CHECK_CLUST fs entry.1 then some (.invalid entry.2)
      else seek pos fuel (actsize + bytesperclust fs) entry.1 entry.2
    else some (.found actsize curclust buf)

/-- Where the search for consecutive clusters ends. -/
inductive Merged where
  | rest (buf : FatBuf)
  | getit (actsize : Nat) (endclust : UInt32) (buf : FatBuf)
  | invalid (buf : FatBuf)

/-- Search for consecutive clusters. -/
def merge (filesize : Nat) : Nat → Nat → UInt32 → FatBuf → Option Merged
  | 0, _, _, _ => none
  | fuel + 1, actsize, endclust, buf =>
    if actsize < filesize then
      let newclust := getFatent fs disk buf endclust
      if newclust.1 - 1 ≠ endclust then some (.getit actsize endclust newclust.2)
      else if CHECK_CLUST fs newclust.1 then some (.invalid newclust.2)
      else merge filesize fuel (actsize + bytesperclust fs) newclust.1 newclust.2
    else some (.rest buf)

/-- What a read returns and leaves behind. -/
structure Result where
  ret : Int
  gotsize : Int
  mem : Ptr
  buf : FatBuf

/-- The cast to `int` in a size that is read; `unsigned long` has 32 bits. -/
def castSize (actsize : Nat) : Nat := actsize % 2 ^ 32

/-- The cast to `int` in a size that is counted. -/
def castInt (actsize : Nat) : Int := (actsize : Int).bmod (2 ^ 32)

/-- The `do` loop over the runs of consecutive clusters. -/
def readClusters (minalign : Nat) :
    Nat → UInt32 → Nat → Nat → Int → Ptr → FatBuf → Option Result
  | 0, _, _, _, _, _, _ => none
  | fuel + 1, curclust, filesize, buffer, gotsize, mem, buf =>
    match merge fs disk filesize (fuel + 1) (bytesperclust fs) curclust buf with
    | none => none
    | some (.invalid buf) => some ⟨0, gotsize, mem, buf⟩
    | some (.rest buf) =>
      let got := getCluster fs disk minalign curclust mem buffer (castSize filesize)
      if got.1 ≠ 0 then some ⟨-1, gotsize, got.2, buf⟩
      else some ⟨0, gotsize + filesize, got.2, buf⟩
    | some (.getit actsize endclust buf) =>
      let got := getCluster fs disk minalign curclust mem buffer (castSize actsize)
      if got.1 ≠ 0 then some ⟨-1, gotsize, got.2, buf⟩
      else
        let gotsize := gotsize + castInt actsize
        let entry := getFatent fs disk buf endclust
        if CHECK_CLUST fs entry.1 then some ⟨0, gotsize, got.2, entry.2⟩
        else
          readClusters minalign fuel entry.1 (filesize - actsize) (buffer + actsize) gotsize
            got.2 entry.2

/-- `get_contents`. `block` is what `get_contents_vfatname_block` holds before. -/
def getContents (minalign fuel : Nat) (dentptr : DirEntry) (pos maxsize : Nat) (buffer : Nat)
    (block mem : Ptr) (buf : FatBuf) : Option Result :=
  let filesize := dentptr.size.toNat
  if pos ≥ filesize then some ⟨0, 0, mem, buf⟩
  else if maxsize > 0 ∧ pos + maxsize ≥ 2 ^ 63 then none
  else
    let filesize := if maxsize > 0 ∧ filesize > pos + maxsize then pos + maxsize else filesize
    match seek fs disk pos fuel (bytesperclust fs) (START fs dentptr) buf with
    | none => none
    | some (.invalid buf) => some ⟨0, 0, mem, buf⟩
    | some (.found actsize curclust buf) =>
      let actsize := actsize - bytesperclust fs
      let filesize := filesize - actsize
      let pos := pos - actsize
      if pos = 0 then
        readClusters fs disk minalign fuel curclust filesize buffer 0 mem buf
      else
        -- align to the beginning of the next cluster, if any
        let actsize := min filesize (bytesperclust fs)
        if actsize > MAX_CLUSTSIZE then none
        else
          let got := getCluster fs disk minalign curclust block 0 (castSize actsize)
          if got.1 ≠ 0 then some ⟨-1, 0, mem, buf⟩
          else
            let filesize := filesize - actsize
            let actsize := actsize - pos
            let mem := mem.write buffer actsize (got.2.add pos)
            if filesize = 0 then some ⟨0, actsize, mem, buf⟩
            else
              let entry := getFatent fs disk buf curclust
              if CHECK_CLUST fs entry.1 then some ⟨0, actsize, mem, entry.2⟩
              else
                readClusters fs disk minalign fuel entry.1 filesize (buffer + actsize) actsize
                  mem entry.2

end

end UBoot.Fat
