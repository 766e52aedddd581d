import UBoot.Ext4.Bitmap
import UBoot.Ext4.Extents
import UBoot.Ext4.Replay
import UBoot.Verification.Records

/-!
# An entry for a new file

`ext4fs_update_parent_dentry` and `check_void_in_dentry` (`fs/ext4/ext4_common.c`), with what
`read_allocated_block`, `ext4fs_devread` and `put_ext4` do for them. What the two allocators
return is given, an empty list of blocks for no block left. `zalloc` succeeds and the journal
has room. `lbaint_t` and `long int` have 32 bits.
-/

namespace UBoot.Ext4.ParentDentry

open Verification

def INDIRECT_BLOCKS : Nat := 12

def FILETYPE_REG : UInt8 := 1

/-- The two logarithms that the code shifts by: of the bytes in a sector and of the sectors in
a block. A block has from 1 to 64 KiB. -/
structure Geometry where
  log2blksz : Nat
  log2FsBlocksize : Nat
  ten_le : 10 ≤ log2FsBlocksize + log2blksz
  le_sixteen : log2FsBlocksize + log2blksz ≤ 16

/-- The inode of a directory: the flag `EXT4_EXTENTS_FL`, the 60 bytes of block pointers and
the fields that grow. -/
structure Inode where
  extents : Bool
  dirBlocks : Ptr
  size : UInt32
  blockcnt : UInt32

/-- The partition, block by block, and its number of sectors. -/
structure Partition where
  disk : Nat → Ptr
  partSize : Nat
  partSize_lt : partSize < 4294967296

/-! ## Entries -/

/-- The fields of `struct ext2_dirent`. -/
def direntlen (buf : Ptr) (off : Nat) : Nat := (le16At buf (off + 4)).toNat

def namelen (buf : Ptr) (off : Nat) : Nat := (buf (off + 6)).toNat

def setDirentlen (buf : Ptr) (off length : Nat) : Ptr := setLe16 buf (off + 4) (UInt16.ofNat length)

/-- The bytes that a name is padded with, on top of an old factor when there are none. -/
def paddingFactor (old length : Nat) : Nat := if length % 4 ≠ 0 then 4 - length % 4 else old

/-- The length that an entry needs for its name. -/
def dentryLength (length : Nat) : Nat := 8 + length + paddingFactor 0 length

section

variable (g : Geometry) (name : List UInt8)

def Geometry.sectPerblk : Nat := 2 ^ g.log2FsBlocksize

def Geometry.blksz : Nat := 2 ^ (g.log2FsBlocksize + g.log2blksz)

/-- `check_void_in_dentry`: the room, 0 when it is too small, and the block. -/
def checkVoidInDentry (buf : Ptr) (off : Nat) : Nat × Ptr :=
  let sizeofVoidSpace : Int := direntlen buf off - dentryLength (namelen buf off)
  if sizeofVoidSpace = 0 then (0, buf)
  else if dentryLength name.length ≤ sizeofVoidSpace then
    (sizeofVoidSpace.toNat, setDirentlen buf off (dentryLength (namelen buf off)))
  else (0, buf)

/-- What the loop over the entries of a block comes to: it reads behind the block, the block
is full (with the padding factor that is left over), or the new entry goes behind an entry. -/
inductive Place
  | outside
  | full (padding : Nat)
  | found (off sizeofVoidSpace : Nat) (buf : Ptr)

/-- The loop over the entries. Each one takes at least a byte, so that the size of the block is
fuel enough. -/
def walk (buf : Ptr) (padding : Nat) : Nat → Nat → Place
  | 0, _ => .outside
  | fuel + 1, off =>
    if g.blksz < off + 6 then .outside
    else if direntlen buf off = 0 then .found off 0 buf
    else if g.blksz < off + 7 then .outside
    else if g.blksz - off = direntlen buf off then
      let newEntryByteReqd := name.length + 8 + paddingFactor padding name.length
      let padding := paddingFactor 0 (namelen buf off)
      let lastEntryDirlen := namelen buf off + 8 + padding
      if ((g.blksz : Int) - off - lastEntryDirlen) % 4294967296 < newEntryByteReqd then
        .full padding
      else .found off 0 (setDirentlen buf off lastEntryDirlen)
    else
      match checkVoidInDentry name buf off with
      | (0, _) => walk buf padding fuel (off + direntlen buf off)
      | (sizeofVoidSpace, buf) => .found off sizeofVoidSpace buf

/-- The fields of the new entry and its name. -/
def putEntry (buf : Ptr) (dir : Nat) (ino : UInt32) (length : Nat) : Ptr :=
  let buf := setLe32 buf dir ino
  let buf := setDirentlen buf dir length
  let buf := buf.write (dir + 6) 1 fun _ => UInt8.ofNat name.length
  let buf := buf.write (dir + 7) 1 fun _ => FILETYPE_REG
  buf.write (dir + 8) name.length (Ptr.ofList name)

/-- The end of `ext4fs_update_parent_dentry`, nothing when it writes behind the block. -/
def insertEntry (ino : UInt32) (off sizeofVoidSpace : Nat) (buf : Ptr) : Option Ptr :=
  let totalbytes := off + direntlen buf off
  if g.blksz < totalbytes + 8 + name.length then none
  else
    some (putEntry name buf totalbytes ino
      (if sizeofVoidSpace ≠ 0 then sizeofVoidSpace else g.blksz - totalbytes))

/-! ## Blocks -/

/-- The partition and the inode, as they are for the reads of a file with extents. -/
def extentFile (p : Partition) (inode : Inode) : Extents.File where
  dirBlocks := inode.dirBlocks
  disk := fun a => p.disk (a / g.blksz) (a % g.blksz)
  partSize := p.partSize
  log2blksz := g.log2blksz
  log2FsBlocksize := g.log2FsBlocksize
  partSize_lt := p.partSize_lt

/-- `read_allocated_block` for the first blocks: nothing when the descent through a tree of
extents does not end in time or reads outside of a node. -/
def readAllocatedBlock (fuel : Nat) (p : Partition) (inode : Inode) (i : Nat) : Option Int :=
  if inode.extents then (Extents.readAllocatedBlock (extentFile g p inode) fuel i).join
  else some (Extents.longInt (le32At inode.dirBlocks (4 * i)).toNat)

/-- `ext4fs_devread` of a block. -/
def devread (p : Partition) (blknr : Int) : Option Ptr :=
  let sector := (blknr * g.sectPerblk % 4294967296).toNat
  if (sector + (g.blksz - 1) / 2 ^ g.log2blksz) % 4294967296 < p.partSize then
    some (p.disk (sector / g.sectPerblk))
  else none

/-- `put_ext4` of a block of zeros. -/
def putZeros (p : Partition) (blknr : Nat) : Partition :=
  if p.partSize < blknr * g.sectPerblk + g.sectPerblk then p
  else { p with disk := Function.update p.disk blknr fun _ => 0 }

/-! ## The function -/

/-- The variables that outlive a restart, and what is queued by `ext4fs_put_metadata`. -/
structure State where
  part : Partition
  inode : Inode
  previousBlknr : Int
  firstBlockNoOfRoot : Int
  padding : Nat
  queued : List (Int × Ptr)

/-- The search for the first block that is not allocated, with `left` of them to go. -/
def probe (fuel : Nat) (s : State) : Nat → Nat → Option (Nat × State)
  | 0, i => some (i, s)
  | left + 1, i =>
    (readAllocatedBlock g fuel s.part s.inode i).bind fun rootBlknr =>
      if rootBlknr = 0 then some (i, { s with firstBlockNoOfRoot := s.previousBlknr })
      else probe fuel { s with previousBlknr := rootBlknr } left (i + 1)

/-- What the code does up to a restart. -/
inductive Attempt
  | failed (s : State)
  | assigned (ino : UInt32) (s : State)
  | full (directBlkIdx : Nat) (buf : Ptr) (s : State)

/-- The code from the label on, with the inode number that there is to assign. -/
def attempt (fuel : Nat) (newInode : Option UInt32) (s : State) : Option Attempt :=
  (probe g fuel s INDIRECT_BLOCKS 0).bind fun (directBlkIdx, s) =>
    match devread g s.part s.firstBlockNoOfRoot with
    | none => some (.failed s)
    | some buf =>
      match walk g name buf s.padding g.blksz 0 with
      | .outside => none
      | .full padding =>
        if directBlkIdx = INDIRECT_BLOCKS - 1 then some (.failed s)
        else some (.full directBlkIdx buf { s with padding })
      | .found off sizeofVoidSpace buf =>
        match newInode with
        | none => some (.failed s)
        | some ino =>
          (insertEntry g name ino off sizeofVoidSpace buf).map fun buf =>
            .assigned ino { s with queued := s.queued ++ [(s.firstBlockNoOfRoot, buf)] }

/-- A new block for the directory, behind the full one. -/
def grow (s : State) (directBlkIdx : Nat) (buf : Ptr) (blknr : Nat) : State :=
  { s with
    queued := s.queued ++ [(s.firstBlockNoOfRoot, buf)]
    part := putZeros g s.part blknr
    inode :=
      { s.inode with
        dirBlocks := setLe32 s.inode.dirBlocks (4 * directBlkIdx) (UInt32.ofNat blknr)
        size := s.inode.size + UInt32.ofNat g.blksz
        blockcnt := s.inode.blockcnt + UInt32.ofNat g.sectPerblk } }

/-- `ext4fs_update_parent_dentry`, with the blocks that there are to allocate: the number
that was assigned and the last state, nothing when it leaves the block. -/
def updateParentDentry (fuel : Nat) (newInode : Option UInt32) :
    List Nat → State → Option (Option UInt32 × State)
  | [], s =>
    (attempt g name fuel newInode s).map fun
      | .failed s => (none, s)
      | .assigned ino s => (some ino, s)
      | .full directBlkIdx _ s =>
        (none, { s with
          inode := { s.inode with
            dirBlocks := setLe32 s.inode.dirBlocks (4 * directBlkIdx) 4294967295 } })
  | blknr :: newBlks, s =>
    (attempt g name fuel newInode s).bind fun
      | .failed s => some (none, s)
      | .assigned ino s => some (some ino, s)
      | .full directBlkIdx buf s =>
        updateParentDentry fuel newInode newBlks (grow g s directBlkIdx buf blknr)

/-- The state that a call begins with. -/
def start (part : Partition) (inode : Inode) : State where
  part := part
  inode := inode
  previousBlknr := -1
  firstBlockNoOfRoot := 0
  padding := 0
  queued := []

end

end UBoot.Ext4.ParentDentry
