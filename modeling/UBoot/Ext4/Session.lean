import UBoot.Ext4.Journal

/-!
# Bitmaps and group descriptors while a file is written

`fs/ext4/ext4_write.c` and `fs/ext4/ext4_common.c`: what a block or an inode that is
handed out or released changes in the bitmaps, the group descriptors and the log. Reads
succeed. The variables that are static in a function outlive the operation.
-/

namespace UBoot.Ext4

open Verification

/-- The geometry of a volume. -/
structure Layout extends Fs where
  noBlkgrp : Nat
  blkPerGrp : Nat
  inodesPerGrp : Nat

/-- The functions that remember the group whose bitmap they logged last. -/
inductive Gate
  | newBlk
  | newInode
  | single
  | double
  | triple
  | file
  deriving DecidableEq

/-- The state of `ext_filesystem` and of the tables `journal_ptr` and `dirty_block_ptr`.
`allocated` are the blocks that were handed out since `ext4fs_init`. -/
structure Session where
  vol : Volume
  journal : List Entry
  dirty : List Entry
  gdtable : Ptr
  blkBmaps : Nat → Ptr
  inodeBmaps : Nat → Ptr
  firstPassBbmap : Bool
  firstPassIbmap : Bool
  currBlkno : Nat
  currInodeNo : Nat
  prevIndex : Gate → Option Nat
  allocated : List Nat

/-! ## Group descriptors -/

def le16At (p : Ptr) (offset : Nat) : UInt16 := UInt16.ofNat (leValue ((p.add offset).bytes 2))

def setLe16 (p : Ptr) (offset : Nat) (value : UInt16) : Ptr :=
  p.write offset 2 (Ptr.ofList (leBytes 2 value.toNat))

/-- The fields of `struct ext2_block_group`. -/
def blockId (gdtable : Ptr) (i : Nat) : UInt32 := le32At gdtable (32 * i)

def inodeId (gdtable : Ptr) (i : Nat) : UInt32 := le32At gdtable (32 * i + 4)

def freeBlocks (gdtable : Ptr) (i : Nat) : UInt16 := le16At gdtable (32 * i + 12)

def freeInodes (gdtable : Ptr) (i : Nat) : UInt16 := le16At gdtable (32 * i + 14)

def bgFlags (gdtable : Ptr) (i : Nat) : UInt16 := le16At gdtable (32 * i + 18)

def setFreeBlocks (gdtable : Ptr) (i : Nat) (value : UInt16) : Ptr :=
  setLe16 gdtable (32 * i + 12) value

def setFreeInodes (gdtable : Ptr) (i : Nat) (value : UInt16) : Ptr :=
  setLe16 gdtable (32 * i + 14) value

def setBgFlags (gdtable : Ptr) (i : Nat) (value : UInt16) : Ptr :=
  setLe16 gdtable (32 * i + 18) value

def setItableUnused (gdtable : Ptr) (i : Nat) (value : UInt16) : Ptr :=
  setLe16 gdtable (32 * i + 28) value

/-- The counts of the superblock. -/
def addFreeBlocks (sb : Ptr) (n : UInt32) : Ptr := setLe32 sb 12 (le32At sb 12 + n)

def addFreeInodes (sb : Ptr) (n : UInt32) : Ptr := setLe32 sb 16 (le32At sb 16 + n)

section

variable (L : Layout)

def gdtableBlkno : Nat := if L.blksz = 1024 then 2 else 1

/-! ## Bitmaps -/

def bitSet (p : Ptr) (byte bit : Nat) : Bool := (p byte).toNat.testBit bit

def setBit (p : Ptr) (byte bit : Nat) : Ptr :=
  p.write byte 1 fun _ => p byte ||| UInt8.ofNat (2 ^ bit)

def clearBit (p : Ptr) (byte bit : Nat) : Ptr :=
  p.write byte 1 fun _ => p byte &&& ~~~UInt8.ofNat (2 ^ bit)

/-- The first bit that is not set, in at most `n` bytes from a byte on. A bitmap without
one is passed over. -/
def firstZero (p : Ptr) : Nat → Nat → Option (Nat × Nat)
  | 0, _ => none
  | n + 1, byte =>
    if p byte = 255 then firstZero p n (byte + 1)
    else ((List.range 8).find? fun bit => bitSet p byte bit = false).map (byte, ·)

/-- The group of a block. -/
def bgIdx (blknr : Nat) : Nat :=
  if L.blksz = 1024 ∧ blknr % L.blkPerGrp = 0 then blknr / L.blkPerGrp - 1
  else blknr / L.blkPerGrp

/-- The byte and the bit of a block in the bitmap of a group, as `ext4fs_set_block_bmap`
and `ext4fs_reset_block_bmap` compute them. -/
def blockBit (blockno index : Nat) : Nat × Nat :=
  let i := blockno / 8 - index * L.blksz
  let remainder := blockno % 8
  if L.blksz ≠ 1024 then (i, remainder)
  else if remainder = 0 then (i - 1, 7)
  else (i, remainder - 1)

def inodeBit (inodeno index : Nat) : Nat × Nat :=
  let inodeno := inodeno - index * L.inodesPerGrp
  if inodeno % 8 = 0 then (inodeno / 8 - 1, 7) else (inodeno / 8, inodeno % 8 - 1)

/-! ## The log -/

/-- A block is read and given to `ext4fs_log_journal`. -/
def logBlock (s : Session) (blknr : UInt32) : Option Session :=
  (logJournal s.journal blknr (blockAt L.toFs s.vol blknr.toNat)).map fun journal =>
    { s with journal := journal }

/-- The journal backup of a bitmap, unless the function did the group before. -/
def logBitmap (gate : Gate) (group : Nat) (blknr : UInt32) (s : Session) : Option Session :=
  if s.prevIndex gate = some group then some s
  else (logBlock L s blknr).map fun s =>
    { s with prevIndex := Function.update s.prevIndex gate (some group) }

/-! ## Allocation -/

def setBlkBmap (s : Session) (group : Nat) (p : Ptr) : Session :=
  { s with blkBmaps := Function.update s.blkBmaps group p }

def setInodeBmap (s : Session) (group : Nat) (p : Ptr) : Session :=
  { s with inodeBmaps := Function.update s.inodeBmaps group p }

/-- A group that is marked `EXT4_BG_BLOCK_UNINIT` gets an empty bitmap. -/
def initBlkBmap (s : Session) (group : Nat) : Session :=
  if bgFlags s.gdtable group &&& 2 = 0 then s
  else setBlkBmap { s with
    vol := putBlock L.toFs s.vol (blockId s.gdtable group).toNat (fun _ => 0),
    gdtable := setBgFlags s.gdtable group (bgFlags s.gdtable group &&& ~~~2) } group fun _ => 0

/-- A group that is marked `EXT4_BG_INODE_UNINIT` gets an empty bitmap. -/
def initInodeBmap (s : Session) (group : Nat) : Session :=
  if bgFlags s.gdtable group &&& 1 = 0 then s
  else setInodeBmap { s with
    vol := putBlock L.toFs s.vol (inodeId s.gdtable group).toNat (fun _ => 0),
    gdtable := setBgFlags s.gdtable group (bgFlags s.gdtable group &&& ~~~1) } group fun _ => 0

/-- The block `currBlkno` is taken from a group. -/
def takeBlk (s : Session) (group byte bit : Nat) : Session :=
  { setBlkBmap s group (setBit (s.blkBmaps group) byte bit) with
    gdtable := setFreeBlocks s.gdtable group (freeBlocks s.gdtable group - 1),
    vol := { s.vol with sb := addFreeBlocks s.vol.sb (-1) },
    allocated := s.currBlkno :: s.allocated }

/-- The inode `currInodeNo` is taken from a group. -/
def takeInode (s : Session) (group byte bit : Nat) : Session :=
  { setInodeBmap s group (setBit (s.inodeBmaps group) byte bit) with
    gdtable := setItableUnused
      (setFreeInodes s.gdtable group (freeInodes s.gdtable group - 1)) group
      (freeInodes s.gdtable group - 1),
    vol := { s.vol with sb := addFreeInodes s.vol.sb (-1) } }

/-- The first pass of `ext4fs_get_new_inode_no`, from a group on. -/
def findFirstInode : Nat → Nat → Session → Session × Option (Nat × Nat × Nat)
  | 0, _, s => (s, none)
  | n + 1, i, s =>
    if freeInodes s.gdtable i = 0 then findFirstInode n (i + 1) s
    else
      let s := initInodeBmap L
        { s with gdtable := setItableUnused s.gdtable i (freeInodes s.gdtable i) } i
      match firstZero (s.inodeBmaps i) ((L.inodesPerGrp + 7) / 8) 0 with
      | none => findFirstInode n (i + 1) s
      | some (byte, bit) =>
        ({ s with
          firstPassIbmap := true,
          currInodeNo := 8 * byte + bit + 1 + i * L.inodesPerGrp }, some (i, byte, bit))

/-- The later passes; nothing when a group behind the last one or a bit in front of a
bitmap is looked at. -/
def findNextInode : Nat → Session → Option (Session × Option (Nat × Nat × Nat))
  | 0, _ => none
  | fuel + 1, s =>
    let inodeno := s.currInodeNo + 1
    let group := inodeno / L.inodesPerGrp
    if L.noBlkgrp ≤ group ∨ inodeno % L.inodesPerGrp = 0 then none
    else
      let s := initInodeBmap L { s with currInodeNo := inodeno } group
      let (byte, bit) := inodeBit L inodeno group
      if bitSet (s.inodeBmaps group) byte bit then findNextInode fuel s
      else some (s, some (group, byte, bit))

/-- The inode that `ext4fs_get_new_inode_no` finds. -/
def findInode (s : Session) : Option (Session × Option (Nat × Nat × Nat)) :=
  if s.firstPassIbmap = false then some (findFirstInode L L.noBlkgrp 0 s)
  else findNextInode L ((L.noBlkgrp + 1) * L.inodesPerGrp + 2) s

/-- `ext4fs_get_new_inode_no` -/
def getNewInodeNo (s : Session) : Option Session :=
  match findInode L s with
  | none => none
  | some (s', none) => some s'
  | some (s', some (group, byte, bit)) =>
    let taken := takeInode s' group byte bit
    if s.firstPassIbmap = false then logBlock L taken (inodeId taken.gdtable group)
    else logBitmap L .newInode group (inodeId taken.gdtable group) taken

/-! ## Release -/

/-- An inode is released; nothing when its bit is in front of the bitmap, as that of the
last inode of a group is. -/
def releaseInode (inodeno : Nat) (s : Session) : Option Session :=
  let group := inodeno / L.inodesPerGrp
  if L.noBlkgrp ≤ group ∨ inodeno % L.inodesPerGrp = 0 then none
  else
    let (byte, bit) := inodeBit L inodeno group
    let s := { setInodeBmap s group (clearBit (s.inodeBmaps group) byte bit) with
      gdtable := setFreeInodes s.gdtable group (freeInodes s.gdtable group + 1),
      vol := { s.vol with sb := addFreeInodes s.vol.sb 1 } }
    logBlock L s (inodeId s.gdtable group)

end

end UBoot.Ext4
