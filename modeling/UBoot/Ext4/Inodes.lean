import UBoot.Ext4.Bitmap

/-!
# Where an inode is

`ext4fs_read_inode` counts the inodes from 0 before it divides. `ext4fs_write`,
`ext4fs_delete_file` and the later passes of `ext4fs_get_new_inode_no` divide before
that, so they take the last inode of a group for one of the next group.
-/

namespace UBoot.Ext4

open Verification

/-- A volume with inodes of `inodesz` bytes. -/
structure InodeLayout extends Layout where
  inodesz : Nat

/-- A record in a block of an inode table. The offset is an `int` where a block is read. -/
structure Place where
  blkno : Nat
  blkoff : Int

/-- A bit in the bitmap of a group. The byte may be the one in front of the bitmap. -/
structure BitPlace where
  group : Nat
  byte : Int
  bit : Nat

/-- `inode_table_id` of `struct ext2_block_group`. -/
def inodeTableId (gdtable : Ptr) (i : Nat) : UInt32 := le32At gdtable (32 * i + 8)

/-- An unsigned value as an `int`. -/
def toInt (n : Nat) : Int := if n < 2 ^ 31 then n else n - 2 ^ 32

/-- `sizeof(struct ext2_inode)` -/
def inodeStructSize : Nat := 128

section

variable (T : InodeLayout)

def inodesPerBlock : Nat := T.blksz / T.inodesz

/-- `ext4fs_blockgroup` -/
def blockgroup (disk : Ptr) (group : Nat) : Ptr :=
  let descPerBlk := T.blksz / 32
  disk.add ((firstDataBlock T.toLayout + 1 + group / descPerBlk) * T.blksz +
    group % descPerBlk * 32)

/-- The record of `ext4fs_read_inode`, which divides the `int` by an `int` for the
offset. -/
def readPlace (disk : Ptr) (ino : Nat) : Place :=
  let ino := ino - 1
  let blkgrp := blockgroup T disk (ino / T.inodesPerGrp)
  { blkno := (le32At blkgrp 8).toNat + ino % T.inodesPerGrp / inodesPerBlock T
    blkoff := (toInt ino).tmod (inodesPerBlock T) * T.inodesz }

/-- `ext4fs_read_inode` -/
def readInode (disk : Ptr) (ino : Nat) : List UInt8 :=
  let p := readPlace T disk ino
  (disk.add (p.blkno * T.blksz + p.blkoff).toNat).bytes inodeStructSize

/-- The record as `ext4fs_write` computes it for the file and for its directory, and
`ext4fs_delete_file` for the file; nothing when the group is behind the last one. -/
def itablePlace (gdtable : Ptr) (inodeno : Nat) : Option Place :=
  let ibmapIdx := inodeno / T.inodesPerGrp
  if T.noBlkgrp ≤ ibmapIdx then none
  else
    let inodeno := inodeno - 1
    some {
      blkno := (inodeTableId gdtable ibmapIdx).toNat +
        inodeno % T.inodesPerGrp / inodesPerBlock T
      blkoff := ↑(inodeno % inodesPerBlock T * T.inodesz) }

/-- The first `n` bytes of a record are stored, as they are on the device behind
`ext4fs_update`. -/
def writeInode (v : Volume) (gdtable : Ptr) (inodeno n : Nat) (buf : Ptr) : Option Volume :=
  (itablePlace T gdtable inodeno).map fun p =>
    putBlock T.toFs v p.blkno ((blockAt T.toFs v p.blkno).write p.blkoff.toNat n buf)

/-- The bit of `ext4fs_set_inode_bmap` and `ext4fs_reset_inode_bmap`, as they are called
by `ext4fs_delete_file` and the later passes of `ext4fs_get_new_inode_no`. -/
def bitPlace (inodeno : Nat) : BitPlace :=
  let index := inodeno / T.inodesPerGrp
  let inodeno := inodeno - index * T.inodesPerGrp
  if inodeno % 8 = 0 then ⟨index, (inodeno / 8 : Nat) - 1, 7⟩
  else ⟨index, (inodeno / 8 : Nat), inodeno % 8 - 1⟩

/-! ## What they ought to use -/

def ownGroup (ino : Nat) : Nat := (ino - 1) / T.inodesPerGrp

def ownIndex (ino : Nat) : Nat := (ino - 1) % T.inodesPerGrp

def ownPlace (gdtable : Ptr) (ino : Nat) : Place where
  blkno := (inodeTableId gdtable (ownGroup T ino)).toNat + ownIndex T ino / inodesPerBlock T
  blkoff := ↑(ownIndex T ino % inodesPerBlock T * T.inodesz)

def ownBit (ino : Nat) : BitPlace :=
  ⟨ownGroup T ino, (ownIndex T ino / 8 : Nat), ownIndex T ino % 8⟩

/-- The geometry of a consistent volume, and the group descriptors in memory. -/
structure Consistent (v : Volume) (gdtable : Ptr) : Prop where
  blksz : ∃ k, 10 ≤ k ∧ k ≤ 16 ∧ T.blksz = 2 ^ k
  inodesz_ge : inodeStructSize ≤ T.inodesz
  inodesz_dvd : T.inodesz ∣ T.blksz
  perGrp_pos : 0 < T.inodesPerGrp
  perGrp_le : T.inodesPerGrp ≤ 8 * T.blksz
  perBlock_dvd : inodesPerBlock T ∣ T.inodesPerGrp
  total : T.noBlkgrp * T.inodesPerGrp < 2 ^ 32
  loaded : ∀ k < 32 * T.noBlkgrp, gdtable k = v.disk (gdtableBlkno T.toLayout * T.blksz + k)
  inside : ∀ g < T.noBlkgrp, ∀ k < T.inodesPerGrp / inodesPerBlock T,
    ((inodeTableId gdtable g).toNat + k + 1) * T.blksz ≤ T.size
  behind : ∀ g < T.noBlkgrp,
    gdtableBlkno T.toLayout * T.blksz + 32 * T.noBlkgrp ≤ (inodeTableId gdtable g).toNat * T.blksz
  disjoint : ∀ g < T.noBlkgrp, ∀ g' < T.noBlkgrp, ∀ k < T.inodesPerGrp / inodesPerBlock T,
    ∀ k' < T.inodesPerGrp / inodesPerBlock T,
    (inodeTableId gdtable g).toNat + k = (inodeTableId gdtable g').toNat + k' → g = g'

/-- The counts are those of the bitmaps, and the bitmap of a group that is marked
`EXT4_BG_INODE_UNINIT` is empty. -/
structure Counted (s : Session) : Prop where
  count : ∀ g < T.noBlkgrp,
    (freeInodes s.gdtable g).toNat = clearCount (s.inodeBmaps g) T.inodesPerGrp
  empty : ∀ g < T.noBlkgrp, bgFlags s.gdtable g &&& 1 ≠ 0 →
    ∀ pos < 8 * T.blksz, Clear (s.inodeBmaps g) pos

/-- Only the bit of an inode, the descriptor of its group and the count in the superblock
change. The bit is clear behind the step if `free` is true, and the counts grow by `n`. -/
structure Changes (s s' : Session) (ino : Nat) (free : Prop) (n : UInt16) (m : UInt32) : Prop where
  bits : ∀ g < T.noBlkgrp, ∀ i < T.inodesPerGrp, Clear (s'.inodeBmaps g) i ↔
    if g = ownGroup T ino ∧ i = ownIndex T ino then free else Clear (s.inodeBmaps g) i
  group : freeInodes s'.gdtable (ownGroup T ino) = freeInodes s.gdtable (ownGroup T ino) + n
  groups : ∀ g ≠ ownGroup T ino, ∀ k < 32, s'.gdtable (32 * g + k) = s.gdtable (32 * g + k)
  fields : ∀ k < 12, s'.gdtable (32 * ownGroup T ino + k) = s.gdtable (32 * ownGroup T ino + k)
  blocks : s'.blkBmaps = s.blkBmaps ∧
    freeBlocks s'.gdtable (ownGroup T ino) = freeBlocks s.gdtable (ownGroup T ino)
  superblock : s'.vol.sb = addFreeInodes s.vol.sb m

/-- `ext4fs_get_new_inode_no` returns an inode. -/
def Returns (s : Session) (ino : Nat) : Prop :=
  ∃ s₁ found, findInode T.toLayout s = some (s₁, some found) ∧ s₁.currInodeNo = ino

/-- All functions mean the same record and the same bit. -/
structure InodeRight (v : Volume) (gdtable : Ptr) (ino : Nat) : Prop where
  read : readPlace T v.disk ino = ownPlace T gdtable ino
  table : itablePlace T gdtable ino = some (ownPlace T gdtable ino)
  bit : bitPlace T ino = ownBit T ino
  readBack : ∀ buf, ∃ v', writeInode T v gdtable ino T.inodesz buf = some v' ∧
    readInode T v'.disk ino = buf.bytes inodeStructSize
  allocated : ∀ s s', Counted T s → Returns T s ino → getNewInodeNo T.toLayout s = some s' →
    Changes T s s' ino False (-1) (-1)
  deleted : ∀ s s', releaseInode T.toLayout ino s = some s' → Changes T s s' ino True 1 1

end

end UBoot.Ext4
