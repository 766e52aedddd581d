import Mathlib.Algebra.BigOperators.Group.Finset.Basic
import UBoot.Ext4.Bitmap
import UBoot.Verification.Run

/-!
# Allocating a block

What `ext4fs_get_new_blk_no` returns, with the bytes of the bitmaps that it looks at:
there is no result when it goes on behind a bitmap. The result of
`ext4fs_log_journal` is looked at only behind the changes.
-/

namespace UBoot.Ext4

open Verification

section

variable (L : Layout)

/-- The first loop of `_get_new_blk_no`, which counts from 1 for blocks of 1024 bytes:
nothing behind the bitmap, else the first byte that is not 255, or -1. -/
def skipFull (p : Ptr) : Nat → Nat → Nat → Option (Option Nat)
  | 0, _, _ => none
  | left + 1, byte, count =>
    if p byte = 255 then
      if count + 8 = L.blksz * 8 then some none else skipFull p left (byte + 1) (count + 8)
    else some (some byte)

/-- `_get_new_blk_no`: the byte and the bit. The second loop returns in its first round. -/
def newBlkNoIn (p : Ptr) : Option (Option (Nat × Nat)) :=
  (skipFull L p L.blksz 0 (firstDataBlock L)).map fun found =>
    found.bind fun byte =>
      ((List.range 8).find? fun bit => bitSet p byte bit = false).map (byte, ·)

/-- The first pass. -/
def firstPass : Nat → Nat → Session → Option (Session × Option (Nat × Nat × Nat))
  | 0, _, s => some (s, none)
  | n + 1, i, s =>
    if freeBlocks s.gdtable i = 0 then firstPass n (i + 1) s
    else
      let s := initBlkBmap L s i
      (newBlkNoIn L (s.blkBmaps i)).bind fun
        | none => firstPass n (i + 1) s
        | some (byte, bit) =>
          let count := 8 * byte + bit + if L.blksz = 1024 then 1 else 0
          some ({ s with firstPassBbmap := true, currBlkno := count + i * L.blksz * 8 },
            some (i, byte, bit))

/-- The later passes. -/
def nextPass : Nat → Session → Option (Session × Option (Nat × Nat × Nat))
  | 0, s => some (s, none)
  | fuel + 1, s =>
    let blkno := s.currBlkno + 1
    let group := bgIdx L blkno
    if L.noBlkgrp ≤ group then some ({ s with currBlkno := blkno }, none)
    else if freeBlocks s.gdtable group = 0 then
      nextPass fuel { s with currBlkno := blkno + L.blkPerGrp - 1 }
    else
      let s := initBlkBmap L { s with currBlkno := blkno } group
      let (byte, bit) := blockBit L blkno group
      if L.blksz ≤ byte then none
      else if bitSet (s.blkBmaps group) byte bit then nextPass fuel s
      else some (s, some (group, byte, bit))

/-- `ext4fs_get_new_blk_no`: the state behind it and the block, or -1. -/
def newBlkNo (s : Session) : Option (Session × Option Nat) :=
  let found :=
    if s.firstPassBbmap = false then firstPass L L.noBlkgrp 0 s
    else nextPass L ((L.noBlkgrp + 1) * L.blkPerGrp + 2) s
  found.map fun
    | (s', none) => (s', none)
    | (s', some (group, byte, bit)) =>
      let taken := takeBlk s' group byte bit
      let logged :=
        if s.firstPassBbmap = false then logBlock L taken (blockId taken.gdtable group)
        else logBitmap L .newBlk group (blockId taken.gdtable group) taken
      match logged with
      | none =>
        -- the first pass has lowered the counts by then, a later one only set the bit
        (if s.firstPassBbmap = false then taken
          else setBlkBmap s' group (setBit (s'.blkBmaps group) byte bit), none)
      | some s'' => (s'', some s''.currBlkno)

/-- A call as a step. -/
def callNewBlkNo (s : Session) (_ : Unit) : Session :=
  ((newBlkNo L s).map Prod.fst).getD s

/-! ## What a call ought to do -/

/-- The groups have as many blocks as a bitmap has bits, and their index is a `short`. -/
structure Grouped : Prop where
  blksz : L.blksz = 1024 ∨ L.blksz = 2048 ∨ L.blksz = 4096
  perGrp : L.blkPerGrp = 8 * L.blksz
  groups : L.noBlkgrp ≤ 2 ^ 15

/-- The position of a block is its number in the volume without the boot block. -/
def ClearAt (s : Session) (pos : Nat) : Prop :=
  Clear (s.blkBmaps (pos / L.blkPerGrp)) (pos % L.blkPerGrp)

/-- The counts are the numbers of clear bits. -/
structure BlocksCounted (s : Session) : Prop where
  count : ∀ g < L.noBlkgrp, (freeBlocks s.gdtable g).toNat = clearCount (s.blkBmaps g) L.blkPerGrp
  total : (le32At s.vol.sb 12).toNat =
    ∑ g ∈ Finset.range L.noBlkgrp, clearCount (s.blkBmaps g) L.blkPerGrp

/-- A block is allocated: the bit of the block in its own group, the count of that group
and the count of the superblock, and nothing else of these. -/
structure Allocates (s s' : Session) (blkno : Nat) : Prop where
  first : firstDataBlock L ≤ blkno
  inside : blkno - firstDataBlock L < L.noBlkgrp * L.blkPerGrp
  clear : ClearAt L s (blkno - firstDataBlock L)
  bits : ∀ pos < L.noBlkgrp * L.blkPerGrp,
    ClearAt L s' pos ↔ ClearAt L s pos ∧ pos ≠ blkno - firstDataBlock L
  group : (freeBlocks s'.gdtable ((blkno - firstDataBlock L) / L.blkPerGrp)).toNat + 1 =
    (freeBlocks s.gdtable ((blkno - firstDataBlock L) / L.blkPerGrp)).toNat
  groups : ∀ g ≠ (blkno - firstDataBlock L) / L.blkPerGrp,
    freeBlocks s'.gdtable g = freeBlocks s.gdtable g
  superblock : (le32At s'.vol.sb 12).toNat + 1 = (le32At s.vol.sb 12).toNat

/-- The call looks only at bytes of bitmaps, and returns a block that it allocates, or -1
when there is none. -/
def CallRight (s : Session) : Prop :=
  ∃ s' result, newBlkNo L s = some (s', result) ∧
    match result with
    | some blkno => Allocates L s s' blkno
    | none => ∀ pos < L.noBlkgrp * L.blkPerGrp, ¬ClearAt L s pos

/-- From a full group the next pass goes on at the same position of the next group that
is not full: in front of it all bits of that group are set. -/
def SkipsNothing (s : Session) (pos : Nat) : Prop :=
  ∀ g < L.noBlkgrp, pos / L.blkPerGrp < g →
    (∀ j, pos / L.blkPerGrp ≤ j → j < g → freeBlocks s.gdtable j = 0) →
    ∀ i < pos % L.blkPerGrp, ¬Clear (s.blkBmaps g) i

/-- When a call does what it ought to do. -/
structure CallFine (s : Session) : Prop where
  journal : s.journal.length < maxJournalEntries
  empty : ∀ g < L.noBlkgrp, bgFlags s.gdtable g &&& 2 ≠ 0 →
    ∀ pos < 8 * L.blksz, Clear (s.blkBmaps g) pos
  skip : s.firstPassBbmap = true → SkipsNothing L s (s.currBlkno + 1 - firstDataBlock L)

end

end UBoot.Ext4
