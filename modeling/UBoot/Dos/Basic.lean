import UBoot.Verification.Bytes

/-!
# DOS partition tables

`disk/part_dos.c` with `CONFIG_PARTITION_UUIDS`. A sector number has 32 bits; an `int`
that counts partitions is a number of any size. Two functions walk the same tables: one
prints every partition, the other looks for one by its number. Each has its own rules for
the sectors that it takes and for the extended entries that it follows.

The driver is a function from sector numbers to blocks; it may fail. The recursions have
no bound in the source, so that they take fuel here, and `none` stands for a recursion
that has not ended.
-/

namespace UBoot.Dos

open Verification

def byteAt (buffer : List UInt8) (i : Nat) : UInt8 := buffer.getD i 0

/-- `le32_to_int` of four bytes of a buffer. -/
def le32ToInt (buffer : List UInt8) (i : Nat) : UInt32 :=
  ((byteAt buffer (i + 3)).toUInt32 <<< 24) + ((byteAt buffer (i + 2)).toUInt32 <<< 16) +
    ((byteAt buffer (i + 1)).toUInt32 <<< 8) + (byteAt buffer i).toUInt32

/-- What of `dos_partition_t` is read. -/
structure DosPartition where
  bootInd : UInt8
  sysInd : UInt8
  start4 : UInt32
  size4 : UInt32
  deriving DecidableEq

/-- `disk_partition_t` -/
structure DiskPartition where
  start : UInt32
  size : UInt32
  blksz : Nat
  name : String
  type : String
  bootable : Bool
  uuid : String
  deriving DecidableEq

/-- The kinds of interface that have names of their own for disks. -/
inductive IfType where
  | ide
  | sata
  | atapi
  | scsi
  | usb
  | doc
  | other

/-- `block_dev_desc_t` -/
structure BlockDev where
  ifType : IfType
  dev : Nat
  lba : UInt32
  read : UInt32 → Option (List UInt8)

def DOS_PART_DISKSIG_OFFSET : Nat := 0x1b8
def DOS_PART_TBL_OFFSET : Nat := 0x1be
def DOS_PART_MAGIC_OFFSET : Nat := 0x1fe
def DOS_PBR_FSTYPE_OFFSET : Nat := 0x36
def DOS_PBR32_FSTYPE_OFFSET : Nat := 0x52
def DOS_PART_DEFAULT_SECTOR : Nat := 512

/-- `is_extended` -/
def isExtended (partType : UInt8) : Bool :=
  partType = 0x5 || partType = 0xf || partType = 0x85

/-- `is_bootable` -/
def isBootable (p : DosPartition) : Bool := p.bootInd = 0x80

/-- The entry at a place of the table. -/
def partitionAt (buffer : List UInt8) (slot : Nat) : DosPartition where
  bootInd := byteAt buffer (DOS_PART_TBL_OFFSET + 16 * slot)
  sysInd := byteAt buffer (DOS_PART_TBL_OFFSET + 16 * slot + 4)
  start4 := le32ToInt buffer (DOS_PART_TBL_OFFSET + 16 * slot + 8)
  size4 := le32ToInt buffer (DOS_PART_TBL_OFFSET + 16 * slot + 12)

/-- The four entries of a sector. -/
def partitions (buffer : List UInt8) : List DosPartition :=
  [partitionAt buffer 0, partitionAt buffer 1, partitionAt buffer 2, partitionAt buffer 3]

/-- The two bytes at the end of a sector. -/
def hasMagic (buffer : List UInt8) : Bool :=
  byteAt buffer DOS_PART_MAGIC_OFFSET = 0x55 && byteAt buffer (DOS_PART_MAGIC_OFFSET + 1) = 0xaa

/-- What `test_block_type` can find. -/
inductive BlockType where
  | mbr
  | pbr
  deriving DecidableEq

def hasFatName (buffer : List UInt8) : Bool :=
  slice buffer DOS_PBR_FSTYPE_OFFSET 3 = ascii "FAT" ||
    slice buffer DOS_PBR32_FSTYPE_OFFSET 5 = ascii "FAT32"

/-- The loop of `test_block_type`. It looks at the same entry in every round. -/
def testSlots (buffer : List UInt8) : List Nat → Option BlockType
  | [] => some .mbr
  | slot :: slots =>
    let p := partitionAt buffer 0
    if p.bootInd ≠ 0 ∧ p.bootInd ≠ 0x80 then
      if slot = 0 ∧ hasFatName buffer then some .pbr else none
    else testSlots buffer slots

/-- `test_block_type` -/
def testBlockType (buffer : List UInt8) : Option BlockType :=
  if hasMagic buffer then testSlots buffer [0, 1, 2] else none

/-- A partition of its own, which has a number also in an extended sector. -/
def counted (pt : DosPartition) : Bool := pt.sysInd ≠ 0 && !isExtended pt.sysInd

/-- The number after an entry: the rule of `fdisk`. -/
def nextNum (sector : UInt32) (partNum : Int) (pt : DosPartition) : Int :=
  if sector = 0 ∨ counted pt then partNum + 1 else partNum

/-- The number after all entries of a sector. -/
def lastNum (sector : UInt32) (partNum : Int) (pts : List DosPartition) : Int :=
  pts.foldl (nextNum sector) partNum

/-- The sector that an extended entry leads to. -/
def extSector (relative : UInt32) (pt : DosPartition) : UInt32 := pt.start4 + relative

/-- What the starts behind an extended entry are relative to. -/
def extRelative (sector relative : UInt32) (pt : DosPartition) : UInt32 :=
  if sector = 0 then extSector relative pt else relative

/-- The disk signature that holds in a sector. -/
def diskSig (sector : UInt32) (buffer : List UInt8) (disksig : UInt32) : UInt32 :=
  if sector = 0 then le32ToInt buffer DOS_PART_DISKSIG_OFFSET else disksig

/-! ### Printing -/

/-- A line of `print_one_part`. -/
structure Line where
  partNum : Int
  lbaStart : UInt32
  lbaSize : UInt32
  disksig : UInt32
  sysInd : UInt8
  extd : Bool
  boot : Bool
  deriving DecidableEq

/-- What is printed. -/
inductive Output where
  | part (line : Line)
  | cantRead (dev : Nat) (sector : UInt32)
  | badSignature (first second : UInt8)
  deriving DecidableEq

/-- `print_one_part` -/
def printOnePart (p : DosPartition) (sector : UInt32) (partNum : Int) (disksig : UInt32) : Line where
  partNum := partNum
  lbaStart := sector + p.start4
  lbaSize := p.size4
  disksig := disksig
  sysInd := p.sysInd
  extd := isExtended p.sysInd
  boot := isBootable p

/-- The first loop of `print_partition_extended`. -/
def printSlots (sector disksig : UInt32) : Int → List DosPartition → List Output
  | _, [] => []
  | partNum, pt :: pts =>
    (if pt.sysInd ≠ 0 ∧ (sector = 0 ∨ !isExtended pt.sysInd) then
      [.part (printOnePart pt sector partNum disksig)] else []) ++
        printSlots sector disksig (nextNum sector partNum pt) pts

/-- `print_partition_extended` -/
def printPartitionExtended (dev : BlockDev) :
    Nat → UInt32 → UInt32 → Int → UInt32 → Option (List Output)
  | 0, _, _, _, _ => none
  | fuel + 1, sector, relative, partNum, disksig =>
    match dev.read sector with
    | none => some [.cantRead dev.dev sector]
    | some buffer =>
      if testBlockType buffer ≠ some .mbr then
        some [.badSignature (byteAt buffer DOS_PART_MAGIC_OFFSET)
          (byteAt buffer (DOS_PART_MAGIC_OFFSET + 1))]
      else
        let disksig := diskSig sector buffer disksig
        let lines := printSlots sector disksig partNum (partitions buffer)
        let partNum := lastNum sector partNum (partitions buffer)
        -- follows the extended partitions
        (((partitions buffer).filter (isExtended ·.sysInd)).mapM fun pt =>
          printPartitionExtended dev fuel (extSector relative pt)
            (extRelative sector relative pt) partNum disksig).map fun rest =>
              lines ++ rest.flatten

/-! ### Looking one partition up -/

def IfType.diskName : IfType → String
  | .ide | .sata | .atapi => "hd"
  | .scsi => "sd"
  | .usb => "usbd"
  | .doc => "docd"
  | .other => "xx"

/-- `%0*x` -/
def hex (width n : Nat) : String :=
  let digits := Nat.toDigits 16 n
  String.ofList (List.replicate (width - digits.length) '0' ++ digits)

/-- An `int` as an unsigned number. -/
def u32 (i : Int) : Nat := (i % 2 ^ 32).toNat

def infoOf (dev : BlockDev) (sector : UInt32) (partNum : Int) (disksig : UInt32)
    (pt : DosPartition) : DiskPartition where
  start := sector + pt.start4
  size := pt.size4
  blksz := DOS_PART_DEFAULT_SECTOR
  name := dev.ifType.diskName ++ (String.singleton (Char.ofNat (97 + dev.dev)) ++ toString partNum)
  type := "U-Boot"
  bootable := isBootable pt
  uuid := hex 8 disksig.toNat ++ ("-" ++ hex 2 (u32 partNum))

/-- An entry that can be asked for. -/
def gettable (pt : DosPartition) : Bool := pt.bootInd &&& 0x7f = 0 && counted pt

/-- The first loop of `get_partition_info_extended`: an entry that has the number. -/
def getSlots (sector : UInt32) (whichPart : Int) :
    Int → List DosPartition → Option (Int × DosPartition)
  | _, [] => none
  | partNum, pt :: pts =>
    if gettable pt ∧ partNum = whichPart then some (partNum, pt)
    else getSlots sector whichPart (nextNum sector partNum pt) pts

/-- `get_partition_info_extended`: the information, which is `info` to begin with, or an
error. -/
def getPartitionInfoExtended (dev : BlockDev) (whichPart : Int) (info : DiskPartition) :
    Nat → UInt32 → UInt32 → Int → UInt32 → Option (Except Int DiskPartition)
  | 0, _, _, _, _ => none
  | fuel + 1, sector, relative, partNum, disksig =>
    match dev.read sector with
    | none => some (.error (-1))
    | some buffer =>
      if !hasMagic buffer then some (.error (-1))
      else
        let disksig := diskSig sector buffer disksig
        match getSlots sector whichPart partNum (partitions buffer) with
        | some (partNum, pt) => some (.ok (infoOf dev sector partNum disksig pt))
        | none =>
          -- follows the first of the extended partitions
          match (partitions buffer).find? (isExtended ·.sysInd) with
          | some pt =>
            getPartitionInfoExtended dev whichPart info fuel (extSector relative pt)
              (extRelative sector relative pt)
              (lastNum sector partNum (partitions buffer)) disksig
          | none =>
            if testBlockType buffer = some .pbr then
              some (.ok { info with
                start := 0, size := dev.lba, blksz := DOS_PART_DEFAULT_SECTOR,
                type := "U-Boot", bootable := false, uuid := "" })
            else some (.error (-1))

/-- `print_part_dos`, behind its heading. -/
def printPartDos (dev : BlockDev) (fuel : Nat) : Option (List Output) :=
  printPartitionExtended dev fuel 0 0 1 0

/-- `get_partition_info_dos` -/
def getPartitionInfoDos (dev : BlockDev) (part : Int) (info : DiskPartition) (fuel : Nat) :
    Option (Except Int DiskPartition) :=
  getPartitionInfoExtended dev part info fuel 0 0 1 0

end UBoot.Dos
