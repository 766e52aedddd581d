import UBoot.Gpt.Uuid

/-!
# GUID partition tables

`disk/part_efi.c` with `CONFIG_PARTITION_UUIDS`, on a little-endian machine; an
`lbaint_t` has 32 bits. The driver reads and writes the blocks of the device and
refuses others. The check sum is a parameter, and so are the bytes behind a
buffer that the code reads without looking at its size.
-/

namespace UBoot.Gpt

open Verification Uuid

def GPT_HEADER_SIGNATURE : UInt64 := 0x5452415020494645
def GPT_HEADER_REVISION_V1 : UInt32 := 0x00010000
def GPT_PRIMARY_PARTITION_TABLE_LBA : UInt64 := 1
def GPT_ENTRY_NUMBERS : Nat := 128
def PARTNAME_SZ : Nat := 36

/-- The size of a `gpt_header`. -/
def headerSize : Nat := 92

/-- The size of a `gpt_entry`. -/
def entrySize : Nat := 128

/-- `block_dev_desc_t`. -/
structure BlockDev where
  lba : UInt32
  blksz : Nat
  blksz_le : 512 ≤ blksz

/-- The bytes on the device. -/
abbrev Disk := Ptr

/-- `block_read` -/
def blockRead (dev : BlockDev) (disk : Disk) (start : UInt32) (cnt : Nat) : Option (List UInt8) :=
  if start.toNat + cnt ≤ dev.lba.toNat then
    some ((disk.add (start.toNat * dev.blksz)).bytes (cnt * dev.blksz))
  else none

/-- `block_write` from a buffer. -/
def blockWrite (dev : BlockDev) (disk : Disk) (start : UInt32) (cnt : Nat) (buf : Ptr) :
    Option Disk :=
  if start.toNat + cnt ≤ dev.lba.toNat then
    some (disk.write (start.toNat * dev.blksz) (cnt * dev.blksz) buf)
  else none

/-- `BLOCK_CNT` -/
def blockCnt (dev : BlockDev) (size : Nat) : Nat := (size - 1) / dev.blksz + 1

/-- A buffer, with what is behind it. -/
def buffer (bytes : List UInt8) (behind : Ptr) : Ptr :=
  fun i => if i < bytes.length then bytes.getD i 0 else behind i

/-! ### The structures -/

/-- `gpt_header` -/
structure GptHeader where
  signature : UInt64
  revision : UInt32
  headerSize : UInt32
  headerCrc32 : UInt32
  reserved1 : UInt32
  myLba : UInt64
  alternateLba : UInt64
  firstUsableLba : UInt64
  lastUsableLba : UInt64
  diskGuid : List UInt8
  partitionEntryLba : UInt64
  numPartitionEntries : UInt32
  sizeofPartitionEntry : UInt32
  partitionEntryArrayCrc32 : UInt32
  deriving DecidableEq

def GptHeader.toBytes (h : GptHeader) : List UInt8 :=
  leBytes 8 h.signature.toNat ++ (leBytes 4 h.revision.toNat ++ (leBytes 4 h.headerSize.toNat ++
    (leBytes 4 h.headerCrc32.toNat ++ (leBytes 4 h.reserved1.toNat ++ (leBytes 8 h.myLba.toNat ++
    (leBytes 8 h.alternateLba.toNat ++ (leBytes 8 h.firstUsableLba.toNat ++
    (leBytes 8 h.lastUsableLba.toNat ++ (h.diskGuid ++ (leBytes 8 h.partitionEntryLba.toNat ++
    (leBytes 4 h.numPartitionEntries.toNat ++ (leBytes 4 h.sizeofPartitionEntry.toNat ++
    leBytes 4 h.partitionEntryArrayCrc32.toNat))))))))))))

def le32 (bytes : List UInt8) (i : Nat) : UInt32 := UInt32.ofNat (leValue (slice bytes i 4))

def le64 (bytes : List UInt8) (i : Nat) : UInt64 := UInt64.ofNat (leValue (slice bytes i 8))

def GptHeader.ofBytes (bytes : List UInt8) : GptHeader where
  signature := le64 bytes 0
  revision := le32 bytes 8
  headerSize := le32 bytes 12
  headerCrc32 := le32 bytes 16
  reserved1 := le32 bytes 20
  myLba := le64 bytes 24
  alternateLba := le64 bytes 32
  firstUsableLba := le64 bytes 40
  lastUsableLba := le64 bytes 48
  diskGuid := slice bytes 56 16
  partitionEntryLba := le64 bytes 72
  numPartitionEntries := le32 bytes 80
  sizeofPartitionEntry := le32 bytes 84
  partitionEntryArrayCrc32 := le32 bytes 88

/-- `gpt_entry`; the attributes are the raw word. -/
structure GptEntry where
  partitionTypeGuid : List UInt8
  uniquePartitionGuid : List UInt8
  startingLba : UInt64
  endingLba : UInt64
  attributes : UInt64
  partitionName : List UInt16
  deriving DecidableEq

def GptEntry.toBytes (e : GptEntry) : List UInt8 :=
  e.partitionTypeGuid ++ (e.uniquePartitionGuid ++ (leBytes 8 e.startingLba.toNat ++
    (leBytes 8 e.endingLba.toNat ++ (leBytes 8 e.attributes.toNat ++
    e.partitionName.flatMap fun c => leBytes 2 c.toNat))))

def GptEntry.ofBytes (bytes : List UInt8) : GptEntry where
  partitionTypeGuid := slice bytes 0 16
  uniquePartitionGuid := slice bytes 16 16
  startingLba := le64 bytes 32
  endingLba := le64 bytes 40
  attributes := le64 bytes 48
  partitionName := (List.range PARTNAME_SZ).map fun i =>
    UInt16.ofNat (leValue (slice bytes (56 + 2 * i) 2))

def GptEntry.unused : GptEntry where
  partitionTypeGuid := List.replicate 16 0
  uniquePartitionGuid := List.replicate 16 0
  startingLba := 0
  endingLba := 0
  attributes := 0
  partitionName := List.replicate PARTNAME_SZ 0

/-- `PARTITION_SYSTEM_GUID` -/
def systemGuid : List UInt8 :=
  [0x28, 0x73, 0x2A, 0xC1, 0x1F, 0xF8, 0xd2, 0x11, 0xBA, 0x4B, 0x00, 0xA0, 0xC9, 0x3E, 0xC9, 0x3B]

/-- `PARTITION_BASIC_DATA_GUID` -/
def basicDataGuid : List UInt8 :=
  [0xA2, 0xA0, 0xD0, 0xEB, 0xE5, 0xB9, 0x33, 0x44, 0x87, 0xC0, 0x68, 0xB6, 0xB7, 0x26, 0x99, 0xC7]

/-! ### Writing the tables -/

/-- A partition as it is given: `disk_partition_t`. -/
structure Partition where
  start : UInt32
  size : UInt32
  name : Vector UInt8 32
  uuid : List UInt8

/-- `gpt_fill_header` -/
def gptFillHeader (dev : BlockDev) (strGuid : List UInt8) : Option GptHeader :=
  (uuidStrToBin strGuid .guid).map fun guid => {
    signature := GPT_HEADER_SIGNATURE
    revision := GPT_HEADER_REVISION_V1
    headerSize := UInt32.ofNat headerSize
    headerCrc32 := 0
    reserved1 := 0
    myLba := 1
    alternateLba := (dev.lba - 1).toUInt64
    firstUsableLba := 34
    lastUsableLba := (dev.lba - 34).toUInt64
    diskGuid := guid
    partitionEntryLba := 2
    numPartitionEntries := UInt32.ofNat GPT_ENTRY_NUMBERS
    sizeofPartitionEntry := UInt32.ofNat entrySize
    partitionEntryArrayCrc32 := 0 }

/-- The name of an entry: all of the array, and zeros behind it. -/
def efiName (name : Vector UInt8 32) : List UInt16 :=
  name.toList.map UInt8.toUInt16 ++ List.replicate (PARTNAME_SZ - 32) 0

/-- The loop of `gpt_fill_pte` over the partitions that are left. -/
def gptFillPte (h : GptHeader) : UInt32 → List Partition → Option (List GptEntry)
  | _, [] => some []
  | offset, p :: parts =>
    if p.start ≠ 0 ∧ p.start < offset then none
    else
      let start := if p.start ≠ 0 then p.start else offset
      let next := start + p.size
      if next ≥ h.lastUsableLba.toUInt32 then none
      else
        match uuidStrToBin p.uuid .std with
        | none => none
        | some guid =>
          (gptFillPte h next parts).map fun rest =>
            { partitionTypeGuid := basicDataGuid
              uniquePartitionGuid := guid
              startingLba := start.toUInt64
              endingLba := if parts = [] ∧ p.size = 0 then h.lastUsableLba
                else (next - 1).toUInt64
              attributes := 0
              partitionName := efiName p.name } :: rest

/-- The protective MBR: no code, one record that covers the disk. -/
def protectiveMbr (dev : BlockDev) : List UInt8 :=
  List.replicate 446 0 ++ ([0, 0, 0, 0, 0xEE, 0, 0, 0] ++ (leBytes 4 1 ++
    (leBytes 4 (dev.lba - 1).toNat ++ (List.replicate 48 0 ++ [0x55, 0xAA]))))

section

variable (crc32 : List UInt8 → UInt32) (behind : Ptr)

/-- The check sum of a header in a buffer of zeros. -/
def GptHeader.crc (h : GptHeader) : UInt32 :=
  crc32 ((Ptr.ofList h.toBytes).bytes h.headerSize.toNat)

/-- `prepare_backup_gpt_header` -/
def prepareBackupGptHeader (h : GptHeader) : GptHeader :=
  let h := { h with
    myLba := h.alternateLba
    alternateLba := h.myLba
    partitionEntryLba := h.lastUsableLba + 1
    headerCrc32 := 0 }
  { h with headerCrc32 := h.crc crc32 }

/-- The sums that `write_gpt_table` fills in. -/
def sumHeader (h : GptHeader) (entries : List UInt8) : GptHeader :=
  let h := { h with
    partitionEntryArrayCrc32 := crc32 ((Ptr.ofList entries).bytes
      (h.numPartitionEntries * h.sizeofPartitionEntry).toNat) }
  { h with headerCrc32 := h.crc crc32 }

/-- `write_gpt_table` -/
def writeGptTable (dev : BlockDev) (disk : Disk) (h : GptHeader) (entries : List UInt8) :
    Option Disk := do
  let pteBlkCnt := blockCnt dev (h.numPartitionEntries.toNat * entrySize)
  let disk ← blockWrite dev disk 0 1 (buffer (protectiveMbr dev) behind)
  let h := sumHeader crc32 h entries
  let disk ← blockWrite dev disk 1 1 (Ptr.ofList h.toBytes)
  let disk ← blockWrite dev disk 2 pteBlkCnt (Ptr.ofList entries)
  let h := prepareBackupGptHeader crc32 h
  let disk ← blockWrite dev disk (h.lastUsableLba.toUInt32 + 1) pteBlkCnt (Ptr.ofList entries)
  blockWrite dev disk h.myLba.toUInt32 1 (Ptr.ofList h.toBytes)

/-- The table of all entries in memory. -/
def tableBytes (entries : List GptEntry) : List UInt8 :=
  (entries ++ List.replicate (GPT_ENTRY_NUMBERS - entries.length) GptEntry.unused).flatMap
    GptEntry.toBytes

/-- `gpt_restore` -/
def gptRestore (dev : BlockDev) (disk : Disk) (strDiskGuid : List UInt8)
    (partitions : List Partition) : Option Disk := do
  let h ← gptFillHeader dev strDiskGuid
  let entries ← gptFillPte h h.firstUsableLba.toUInt32 partitions
  writeGptTable crc32 behind dev disk h (tableBytes entries)

/-! ### Reading them -/

/-- `validate_gpt_header` for the header in a block that was read. -/
def validateGptHeader (block : List UInt8) (lba lastlba : UInt32) : Bool :=
  let h := GptHeader.ofBytes block
  let cleared := block.take 16 ++ (List.replicate 4 0 ++ block.drop 20)
  h.signature = GPT_HEADER_SIGNATURE &&
    crc32 ((buffer cleared behind).bytes h.headerSize.toNat) = h.headerCrc32 &&
    h.myLba = lba.toUInt64 && !(h.firstUsableLba > lastlba.toUInt64) &&
    !(h.lastUsableLba > lastlba.toUInt64)

/-- `alloc_read_gpt_entries`, when memory does not run out. -/
def allocReadGptEntries (dev : BlockDev) (disk : Disk) (h : GptHeader) : Option (List UInt8) :=
  let count := (h.numPartitionEntries * h.sizeofPartitionEntry).toNat
  if count = 0 then none
  else blockRead dev disk h.partitionEntryLba.toUInt32 (blockCnt dev count)

/-- `validate_gpt_entries` -/
def validateGptEntries (h : GptHeader) (pte : List UInt8) : Bool :=
  crc32 ((buffer pte behind).bytes (h.numPartitionEntries * h.sizeofPartitionEntry).toNat) =
    h.partitionEntryArrayCrc32

/-- `is_gpt_valid`: the header and the entries. -/
def isGptValid (dev : BlockDev) (disk : Disk) (lba : UInt32) :
    Option (GptHeader × List UInt8) := do
  let block ← blockRead dev disk lba 1
  if validateGptHeader crc32 behind block lba dev.lba then
    let h := GptHeader.ofBytes block
    let pte ← allocReadGptEntries dev disk h
    if validateGptEntries crc32 behind h pte then some (h, pte) else none
  else none

/-- `isprint` -/
def isprint (c : UInt8) : Bool := (32 ≤ c ∧ c ≤ 126) ∨ 160 ≤ c

/-- A character of `print_efiname`. -/
def printChar (c : UInt8) : UInt8 := if c ≠ 0 ∧ !isprint c then 46 else c

/-- `print_efiname`, as the string that it returns. -/
def printEfiname (e : GptEntry) : List UInt8 :=
  (e.partitionName.map fun c => printChar c.toUInt8).takeWhile (· ≠ 0)

/-- `is_bootable` -/
def isBootable (e : GptEntry) : Bool :=
  e.attributes &&& 4 ≠ 0 ∨ e.partitionTypeGuid = systemGuid

/-- `is_pte_valid` -/
def isPteValid (e : GptEntry) : Bool := e.partitionTypeGuid ≠ List.replicate 16 0

structure PartInfo where
  start : UInt32
  size : UInt32
  blksz : Nat
  name : List UInt8
  bootable : Bool
  uuid : List UInt8
  deriving DecidableEq

def infoOf (dev : BlockDev) (e : GptEntry) : PartInfo where
  start := e.startingLba.toUInt32
  size := e.endingLba.toUInt32 + 1 - e.startingLba.toUInt32
  blksz := dev.blksz
  name := printEfiname e
  bootable := isBootable e
  uuid := uuidBinToStr e.uniquePartitionGuid .guid

/-- `get_partition_info_efi` for a part number of at least 1. -/
def getPartitionInfoEfi (dev : BlockDev) (disk : Disk) (part : Nat) : Option PartInfo := do
  let (h, pte) ← (isGptValid crc32 behind dev disk GPT_PRIMARY_PARTITION_TABLE_LBA.toUInt32).or
    (isGptValid crc32 behind dev disk (dev.lba - 1))
  let e := GptEntry.ofBytes (((buffer pte behind).add (entrySize * (part - 1))).bytes entrySize)
  if part > h.numPartitionEntries.toNat ∨ !isPteValid e then none else some (infoOf dev e)

end

end UBoot.Gpt
