import Mathlib.Data.List.TakeWhile
import UBoot.Crc32
import UBoot.Gpt.Layout

/-!
# Reading back a partition table

What `get_partition_info_efi` finds on a disk that `gpt_restore` has written, in
the tables at the start of the disk and in the copy at its end. Start, size and
the entries themselves always come back. A partition's UUID is stored in the
byte order of a UUID and read in that of a GUID, unlike the one of the disk.
-/

namespace UBoot.Gpt

open Verification Uuid

/-! ### Buffers and blocks -/

theorem buffer_bytes (bs : List UInt8) (behind : Ptr) {k n : Nat} (h : k + n ≤ bs.length) :
    ((buffer bs behind).add k).bytes n = (bs.drop k).take n := by
  apply List.ext_getElem
  · simp
    omega
  · intro i h1 h2
    have hi : i < n := by simpa using h1
    simp only [Ptr.bytes, Ptr.add, buffer, List.getElem_map, List.getElem_range,
      List.getElem_take, List.getElem_drop]
    rw [if_pos (by omega), List.getD_eq_getElem?_getD, List.getElem?_eq_getElem (by omega),
      Option.getD_some]

theorem buffer_bytes_append (bs rest : List UInt8) (behind : Ptr) :
    (buffer (bs ++ rest) behind).bytes bs.length = bs := by
  have h := buffer_bytes (bs ++ rest) behind (k := 0) (n := bs.length) (by simp)
  rw [List.drop_zero, List.take_left] at h
  refine Eq.trans (Ptr.bytes_congr fun i _ => ?_) h
  rw [Ptr.add, Nat.zero_add]

def blocks (dev : BlockDev) (disk : Disk) (start cnt : Nat) : List UInt8 :=
  (disk.add (start * dev.blksz)).bytes (cnt * dev.blksz)

theorem blockRead_eq {dev : BlockDev} {disk : Disk} {start : UInt32} {cnt : Nat}
    (h : start.toNat + cnt ≤ dev.lba.toNat) :
    blockRead dev disk start cnt = some (blocks dev disk start.toNat cnt) :=
  if_pos h

theorem blocks_write_self (dev : BlockDev) (disk : Disk) (start cnt : Nat) (buf : Ptr) :
    blocks dev (disk.write (start * dev.blksz) (cnt * dev.blksz) buf) start cnt =
      buf.bytes (cnt * dev.blksz) :=
  Ptr.bytes_write_self _ _ _ _

theorem blocks_write_of_disjoint (dev : BlockDev) (disk : Disk) (buf : Ptr)
    {start cnt start' cnt' : Nat} (h : start' + cnt' ≤ start ∨ start + cnt ≤ start') :
    blocks dev (disk.write (start * dev.blksz) (cnt * dev.blksz) buf) start' cnt' =
      blocks dev disk start' cnt' := by
  apply Ptr.bytes_write_of_disjoint
  rw [← Nat.add_mul, ← Nat.add_mul]
  exact h.imp (Nat.mul_le_mul_right _) (Nat.mul_le_mul_right _)

def tableBlocks (dev : BlockDev) : Nat := blockCnt dev (entrySize * GPT_ENTRY_NUMBERS)

theorem tableBlocks_le (dev : BlockDev) : tableBlocks dev ≤ 32 := by
  have hdiv : (entrySize * GPT_ENTRY_NUMBERS - 1) / dev.blksz ≤ 16383 / 512 :=
    Nat.div_le_div_left dev.blksz_le (by decide)
  unfold tableBlocks blockCnt
  omega

theorem le_tableBlocks_mul (dev : BlockDev) :
    entrySize * GPT_ENTRY_NUMBERS ≤ tableBlocks dev * dev.blksz := by
  have hpos : 0 < dev.blksz := Nat.lt_of_lt_of_le (by decide) dev.blksz_le
  have hlt : 16383 < (16383 / dev.blksz + 1) * dev.blksz := by
    have := Nat.div_add_mod 16383 dev.blksz
    have := Nat.mod_lt 16383 hpos
    rw [Nat.add_mul, Nat.one_mul, Nat.mul_comm]
    omega
  exact hlt

/-! ### A valid table -/

section

variable (crc32 : List UInt8 → UInt32) (behind : Ptr)

/-- A header and a table that belong together, written where the header says. -/
structure Written (dev : BlockDev) (disk : Disk) (lba : UInt32) (h : GptHeader)
    (table : List UInt8) : Prop where
  guid : h.diskGuid.length = 16
  signature : h.signature = GPT_HEADER_SIGNATURE
  size : h.headerSize = UInt32.ofNat headerSize
  crc : h.headerCrc32 = crc32 { h with headerCrc32 := 0 }.toBytes
  myLba : h.myLba = lba.toUInt64
  first : ¬h.firstUsableLba > dev.lba.toUInt64
  last : ¬h.lastUsableLba > dev.lba.toUInt64
  num : h.numPartitionEntries = UInt32.ofNat GPT_ENTRY_NUMBERS
  entry : h.sizeofPartitionEntry = UInt32.ofNat entrySize
  length : table.length = entrySize * GPT_ENTRY_NUMBERS
  tableCrc : h.partitionEntryArrayCrc32 = crc32 table
  inside : lba.toNat + 1 ≤ dev.lba.toNat
  tableInside : h.partitionEntryLba.toUInt32.toNat + tableBlocks dev ≤ dev.lba.toNat
  header : ∃ rest, blocks dev disk lba.toNat 1 = h.toBytes ++ rest
  entries : ∃ rest, blocks dev disk h.partitionEntryLba.toUInt32.toNat (tableBlocks dev) =
    table ++ rest

theorem validateGptHeader_iff {h : GptHeader} (hguid : h.diskGuid.length = 16)
    (hsize : h.headerSize = UInt32.ofNat headerSize) (rest : List UInt8) (lba lastlba : UInt32) :
    validateGptHeader crc32 behind (h.toBytes ++ rest) lba lastlba = true ↔
      h.signature = GPT_HEADER_SIGNATURE ∧
        crc32 { h with headerCrc32 := 0 }.toBytes = h.headerCrc32 ∧ h.myLba = lba.toUInt64 ∧
          ¬h.firstUsableLba > lastlba.toUInt64 ∧ ¬h.lastUsableLba > lastlba.toUInt64 := by
  have hbytes : (buffer ({ h with headerCrc32 := 0 }.toBytes ++ rest) behind).bytes
      h.headerSize.toNat = { h with headerCrc32 := 0 }.toBytes := by
    have hlen : h.headerSize.toNat = { h with headerCrc32 := 0 }.toBytes.length := by
      rw [GptHeader.length_toBytes (h := { h with headerCrc32 := 0 }) hguid, hsize]
      rfl
    rw [hlen]
    exact buffer_bytes_append _ _ _
  simp only [validateGptHeader, GptHeader.ofBytes_toBytes hguid, GptHeader.toBytes_clear, hbytes,
    Bool.and_eq_true, decide_eq_true_eq, Bool.not_eq_true', decide_eq_false_iff_not, and_assoc]

theorem isGptValid_eq {dev : BlockDev} {disk : Disk} {lba : UInt32} {block pte : List UInt8}
    {h : GptHeader} (hblock : blockRead dev disk lba 1 = some block)
    (hparse : GptHeader.ofBytes block = h)
    (hvalid : validateGptHeader crc32 behind block lba dev.lba = true)
    (hread : allocReadGptEntries dev disk h = some pte)
    (hsum : validateGptEntries crc32 behind h pte = true) :
    isGptValid crc32 behind dev disk lba = some (h, pte) := by
  simp [isGptValid, hblock, hparse, hvalid, hread, hsum]

theorem Written.isGptValid {dev : BlockDev} {disk : Disk} {lba : UInt32} {h : GptHeader}
    {table : List UInt8} (w : Written crc32 dev disk lba h table) :
    ∃ rest, isGptValid crc32 behind dev disk lba = some (h, table ++ rest) := by
  obtain ⟨rest, hheader⟩ := w.header
  obtain ⟨rest', hentries⟩ := w.entries
  have hparse := GptHeader.ofBytes_toBytes w.guid rest
  have hcount : (h.numPartitionEntries * h.sizeofPartitionEntry).toNat =
      entrySize * GPT_ENTRY_NUMBERS := by
    rw [w.num, w.entry]
    rfl
  have hvalid : validateGptHeader crc32 behind (h.toBytes ++ rest) lba dev.lba = true :=
    (validateGptHeader_iff crc32 behind w.guid w.size rest lba dev.lba).mpr
      ⟨w.signature, w.crc.symm, w.myLba, w.first, w.last⟩
  have hread : allocReadGptEntries dev disk h = some (table ++ rest') := by
    have hne : ¬entrySize * GPT_ENTRY_NUMBERS = 0 := by decide
    rw [allocReadGptEntries, hcount, if_neg hne, ← hentries]
    exact blockRead_eq w.tableInside
  have hsum : validateGptEntries crc32 behind h (table ++ rest') = true := by
    have := buffer_bytes_append table rest' behind
    rw [w.length] at this
    rw [validateGptEntries, hcount, this, w.tableCrc]
    exact decide_eq_true rfl
  rw [← hheader] at hvalid hparse
  exact ⟨rest', isGptValid_eq crc32 behind (blockRead_eq w.inside) hparse hvalid hread hsum⟩

/-- What is read from a slot of a table. -/
theorem ofBytes_tableBytes {entries : List GptEntry} (hwf : ∀ e ∈ entries, e.Wf)
    (hlen : entries.length ≤ GPT_ENTRY_NUMBERS) (rest : List UInt8) {k : Nat}
    (hk : k < GPT_ENTRY_NUMBERS) :
    GptEntry.ofBytes (((buffer (tableBytes entries ++ rest) behind).add (entrySize * k)).bytes
      entrySize) = entries.getD k GptEntry.unused := by
  have he : (entries.getD k GptEntry.unused).Wf := by
    rw [List.getD_eq_getElem?_getD]
    cases hentry : entries[k]? with
    | none => exact GptEntry.unused_wf
    | some e => exact hwf e (List.mem_of_getElem? hentry)
  have htable := length_tableBytes hwf hlen
  have hin : entrySize * k + entrySize ≤ (tableBytes entries).length := by
    rw [htable, ← Nat.mul_succ]
    exact Nat.mul_le_mul_left _ hk
  obtain ⟨tail, htail⟩ := drop_tableBytes hwf hlen hk
  rw [buffer_bytes _ _ (by rw [List.length_append]; omega),
    List.drop_append_of_le_length (by omega), htail, List.append_assoc,
    List.take_left' he.length_toBytes]
  simpa using he.ofBytes_toBytes []

theorem getPartitionInfoEfi_of_valid {dev : BlockDev} {disk : Disk} {h : GptHeader}
    {entries : List GptEntry} {rest : List UInt8} (hwf : ∀ e ∈ entries, e.Wf)
    (hlen : entries.length ≤ GPT_ENTRY_NUMBERS)
    (hvalid : (isGptValid crc32 behind dev disk GPT_PRIMARY_PARTITION_TABLE_LBA.toUInt32).or
      (isGptValid crc32 behind dev disk (dev.lba - 1)) = some (h, tableBytes entries ++ rest))
    (hnum : h.numPartitionEntries = UInt32.ofNat GPT_ENTRY_NUMBERS) {k : Nat} {e : GptEntry}
    (hk : entries[k]? = some e) (hused : isPteValid e = true) :
    getPartitionInfoEfi crc32 behind dev disk (k + 1) = some (infoOf dev e) := by
  have hlt := (List.getElem?_eq_some_iff.mp hk).1
  have hread := ofBytes_tableBytes behind hwf hlen rest (hlt.trans_le hlen)
  rw [List.getD_eq_getElem?_getD, hk, Option.getD_some] at hread
  have hpart : ¬k + 1 > h.numPartitionEntries.toNat := by
    rw [hnum]
    simp only [GPT_ENTRY_NUMBERS] at hlen ⊢
    have : (UInt32.ofNat 128).toNat = 128 := rfl
    omega
  simp [getPartitionInfoEfi, hvalid, hread, hused]
  omega

/-! ### What is written -/

/-- Blocks counted from the end of the disk. -/
theorem toNat_lba_sub {dev : BlockDev} (hlba : 67 ≤ dev.lba.toNat) {k : UInt32}
    (hk : k.toNat ≤ 34) : (dev.lba - k).toNat = dev.lba.toNat - k.toNat :=
  UInt32.toNat_sub_of_le _ _ (UInt32.le_iff_toNat_le.mpr (by omega))

/-- A header as `gpt_fill_header` fills it in. -/
structure Filled (dev : BlockDev) (h : GptHeader) : Prop where
  guid : h.diskGuid.length = 16
  signature : h.signature = GPT_HEADER_SIGNATURE
  size : h.headerSize = UInt32.ofNat headerSize
  crc : h.headerCrc32 = 0
  myLba : h.myLba = 1
  alternate : h.alternateLba = (dev.lba - 1).toUInt64
  first : h.firstUsableLba = 34
  last : h.lastUsableLba = (dev.lba - 34).toUInt64
  entryLba : h.partitionEntryLba = 2
  num : h.numPartitionEntries = UInt32.ofNat GPT_ENTRY_NUMBERS
  entry : h.sizeofPartitionEntry = UInt32.ofNat entrySize

theorem filled_gptFillHeader {dev : BlockDev} {strGuid : List UInt8} {h : GptHeader}
    (hfill : gptFillHeader dev strGuid = some h) : Filled dev h := by
  obtain ⟨guid, hguid, rfl⟩ := Option.map_eq_some_iff.mp hfill
  exact ⟨length_uuidStrToBin hguid, rfl, rfl, rfl, rfl, rfl, rfl, rfl, rfl, rfl, rfl⟩

/-- The writes of `write_gpt_table`, when the two copies do not overlap. -/
theorem writeGptTable_eq {dev : BlockDev} {disk : Disk} {h : GptHeader} {table : List UInt8}
    (hlba : 67 ≤ dev.lba.toNat) (filled : Filled dev h) :
    writeGptTable crc32 behind dev disk h table = some
      (((((disk.write (0 * dev.blksz) (1 * dev.blksz) (buffer (protectiveMbr dev) behind)).write
        (1 * dev.blksz) (1 * dev.blksz) (Ptr.ofList (sumHeader crc32 h table).toBytes)).write
        (2 * dev.blksz) (tableBlocks dev * dev.blksz) (Ptr.ofList table)).write
        ((dev.lba.toNat - 33) * dev.blksz) (tableBlocks dev * dev.blksz) (Ptr.ofList table)).write
        ((dev.lba.toNat - 1) * dev.blksz) (1 * dev.blksz)
        (Ptr.ofList (prepareBackupGptHeader crc32 (sumHeader crc32 h table)).toBytes)) := by
  have hcnt := tableBlocks_le dev
  have hblk : blockCnt dev (h.numPartitionEntries.toNat * entrySize) = tableBlocks dev := by
    rw [filled.num]
    rfl
  have h34 : (dev.lba - 34).toNat = dev.lba.toNat - 34 := toNat_lba_sub hlba (by decide)
  have h1 : (dev.lba - 1).toNat = dev.lba.toNat - 1 := toNat_lba_sub hlba (by decide)
  have hlast : (h.lastUsableLba.toUInt32 + 1).toNat = dev.lba.toNat - 33 := by
    have := dev.lba.toNat_lt
    rw [filled.last, UInt32.toUInt32_toUInt64, UInt32.toNat_add, h34]
    have : (1 : UInt32).toNat = 1 := rfl
    omega
  have hmy : (prepareBackupGptHeader crc32 (sumHeader crc32 h table)).myLba.toUInt32.toNat =
      dev.lba.toNat - 1 := by
    rw [← h1, ← UInt32.toUInt32_toUInt64 (dev.lba - 1), ← filled.alternate]
    rfl
  have hlast' : ((prepareBackupGptHeader crc32 (sumHeader crc32 h table)).lastUsableLba.toUInt32 +
      1).toNat = dev.lba.toNat - 33 := hlast
  have hnum : (0 : UInt32).toNat = 0 ∧ (1 : UInt32).toNat = 1 ∧ (2 : UInt32).toNat = 2 :=
    ⟨rfl, rfl, rfl⟩
  have fits : 0 + 1 ≤ dev.lba.toNat ∧ 1 + 1 ≤ dev.lba.toNat ∧
      2 + tableBlocks dev ≤ dev.lba.toNat ∧
      dev.lba.toNat - 33 + tableBlocks dev ≤ dev.lba.toNat ∧
      dev.lba.toNat - 1 + 1 ≤ dev.lba.toNat := by omega
  simp only [writeGptTable, hblk, blockWrite, hlast', hmy, hnum, if_pos fits.1, if_pos fits.2.1,
    if_pos fits.2.2.1, if_pos fits.2.2.2.1, if_pos fits.2.2.2.2]
  rfl

/-- The bytes of a structure at the start of a buffer of zeros. -/
theorem exists_bytes_ofList {bs : List UInt8} {n : Nat} (h : bs.length ≤ n) :
    ∃ rest, (Ptr.ofList bs).bytes n = bs ++ rest :=
  ⟨_, Ptr.bytes_ofList_of_le h⟩

theorem crc_eq {h : GptHeader} (hguid : h.diskGuid.length = 16)
    (hsize : h.headerSize = UInt32.ofNat headerSize) : h.crc crc32 = crc32 h.toBytes := by
  have hlen : h.headerSize.toNat = h.toBytes.length := by
    rw [GptHeader.length_toBytes hguid, hsize]
    rfl
  rw [GptHeader.crc, hlen, Ptr.bytes_ofList]

/-- The place of the second table. -/
theorem toNat_backupEntryLba {dev : BlockDev} {h : GptHeader} (hlba : 67 ≤ dev.lba.toNat)
    (filled : Filled dev h) (table : List UInt8) :
    (prepareBackupGptHeader crc32 (sumHeader crc32 h table)).partitionEntryLba.toUInt32.toNat =
      dev.lba.toNat - 33 := by
  have h34 : (dev.lba - 34).toNat = dev.lba.toNat - 34 := toNat_lba_sub hlba (by decide)
  have hone : (1 : UInt64).toNat = 1 := rfl
  have hlt := dev.lba.toNat_lt
  simp only [prepareBackupGptHeader, sumHeader, filled.last]
  rw [UInt64.toNat_toUInt32, UInt64.toNat_add, UInt32.toNat_toUInt64, h34, hone]
  omega

/-- The blocks of the two copies. -/
theorem blocks_written {dev : BlockDev} (hlba : 67 ≤ dev.lba.toNat) (disk : Disk)
    (mbr header table header' : Ptr) :
    let disk' := ((((disk.write (0 * dev.blksz) (1 * dev.blksz) mbr).write
      (1 * dev.blksz) (1 * dev.blksz) header).write
      (2 * dev.blksz) (tableBlocks dev * dev.blksz) table).write
      ((dev.lba.toNat - 33) * dev.blksz) (tableBlocks dev * dev.blksz) table).write
      ((dev.lba.toNat - 1) * dev.blksz) (1 * dev.blksz) header'
    blocks dev disk' 1 1 = header.bytes (1 * dev.blksz) ∧
      blocks dev disk' 2 (tableBlocks dev) = table.bytes (tableBlocks dev * dev.blksz) ∧
      blocks dev disk' (dev.lba.toNat - 33) (tableBlocks dev) =
        table.bytes (tableBlocks dev * dev.blksz) ∧
      blocks dev disk' (dev.lba.toNat - 1) 1 = header'.bytes (1 * dev.blksz) := by
  have hcnt := tableBlocks_le dev
  refine ⟨?_, ?_, ?_, ?_⟩
  · rw [blocks_write_of_disjoint _ _ _ (.inl (by omega)),
      blocks_write_of_disjoint _ _ _ (.inl (by omega)),
      blocks_write_of_disjoint _ _ _ (.inl (by omega)), blocks_write_self]
  · rw [blocks_write_of_disjoint _ _ _ (.inl (by omega)),
      blocks_write_of_disjoint _ _ _ (.inl (by omega)), blocks_write_self]
  · rw [blocks_write_of_disjoint _ _ _ (.inl (by omega)), blocks_write_self]
  · rw [blocks_write_self]

/-- Both copies of the table are valid. -/
theorem written_writeGptTable {dev : BlockDev} {disk disk' : Disk} {h : GptHeader}
    {table : List UInt8} (hlba : 67 ≤ dev.lba.toNat) (filled : Filled dev h)
    (hlen : table.length = entrySize * GPT_ENTRY_NUMBERS)
    (hwrite : writeGptTable crc32 behind dev disk h table = some disk') :
    Written crc32 dev disk' 1 (sumHeader crc32 h table) table ∧
      Written crc32 dev disk' (dev.lba - 1)
        (prepareBackupGptHeader crc32 (sumHeader crc32 h table)) table := by
  rw [writeGptTable_eq crc32 behind hlba filled] at hwrite
  obtain ⟨hb1, hb2, hb3, hb4⟩ := blocks_written hlba disk (buffer (protectiveMbr dev) behind)
    (Ptr.ofList (sumHeader crc32 h table).toBytes) (Ptr.ofList table)
    (Ptr.ofList (prepareBackupGptHeader crc32 (sumHeader crc32 h table)).toBytes)
  obtain rfl := Option.some.inj hwrite
  have hcnt := tableBlocks_le dev
  have hmul := le_tableBlocks_mul dev
  have hblksz : Gpt.headerSize ≤ 1 * dev.blksz := by
    have := dev.blksz_le
    simp only [Gpt.headerSize]
    omega
  have h34 : (dev.lba - 34).toNat = dev.lba.toNat - 34 := toNat_lba_sub hlba (by decide)
  have h1 : (dev.lba - 1).toNat = dev.lba.toNat - 1 := toNat_lba_sub hlba (by decide)
  have hfirst : ¬h.firstUsableLba > dev.lba.toUInt64 := by
    rw [filled.first, gt_iff_lt, UInt64.lt_iff_toNat_lt, UInt32.toNat_toUInt64]
    have : (34 : UInt64).toNat = 34 := rfl
    omega
  have hlast : ¬h.lastUsableLba > dev.lba.toUInt64 := by
    rw [filled.last, gt_iff_lt, UInt64.lt_iff_toNat_lt, UInt32.toNat_toUInt64,
      UInt32.toNat_toUInt64, h34]
    omega
  have htable : crc32 ((Ptr.ofList table).bytes
      (h.numPartitionEntries * h.sizeofPartitionEntry).toNat) = crc32 table := by
    have hcount : (h.numPartitionEntries * h.sizeofPartitionEntry).toNat = table.length := by
      rw [filled.num, filled.entry, hlen]
      rfl
    rw [hcount, Ptr.bytes_ofList]
  have hentry := toNat_backupEntryLba crc32 hlba filled table
  have hheader : (sumHeader crc32 h table).toBytes.length ≤ 1 * dev.blksz := by
    rw [GptHeader.length_toBytes (h := sumHeader crc32 h table) filled.guid]
    exact hblksz
  have hheader' : (prepareBackupGptHeader crc32 (sumHeader crc32 h table)).toBytes.length ≤
      1 * dev.blksz := by
    rw [GptHeader.length_toBytes (h := prepareBackupGptHeader crc32 (sumHeader crc32 h table))
      filled.guid]
    exact hblksz
  have hentry1 : (sumHeader crc32 h table).partitionEntryLba.toUInt32.toNat = 2 :=
    congrArg (fun lba => lba.toUInt32.toNat) filled.entryLba
  constructor
  · refine ⟨filled.guid, filled.signature, filled.size, ?_, ?_, hfirst, hlast, filled.num,
      filled.entry, hlen, htable, ?_, ?_, ?_, ?_⟩
    · -- The sum was taken while its field was still zero.
      have hzero : { sumHeader crc32 h table with headerCrc32 := 0 } =
          { h with partitionEntryArrayCrc32 := crc32 ((Ptr.ofList table).bytes
            (h.numPartitionEntries * h.sizeofPartitionEntry).toNat) } := by
        simp only [sumHeader, filled.crc]
      rw [hzero]
      exact crc_eq crc32 filled.guid filled.size
    · exact filled.myLba
    · exact Nat.le_trans (by decide) hlba
    · rw [hentry1]
      omega
    · rw [show (1 : UInt32).toNat = 1 from rfl, hb1]
      exact exists_bytes_ofList hheader
    · rw [hentry1, hb2]
      exact exists_bytes_ofList (hlen.trans_le hmul)
  · refine ⟨filled.guid, filled.signature, filled.size, ?_, filled.alternate, hfirst, hlast,
      filled.num, filled.entry, hlen, htable, ?_, ?_, ?_, ?_⟩
    · exact crc_eq crc32 filled.guid filled.size
    · rw [h1]
      omega
    · rw [hentry]
      omega
    · rw [h1, hb4]
      exact exists_bytes_ofList hheader'
    · rw [hentry, hb3]
      exact exists_bytes_ofList (hlen.trans_le hmul)

/-! ### What was given -/

/-- Where partitions are and how long: at the given start, or behind the one
before; the last one may take the rest. -/
def layout (last : UInt32) : UInt32 → List Partition → List (UInt32 × UInt32)
  | _, [] => []
  | offset, p :: parts =>
    let start := if p.start ≠ 0 then p.start else offset
    (start, if parts = [] ∧ p.size = 0 then last + 1 - start else p.size) ::
      layout last (start + p.size) parts

/-- The string in an array of characters. -/
def cString (name : Vector UInt8 32) : List UInt8 := name.toList.takeWhile (· ≠ 0)

structure EntryFor (dev : BlockDev) (p : Partition) (place : UInt32 × UInt32) (e : GptEntry) :
    Prop where
  wf : e.Wf
  used : isPteValid e = true
  place : ((infoOf dev e).start, (infoOf dev e).size) = place
  name : e.partitionName = efiName p.name
  uuid : uuidStrToBin p.uuid .std = some e.uniquePartitionGuid

/-- One entry as `gpt_fill_pte` fills it in. -/
theorem entryFor_cons (dev : BlockDev) (h : GptHeader) (offset : UInt32) {p : Partition}
    {guid : List UInt8} (hguid : uuidStrToBin p.uuid .std = some guid) (parts : List Partition) :
    let start := if p.start ≠ 0 then p.start else offset
    EntryFor dev p
      (start, if parts = [] ∧ p.size = 0 then h.lastUsableLba.toUInt32 + 1 - start else p.size)
      { partitionTypeGuid := basicDataGuid
        uniquePartitionGuid := guid
        startingLba := start.toUInt64
        endingLba := if parts = [] ∧ p.size = 0 then h.lastUsableLba
          else (start + p.size - 1).toUInt64
        attributes := 0
        partitionName := efiName p.name } := by
  intro start
  refine ⟨⟨rfl, length_uuidStrToBin hguid, ?_⟩, rfl, ?_, rfl, hguid⟩
  · simp [efiName, PARTNAME_SZ]
  · simp only [infoOf, UInt32.toUInt32_toUInt64]
    split_ifs
    · rfl
    · rw [UInt32.toUInt32_toUInt64, UInt32.sub_add_cancel, UInt32.add_comm,
        UInt32.add_sub_cancel]

/-- What `gpt_fill_pte` has checked of the first partition, and how it goes on. -/
theorem gptFillPte_cons {h : GptHeader} {offset : UInt32} {p : Partition} {parts : List Partition}
    {entries : List GptEntry} (hfill : gptFillPte h offset (p :: parts) = some entries) :
    let start := if p.start ≠ 0 then p.start else offset
    ¬(p.start ≠ 0 ∧ p.start < offset) ∧ start + p.size < h.lastUsableLba.toUInt32 ∧
      ∃ guid rest, uuidStrToBin p.uuid .std = some guid ∧
        gptFillPte h (start + p.size) parts = some rest ∧
        entries =
          { partitionTypeGuid := basicDataGuid
            uniquePartitionGuid := guid
            startingLba := start.toUInt64
            endingLba := if parts = [] ∧ p.size = 0 then h.lastUsableLba
              else (start + p.size - 1).toUInt64
            attributes := 0
            partitionName := efiName p.name } :: rest := by
  intro start
  rw [gptFillPte] at hfill
  by_cases hoverlap : p.start ≠ 0 ∧ p.start < offset
  · rw [if_pos hoverlap] at hfill
    cases hfill
  rw [if_neg hoverlap] at hfill
  by_cases hexceeds : start + p.size ≥ h.lastUsableLba.toUInt32
  · simp only [start, if_pos hexceeds] at hfill
    cases hfill
  simp only [start, if_neg hexceeds] at hfill
  refine ⟨hoverlap, UInt32.not_le.mp hexceeds, ?_⟩
  cases hguid : uuidStrToBin p.uuid .std with
  | none =>
    rw [hguid] at hfill
    cases hfill
  | some guid =>
    rw [hguid] at hfill
    obtain ⟨rest, hrest, rfl⟩ := Option.map_eq_some_iff.mp hfill
    exact ⟨guid, rest, rfl, hrest, rfl⟩

theorem gptFillPte_spec (dev : BlockDev) {h : GptHeader} {offset : UInt32}
    {parts : List Partition} {entries : List GptEntry}
    (hfill : gptFillPte h offset parts = some entries) :
    entries.length = parts.length ∧ (∀ e ∈ entries, e.Wf) ∧
      ∀ (i : Nat) (p : Partition), parts[i]? = some p → ∃ e place, entries[i]? = some e ∧
        (layout h.lastUsableLba.toUInt32 offset parts)[i]? = some place ∧
        EntryFor dev p place e := by
  induction parts generalizing offset entries with
  | nil =>
    obtain rfl := Option.some.inj hfill
    exact ⟨rfl, by simp, by simp⟩
  | cons p parts ih =>
    obtain ⟨-, -, guid, rest, hguid, hrest, rfl⟩ := gptFillPte_cons hfill
    obtain ⟨hlen, hwf, hspec⟩ := ih hrest
    have hentry : EntryFor dev p _ _ := entryFor_cons dev h offset hguid parts
    refine ⟨by simp [hlen], ?_, ?_⟩
    · intro e he
      obtain rfl | he := List.mem_cons.mp he
      · exact hentry.wf
      · exact hwf e he
    · intro i q hq
      cases i with
      | zero =>
        obtain rfl := Option.some.inj hq
        exact ⟨_, _, rfl, rfl, hentry⟩
      | succ i => exact hspec i q hq

/-! ### Names -/

theorem printChar_spec (c : UInt8) :
    (printChar c = 0 ↔ c = 0) ∧ (c ≠ 0 → (printChar c = c ↔ isprint c = true)) := by
  have all : ∀ n < 256, (printChar (UInt8.ofNat n) = 0 ↔ UInt8.ofNat n = 0) ∧
      (UInt8.ofNat n ≠ 0 →
        (printChar (UInt8.ofNat n) = UInt8.ofNat n ↔ isprint (UInt8.ofNat n) = true)) := by
    decide +kernel
  rw [← UInt8.ofNat_toNat (x := c)]
  exact all c.toNat c.toNat_lt

theorem printEfiname_eq {e : GptEntry} {name : Vector UInt8 32}
    (h : e.partitionName = efiName name) : printEfiname e = (cString name).map printChar := by
  have hzeros : (List.replicate (PARTNAME_SZ - 32) (0 : UInt16)).map
      (fun c => printChar c.toUInt8) = List.replicate (PARTNAME_SZ - 32) 0 := rfl
  have hmap : (name.toList.map UInt8.toUInt16).map (fun c => printChar c.toUInt8) =
      name.toList.map printChar := by
    simp
  rw [printEfiname, h, efiName, List.map_append, hzeros, hmap]
  have hstop : ((fun c => decide (c ≠ 0)) ∘ printChar) = fun c => decide (c ≠ 0) := by
    funext c
    simp [(printChar_spec c).1]
  have hnil : (List.replicate (PARTNAME_SZ - 32) (0 : UInt8)).takeWhile (· ≠ 0) = [] := by decide
  rw [takeWhile_append_of_nil hnil, List.takeWhile_map, hstop, cString]

theorem map_printChar_eq_iff {name : Vector UInt8 32} :
    (cString name).map printChar = cString name ↔ ∀ c ∈ cString name, isprint c = true := by
  have hne : ∀ c ∈ cString name, c ≠ 0 := by
    intro c hc
    have h : decide (c ≠ 0) = true := List.mem_takeWhile_imp (p := fun c => decide (c ≠ 0)) hc
    exact of_decide_eq_true h
  conv_lhs => rhs; rw [← List.map_id (cString name)]
  rw [List.map_inj_left]
  exact forall₂_congr fun c hc => (printChar_spec c).2 (hne c hc)

/-! ### The round trip -/

/-- Every partition is found as it was given. -/
def Found (dev : BlockDev) (parts : List Partition) (disk : Disk) : Prop :=
  ∀ (i : Nat) (p : Partition), parts[i]? = some p → ∃ info,
    getPartitionInfoEfi crc32 behind dev disk (i + 1) = some info ∧
      (layout (dev.lba - 34) 34 parts)[i]? = some (info.start, info.size) ∧
      info.name = cString p.name ∧ info.uuid = p.uuid

/-- The tables at the start of the disk are damaged. -/
def PrimaryDamaged (dev : BlockDev) (disk damaged : Disk) : Prop :=
  (∀ q, q < dev.blksz ∨ 34 * dev.blksz ≤ q → damaged q = disk q) ∧
    isGptValid crc32 behind dev damaged GPT_PRIMARY_PARTITION_TABLE_LBA.toUInt32 = none

/-- The partitions are found in the tables at the start of the disk and, when
these are damaged, in the copy at its end. -/
def RoundTrips (dev : BlockDev) (parts : List Partition) (disk : Disk) : Prop :=
  Found crc32 behind dev parts disk ∧
    ∀ damaged, PrimaryDamaged crc32 behind dev disk damaged → Found crc32 behind dev parts damaged

/-- The names and the UUID strings that come back. -/
def Faithful (p : Partition) : Prop :=
  (∀ c ∈ cString p.name, isprint c = true) ∧ Mirrored p.uuid

instance : DecidablePred Faithful := fun _ => inferInstanceAs (Decidable (_ ∧ _))

theorem found_iff {dev : BlockDev} {parts : List Partition} {disk : Disk}
    (hlower : ∀ p ∈ parts, LowerCase p.uuid)
    (hinfo : ∀ (i : Nat) (p : Partition), parts[i]? = some p → ∃ e place,
      (layout (dev.lba - 34) 34 parts)[i]? = some place ∧ EntryFor dev p place e ∧
        getPartitionInfoEfi crc32 behind dev disk (i + 1) = some (infoOf dev e)) :
    Found crc32 behind dev parts disk ↔ ∀ p ∈ parts, Faithful p := by
  have same : ∀ p e place, p ∈ parts → EntryFor dev p place e →
      (((infoOf dev e).name = cString p.name ∧ (infoOf dev e).uuid = p.uuid) ↔ Faithful p) := by
    intro p e place hp he
    have hname : (infoOf dev e).name = (cString p.name).map printChar := printEfiname_eq he.name
    rw [hname, map_printChar_eq_iff]
    exact and_congr Iff.rfl (guid_of_std_eq_iff (hlower p hp) he.uuid)
  constructor
  · intro found p hp
    obtain ⟨i, hi⟩ := List.mem_iff_getElem?.mp hp
    obtain ⟨e, place, -, he, hget⟩ := hinfo i p hi
    obtain ⟨info, hget', -, hname, huuid⟩ := found i p hi
    obtain rfl := Option.some.inj (hget'.symm.trans hget)
    exact (same p e place hp he).mp ⟨hname, huuid⟩
  · intro faithful i p hi
    have hp := List.mem_of_getElem? hi
    obtain ⟨e, place, hplace, he, hget⟩ := hinfo i p hi
    obtain ⟨hname, huuid⟩ := (same p e place hp he).mpr (faithful p hp)
    exact ⟨infoOf dev e, hget, by rw [he.place, hplace], hname, huuid⟩

/-- A copy of the table behind the damage. -/
theorem Written.damaged {dev : BlockDev} {disk damaged : Disk} {lba : UInt32} {h : GptHeader}
    {table : List UInt8} (w : Written crc32 dev disk lba h table)
    (hsame : ∀ q, 34 * dev.blksz ≤ q → damaged q = disk q) (hlba : 34 ≤ lba.toNat)
    (hentry : 34 ≤ h.partitionEntryLba.toUInt32.toNat) :
    Written crc32 dev damaged lba h table := by
  have hblocks : ∀ start cnt, 34 ≤ start →
      blocks dev damaged start cnt = blocks dev disk start cnt := by
    intro start cnt hstart
    apply Ptr.bytes_congr
    intro i _
    have := Nat.mul_le_mul_right dev.blksz hstart
    exact hsame _ (by omega)
  refine { w with header := ?_, entries := ?_ }
  · rw [hblocks _ _ hlba]
    exact w.header
  · rw [hblocks _ _ hentry]
    exact w.entries

/-- The entries of a restored table, in both copies. -/
theorem info_of_restore {dev : BlockDev} {disk disk' : Disk} {strDiskGuid : List UInt8}
    {parts : List Partition} (hlba : 67 ≤ dev.lba.toNat)
    (hcount : parts.length ≤ GPT_ENTRY_NUMBERS)
    (hrestore : gptRestore crc32 behind dev disk strDiskGuid parts = some disk') :
    ∀ d, d = disk' ∨ PrimaryDamaged crc32 behind dev disk' d →
      ∀ (i : Nat) (p : Partition), parts[i]? = some p → ∃ e place,
        (layout (dev.lba - 34) 34 parts)[i]? = some place ∧ EntryFor dev p place e ∧
          getPartitionInfoEfi crc32 behind dev d (i + 1) = some (infoOf dev e) := by
  simp only [gptRestore, Option.bind_eq_bind, Option.bind_eq_some_iff] at hrestore
  obtain ⟨h, hheader, entries, hentries, hwrite⟩ := hrestore
  have filled := filled_gptFillHeader hheader
  have hlast : h.lastUsableLba.toUInt32 = dev.lba - 34 := by
    rw [filled.last, UInt32.toUInt32_toUInt64]
  have hfirst : h.firstUsableLba.toUInt32 = 34 := by
    rw [filled.first]
    rfl
  obtain ⟨hlen, hwf, hspec⟩ := gptFillPte_spec dev hentries
  rw [hlast, hfirst] at hspec
  have hcount' : entries.length ≤ GPT_ENTRY_NUMBERS := hlen.trans_le hcount
  obtain ⟨primary, backup⟩ := written_writeGptTable crc32 behind hlba filled
    (length_tableBytes hwf hcount') hwrite
  have valid : ∀ d, d = disk' ∨ PrimaryDamaged crc32 behind dev disk' d → ∃ h rest,
      (isGptValid crc32 behind dev d GPT_PRIMARY_PARTITION_TABLE_LBA.toUInt32).or
        (isGptValid crc32 behind dev d (dev.lba - 1)) = some (h, tableBytes entries ++ rest) ∧
      h.numPartitionEntries = UInt32.ofNat GPT_ENTRY_NUMBERS := by
    rintro d (rfl | ⟨hsame, hbad⟩)
    · obtain ⟨rest, hvalid⟩ := primary.isGptValid crc32 behind
      exact ⟨_, rest, by rw [show GPT_PRIMARY_PARTITION_TABLE_LBA.toUInt32 = 1 from rfl, hvalid,
        Option.some_or], primary.num⟩
    · have h1 : (dev.lba - 1).toNat = dev.lba.toNat - 1 := toNat_lba_sub hlba (by decide)
      have hentry := toNat_backupEntryLba crc32 hlba filled (tableBytes entries)
      obtain ⟨rest, hvalid⟩ := (backup.damaged crc32 (fun q hq => hsame q (.inr hq)) (by omega)
        (by omega)).isGptValid crc32 behind
      exact ⟨_, rest, by rw [hbad, hvalid, Option.none_or], backup.num⟩
  intro d hd i p hi
  obtain ⟨h', rest, hvalid, hnum⟩ := valid d hd
  obtain ⟨e, place, hek, hplace, he⟩ := hspec i p hi
  exact ⟨e, place, hplace, he,
    getPartitionInfoEfi_of_valid crc32 behind hwf hcount' hvalid hnum hek he.used⟩

/-- On a disk with room for both tables, the partitions come back if and only
if their names are printable and their UUID strings are the same in both byte
orders. -/
theorem partition_table_round_trip_iff {dev : BlockDev} {disk disk' : Disk}
    {strDiskGuid : List UInt8} {parts : List Partition} (hlba : 67 ≤ dev.lba.toNat)
    (hcount : parts.length ≤ GPT_ENTRY_NUMBERS) (hlower : ∀ p ∈ parts, LowerCase p.uuid)
    (hrestore : gptRestore crc32 behind dev disk strDiskGuid parts = some disk') :
    RoundTrips crc32 behind dev parts disk' ↔ ∀ p ∈ parts, Faithful p := by
  have info := info_of_restore crc32 behind hlba hcount hrestore
  constructor
  · intro h
    exact (found_iff crc32 behind hlower (info disk' (.inl rfl))).mp h.1
  · intro h
    exact ⟨(found_iff crc32 behind hlower (info disk' (.inl rfl))).mpr h, fun damaged hd =>
      (found_iff crc32 behind hlower (info damaged (.inr hd))).mpr h⟩

end

/-- A disk of 100 blocks. -/
def smallDisk : BlockDev := ⟨100, 512, le_rfl⟩

/-- The name `a`. -/
def nameA : Vector UInt8 32 := (Vector.replicate 32 0).set 0 97

/-- The UUID `01010101-0202-0303-0405-060708090a0b`. -/
def mirroredUuid : List UInt8 :=
  [48, 49, 48, 49, 48, 49, 48, 49, 45, 48, 50, 48, 50, 45, 48, 51, 48, 51, 45, 48, 52, 48, 53,
    45, 48, 54, 48, 55, 48, 56, 48, 57, 48, 97, 48, 98]

/-- The UUID `01020304-0506-0708-090a-0b0c0d0e0f10`. -/
def otherUuid : List UInt8 :=
  [48, 49, 48, 50, 48, 51, 48, 52, 45, 48, 53, 48, 54, 45, 48, 55, 48, 56, 45, 48, 57, 48, 97,
    45, 48, 98, 48, 99, 48, 100, 48, 101, 48, 102, 49, 48]

/-- The header of `smallDisk`. -/
def smallHeader : GptHeader where
  signature := GPT_HEADER_SIGNATURE
  revision := GPT_HEADER_REVISION_V1
  headerSize := 92
  headerCrc32 := 0
  reserved1 := 0
  myLba := 1
  alternateLba := 99
  firstUsableLba := 34
  lastUsableLba := 66
  diskGuid := [1, 1, 1, 1, 2, 2, 3, 3, 4, 5, 6, 7, 8, 9, 10, 11]
  partitionEntryLba := 2
  numPartitionEntries := 128
  sizeofPartitionEntry := 128
  partitionEntryArrayCrc32 := 0

/-- The entry of a partition from block 34 on. -/
def partEntry (endingLba : UInt64) : GptEntry where
  partitionTypeGuid := basicDataGuid
  uniquePartitionGuid := [1, 1, 1, 1, 2, 2, 3, 3, 4, 5, 6, 7, 8, 9, 10, 11]
  startingLba := 34
  endingLba := endingLba
  attributes := 0
  partitionName := efiName nameA

/-- A partition of ten blocks, and of twenty. -/
def tenBlocks : List Partition := [⟨0, 10, nameA, mirroredUuid⟩]

def twentyBlocks : List Partition := [⟨0, 20, nameA, mirroredUuid⟩]

theorem filled_small :
    gptFillHeader smallDisk mirroredUuid = some smallHeader ∧
      gptFillPte smallHeader 34 tenBlocks = some [partEntry 43] ∧
      gptFillPte smallHeader 34 twentyBlocks = some [partEntry 53] := by
  decide

/-- A second partition behind it, which takes the rest of the disk. -/
def tenBlocksAndRest : List Partition := tenBlocks ++ [⟨0, 0, nameA.set 1 98, mirroredUuid⟩]

theorem partition_table_round_trip_two :
    ∃ disk', gptRestore crc32 0 smallDisk 0 mirroredUuid tenBlocksAndRest = some disk' ∧
      RoundTrips crc32 0 smallDisk tenBlocksAndRest disk' := by
  obtain ⟨disk', hrestore⟩ := Option.isSome_iff_exists.mp
    (show (gptRestore crc32 0 smallDisk 0 mirroredUuid tenBlocksAndRest).isSome from by decide)
  refine ⟨disk', hrestore, (partition_table_round_trip_iff crc32 0 (by decide) (by decide)
    (by decide +kernel) hrestore).mpr ?_⟩
  decide +kernel

/-- The UUID of a partition comes back with the bytes of its groups swapped. -/
theorem partition_uuid_changed :
    ¬∀ (dev : BlockDev) (disk disk' : Disk) (strDiskGuid : List UInt8) (parts : List Partition),
      67 ≤ dev.lba.toNat → parts.length ≤ GPT_ENTRY_NUMBERS →
      (∀ p ∈ parts, p.size ≠ 0 ∧ 0 ∈ p.name.toList ∧ LowerCase p.uuid) →
      gptRestore crc32 0 dev disk strDiskGuid parts = some disk' →
      RoundTrips crc32 0 dev parts disk' := by
  intro claim
  obtain ⟨disk', hrestore⟩ := Option.isSome_iff_exists.mp
    (show (gptRestore crc32 0 smallDisk 0 mirroredUuid
      [⟨0, 10, nameA, otherUuid⟩]).isSome from by decide)
  have found := (claim smallDisk 0 disk' mirroredUuid [⟨0, 10, nameA, otherUuid⟩] (by decide)
    (by decide) (by decide +kernel) hrestore).1
  have faithful := (found_iff crc32 0 (by decide +kernel) (info_of_restore crc32 0 (by decide)
    (by decide) hrestore disk' (.inl rfl))).mp found _ (List.mem_singleton_self _)
  exact absurd faithful.2 (by decide)

end UBoot.Gpt
