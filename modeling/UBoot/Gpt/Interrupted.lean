import UBoot.Gpt.RoundTrip

/-!
# An interrupted update of the tables

`write_gpt_table` writes five pieces: the protective MBR, the first header, the
first table, the second table and the second header. When it is cut off, the
second copy is still the old one as long as the first copy is incomplete, and an
incomplete first copy is refused by the check sum of its table.
-/

namespace UBoot.Gpt

open Verification

/-- A call of `block_write`. -/
structure BlockWrite where
  start : Nat
  cnt : Nat
  buf : Ptr

/-- The first `j` blocks of a write. -/
def BlockWrite.performFirst (dev : BlockDev) (disk : Disk) (w : BlockWrite) (j : Nat) : Disk :=
  disk.write (w.start * dev.blksz) (j * dev.blksz) w.buf

def BlockWrite.perform (dev : BlockDev) (disk : Disk) (w : BlockWrite) : Disk :=
  w.performFirst dev disk w.cnt

/-- What a sequence of writes leaves behind when it is cut off: some writes are
done, and of the next one only the first blocks. -/
def CutOff (dev : BlockDev) (disk : Disk) (writes : List BlockWrite) (d : Disk) : Prop :=
  ∃ done w rest j, writes = done ++ w :: rest ∧ j ≤ w.cnt ∧
    d = w.performFirst dev (done.foldl (BlockWrite.perform dev) disk) j

section

variable (crc32 : List UInt8 → UInt32) (behind : Ptr)

/-- The writes of `write_gpt_table`. -/
def tableWrites (dev : BlockDev) (h : GptHeader) (entries : List UInt8) : List BlockWrite :=
  let pteBlkCnt := blockCnt dev (h.numPartitionEntries.toNat * entrySize)
  let h := sumHeader crc32 h entries
  let h' := prepareBackupGptHeader crc32 h
  [⟨0, 1, buffer (protectiveMbr dev) behind⟩, ⟨1, 1, Ptr.ofList h.toBytes⟩,
    ⟨2, pteBlkCnt, Ptr.ofList entries⟩,
    ⟨(h'.lastUsableLba.toUInt32 + 1).toNat, pteBlkCnt, Ptr.ofList entries⟩,
    ⟨h'.myLba.toUInt32.toNat, 1, Ptr.ofList h'.toBytes⟩]

/-- The writes one after another are `write_gpt_table`, when the driver refuses
none of them. -/
theorem writeGptTable_eq_foldl {dev : BlockDev} {disk disk' : Disk} {h : GptHeader}
    {entries : List UInt8} (hwrite : writeGptTable crc32 behind dev disk h entries = some disk') :
    disk' = (tableWrites crc32 behind dev h entries).foldl (BlockWrite.perform dev) disk := by
  simp only [writeGptTable, blockWrite, Option.bind_eq_bind, Option.bind_eq_some_iff,
    Option.ite_none_right_eq_some, Option.some.injEq] at hwrite
  obtain ⟨_, ⟨-, rfl⟩, _, ⟨-, rfl⟩, _, ⟨-, rfl⟩, _, ⟨-, rfl⟩, -, rfl⟩ := hwrite
  rfl

/-! ### What is found in a table -/

/-- What `get_partition_info_efi` reads from a valid header and its table. -/
def partInfo (dev : BlockDev) (h : GptHeader) (pte : List UInt8) (part : Nat) : Option PartInfo :=
  let e := GptEntry.ofBytes (((buffer pte behind).add (entrySize * (part - 1))).bytes entrySize)
  if part > h.numPartitionEntries.toNat ∨ !isPteValid e then none else some (infoOf dev e)

theorem getPartitionInfoEfi_eq (dev : BlockDev) (disk : Disk) (part : Nat) :
    getPartitionInfoEfi crc32 behind dev disk part =
      ((isGptValid crc32 behind dev disk 1).or
        (isGptValid crc32 behind dev disk (dev.lba - 1))).bind
        fun valid => partInfo behind dev valid.1 valid.2 part :=
  rfl

/-- Bytes behind the table do not matter. -/
theorem partInfo_append {dev : BlockDev} {h h' : GptHeader} {table : List UInt8}
    (hlen : table.length = entrySize * GPT_ENTRY_NUMBERS)
    (hnum : h.numPartitionEntries = UInt32.ofNat GPT_ENTRY_NUMBERS)
    (hnum' : h'.numPartitionEntries = UInt32.ofNat GPT_ENTRY_NUMBERS) (rest rest' : List UInt8)
    {part : Nat} (hpart : 1 ≤ part) :
    partInfo behind dev h (table ++ rest) part = partInfo behind dev h' (table ++ rest') part := by
  have h128 : (UInt32.ofNat GPT_ENTRY_NUMBERS).toNat = 128 := rfl
  simp only [partInfo, hnum, hnum', h128]
  by_cases hout : part > 128
  · simp [hout]
  · have hin : entrySize * (part - 1) + entrySize ≤ table.length := by
      rw [hlen]
      simp only [entrySize, GPT_ENTRY_NUMBERS]
      omega
    have hbytes : ∀ tail : List UInt8,
        ((buffer (table ++ tail) behind).add (entrySize * (part - 1))).bytes entrySize =
          (table.drop (entrySize * (part - 1))).take entrySize := by
      intro tail
      rw [buffer_bytes _ _ (by rw [List.length_append]; omega),
        List.drop_append_of_le_length (by omega),
        List.take_append_of_le_length (by rw [List.length_drop]; omega)]
    rw [hbytes, hbytes]

/-- What the entries of a layout say of a part. -/
def layoutInfo (dev : BlockDev) (entries : List GptEntry) (part : Nat) : Option PartInfo :=
  (entries[part - 1]?).bind fun e => if isPteValid e then some (infoOf dev e) else none

theorem partInfo_tableBytes (dev : BlockDev) {h : GptHeader} {entries : List GptEntry}
    (hwf : ∀ e ∈ entries, e.Wf) (hlen : entries.length ≤ GPT_ENTRY_NUMBERS)
    (hnum : h.numPartitionEntries = UInt32.ofNat GPT_ENTRY_NUMBERS) (rest : List UInt8)
    {part : Nat} (hpart : 1 ≤ part) :
    partInfo behind dev h (tableBytes entries ++ rest) part = layoutInfo dev entries part := by
  have h128 : (UInt32.ofNat GPT_ENTRY_NUMBERS).toNat = GPT_ENTRY_NUMBERS := rfl
  simp only [partInfo, layoutInfo, hnum, h128]
  by_cases hout : part > GPT_ENTRY_NUMBERS
  · rw [if_pos (.inl hout), List.getElem?_eq_none (by omega)]
    rfl
  · rw [ofBytes_tableBytes behind hwf hlen rest (by omega), List.getD_eq_getElem?_getD]
    cases entries[part - 1]? with
    | none => simpa using fun _ => show isPteValid GptEntry.unused = false by decide
    | some e => cases hused : isPteValid e <;> simp [hout, hused]

/-- A valid table does not change with blocks that are not read. -/
theorem isGptValid_congr {dev : BlockDev} {disk d : Disk} {lba : UInt32} {h : GptHeader}
    {pte : List UInt8} {low : Nat} (hlba : low ≤ lba.toNat)
    (hentry : low ≤ h.partitionEntryLba.toUInt32.toNat)
    (hsame : ∀ start cnt, low ≤ start → blocks dev d start cnt = blocks dev disk start cnt)
    (hvalid : isGptValid crc32 behind dev disk lba = some (h, pte)) :
    isGptValid crc32 behind dev d lba = some (h, pte) := by
  have hread : ∀ (start : UInt32) (cnt : Nat), low ≤ start.toNat →
      blockRead dev d start cnt = blockRead dev disk start cnt := by
    intro start cnt hstart
    simp only [blockRead]
    split
    · exact congrArg some (hsame _ _ hstart)
    · rfl
  simp only [isGptValid, Option.bind_eq_bind, Option.bind_eq_some_iff,
    Option.ite_none_right_eq_some, Option.some.injEq, Prod.mk.injEq] at hvalid ⊢
  obtain ⟨block, hblock, hheader, pte', hpte, hentries, rfl, rfl⟩ := hvalid
  refine ⟨block, (hread _ _ hlba).trans hblock, hheader, pte', ?_, hentries, rfl, rfl⟩
  simp only [allocReadGptEntries] at hpte ⊢
  rw [hread _ _ hentry]
  exact hpte

/-! ### The old tables and the new one -/

/-- Both copies of a table are valid, at the standard positions on a disk with room
for both, and hold the same partitions. -/
structure Standing (dev : BlockDev) (disk : Disk) (h h' : GptHeader) (pte pte' : List UInt8) :
    Prop where
  room : 67 ≤ dev.lba.toNat
  primary : isGptValid crc32 behind dev disk 1 = some (h, pte)
  entryLba : h.partitionEntryLba.toNat = 2
  backup : isGptValid crc32 behind dev disk (dev.lba - 1) = some (h', pte')
  backupEntryLba : h'.partitionEntryLba.toNat = dev.lba.toNat - 33
  same : ∀ part, 1 ≤ part → partInfo behind dev h pte part = partInfo behind dev h' pte' part

/-- The table behind the first header. -/
def firstTable (dev : BlockDev) (disk : Disk) : List UInt8 :=
  (blocks dev disk 2 (tableBlocks dev)).take (entrySize * GPT_ENTRY_NUMBERS)

/-- Whatever a cut leaves as the first table, its check sum is that of the new table
only if it is the new table. -/
def NoCollision (dev : BlockDev) (disk : Disk) (h : GptHeader) (table : List UInt8) : Prop :=
  ∀ d, CutOff dev disk (tableWrites crc32 behind dev h table) d →
    crc32 (firstTable dev d) = crc32 table → firstTable dev d = table

/-- Every part is answered so. -/
def Answers (dev : BlockDev) (d : Disk) (info : Nat → Option PartInfo) : Prop :=
  ∀ part, 1 ≤ part → getPartitionInfoEfi crc32 behind dev d part = info part

variable {dev : BlockDev} {disk d : Disk} {h : GptHeader} {table : List UInt8}

/-- The places of the writes on a disk with room for both copies. -/
theorem tableWrites_eq (hlba : 67 ≤ dev.lba.toNat) (filled : Filled dev h) (table : List UInt8) :
    tableWrites crc32 behind dev h table =
      [⟨0, 1, buffer (protectiveMbr dev) behind⟩,
        ⟨1, 1, Ptr.ofList (sumHeader crc32 h table).toBytes⟩,
        ⟨2, tableBlocks dev, Ptr.ofList table⟩,
        ⟨dev.lba.toNat - 33, tableBlocks dev, Ptr.ofList table⟩,
        ⟨dev.lba.toNat - 1, 1,
          Ptr.ofList (prepareBackupGptHeader crc32 (sumHeader crc32 h table)).toBytes⟩] := by
  have hblk : blockCnt dev (h.numPartitionEntries.toNat * entrySize) = tableBlocks dev := by
    rw [filled.num]
    rfl
  have h34 : (dev.lba - 34).toNat = dev.lba.toNat - 34 := toNat_lba_sub hlba (by decide)
  have h1 : (dev.lba - 1).toNat = dev.lba.toNat - 1 := toNat_lba_sub hlba (by decide)
  have hlast : ((prepareBackupGptHeader crc32 (sumHeader crc32 h table)).lastUsableLba.toUInt32 +
      1).toNat = dev.lba.toNat - 33 := by
    have hlt := dev.lba.toNat_lt
    have hone : (1 : UInt32).toNat = 1 := rfl
    change (h.lastUsableLba.toUInt32 + 1).toNat = dev.lba.toNat - 33
    rw [filled.last, UInt32.toUInt32_toUInt64, UInt32.toNat_add, h34]
    omega
  have hmy : (prepareBackupGptHeader crc32 (sumHeader crc32 h table)).myLba.toUInt32.toNat =
      dev.lba.toNat - 1 := by
    change h.alternateLba.toUInt32.toNat = dev.lba.toNat - 1
    rw [filled.alternate, UInt32.toUInt32_toUInt64, h1]
  simp only [tableWrites, hblk, hlast, hmy]

theorem firstTable_of_blocks (hlen : table.length = entrySize * GPT_ENTRY_NUMBERS)
    (hblocks : blocks dev d 2 (tableBlocks dev) =
      (Ptr.ofList table).bytes (tableBlocks dev * dev.blksz)) : firstTable dev d = table := by
  obtain ⟨rest, hrest⟩ := exists_bytes_ofList (hlen.trans_le (le_tableBlocks_mul dev))
  rw [firstTable, hblocks, hrest, ← hlen, List.take_left]

theorem firstTable_of_written {lba : UInt32} (w : Written crc32 dev d lba h table)
    (hplace : h.partitionEntryLba.toUInt32.toNat = 2) : firstTable dev d = table := by
  obtain ⟨rest, hrest⟩ := w.entries
  rw [hplace] at hrest
  rw [firstTable, hrest, ← w.length, List.take_left]

theorem firstTable_write (hlen : table.length = entrySize * GPT_ENTRY_NUMBERS) (j : Nat) :
    firstTable dev (disk.write (2 * dev.blksz) (j * dev.blksz) (Ptr.ofList table)) =
      table.take (j * dev.blksz) ++ (firstTable dev disk).drop (j * dev.blksz) := by
  have hmul := le_tableBlocks_mul dev
  apply List.ext_getElem
  · simp only [firstTable, blocks, List.length_take, List.length_append, List.length_drop,
      Ptr.length_bytes, hlen]
    omega
  · intro i h1 h2
    have hi : i < entrySize * GPT_ENTRY_NUMBERS := by
      simp only [firstTable, List.length_take] at h1
      omega
    simp only [firstTable, blocks, Ptr.bytes, Ptr.add, Ptr.write, List.getElem_take,
      List.getElem_map, List.getElem_range]
    by_cases hj : i < j * dev.blksz
    · rw [if_pos (by omega), List.getElem_append_left (by rw [List.length_take]; omega),
        List.getElem_take, Nat.add_sub_cancel_left, Ptr.ofList, List.getD_eq_getElem?_getD,
        List.getElem?_eq_getElem (by omega), Option.getD_some]
    · have htake : (table.take (j * dev.blksz)).length = j * dev.blksz := by
        rw [List.length_take]
        omega
      rw [if_neg (by omega), List.getElem_append_right (by omega)]
      simp only [List.getElem_drop, List.getElem_take, List.getElem_map, List.getElem_range, htake]
      congr 2
      omega

/-- Before the first header is written, only the MBR has changed. Afterwards the
second copy is still the old one, or the first one is complete. -/
theorem cutOff_cases (hlba : 67 ≤ dev.lba.toNat) (filled : Filled dev h)
    (hlen : table.length = entrySize * GPT_ENTRY_NUMBERS)
    (hcut : CutOff dev disk (tableWrites crc32 behind dev h table) d) :
    (∀ start cnt, 1 ≤ start → blocks dev d start cnt = blocks dev disk start cnt) ∨
      (blocks dev d 1 1 = (Ptr.ofList (sumHeader crc32 h table).toBytes).bytes (1 * dev.blksz) ∧
        (((∀ start cnt, 34 ≤ start → blocks dev d start cnt = blocks dev disk start cnt) ∧
            ∃ j, firstTable dev d =
              table.take (j * dev.blksz) ++ (firstTable dev disk).drop (j * dev.blksz)) ∨
          firstTable dev d = table)) := by
  have hcnt := tableBlocks_le dev
  rw [tableWrites_eq crc32 behind hlba filled] at hcut
  obtain ⟨done, w, rest, j, hwrites, hj, rfl⟩ := hcut
  rcases done with _ | ⟨mbr, _ | ⟨header, _ | ⟨first, _ | ⟨second, _ | ⟨header', done⟩⟩⟩⟩⟩
  · -- the MBR
    obtain ⟨rfl, -⟩ := List.cons.inj hwrites
    simp only [List.foldl_nil, BlockWrite.performFirst] at hj ⊢
    refine .inl fun start cnt hstart => ?_
    rw [blocks_write_of_disjoint _ _ _ (.inr (by omega))]
  · -- the first header
    simp only [List.cons_append, List.nil_append, List.cons.injEq] at hwrites
    obtain ⟨rfl, rfl, -⟩ := hwrites
    simp only [List.foldl_cons, List.foldl_nil, BlockWrite.perform, BlockWrite.performFirst] at hj ⊢
    obtain rfl | rfl : j = 0 ∨ j = 1 := by omega
    · refine .inl fun start cnt hstart => ?_
      rw [blocks_write_of_disjoint _ _ _ (.inr (by omega)),
        blocks_write_of_disjoint _ _ _ (.inr (by omega))]
    · refine .inr ⟨blocks_write_self _ _ _ _ _, .inl ⟨fun start cnt hstart => ?_, 0, ?_⟩⟩
      · rw [blocks_write_of_disjoint _ _ _ (.inr (by omega)),
          blocks_write_of_disjoint _ _ _ (.inr (by omega))]
      · have hnone : firstTable dev disk =
            table.take (0 * dev.blksz) ++ (firstTable dev disk).drop (0 * dev.blksz) := by simp
        rw [← hnone, firstTable, blocks_write_of_disjoint _ _ _ (.inr (by omega)),
          blocks_write_of_disjoint _ _ _ (.inr (by omega)), firstTable]
  · -- the first table
    simp only [List.cons_append, List.nil_append, List.cons.injEq] at hwrites
    obtain ⟨rfl, rfl, rfl, -⟩ := hwrites
    simp only [List.foldl_cons, List.foldl_nil, BlockWrite.perform, BlockWrite.performFirst] at hj ⊢
    refine .inr ⟨?_, .inl ⟨fun start cnt hstart => ?_, j, ?_⟩⟩
    · rw [blocks_write_of_disjoint _ _ _ (.inl (by omega)), blocks_write_self]
    · rw [blocks_write_of_disjoint _ _ _ (.inr (by omega)),
        blocks_write_of_disjoint _ _ _ (.inr (by omega)),
        blocks_write_of_disjoint _ _ _ (.inr (by omega))]
    · rw [firstTable_write hlen, firstTable, blocks_write_of_disjoint _ _ _ (.inr (by omega)),
        blocks_write_of_disjoint _ _ _ (.inr (by omega)), firstTable]
  · -- the second table
    simp only [List.cons_append, List.nil_append, List.cons.injEq] at hwrites
    obtain ⟨rfl, rfl, rfl, rfl, -⟩ := hwrites
    simp only [List.foldl_cons, List.foldl_nil, BlockWrite.perform, BlockWrite.performFirst] at hj ⊢
    refine .inr ⟨?_, .inr (firstTable_of_blocks hlen ?_)⟩
    · rw [blocks_write_of_disjoint _ _ _ (.inl (by omega)),
        blocks_write_of_disjoint _ _ _ (.inl (by omega)), blocks_write_self]
    · rw [blocks_write_of_disjoint _ _ _ (.inl (by omega)), blocks_write_self]
  · -- the second header
    simp only [List.cons_append, List.nil_append, List.cons.injEq] at hwrites
    obtain ⟨rfl, rfl, rfl, rfl, rfl, -⟩ := hwrites
    simp only [List.foldl_cons, List.foldl_nil, BlockWrite.perform, BlockWrite.performFirst] at hj ⊢
    refine .inr ⟨?_, .inr (firstTable_of_blocks hlen ?_)⟩
    · rw [blocks_write_of_disjoint _ _ _ (.inl (by omega)),
        blocks_write_of_disjoint _ _ _ (.inl (by omega)),
        blocks_write_of_disjoint _ _ _ (.inl (by omega)), blocks_write_self]
    · rw [blocks_write_of_disjoint _ _ _ (.inl (by omega)),
        blocks_write_of_disjoint _ _ _ (.inl (by omega)), blocks_write_self]
  · simp at hwrites

/-- A first header with another table behind it is refused. -/
theorem isGptValid_of_other (filled : Filled dev h)
    (hlba : 67 ≤ dev.lba.toNat) (hlen : table.length = entrySize * GPT_ENTRY_NUMBERS)
    (hheader : blocks dev d 1 1 =
      (Ptr.ofList (sumHeader crc32 h table).toBytes).bytes (1 * dev.blksz))
    (hother : crc32 (firstTable dev d) ≠ crc32 table) :
    isGptValid crc32 behind dev d 1 = none := by
  have hcnt := tableBlocks_le dev
  have hmul := le_tableBlocks_mul dev
  have hblksz : (sumHeader crc32 h table).toBytes.length ≤ 1 * dev.blksz := by
    have := dev.blksz_le
    rw [@GptHeader.length_toBytes (sumHeader crc32 h table) filled.guid, Gpt.headerSize]
    omega
  obtain ⟨rest, hrest⟩ := exists_bytes_ofList hblksz
  have hparse := @GptHeader.ofBytes_toBytes (sumHeader crc32 h table) filled.guid rest
  have hcount : ((sumHeader crc32 h table).numPartitionEntries *
      (sumHeader crc32 h table).sizeofPartitionEntry).toNat = entrySize * GPT_ENTRY_NUMBERS := by
    change (h.numPartitionEntries * h.sizeofPartitionEntry).toNat = _
    rw [filled.num, filled.entry]
    rfl
  have hsum : (sumHeader crc32 h table).partitionEntryArrayCrc32 = crc32 table := by
    change crc32 ((Ptr.ofList table).bytes (h.numPartitionEntries * h.sizeofPartitionEntry).toNat) =
      crc32 table
    have hcount' : (h.numPartitionEntries * h.sizeofPartitionEntry).toNat = table.length :=
      hcount.trans hlen.symm
    rw [hcount', Ptr.bytes_ofList]
  have hplace : (sumHeader crc32 h table).partitionEntryLba.toUInt32.toNat = 2 :=
    congrArg (fun lba => lba.toUInt32.toNat) filled.entryLba
  have hread : allocReadGptEntries dev d (sumHeader crc32 h table) =
      some (blocks dev d 2 (tableBlocks dev)) := by
    have hne : ¬entrySize * GPT_ENTRY_NUMBERS = 0 := by decide
    rw [allocReadGptEntries, hcount, if_neg hne, ← hplace]
    exact blockRead_eq (by rw [hplace]; change 2 + tableBlocks dev ≤ _; omega)
  have hbuffer : (buffer (blocks dev d 2 (tableBlocks dev)) behind).bytes
      (entrySize * GPT_ENTRY_NUMBERS) = firstTable dev d := by
    have hbytes := buffer_bytes (blocks dev d 2 (tableBlocks dev)) behind (k := 0)
      (n := entrySize * GPT_ENTRY_NUMBERS) (by rw [blocks, Ptr.length_bytes]; omega)
    rw [List.drop_zero] at hbytes
    refine Eq.trans (Ptr.bytes_congr fun i _ => ?_) hbytes
    rw [Ptr.add, Nat.zero_add]
  have hentries : validateGptEntries crc32 behind (sumHeader crc32 h table)
      (blocks dev d 2 (tableBlocks dev)) = false := by
    rw [validateGptEntries, hcount, hbuffer, hsum]
    exact decide_eq_false hother
  have hblock : blockRead dev d 1 1 = some ((sumHeader crc32 h table).toBytes ++ rest) := by
    rw [← hrest, ← hheader]
    exact blockRead_eq (Nat.le_trans (by decide) hlba)
  simp [isGptValid, hblock, hparse, hread, hentries]

theorem answers_of_isGptValid {pte : List UInt8}
    (hvalid : isGptValid crc32 behind dev d 1 = some (h, pte)) :
    Answers crc32 behind dev d (partInfo behind dev h pte) := by
  intro part _
  rw [getPartitionInfoEfi_eq, hvalid]
  rfl

/-- The first copy is written when its header and its table are there. -/
theorem Written.of_firstTable {disk' : Disk} (filled : Filled dev h)
    (w : Written crc32 dev disk' 1 (sumHeader crc32 h table) table)
    (hfirst : blocks dev d 1 1 =
      (Ptr.ofList (sumHeader crc32 h table).toBytes).bytes (1 * dev.blksz))
    (htable : firstTable dev d = table) :
    Written crc32 dev d 1 (sumHeader crc32 h table) table := by
  have hblksz : (sumHeader crc32 h table).toBytes.length ≤ 1 * dev.blksz := by
    have := dev.blksz_le
    rw [GptHeader.length_toBytes w.guid, Gpt.headerSize]
    omega
  have hplace : (sumHeader crc32 h table).partitionEntryLba.toUInt32.toNat = 2 :=
    congrArg (fun lba => lba.toUInt32.toNat) filled.entryLba
  refine { w with header := ?_, entries := ?_ }
  · rw [show (1 : UInt32).toNat = 1 from rfl, hfirst]
    exact exists_bytes_ofList hblksz
  · refine ⟨(blocks dev d 2 (tableBlocks dev)).drop (entrySize * GPT_ENTRY_NUMBERS), ?_⟩
    nth_rewrite 2 [← htable]
    rw [hplace, firstTable, List.take_append_drop]

/-- Unless the first copy is the new one already, the old table is found. -/
theorem old_or_new_of_cutOff {h₁ h₂ : GptHeader} {pte₁ pte₂ : List UInt8}
    (old : Standing crc32 behind dev disk h₁ h₂ pte₁ pte₂) (filled : Filled dev h)
    (hlen : table.length = entrySize * GPT_ENTRY_NUMBERS)
    (hcrc : NoCollision crc32 behind dev disk h table)
    (hcut : CutOff dev disk (tableWrites crc32 behind dev h table) d) :
    Answers crc32 behind dev d (partInfo behind dev h₁ pte₁) ∨
      blocks dev d 1 1 = (Ptr.ofList (sumHeader crc32 h table).toBytes).bytes (1 * dev.blksz) ∧
        firstTable dev d = table := by
  have hprimary : h₁.partitionEntryLba.toUInt32.toNat = 2 := by
    rw [UInt64.toNat_toUInt32, old.entryLba]
  have hbackup : h₂.partitionEntryLba.toUInt32.toNat = dev.lba.toNat - 33 := by
    have := dev.lba.toNat_lt
    rw [UInt64.toNat_toUInt32, old.backupEntryLba]
    exact Nat.mod_eq_of_lt (by omega)
  have hend : (dev.lba - 1).toNat = dev.lba.toNat - 1 := toNat_lba_sub old.room (by decide)
  have hroom := old.room
  rcases cutOff_cases crc32 behind old.room filled hlen hcut with hmbr | ⟨hfirst, hrest⟩
  · -- the first copy is the old one
    exact .inl (answers_of_isGptValid crc32 behind
      (isGptValid_congr crc32 behind (Nat.le_refl 1) (by omega) hmbr old.primary))
  · by_cases htable : firstTable dev d = table
    · exact .inr ⟨hfirst, htable⟩
    · -- the first copy is refused, and the second one is the old one
      refine .inl fun part hpart => ?_
      have hnone := isGptValid_of_other crc32 behind filled old.room hlen hfirst
        fun heq => htable (hcrc d hcut heq)
      have hvalid := isGptValid_congr crc32 behind (show 34 ≤ (dev.lba - 1).toNat by omega)
        (by omega) (hrest.resolve_right htable).1 old.backup
      rw [getPartitionInfoEfi_eq, hnone, hvalid]
      exact (old.same part hpart).symm

/-- Wherever the update is cut off, the answers for all parts are those of the old table, or
all of them those of the new layout. A part that is in both is always found. -/
theorem interrupted_gpt_update {h₁ h₂ : GptHeader} {pte₁ pte₂ : List UInt8}
    (old : Standing crc32 behind dev disk h₁ h₂ pte₁ pte₂) {strDiskGuid : List UInt8}
    (hheader : gptFillHeader dev strDiskGuid = some h) {parts : List Partition}
    {entries : List GptEntry}
    (hentries : gptFillPte h h.firstUsableLba.toUInt32 parts = some entries)
    (hcount : parts.length ≤ GPT_ENTRY_NUMBERS)
    (hcrc : NoCollision crc32 behind dev disk h (tableBytes entries)) :
    ∃ disk', writeGptTable crc32 behind dev disk h (tableBytes entries) = some disk' ∧
      Answers crc32 behind dev disk (partInfo behind dev h₁ pte₁) ∧
      Answers crc32 behind dev disk' (layoutInfo dev entries) ∧
      ∀ d, CutOff dev disk (tableWrites crc32 behind dev h (tableBytes entries)) d →
        (Answers crc32 behind dev d (partInfo behind dev h₁ pte₁) ∨
          Answers crc32 behind dev d (layoutInfo dev entries)) ∧
        ∀ part, 1 ≤ part → (partInfo behind dev h₁ pte₁ part).isSome →
          (layoutInfo dev entries part).isSome →
            (getPartitionInfoEfi crc32 behind dev d part).isSome := by
  have filled := filled_gptFillHeader hheader
  obtain ⟨hsame, hwf, -⟩ := gptFillPte_spec dev hentries
  have hcount' : entries.length ≤ GPT_ENTRY_NUMBERS := hsame.trans_le hcount
  have hlen := length_tableBytes hwf hcount'
  have hwrite := @writeGptTable_eq crc32 behind dev disk h (tableBytes entries) old.room filled
  obtain ⟨primary, -⟩ := written_writeGptTable crc32 behind old.room filled hlen hwrite
  have hnew : ∀ d, Written crc32 dev d 1 (sumHeader crc32 h (tableBytes entries))
      (tableBytes entries) → Answers crc32 behind dev d (layoutInfo dev entries) := by
    intro d written part hpart
    obtain ⟨rest, hvalid⟩ := written.isGptValid crc32 behind
    rw [getPartitionInfoEfi_eq, hvalid]
    exact partInfo_tableBytes behind dev hwf hcount' written.num rest hpart
  refine ⟨_, hwrite, answers_of_isGptValid crc32 behind old.primary, hnew _ primary,
    fun d hcut => ?_⟩
  have hone := (old_or_new_of_cutOff crc32 behind old filled hlen hcrc hcut).imp id
    fun hboth => hnew d (primary.of_firstTable crc32 filled hboth.1 hboth.2)
  refine ⟨hone, fun part hpart hin₁ hin₂ => ?_⟩
  rcases hone with hfound | hfound
  · rwa [hfound part hpart]
  · rwa [hfound part hpart]

theorem standing_writeGptTable {disk' : Disk} (hlba : 67 ≤ dev.lba.toNat) (filled : Filled dev h)
    (hlen : table.length = entrySize * GPT_ENTRY_NUMBERS)
    (hwrite : writeGptTable crc32 behind dev disk h table = some disk') :
    ∃ rest rest', Standing crc32 behind dev disk' (sumHeader crc32 h table)
      (prepareBackupGptHeader crc32 (sumHeader crc32 h table)) (table ++ rest)
      (table ++ rest') := by
  obtain ⟨primary, backup⟩ := written_writeGptTable crc32 behind hlba filled hlen hwrite
  obtain ⟨rest, hvalid⟩ := primary.isGptValid crc32 behind
  obtain ⟨rest', hvalid'⟩ := backup.isGptValid crc32 behind
  have h34 : (dev.lba - 34).toNat = dev.lba.toNat - 34 := toNat_lba_sub hlba (by decide)
  refine ⟨rest, rest', hlba, hvalid, ?_, hvalid', ?_, fun part hpart => ?_⟩
  · exact congrArg UInt64.toNat filled.entryLba
  · have hlt := dev.lba.toNat_lt
    have hone : (1 : UInt64).toNat = 1 := rfl
    change (h.lastUsableLba + 1).toNat = dev.lba.toNat - 33
    rw [filled.last, UInt64.toNat_add, UInt32.toNat_toUInt64, h34, hone]
    omega
  · exact partInfo_append behind hlen primary.num backup.num rest rest' hpart

end

/-! ### A layout with one partition -/

/-- The table behind its first entry, when there is only one. -/
def unusedBytes : List UInt8 :=
  (List.replicate (GPT_ENTRY_NUMBERS - 1) GptEntry.unused).flatMap GptEntry.toBytes

theorem tableBytes_singleton (e : GptEntry) : tableBytes [e] = e.toBytes ++ unusedBytes := by
  rw [tableBytes, List.flatMap_append, List.flatMap_singleton, List.length_singleton, unusedBytes]

/-- A cut leaves one of two tables that differ in their first entry only. -/
theorem take_append_drop_tableBytes {e e' : GptEntry} (he : e.Wf) (he' : e'.Wf) {n : Nat}
    (hn : entrySize ≤ n) :
    (tableBytes [e']).take n ++ (tableBytes [e]).drop n = tableBytes [e'] := by
  have hnone : ∀ f : GptEntry, f.Wf → f.toBytes.drop n = [] :=
    fun f hf => List.drop_of_length_le (hf.length_toBytes.trans_le hn)
  have hsame : (tableBytes [e]).drop n = (tableBytes [e']).drop n := by
    rw [tableBytes_singleton, tableBytes_singleton, List.drop_append, List.drop_append,
      he.length_toBytes, he'.length_toBytes, hnone e he, hnone e' he']
  rw [hsame, List.take_append_drop]

theorem noCollision_of_first {dev : BlockDev} {disk : Disk} {h : GptHeader} {e e' : GptEntry}
    (hlba : 67 ≤ dev.lba.toNat) (filled : Filled dev h) (he : e.Wf) (he' : e'.Wf)
    (hold : firstTable dev disk = tableBytes [e])
    (hcrc : crcState 0xFFFFFFFF e.toBytes ≠ crcState 0xFFFFFFFF e'.toBytes) (behind : Ptr) :
    NoCollision crc32 behind dev disk h (tableBytes [e']) := by
  have hlen : (tableBytes [e']).length = entrySize * GPT_ENTRY_NUMBERS :=
    length_tableBytes (List.forall_mem_singleton.mpr he') (Nat.le_of_ble_eq_true rfl)
  have hblksz : ∀ j, entrySize ≤ (j + 1) * dev.blksz := fun j =>
    calc entrySize ≤ dev.blksz := Nat.le_trans (by decide) dev.blksz_le
      _ ≤ (j + 1) * dev.blksz := Nat.le_mul_of_pos_left _ (Nat.succ_pos j)
  intro d hcut heq
  rcases cutOff_cases crc32 behind hlba filled hlen hcut with hmbr | ⟨-, ⟨-, j, hj⟩ | hnew⟩
  · have hsame : firstTable dev d = tableBytes [e] := by
      rw [← hold, firstTable, hmbr 2 _ (by decide), firstTable]
    rw [hsame, tableBytes_singleton, tableBytes_singleton] at heq
    exact absurd heq (crc32_append_ne _ hcrc)
  · rw [hold] at hj
    cases j with
    | zero =>
      rw [Nat.zero_mul, List.take_zero, List.drop_zero, List.nil_append] at hj
      rw [hj, tableBytes_singleton, tableBytes_singleton] at heq
      exact absurd heq (crc32_append_ne _ hcrc)
    | succ j => exact hj.trans (take_append_drop_tableBytes he he' (hblksz j))
  · exact hnew

theorem toBytes_partEntry (endingLba : UInt64) :
    (partEntry endingLba).toBytes =
      (basicDataGuid ++ ([1, 1, 1, 1, 2, 2, 3, 3, 4, 5, 6, 7, 8, 9, 10, 11] ++ leBytes 8 34)) ++
        (leBytes 8 endingLba.toNat ++
          (leBytes 8 0 ++ (efiName nameA).flatMap fun c => leBytes 2 c.toNat)) := by
  simp only [GptEntry.toBytes, List.append_assoc]
  rfl

/-- The partition grows from ten to twenty blocks. -/
theorem interrupted_growth :
    ∃ disk rest disk',
      writeGptTable crc32 0 smallDisk 0 smallHeader (tableBytes [partEntry 43]) = some disk ∧
      writeGptTable crc32 0 smallDisk disk smallHeader (tableBytes [partEntry 53]) = some disk' ∧
      Answers crc32 0 smallDisk disk (partInfo 0 smallDisk
        (sumHeader crc32 smallHeader (tableBytes [partEntry 43]))
          (tableBytes [partEntry 43] ++ rest)) ∧
      Answers crc32 0 smallDisk disk' (layoutInfo smallDisk [partEntry 53]) ∧
      ∀ d, CutOff smallDisk disk
          (tableWrites crc32 0 smallDisk smallHeader (tableBytes [partEntry 53])) d →
        (Answers crc32 0 smallDisk d (partInfo 0 smallDisk
            (sumHeader crc32 smallHeader (tableBytes [partEntry 43]))
              (tableBytes [partEntry 43] ++ rest)) ∨
          Answers crc32 0 smallDisk d (layoutInfo smallDisk [partEntry 53])) ∧
        ∀ part, 1 ≤ part → (partInfo 0 smallDisk
            (sumHeader crc32 smallHeader (tableBytes [partEntry 43]))
              (tableBytes [partEntry 43] ++ rest) part).isSome →
          (layoutInfo smallDisk [partEntry 53] part).isSome →
            (getPartitionInfoEfi crc32 0 smallDisk d part).isSome := by
  obtain ⟨hheader, -, htwenty⟩ := filled_small
  have hroom : 67 ≤ smallDisk.lba.toNat := by decide
  have filled := filled_gptFillHeader hheader
  have hwf : ∀ ending, (partEntry ending).Wf := fun ending => ⟨rfl, rfl, rfl⟩
  have hlen : (tableBytes [partEntry 43]).length = entrySize * GPT_ENTRY_NUMBERS :=
    length_tableBytes (List.forall_mem_singleton.mpr (hwf 43)) (Nat.le_of_ble_eq_true rfl)
  have hwrite := @writeGptTable_eq crc32 0 smallDisk 0 smallHeader (tableBytes [partEntry 43])
    hroom filled
  obtain ⟨primary, -⟩ := written_writeGptTable crc32 0 hroom filled hlen hwrite
  obtain ⟨rest, rest', standing⟩ := standing_writeGptTable crc32 0 hroom filled hlen hwrite
  have hold := firstTable_of_written crc32 primary (congrArg (·.toUInt32.toNat) filled.entryLba)
  have hcrc : crcState 0xFFFFFFFF (partEntry 43).toBytes ≠
      crcState 0xFFFFFFFF (partEntry 53).toBytes := by
    have hlow : leBytes 8 43 = 43 :: List.replicate 7 0 ∧
        leBytes 8 53 = 53 :: List.replicate 7 0 := by decide
    rw [toBytes_partEntry, toBytes_partEntry, show (43 : UInt64).toNat = 43 from rfl,
      show (53 : UInt64).toNat = 53 from rfl, hlow.1, hlow.2]
    exact crcState_byte_ne _ _ (by decide) _
  obtain ⟨disk', hwrite', hanswers⟩ := interrupted_gpt_update crc32 0 standing hheader htwenty
    (Nat.le_of_ble_eq_true rfl)
    (noCollision_of_first hroom filled (hwf 43) (hwf 53) hold hcrc 0)
  exact ⟨_, rest, disk', hwrite, hwrite', hanswers⟩

end UBoot.Gpt
