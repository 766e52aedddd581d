import UBoot.Gpt.RoundTrip

/-!
# What `get_partition_info_efi` reads

The accesses of a lookup whose lengths and places come from the disk: the check sums
of the header and of the entries, the entry itself, and the copy of its name. Three
fields of the header govern them. The entries are indexed as 128 bytes each, whatever
size the header gives.
-/

namespace UBoot.Gpt

open Verification

def ARCH_DMA_MINALIGN : Nat := 32

/-- `PAD_SIZE` -/
def padSize (s pad : Nat) : Nat := ((s - 1) / pad + 1) * pad

/-- `ROUND` to a power of two. -/
def roundTo (a b : Nat) : Nat := (a + b - 1) / b * b

/-- The size of the buffer of a header: `ALLOC_CACHE_ALIGN_BUFFER_PAD`. -/
def headerRoom (dev : BlockDev) : Nat :=
  roundTo (padSize headerSize dev.blksz) ARCH_DMA_MINALIGN

/-- `count` in `alloc_read_gpt_entries`: a product of 32 bits. -/
def entriesCount (h : GptHeader) : Nat := (h.numPartitionEntries * h.sizeofPartitionEntry).toNat

/-- `PAD_TO_BLOCKSIZE(count)`, the size of the buffer of the entries, a `size_t`. -/
def entriesRoom (dev : BlockDev) (h : GptHeader) : Nat :=
  padSize (entriesCount h) dev.blksz % 2 ^ 32

inductive Access where
  /-- A check sum of the first `len` bytes of a buffer of `room`. -/
  | sum (room len : Nat)
  /-- A read of an entry of the table that `h` describes. -/
  | entry (h : GptHeader) (room offset len : Nat)
  /-- A string and its end, written to `info->name`. -/
  | name (len : Nat)

/-- The access stays where it belongs. -/
def Access.Sound (part : Nat) : Access → Prop
  | .sum room len => len ≤ room
  | .entry h room offset len =>
    offset = (part - 1) * h.sizeofPartitionEntry.toNat ∧ offset + len ≤ room
  | .name len => len ≤ 32

instance (part : Nat) : DecidablePred (Access.Sound part)
  | .sum _ _ => inferInstanceAs (Decidable (_ ≤ _))
  | .entry _ _ _ _ => inferInstanceAs (Decidable (_ ∧ _))
  | .name _ => inferInstanceAs (Decidable (_ ≤ _))

@[simp] theorem Access.sound_sum {part room len : Nat} :
    (Access.sum room len).Sound part ↔ len ≤ room := Iff.rfl

@[simp] theorem Access.sound_entry {part room offset len : Nat} {h : GptHeader} :
    (Access.entry h room offset len).Sound part ↔
      offset = (part - 1) * h.sizeofPartitionEntry.toNat ∧ offset + len ≤ room := Iff.rfl

@[simp] theorem Access.sound_name {part len : Nat} :
    (Access.name len).Sound part ↔ len ≤ 32 := Iff.rfl

section

variable (crc32 : List UInt8 → UInt32) (behind : Ptr) (memalign : Nat → Bool)

/-- `alloc_read_gpt_entries`, when `memalign` has the sizes that it has. -/
def allocReadGptEntriesFrom (dev : BlockDev) (disk : Disk) (h : GptHeader) :
    Option (List UInt8) :=
  if memalign (entriesRoom dev h) then allocReadGptEntries dev disk h else none

/-- `is_gpt_valid`, with the check sums that it computes. -/
def isGptValidAccesses (dev : BlockDev) (disk : Disk) (lba : UInt32) :
    List Access × Option (GptHeader × List UInt8) :=
  match blockRead dev disk lba 1 with
  | none => ([], none)
  | some block =>
    let h := GptHeader.ofBytes block
    let header := if h.signature = GPT_HEADER_SIGNATURE then
      [Access.sum (headerRoom dev) h.headerSize.toNat] else []
    if validateGptHeader crc32 behind block lba dev.lba then
      match allocReadGptEntriesFrom memalign dev disk h with
      | none => (header, none)
      | some pte =>
        (header ++ [.sum (entriesRoom dev h) (entriesCount h)],
          if validateGptEntries crc32 behind h pte then some (h, pte) else none)
    else (header, none)

/-- The entry in memory that is taken for a part. -/
def entryAt (pte : List UInt8) (part : Nat) : GptEntry :=
  GptEntry.ofBytes (((buffer pte behind).add (entrySize * (part - 1))).bytes entrySize)

/-- The end of `get_partition_info_efi`, when a table was found. -/
def partInfoAccesses (dev : BlockDev) (h : GptHeader) (pte : List UInt8) (part : Nat) :
    List Access × Option PartInfo :=
  if part > h.numPartitionEntries.toNat then ([], none)
  else
    let e := entryAt behind pte part
    -- `is_pte_valid` compares the GUID of the type
    let guid := Access.entry h (entriesRoom dev h) (entrySize * (part - 1)) 16
    if isPteValid e then
      ([guid, .entry h (entriesRoom dev h) (entrySize * (part - 1)) entrySize,
        .name ((printEfiname e).length + 1)], some (infoOf dev e))
    else ([guid], none)

/-- `get_partition_info_efi`, with its accesses. -/
def getPartitionInfoEfiAccesses (dev : BlockDev) (disk : Disk) (part : Int) :
    List Access × Option PartInfo :=
  if part < 1 then ([], none)
  else
    let first := isGptValidAccesses crc32 behind memalign dev disk
      GPT_PRIMARY_PARTITION_TABLE_LBA.toUInt32
    match first.2 with
    | some (h, pte) =>
      let last := partInfoAccesses behind dev h pte part.toNat
      (first.1 ++ last.1, last.2)
    | none =>
      let second := isGptValidAccesses crc32 behind memalign dev disk (dev.lba - 1)
      match second.2 with
      | some (h, pte) =>
        let last := partInfoAccesses behind dev h pte part.toNat
        (first.1 ++ (second.1 ++ last.1), last.2)
      | none => (first.1 ++ second.1, none)

/-! ### The lookup without its accesses -/

theorem isGptValidAccesses_snd (dev : BlockDev) (disk : Disk) (lba : UInt32) :
    (isGptValidAccesses crc32 behind (fun _ => true) dev disk lba).2 =
      isGptValid crc32 behind dev disk lba := by
  rw [isGptValidAccesses, isGptValid]
  cases blockRead dev disk lba 1 with
  | none => rfl
  | some block =>
    dsimp only [Option.bind_eq_bind, Option.bind_some]
    split
    · simp only [allocReadGptEntriesFrom, if_true]
      cases allocReadGptEntries dev disk (GptHeader.ofBytes block) <;> rfl
    · rfl

theorem getPartitionInfoEfiAccesses_snd (dev : BlockDev) (disk : Disk) {part : Nat}
    (hpart : 1 ≤ part) :
    (getPartitionInfoEfiAccesses crc32 behind (fun _ => true) dev disk part).2 =
      getPartitionInfoEfi crc32 behind dev disk part := by
  have hlast : ∀ h pte, (partInfoAccesses behind dev h pte part).2 =
      if part > h.numPartitionEntries.toNat ∨ !isPteValid (entryAt behind pte part) then none
      else some (infoOf dev (entryAt behind pte part)) := by
    intro h pte
    rw [partInfoAccesses]
    by_cases hnum : part > h.numPartitionEntries.toNat
    · simp [hnum]
    · by_cases hvalid : isPteValid (entryAt behind pte part) <;> simp [hnum, hvalid]
  rw [getPartitionInfoEfiAccesses, if_neg (by omega), getPartitionInfoEfi]
  simp only [isGptValidAccesses_snd, Int.toNat_natCast]
  cases isGptValid crc32 behind dev disk GPT_PRIMARY_PARTITION_TABLE_LBA.toUInt32 with
  | some first => exact hlast _ _
  | none =>
    cases isGptValid crc32 behind dev disk (dev.lba - 1) with
    | some second => exact hlast _ _
    | none => rfl

/-! ### When the accesses are sound -/

/-- A header on the disk whose check sums stay in their buffers. -/
def HeaderFits (dev : BlockDev) (disk : Disk) (lba : UInt32) : Prop :=
  ∀ block, blockRead dev disk lba 1 = some block →
    let h := GptHeader.ofBytes block
    (h.signature = GPT_HEADER_SIGNATURE → h.headerSize.toNat ≤ headerRoom dev) ∧
      (validateGptHeader crc32 behind block lba dev.lba = true →
        (allocReadGptEntriesFrom memalign dev disk h).isSome →
          padSize (entriesCount h) dev.blksz < 2 ^ 32)

/-- A part whose entry lies in the table where the header says, with a name that ends. -/
def EntryFits (dev : BlockDev) (h : GptHeader) (pte : List UInt8) (part : Nat) : Prop :=
  part ≤ h.numPartitionEntries.toNat →
    (part = 1 ∨ h.sizeofPartitionEntry = 128) ∧
      entrySize * (part - 1) + 16 ≤ entriesRoom dev h ∧
        (isPteValid (entryAt behind pte part) = true →
          entrySize * (part - 1) + entrySize ≤ entriesRoom dev h ∧
            ∃ c ∈ (entryAt behind pte part).partitionName.take 32, c.toUInt8 = 0)

/-- The padded size does not wrap exactly when the table fits in it. -/
theorem entriesCount_le_room_iff {dev : BlockDev} (hblksz : dev.blksz < 2 ^ 32) (h : GptHeader) :
    entriesCount h ≤ entriesRoom dev h ↔ padSize (entriesCount h) dev.blksz < 2 ^ 32 := by
  have hcount : entriesCount h < 2 ^ 32 := UInt32.toNat_lt _
  have hpos : 0 < dev.blksz := Nat.lt_of_lt_of_le (by decide) dev.blksz_le
  have hdiv := Nat.div_add_mod (entriesCount h - 1) dev.blksz
  have hmod := Nat.mod_lt (entriesCount h - 1) hpos
  have hpad : padSize (entriesCount h) dev.blksz =
      dev.blksz * ((entriesCount h - 1) / dev.blksz) + dev.blksz := by
    rw [padSize, Nat.add_mul, Nat.one_mul, Nat.mul_comm]
  rw [entriesRoom]
  omega

theorem length_takeWhile_lt_iff {α : Type*} (p : α → Bool) {l : List α} {n : Nat}
    (hn : n ≤ l.length) : (l.takeWhile p).length < n ↔ ∃ c ∈ l.take n, p c = false := by
  induction l generalizing n with
  | nil =>
    obtain rfl := Nat.le_zero.mp hn
    simp
  | cons a l ih =>
    cases n with
    | zero => simp
    | succ n =>
      cases ha : p a with
      | false => simp [ha]
      | true => simpa [ha] using ih (Nat.le_of_succ_le_succ hn)

/-- A name that ends in its first 32 characters fits. -/
theorem length_printEfiname_lt_iff {e : GptEntry} (he : e.partitionName.length = PARTNAME_SZ) :
    (printEfiname e).length + 1 ≤ 32 ↔ ∃ c ∈ e.partitionName.take 32, c.toUInt8 = 0 := by
  have hchar : ∀ c : UInt8, printChar c = 0 ↔ c = 0 := by
    intro c
    rw [printChar]
    split
    · rename_i hc
      exact iff_of_false (by decide) hc.1
    · exact Iff.rfl
  have hlen : 32 ≤ (e.partitionName.map fun c => printChar c.toUInt8).length := by
    rw [List.length_map, he]
    decide
  rw [Nat.succ_le_iff, printEfiname, length_takeWhile_lt_iff _ hlen, ← List.map_take]
  simp only [List.mem_map, exists_exists_and_eq_and, decide_eq_false_iff_not, not_not, hchar]

theorem isGptValidAccesses_sound_iff {dev : BlockDev} (hblksz : dev.blksz < 2 ^ 32)
    (disk : Disk) (lba : UInt32) (part : Nat) :
    (∀ a ∈ (isGptValidAccesses crc32 behind memalign dev disk lba).1, a.Sound part) ↔
      HeaderFits crc32 behind memalign dev disk lba := by
  rw [isGptValidAccesses, HeaderFits]
  cases blockRead dev disk lba 1 with
  | none => simp
  | some block =>
    simp only [Option.some.injEq, forall_eq']
    have hsum : (∀ a ∈ (if (GptHeader.ofBytes block).signature = GPT_HEADER_SIGNATURE then
        [Access.sum (headerRoom dev) (GptHeader.ofBytes block).headerSize.toNat] else []),
          a.Sound part) ↔ ((GptHeader.ofBytes block).signature = GPT_HEADER_SIGNATURE →
            (GptHeader.ofBytes block).headerSize.toNat ≤ headerRoom dev) := by
      split <;> simp [*]
    by_cases hvalid : validateGptHeader crc32 behind block lba dev.lba = true
    · rw [if_pos hvalid]
      cases allocReadGptEntriesFrom memalign dev disk (GptHeader.ofBytes block) with
      | none => simp
      | some pte =>
        simp only [List.forall_mem_append, List.forall_mem_singleton, hsum,
          Access.sound_sum, entriesCount_le_room_iff hblksz, hvalid, Option.isSome_some, forall_true_left]
    · rw [if_neg hvalid]
      simp [hvalid]

theorem partInfoAccesses_sound_iff (dev : BlockDev) (h : GptHeader) (pte : List UInt8)
    {part : Nat} (hpart : 1 ≤ part) :
    (∀ a ∈ (partInfoAccesses behind dev h pte part).1, a.Sound part) ↔
      EntryFits behind dev h pte part := by
  have hoffset : entrySize * (part - 1) = (part - 1) * h.sizeofPartitionEntry.toNat ↔
      part = 1 ∨ h.sizeofPartitionEntry = 128 := by
    rcases Nat.eq_or_lt_of_le hpart with rfl | hlt
    · simp
    · rw [or_iff_right (by omega), ← UInt32.toNat_inj, Nat.mul_comm, Nat.mul_right_inj (by omega)]
      exact eq_comm
  have hname := @length_printEfiname_lt_iff (entryAt behind pte part) (by simp [entryAt,
    GptEntry.ofBytes])
  rw [partInfoAccesses, EntryFits]
  by_cases hnum : part > h.numPartitionEntries.toNat
  · simp [hnum, Nat.not_le.mpr hnum]
  rw [if_neg hnum, imp_iff_right (Nat.not_lt.mp hnum)]
  dsimp only
  by_cases hvalid : isPteValid (entryAt behind pte part) = true
  · rw [if_pos hvalid, imp_iff_right hvalid, List.forall_mem_cons, List.forall_mem_cons,
      List.forall_mem_singleton, Access.sound_entry, Access.sound_entry, Access.sound_name,
      hoffset, hname]
    constructor
    · rintro ⟨⟨ho, ha⟩, ⟨-, hb⟩, hc⟩
      exact ⟨ho, ha, hb, hc⟩
    · rintro ⟨ho, ha, hb, hc⟩
      exact ⟨⟨ho, ha⟩, ⟨ho, hb⟩, hc⟩
  · rw [if_neg hvalid, List.forall_mem_singleton, Access.sound_entry, hoffset]
    simp [hvalid]

/-- The table that `get_partition_info_efi` takes. -/
def foundTable (dev : BlockDev) (disk : Disk) : Option (GptHeader × List UInt8) :=
  (isGptValidAccesses crc32 behind memalign dev disk
    GPT_PRIMARY_PARTITION_TABLE_LBA.toUInt32).2.or
      (isGptValidAccesses crc32 behind memalign dev disk (dev.lba - 1)).2

/-- A lookup stays in its buffers, and takes the entry from its place, exactly when the
headers that it looks at fit and the entry does. -/
theorem accesses_sound_iff (dev : BlockDev) (hblksz : dev.blksz < 2 ^ 32) (disk : Disk)
    (part : Int) :
    (∀ a ∈ (getPartitionInfoEfiAccesses crc32 behind memalign dev disk part).1,
        a.Sound part.toNat) ↔
      (1 ≤ part →
        HeaderFits crc32 behind memalign dev disk GPT_PRIMARY_PARTITION_TABLE_LBA.toUInt32 ∧
          ((isGptValidAccesses crc32 behind memalign dev disk
              GPT_PRIMARY_PARTITION_TABLE_LBA.toUInt32).2 = none →
            HeaderFits crc32 behind memalign dev disk (dev.lba - 1)) ∧
          ∀ h pte, foundTable crc32 behind memalign dev disk = some (h, pte) →
            EntryFits behind dev h pte part.toNat) := by
  have hheader := isGptValidAccesses_sound_iff crc32 behind memalign hblksz disk
  rw [getPartitionInfoEfiAccesses, foundTable]
  by_cases hpart : part < 1
  · simp [hpart]
  have hentry := fun h pte => @partInfoAccesses_sound_iff behind dev h pte part.toNat (by omega)
  rw [if_neg hpart, ← hheader _ part.toNat, ← hheader _ part.toNat]
  simp only [Int.not_lt.mp hpart, forall_true_left]
  generalize isGptValidAccesses crc32 behind memalign dev disk
    GPT_PRIMARY_PARTITION_TABLE_LBA.toUInt32 = first
  generalize isGptValidAccesses crc32 behind memalign dev disk (dev.lba - 1) = second
  obtain ⟨firstAccesses, _ | ⟨h, pte⟩⟩ := first
  · obtain ⟨secondAccesses, _ | ⟨h, pte⟩⟩ := second
    · simp only [List.forall_mem_append]
      simp
    · simp only [List.forall_mem_append, hentry]
      simp
  · simp only [List.forall_mem_append, hentry]
    simp

end

/-- An entry between others. -/
theorem entryAt_of_eq (behind : Ptr) {e : GptEntry} (he : e.Wf) {pte pre post : List UInt8}
    {part : Nat} (hpte : pte = pre ++ (e.toBytes ++ post))
    (hpre : pre.length = entrySize * (part - 1)) : entryAt behind pte part = e := by
  have hlen := he.length_toBytes
  rw [entryAt, buffer_bytes, hpte, ← hpre, List.drop_left, List.take_left' hlen]
  · simpa using he.ofBytes_toBytes []
  · rw [hpte, List.length_append, List.length_append, hpre, hlen]
    omega

/-! ### A disk with a table of one block -/

/-- A header in block 1 of `smallDisk`, for a table in block 2. -/
def blockHeader (headerCrc32 num size tableCrc32 : UInt32) : GptHeader where
  signature := GPT_HEADER_SIGNATURE
  revision := GPT_HEADER_REVISION_V1
  headerSize := 92
  headerCrc32 := headerCrc32
  reserved1 := 0
  myLba := 1
  alternateLba := 99
  firstUsableLba := 34
  lastUsableLba := 66
  diskGuid := [1, 1, 1, 1, 2, 2, 3, 3, 4, 5, 6, 7, 8, 9, 10, 11]
  partitionEntryLba := 2
  numPartitionEntries := num
  sizeofPartitionEntry := size
  partitionEntryArrayCrc32 := tableCrc32

def blockOf (h : GptHeader) : List UInt8 := h.toBytes ++ List.replicate 420 0

/-- A header and its table on a disk. -/
def diskOf (h : GptHeader) (table : List UInt8) : Disk :=
  Ptr.ofList (List.replicate 512 0 ++ (blockOf h ++ table))

section

variable {headerCrc32 num size tableCrc32 : UInt32} {table : List UInt8}

theorem length_blockOf :
    (blockOf (blockHeader headerCrc32 num size tableCrc32)).length = 512 := by
  rw [blockOf, List.length_append, GptHeader.length_toBytes rfl, List.length_replicate]
  rfl

theorem blockRead_diskOf :
    blockRead smallDisk (diskOf (blockHeader headerCrc32 num size tableCrc32) table) 1 1 =
      some (blockOf (blockHeader headerCrc32 num size tableCrc32)) :=
  (blockRead_eq (by decide)).trans (congrArg some
    (Ptr.bytes_ofList_append _ _ _ List.length_replicate length_blockOf))

variable (hcount : (num * size).toNat = 512) (hlen : table.length = 512)
include hcount hlen

theorem allocReadGptEntries_diskOf :
    allocReadGptEntries smallDisk (diskOf (blockHeader headerCrc32 num size tableCrc32) table)
      (blockHeader headerCrc32 num size tableCrc32) = some table := by
  have hcount' : ((blockHeader headerCrc32 num size tableCrc32).numPartitionEntries *
      (blockHeader headerCrc32 num size tableCrc32).sizeofPartitionEntry).toNat = 512 := hcount
  rw [allocReadGptEntries, hcount', if_neg (by decide)]
  have hplace : blocks smallDisk (diskOf (blockHeader headerCrc32 num size tableCrc32) table) 2 1 =
      table := by
    have := Ptr.bytes_ofList_append (k := 2 * smallDisk.blksz) (n := 1 * smallDisk.blksz)
      (List.replicate 512 0 ++ blockOf (blockHeader headerCrc32 num size tableCrc32)) table []
      (by rw [List.length_append, length_blockOf, List.length_replicate]; rfl) hlen
    rw [List.append_nil, List.append_assoc] at this
    exact this
  exact (blockRead_eq (show 2 + 1 ≤ 100 by decide)).trans (congrArg some hplace)

/-- Both are valid when their sums are right. -/
theorem isGptValid_diskOf (hheader : crc32 (blockHeader 0 num size tableCrc32).toBytes = headerCrc32)
    (htable : crc32 table = tableCrc32) :
    isGptValid crc32 0 smallDisk (diskOf (blockHeader headerCrc32 num size tableCrc32) table) 1 =
      some (blockHeader headerCrc32 num size tableCrc32, table) := by
  have hvalid := (validateGptHeader_iff crc32 0
    (show (blockHeader headerCrc32 num size tableCrc32).diskGuid.length = 16 from rfl)
    rfl (List.replicate 420 0) 1 100).mpr ⟨rfl, hheader, rfl,
      show ¬(34 : UInt64) > 100 by decide, show ¬(66 : UInt64) > 100 by decide⟩
  have hsum : validateGptEntries crc32 0 (blockHeader headerCrc32 num size tableCrc32) table =
      true := by
    have hbytes := buffer_bytes_append table [] 0
    rw [List.append_nil] at hbytes
    have hcount' : ((blockHeader headerCrc32 num size tableCrc32).numPartitionEntries *
        (blockHeader headerCrc32 num size tableCrc32).sizeofPartitionEntry).toNat =
          table.length := hcount.trans hlen.symm
    rw [validateGptEntries, hcount', hbytes, htable]
    exact decide_eq_true rfl
  exact isGptValid_eq crc32 0 blockRead_diskOf (GptHeader.ofBytes_toBytes rfl _) hvalid
    (allocReadGptEntries_diskOf hcount hlen) hsum

end

/-! ### A table with a hole -/

/-- A header for four entries. -/
def holeHeader : GptHeader := blockHeader 0x957eadf4 4 128 0x57a4d540

/-- The partition `b`. -/
def entryB : GptEntry :=
  { partEntry 53 with startingLba := 44, partitionName := 98 :: List.replicate 35 0 }

/-- The table of `holeHeader`: the first entry is `a`, the third `b`. -/
def holeTable : List UInt8 :=
  (partEntry 43).toBytes ++ (List.replicate 128 0 ++ (entryB.toBytes ++ List.replicate 128 0))

theorem isGptValid_hole :
    isGptValid crc32 0 smallDisk (diskOf holeHeader holeTable) 1 =
      some (holeHeader, holeTable) := by
  have hheader : crc32 (blockHeader 0 4 128 0x57a4d540).toBytes = 0x957eadf4 :=
    @CrcRun.crc32_eq _ [0xf47fa643, 0x9411790e, 0x6a81520b] (by decide +kernel)
  have htable : crc32 holeTable = 0x57a4d540 :=
    @CrcRun.crc32_eq _ [0x083a4cf5, 0x6e01ffe2, 0x9907cc0c, 0xdc45c7e1, 0x5cd2378b, 0x2921b48d,
      0x835184ec, 0x0e0ad201, 0x82863bd3, 0x06dd0321, 0xe51a6662, 0x10d73df2, 0x4171ec4a,
      0x549384ba, 0x91870b79, 0xa85b2abf] (by decide +kernel)
  have hlen : holeTable.length = 512 := by
    have hentry : ∀ e : GptEntry, e.Wf → e.toBytes.length = 128 := fun _ he => he.length_toBytes
    simp only [holeTable, List.length_append, List.length_replicate,
      hentry (partEntry 43) ⟨rfl, rfl, rfl⟩, hentry entryB ⟨rfl, rfl, rfl⟩]
  exact isGptValid_diskOf rfl hlen hheader htable

theorem entryAt_holeTable :
    entryAt 0 holeTable 1 = partEntry 43 ∧ entryAt 0 holeTable 2 = GptEntry.unused ∧
      entryAt 0 holeTable 3 = entryB := by
  have hunused : List.replicate 128 0 = GptEntry.unused.toBytes := by decide
  refine ⟨@entryAt_of_eq 0 _ ⟨rfl, rfl, rfl⟩ _ [] _ _ rfl rfl, ?_, ?_⟩
  · rw [holeTable, hunused]
    exact entryAt_of_eq 0 GptEntry.unused_wf rfl (GptEntry.Wf.length_toBytes ⟨rfl, rfl, rfl⟩)
  · have hassoc : holeTable = ((partEntry 43).toBytes ++ List.replicate 128 0) ++
        (entryB.toBytes ++ List.replicate 128 0) := (List.append_assoc _ _ _).symm
    refine entryAt_of_eq 0 ⟨rfl, rfl, rfl⟩ hassoc ?_
    rw [List.length_append, GptEntry.Wf.length_toBytes ⟨rfl, rfl, rfl⟩, List.length_replicate]
    rfl

theorem isGptValidAccesses_hole :
    (isGptValidAccesses crc32 0 (fun _ => true) smallDisk (diskOf holeHeader holeTable)
      GPT_PRIMARY_PARTITION_TABLE_LBA.toUInt32).2 = some (holeHeader, holeTable) := by
  rw [isGptValidAccesses_snd]
  exact isGptValid_hole

/-- The lookup of part 3, which is in use, is sound. -/
theorem accesses_sound_iff_behind_hole :
    ¬∃ a ∈ (getPartitionInfoEfiAccesses crc32 0 (fun _ => true) smallDisk
      (diskOf holeHeader holeTable) 3).1, ¬a.Sound 3 := by
  rintro ⟨a, ha, hunsound⟩
  refine hunsound ((accesses_sound_iff crc32 0 (fun _ => true) smallDisk (by decide)
    (diskOf holeHeader holeTable) 3).mpr
    (fun _ => ⟨fun block hblock => ?_, fun hnone => ?_, fun h pte hfound => ?_⟩) a ha)
  · obtain rfl := Option.some.inj (blockRead_diskOf.symm.trans hblock)
    rw [blockOf, GptHeader.ofBytes_toBytes rfl]
    exact ⟨fun _ => by decide, fun _ _ => by decide⟩
  · rw [isGptValidAccesses_hole] at hnone
    cases hnone
  · rw [foundTable, isGptValidAccesses_hole, Option.some_or] at hfound
    obtain ⟨rfl, rfl⟩ := Prod.mk.inj (Option.some.inj hfound)
    rw [EntryFits, show (3 : Int).toNat = 3 from rfl, entryAt_holeTable.2.2]
    exact fun _ => ⟨.inr rfl, by decide, fun _ => ⟨by decide, by decide⟩⟩

/-! ### Entries of 256 bytes -/

/-- A header for two entries of 256 bytes. -/
def wideHeader : GptHeader := blockHeader 0x2d0b302d 2 256 0xb2aa7578

/-- A disk with two such entries, both unused. -/
def wideDisk : Disk := diskOf wideHeader (List.replicate 512 0)

theorem isGptValid_wideDisk :
    isGptValid crc32 0 smallDisk wideDisk 1 = some (wideHeader, List.replicate 512 0) := by
  have hheader : crc32 (blockHeader 0 2 256 0xb2aa7578).toBytes = 0x2d0b302d :=
    @CrcRun.crc32_eq _ [0xf47fa643, 0x9411790e, 0xd2f4cfd2] (by decide +kernel)
  have htable : crc32 (List.replicate 512 0) = 0xb2aa7578 :=
    @CrcRun.crc32_eq _ [0xe6f5aa52, 0x8a729cc9, 0x450b9a51, 0x3d570562, 0x55f8ac9c,
      0x7400f70d, 0xc2dea49c, 0xf2697aa7, 0x140d95ad, 0x5238a8b2, 0x0452b996, 0x77452eb8,
      0x790ae76d, 0xb975e9bc, 0x04453c72, 0x4d558a87] (by decide +kernel)
  exact isGptValid_diskOf rfl List.length_replicate hheader htable

theorem isGptValidAccesses_wideDisk :
    (isGptValidAccesses crc32 0 (fun _ => true) smallDisk wideDisk
      GPT_PRIMARY_PARTITION_TABLE_LBA.toUInt32).2 = some (wideHeader, List.replicate 512 0) := by
  rw [isGptValidAccesses_snd]
  exact isGptValid_wideDisk

/-- Part 2 is looked for in the middle of the first entry. -/
theorem misplaced_entry :
    (isGptValid crc32 0 smallDisk wideDisk 1).isSome ∧
      ¬∀ a ∈ (getPartitionInfoEfiAccesses crc32 0 (fun _ => true) smallDisk wideDisk 2).1,
        a.Sound 2 := by
  refine ⟨Option.isSome_of_mem isGptValid_wideDisk, fun sound => ?_⟩
  rw [getPartitionInfoEfiAccesses, if_neg (by decide)] at sound
  simp only [isGptValidAccesses_wideDisk, List.forall_mem_append] at sound
  have := (partInfoAccesses_sound_iff 0 smallDisk wideHeader (List.replicate 512 0) (by decide)).mp sound.2
  exact absurd (this (by decide)).1 (by decide)

end UBoot.Gpt
