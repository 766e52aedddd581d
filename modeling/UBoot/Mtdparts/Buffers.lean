import UBoot.Mtdparts.Text

/-!
# The buffers of `mtdparts`

How much `generate_mtdparts` writes into its buffer, and `part_parse` behind the
structure it allocates.
-/

namespace UBoot.Mtdparts

/-! ### The text of all devices -/

/-- What is written for the partitions of a device when there is room. -/
def partsWritten (numParts : UInt16) : Option PartInfo → Nat → List PartInfo → List Char
  | _, _, [] => []
  | prev, partCnt, part :: rest =>
    partText prev part ++ (if numParts.toNat > partCnt + 1 then [','] else []) ++
      partsWritten numParts (some part) (partCnt + 1) rest

/-- What is written for the devices when there is room. -/
def devicesWritten : List MtdDevice → List Char
  | [] => []
  | dev :: rest =>
    (dev.id.mtdId ++ [':']) ++ partsWritten dev.numParts none 0 dev.parts ++
      (if rest = [] then [] else [';']) ++ devicesWritten rest

theorem put_append (first second : List Char) (out : List Char × Nat) :
    (put first out).bind (put second) = put (first ++ second) out := by
  rw [put, put, List.length_append]
  by_cases hfirst : first.length > out.2
  · rw [if_pos hfirst, if_pos (by omega)]
    rfl
  · rw [if_neg hfirst, Option.bind_some, put]
    by_cases hsecond : second.length > out.2 - first.length
    · rw [if_pos hsecond, if_pos (by omega)]
    · rw [if_neg hsecond, if_neg (by omega), List.append_assoc, Nat.sub_sub]

theorem put_nil (out : List Char × Nat) : put [] out = some out := by
  simp [put]

theorem generateParts_eq_put (numParts : UInt16) (prev : Option PartInfo) (partCnt : Nat)
    (parts : List PartInfo) (out : List Char × Nat) :
    generateParts numParts prev partCnt parts out =
      put (partsWritten numParts prev partCnt parts) out := by
  induction parts generalizing prev partCnt out with
  | nil => exact (put_nil out).symm
  | cons part rest ih =>
    simp only [generateParts, partsWritten, partText, Option.bind_eq_bind, ih, ← put_append,
      Option.bind_assoc]

theorem generateDevices_eq_put (devices : List MtdDevice) (out : List Char × Nat) :
    generateDevices devices out = put (devicesWritten devices) out := by
  induction devices generalizing out with
  | nil => exact (put_nil out).symm
  | cons dev rest ih =>
    simp only [generateDevices, devicesWritten, generateParts_eq_put, Option.bind_eq_bind, ih,
      ← put_append, Option.bind_assoc]

/-- The buffer has room for the text of the devices, the nine characters in front and
the terminating zero, or not even for the text alone. -/
def RoomFor (devices : List MtdDevice) (buflen : UInt32) : Prop :=
  if devices = [] then 0 < buflen.toNat
  else (devicesWritten devices).length + 10 ≤ buflen.toNat ∨
    (buflen - 1).toNat < (devicesWritten devices).length

/-- `generate_mtdparts` stays in its buffer or reports an error. -/
def StaysInside (devices : List MtdDevice) (buflen : UInt32) : Prop :=
  ∀ text, generateMtdparts devices buflen.toNat = some text → text.length + 1 ≤ buflen.toNat

theorem staysInside_iff (devices : List MtdDevice) (buflen : UInt32) :
    StaysInside devices buflen ↔ RoomFor devices buflen := by
  by_cases hempty : devices = []
  · rw [StaysInside, RoomFor, if_pos hempty, generateMtdparts, if_pos hempty]
    simp only [Option.some.injEq, forall_eq', List.length_nil, Nat.zero_add]
    exact Iff.rfl
  · have hmax : (buflen.toNat + (2 ^ 32 - 1)) % 2 ^ 32 = (buflen - 1).toNat := by
      rw [UInt32.toNat_sub, Nat.add_comm]
      rfl
    have hgen : generateMtdparts devices buflen.toNat =
        (put (devicesWritten devices) ("mtdparts=".toList, (buflen - 1).toNat)).map Prod.fst := by
      rw [generateMtdparts, if_neg hempty, hmax]
      exact congrArg (Option.map Prod.fst) (generateDevices_eq_put devices _)
    rw [StaysInside, RoomFor, if_neg hempty, hgen, put]
    by_cases hroom : (devicesWritten devices).length > (buflen - 1).toNat
    · rw [if_pos hroom]
      exact iff_of_true (fun _ htext => by cases htext) (.inr hroom)
    · rw [if_neg hroom]
      simp only [Option.map_some, Option.some.injEq, forall_eq', List.length_append]
      rw [or_iff_left hroom, show "mtdparts=".toList.length = 9 from rfl]
      omega

/-- A device `f` with one partition of 1 MiB. -/
def oneMegabyte : MtdDevice where
  ptr := 1
  id := ⟨.nand, 0, 16777216, ['f']⟩
  numParts := 1
  parts := [⟨2, [], true, 1048576, 0, 0⟩]

/-- `mtdparts=f:1m` is written to a buffer of five bytes. -/
theorem not_staysInside_five : ¬StaysInside [oneMegabyte] 5 := by
  intro h
  exact absurd (h "mtdparts=f:1m".toList (by decide)) (by decide)

/-! ### A partition definition -/

/-- `name_len`, the bytes allocated for the name: `strlen("0x00000000@0x00000000") + 1`
where the definition has none. -/
def nameLen (part : PartInfo) : Nat := if part.autoName then 22 else part.name.length + 1

/-- The text `sprintf` makes of the size and the offset. -/
def autoText (size offset : UInt64) : List Char :=
  "0x".toList ++ hex8 size ++ "@0x".toList ++ hex8 offset

/-- The bytes written to the name: by `sprintf` with its NUL, or by `strncpy` and the
store of the NUL behind it. -/
def nameWritten (part : PartInfo) : Nat :=
  if part.autoName then (autoText part.size part.offset).length + 1 else part.name.length + 1

/-- The first address of a block of a region, without wrapping. -/
def EraseRegion.block (region : EraseRegion) (j : Nat) : Nat :=
  region.offset.toNat + j * region.erasesize.toNat

/-- A flash with several erase sizes is mapped into the address space, so that its
addresses are of type `ulong`. -/
def MtdInfo.Mapped (mtd : MtdInfo) : Prop :=
  ∀ region ∈ mtd.eraseregions, region.block region.numblocks < 2 ^ 32

/-- The partition consists of whole blocks: multiples of the erase size, or with
several erase sizes from the start of a block to the start or the end of one. -/
def WholeBlocks (mtd : MtdInfo) (offset size : Nat) : Prop :=
  if mtd.eraseregions = [] then mtd.erasesize.toNat ∣ offset ∧ mtd.erasesize.toNat ∣ size
  else (∃ region ∈ mtd.eraseregions, ∃ j < region.numblocks, offset = region.block j) ∧
    ∃ region ∈ mtd.eraseregions, ∃ j ≤ region.numblocks, offset + size = region.block j

/-- The start `device_parse` gives to a partition without an offset. -/
def placed (start : UInt64) (part : PartInfo) : PartInfo :=
  if part.offset = offsetNotSpecified then { part with offset := start } else part

section Definitions

variable {getMtdInfo : MtdType → UInt8 → Option MtdInfo} {id : MtdIds} {part part' : PartInfo}

theorem length_hex8_le_iff (n : UInt64) : (hex8 n).length ≤ 8 ↔ n.toNat < 2 ^ 32 := by
  have hdigits := @Nat.length_toDigits_le_iff 16 n.toNat 8 (by decide) (by decide)
  rw [hex8, List.length_append, List.length_replicate, ← show 16 ^ 8 = 2 ^ 32 by decide, ← hdigits]
  omega

theorem le_length_hex8 (n : UInt64) : 8 ≤ (hex8 n).length := by
  rw [hex8, List.length_append, List.length_replicate]
  omega

theorem nameWritten_le_iff (part : PartInfo) :
    nameWritten part ≤ nameLen part ↔
      part.autoName = false ∨ (part.size.toNat < 2 ^ 32 ∧ part.offset.toNat < 2 ^ 32) := by
  have hsize := le_length_hex8 part.size
  have hoffset := le_length_hex8 part.offset
  rw [nameWritten, nameLen]
  cases part.autoName with
  | false => simp
  | true =>
    rw [← length_hex8_le_iff, ← length_hex8_le_iff]
    simp only [if_true, autoText, List.length_append]
    rw [show "0x".toList.length = 2 from rfl, show "@0x".toList.length = 3 from rfl]
    simp only [Bool.true_eq_false, false_or]
    omega

/-- A block of a mapped flash has the address computed in 32 bits. -/
theorem EraseRegion.toNat_block {region : EraseRegion} (h : region.block region.numblocks < 2 ^ 32)
    {j : Nat} (hj : j ≤ region.numblocks) :
    (region.offset.toUInt32 + UInt32.ofNat j * region.erasesize).toUInt64.toNat =
      region.block j := by
  have hle : j * region.erasesize.toNat ≤ region.numblocks * region.erasesize.toNat :=
    Nat.mul_le_mul_right _ hj
  rw [EraseRegion.block] at h ⊢
  rw [UInt32.toNat_toUInt64, UInt32.toNat_add, UInt32.toNat_mul, UInt64.toNat_toUInt32,
    UInt32.toNat_ofNat']
  have hmul : j % 2 ^ 32 * region.erasesize.toNat % 2 ^ 32 =
      j * region.erasesize.toNat % 2 ^ 32 := Nat.mod_mul_mod ..
  rw [hmul, ← Nat.add_mod]
  exact Nat.mod_eq_of_lt (by omega)

theorem EraseRegion.mem_starts {region : EraseRegion} {start : UInt32}
    (h : start ∈ region.starts) : ∃ j ≤ region.numblocks,
      start = region.offset.toUInt32 + UInt32.ofNat j * region.erasesize := by
  obtain ⟨j, hj, rfl⟩ := List.mem_map.mp h
  exact ⟨j, Nat.le_of_lt_succ (List.mem_range.mp hj), rfl⟩

theorem EraseRegion.mem_starts_dropLast {region : EraseRegion} {start : UInt32}
    (h : start ∈ region.starts.dropLast) : ∃ j < region.numblocks,
      start = region.offset.toUInt32 + UInt32.ofNat j * region.erasesize := by
  rw [EraseRegion.starts, List.range_succ, List.map_append, List.map_singleton,
    List.dropLast_concat] at h
  obtain ⟨j, hj, rfl⟩ := List.mem_map.mp h
  exact ⟨j, List.mem_range.mp hj, rfl⟩

/-- Divisibility is tested on the exact values. -/
theorem dvd_of_mod_eq_zero {n : UInt64} {d : UInt32} (h : n % d.toUInt64 = 0) :
    d.toNat ∣ n.toNat := by
  have hmod := congrArg UInt64.toNat h
  rw [UInt64.toNat_mod, UInt32.toNat_toUInt64] at hmod
  exact Nat.dvd_of_mod_eq_zero hmod

/-- What is accepted begins and ends at blocks. -/
theorem wholeBlocks_of_validate {mtd : MtdInfo} (hmapped : mtd.Mapped)
    (hend : (part.offset + part.size).toNat = part.offset.toNat + part.size.toNat)
    (h : partValidateEraseblock mtd part) :
    WholeBlocks mtd part.offset.toNat part.size.toNat := by
  rw [WholeBlocks]
  rw [partValidateEraseblock] at h
  by_cases huniform : mtd.eraseregions = []
  · rw [if_pos huniform, decide_eq_true_iff] at h
    rw [if_pos huniform]
    exact ⟨dvd_of_mod_eq_zero h.1, dvd_of_mod_eq_zero h.2⟩
  · rw [if_neg huniform] at h
    rw [if_neg huniform]
    simp only [decide_eq_true_eq, List.any_eq_true] at h
    obtain ⟨⟨start, hstart, hoffset⟩, last, hlast, hsum⟩ := h
    constructor
    · obtain ⟨region, hregion, hmem⟩ := List.mem_flatMap.mp hstart
      obtain ⟨j, hj, rfl⟩ := EraseRegion.mem_starts_dropLast hmem
      refine ⟨region, hregion, j, hj, ?_⟩
      rw [hoffset, EraseRegion.toNat_block (hmapped region hregion) hj.le]
    · have hexact : ∃ region ∈ mtd.eraseregions, last ∈ region.starts := by
        rcases List.mem_append.mp hlast with hmem | hmem
        · obtain ⟨region, hregion, hmem⟩ := List.mem_flatMap.mp hmem
          exact ⟨region, hregion, List.dropLast_subset _ hmem⟩
        · obtain ⟨region, hregion, hmem⟩ := Option.bind_eq_some_iff.mp (Option.mem_toList.mp hmem)
          exact ⟨region, List.mem_of_getLast? hregion, List.mem_of_getLast? hmem⟩
      obtain ⟨region, hregion, hmem⟩ := hexact
      obtain ⟨j, hj, rfl⟩ := EraseRegion.mem_starts hmem
      refine ⟨region, hregion, j, hj, ?_⟩
      rw [← hend, hsum, EraseRegion.toNat_block (hmapped region hregion) hj]

/-- The end of what is accepted does not wrap, and lies in the flash. -/
theorem end_of_validate (hbig : ¬part.offset + part.size ≤ part.offset)
    (hsize : ¬part.offset + part.size > id.size) :
    (part.offset + part.size).toNat = part.offset.toNat + part.size.toNat ∧
      part.offset.toNat + part.size.toNat ≤ id.size.toNat := by
  rw [UInt64.le_iff_toNat_le, UInt64.toNat_add] at hbig
  rw [gt_iff_lt, UInt64.lt_iff_toNat_lt, UInt64.toNat_add] at hsize
  have hoffset := part.offset.toNat_lt
  have hlen := part.size.toNat_lt
  rw [UInt64.toNat_add]
  omega

end Definitions

/-- The name of an accepted definition fits its memory, and the partition that is
validated with any start lies inside the flash and consists of whole blocks. -/
def DefinitionSound (getMtdInfo : MtdType → UInt8 → Option MtdInfo) (id : MtdIds)
    (p : List Char) : Prop :=
  ∀ part rest, partParse p = some (part, rest) →
    nameWritten part ≤ nameLen part ∧
    ∀ start part' mtd, partValidate getMtdInfo id (placed start part) = some part' →
      getMtdInfo id.type id.num = some mtd →
      part'.offset.toNat + part'.size.toNat ≤ id.size.toNat ∧
        WholeBlocks mtd part'.offset.toNat part'.size.toNat

/-- A definition is sound exactly when it has a name, or a size and an offset below
4 GiB. -/
theorem definitionSound_iff (getMtdInfo : MtdType → UInt8 → Option MtdInfo) (id : MtdIds)
    (p : List Char) (hmapped : ∀ type num, ∀ mtd ∈ getMtdInfo type num, mtd.Mapped) :
    DefinitionSound getMtdInfo id p ↔ ∀ part rest, partParse p = some (part, rest) →
      part.autoName = false ∨ (part.size.toNat < 2 ^ 32 ∧ part.offset.toNat < 2 ^ 32) := by
  have hvalid : ∀ part part' mtd, partValidate getMtdInfo id part = some part' →
      getMtdInfo id.type id.num = some mtd →
      part'.offset.toNat + part'.size.toNat ≤ id.size.toNat ∧
        WholeBlocks mtd part'.offset.toNat part'.size.toNat := by
    intro part part' mtd h hmtd
    obtain ⟨rfl, -, hbig, hsize, mtd', hmtd', hblock⟩ := partValidate_eq_some_iff.mp h
    obtain rfl : mtd' = mtd := Option.some.inj (hmtd'.symm.trans hmtd)
    obtain ⟨hend, hinside⟩ := @end_of_validate id { part with size := filledSize id part } hbig hsize
    exact ⟨hinside, wholeBlocks_of_validate (hmapped _ _ _ hmtd) hend hblock⟩
  constructor
  · intro h part rest hparse
    exact (nameWritten_le_iff part).mp (h part rest hparse).1
  · intro h part rest hparse
    exact ⟨(nameWritten_le_iff part).mpr (h part rest hparse),
      fun start part' mtd => hvalid (placed start part) part' mtd⟩

/-- A flash of 16 GiB with blocks of 128 KiB. -/
def sixteenGigabytes : MtdIds := ⟨.nand, 0, 17179869184, ['f']⟩

def largeBlocks (_ : MtdType) (_ : UInt8) : Option MtdInfo := some ⟨131072, []⟩

/-- A named partition of 5 GiB. -/
theorem definitionSound_named :
    DefinitionSound largeBlocks sixteenGigabytes "5g(big)".toList ↔
      ∀ part rest, partParse "5g(big)".toList = some (part, rest) →
        part.autoName = false ∨ (part.size.toNat < 2 ^ 32 ∧ part.offset.toNat < 2 ^ 32) :=
  definitionSound_iff _ _ _ fun _ _ mtd hmtd => by
    obtain rfl := Option.mem_some_iff.mp hmtd
    exact fun region hregion => absurd hregion List.not_mem_nil

/-- The name `0x00100000@0xffffffffffffffff` of the definition `1m` and its NUL are 30
bytes, written to 22. -/
theorem not_definitionSound_unnamed :
    ¬DefinitionSound largeBlocks sixteenGigabytes "1m".toList := by
  intro h
  obtain ⟨⟨part, rest⟩, hparse⟩ : ∃ r, partParse "1m".toList = some r := ⟨_, rfl⟩
  have hfits := (h part rest hparse).1
  obtain ⟨rfl, -⟩ := Prod.mk.inj (Option.some.inj hparse)
  exact absurd hfits (by decide)

end UBoot.Mtdparts
