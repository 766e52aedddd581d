import UBoot.Gpt.Reads

/-!
# Looking a partition up by its name

`get_partition_info_efi_by_name` asks for one part after the other and stops at the first
that is not in use, or before part 128. Each part is looked for in a slot of 128 bytes,
whatever size the header gives its entries. The name is compared as `info` holds it: what of
it is written behind the 32 bytes of `info->name` lies in `info->type`, which is written
afterwards.
-/

namespace UBoot.Gpt

open Verification

/-- `U-Boot`, the string in `info->type`. -/
def infoType : List UInt8 := [85, 45, 66, 111, 111, 116]

/-- The string that starts at `info->name`. -/
def infoName (e : GptEntry) : List UInt8 :=
  ((printEfiname e ++ [0]).take 32 ++ (infoType ++ [0])).takeWhile (· ≠ 0)

/-- The slot of 128 bytes that is taken for a part, when it is in use. -/
def usedSlot (behind : Ptr) (h : GptHeader) (pte : List UInt8) (part : Nat) : Option GptEntry :=
  if part > h.numPartitionEntries.toNat ∨ !isPteValid (entryAt behind pte part) then none
  else some (entryAt behind pte part)

/-- The parts from `part` on, as many as are left. -/
def searchFrom (dev : BlockDev) (lookup : Nat → Option GptEntry) (name : List UInt8) :
    Nat → Nat → Except Int PartInfo
  | 0, _ => .error (-2)
  | left + 1, part =>
    match lookup part with
    | none => .error (-1)
    | some e =>
      if infoName e = name then .ok { infoOf dev e with name := infoName e }
      else searchFrom dev lookup name left (part + 1)

section

variable (crc32 : List UInt8 → UInt32) (behind : Ptr)

/-- The entry that `get_partition_info_efi` takes its information from. -/
def partEntryEfi (dev : BlockDev) (disk : Disk) (part : Nat) : Option GptEntry := do
  let (h, pte) ← (isGptValid crc32 behind dev disk GPT_PRIMARY_PARTITION_TABLE_LBA.toUInt32).or
    (isGptValid crc32 behind dev disk (dev.lba - 1))
  usedSlot behind h pte part

/-- `get_partition_info_efi_by_name` -/
def getPartitionInfoEfiByName (dev : BlockDev) (disk : Disk) (name : List UInt8) :
    Except Int PartInfo :=
  searchFrom dev (partEntryEfi crc32 behind dev disk) name (GPT_ENTRY_NUMBERS - 1) 1

theorem getPartitionInfoEfi_eq_map (dev : BlockDev) (disk : Disk) (part : Nat) :
    getPartitionInfoEfi crc32 behind dev disk part =
      (partEntryEfi crc32 behind dev disk part).map (infoOf dev) := by
  rw [getPartitionInfoEfi, partEntryEfi]
  cases (isGptValid crc32 behind dev disk GPT_PRIMARY_PARTITION_TABLE_LBA.toUInt32).or
    (isGptValid crc32 behind dev disk (dev.lba - 1)) with
  | none => rfl
  | some found =>
    simp only [Option.bind_eq_bind, Option.bind_some]
    rw [usedSlot, apply_ite (Option.map (infoOf dev))]
    rfl

end

/-! ### The name that is compared -/

theorem ne_zero_of_mem_printEfiname {e : GptEntry} {c : UInt8} (hc : c ∈ printEfiname e) :
    decide (c ≠ 0) = true := by
  rw [printEfiname] at hc
  exact List.mem_takeWhile_imp (p := fun c => decide (c ≠ 0)) hc

theorem infoName_of_lt {e : GptEntry} (h : (printEfiname e).length < 32) :
    infoName e = printEfiname e := by
  have htake : (printEfiname e ++ [0]).take 32 = printEfiname e ++ [0] :=
    List.take_of_length_le (by simpa using Nat.succ_le_of_lt h)
  rw [infoName, htake, List.append_assoc,
    List.takeWhile_append_of_pos fun _ => ne_zero_of_mem_printEfiname]
  simp

theorem infoName_of_le {e : GptEntry} (h : 32 ≤ (printEfiname e).length) :
    infoName e = (printEfiname e).take 32 ++ infoType := by
  rw [infoName, List.take_append_of_le_length h,
    List.takeWhile_append_of_pos fun _ hc => ne_zero_of_mem_printEfiname (List.mem_of_mem_take hc)]
  rfl

theorem length_infoName_of_le {e : GptEntry} (h : 32 ≤ (printEfiname e).length) :
    (infoName e).length = 38 := by
  rw [infoName_of_le h, List.length_append, List.length_take_of_le h]
  rfl

theorem infoName_eq_iff_of_lt {e : GptEntry} {name : List UInt8} (hname : name.length < 32) :
    infoName e = name ↔ printEfiname e = name := by
  by_cases h : (printEfiname e).length < 32
  · rw [infoName_of_lt h]
  · have hlong := length_infoName_of_le (Nat.not_lt.mp h)
    constructor
    · rintro rfl
      omega
    · rintro rfl
      omega

/-! ### The search -/

section

variable {dev : BlockDev} {lookup : Nat → Option GptEntry} {name : List UInt8}

/-- What the search finds it reaches over parts in use, none of which has the name. -/
theorem exists_of_searchFrom {left part : Nat} {info : PartInfo}
    (hsearch : searchFrom dev lookup name left part = .ok info) :
    ∃ i e, part ≤ i ∧ i < part + left ∧ (∀ j, part ≤ j → j ≤ i → (lookup j).isSome) ∧
      (∀ j, part ≤ j → j < i → ∀ e', lookup j = some e' → infoName e' ≠ name) ∧
      lookup i = some e ∧ infoName e = name ∧ info = { infoOf dev e with name := infoName e } := by
  induction left generalizing part with
  | zero => cases hsearch
  | succ left ih =>
    rw [searchFrom] at hsearch
    cases hpart : lookup part with
    | none =>
      rw [hpart] at hsearch
      cases hsearch
    | some e =>
      simp only [hpart] at hsearch
      by_cases hname : infoName e = name
      · rw [if_pos hname] at hsearch
        refine ⟨part, e, Nat.le_refl _, by omega, fun j hlow hhigh => ?_,
          fun j hlow hhigh => by omega, hpart, hname, (Except.ok.inj hsearch).symm⟩
        rw [Nat.le_antisymm hhigh hlow, hpart]
        rfl
      · rw [if_neg hname] at hsearch
        obtain ⟨i, e', hlow, hhigh, hused, hfirst, hrest⟩ := ih hsearch
        refine ⟨i, e', by omega, by omega, fun j hj hji => ?_, fun j hj hji e₀ he₀ => ?_, hrest⟩
        · rcases Nat.eq_or_lt_of_le hj with rfl | hlt
          · rw [hpart]
            rfl
          · exact hused j hlt hji
        · rcases Nat.eq_or_lt_of_le hj with rfl | hlt
          · exact Option.some.inj (he₀.symm.trans hpart) ▸ hname
          · exact hfirst j hlt hji e₀ he₀

/-- A part that it reaches is found, or another one of the name. -/
theorem searchFrom_of_exists {left part i : Nat} {e : GptEntry} (hlow : part ≤ i)
    (hhigh : i < part + left) (hused : ∀ j, part ≤ j → j ≤ i → (lookup j).isSome)
    (hi : lookup i = some e) (hname : infoName e = name) :
    ∃ info, searchFrom dev lookup name left part = .ok info := by
  induction left generalizing part with
  | zero => omega
  | succ left ih =>
    obtain ⟨e', hpart⟩ := Option.isSome_iff_exists.mp (hused part (Nat.le_refl _) hlow)
    rw [searchFrom, hpart]
    by_cases hname' : infoName e' = name
    · exact ⟨_, if_pos hname'⟩
    · have hne : part ≠ i := by
        rintro rfl
        rw [hpart] at hi
        exact hname' (Option.some.inj hi ▸ hname)
      have hnext : ∀ j, part + 1 ≤ j → j ≤ i → (lookup j).isSome :=
        fun j hj => hused j (by omega)
      obtain ⟨info, hinfo⟩ := ih (by omega) (by omega) hnext
      exact ⟨info, (if_neg hname').trans hinfo⟩

end

/-! ### Which names are found -/

section

variable (behind : Ptr) (h : GptHeader) (pte : List UInt8) (name : List UInt8)

/-- The entry of a part, where the header says that it is. -/
def headerEntry (part : Nat) : GptEntry :=
  GptEntry.ofBytes (((buffer pte behind).add
    (h.sizeofPartitionEntry.toNat * (part - 1))).bytes entrySize)

/-- A part in use and its entry. -/
def Used (part : Nat) (e : GptEntry) : Prop :=
  1 ≤ part ∧ part ≤ h.numPartitionEntries.toNat ∧ headerEntry behind h pte part = e ∧
    isPteValid e = true

/-- An entry in use has the name. -/
def Named : Prop := ∃ part e, Used behind h pte part e ∧ printEfiname e = name

/-- The search is right: it gives the information of an entry of the name, if there is one. -/
structure SearchedRight (dev : BlockDev) (result : Except Int PartInfo) : Prop where
  sound : ∀ info, result = .ok info → ∃ part e, Used behind h pte part e ∧
    printEfiname e = name ∧ info = infoOf dev e
  complete : Named behind h pte name → ∃ info, result = .ok info

/-- A slot below 128 that no unused one comes before. -/
def Reached (part : Nat) (e : GptEntry) : Prop :=
  1 ≤ part ∧ part < GPT_ENTRY_NUMBERS ∧ usedSlot behind h pte part = some e ∧
    ∀ i, 1 ≤ i → i ≤ part → (usedSlot behind h pte i).isSome

/-- The first slot of the name, of those that are reached. -/
def FirstReached (part : Nat) (e : GptEntry) : Prop :=
  Reached behind h pte part e ∧ printEfiname e = name ∧
    ∀ i, 1 ≤ i → i < part → ∀ e', usedSlot behind h pte i = some e' → printEfiname e' ≠ name

/-- A short name is that of a slot that is reached, if it is one of an entry; and when the
entries do not have the size of the slots, the first such slot holds what an entry of the name
holds. No entry in use has a long one, and no slot one that looks like it with the type behind
its first 32 characters. -/
def Findable (dev : BlockDev) : Prop :=
  if name.length < 32 then
    (Named behind h pte name → ∃ part e, Reached behind h pte part e ∧ printEfiname e = name) ∧
      (h.sizeofPartitionEntry = 128 ∨ ∀ part e, FirstReached behind h pte name part e →
        ∃ part' e', Used behind h pte part' e' ∧ printEfiname e' = name ∧
          infoOf dev e = infoOf dev e')
  else
    ¬Named behind h pte name ∧ ∀ part e, Reached behind h pte part e →
      32 ≤ (printEfiname e).length → (printEfiname e).take 32 ++ infoType ≠ name

variable {behind h pte name}

theorem Used.length_printEfiname_le {part : Nat} {e : GptEntry} (used : Used behind h pte part e) :
    (printEfiname e).length ≤ PARTNAME_SZ := by
  obtain ⟨-, -, rfl, -⟩ := used
  refine (List.takeWhile_prefix _).length_le.trans ?_
  simp [headerEntry, GptEntry.ofBytes]

/-- Entries of 128 bytes are the slots. -/
theorem Reached.used {part : Nat} {e : GptEntry} (hsize : h.sizeofPartitionEntry = 128)
    (reached : Reached behind h pte part e) : Used behind h pte part e := by
  obtain ⟨hlow, -, hslot, -⟩ := reached
  rw [usedSlot] at hslot
  split at hslot
  · cases hslot
  · rename_i hin
    obtain ⟨hnum, hvalid⟩ := not_or.mp hin
    have hentry : headerEntry behind h pte part = entryAt behind pte part := by
      rw [headerEntry, entryAt, hsize]
      rfl
    obtain rfl := Option.some.inj hslot
    exact ⟨hlow, Nat.not_lt.mp hnum, hentry, by simpa using hvalid⟩

/-- There is one first slot of the name. -/
theorem FirstReached.unique {part part' : Nat} {e e' : GptEntry}
    (first : FirstReached behind h pte name part e)
    (first' : FirstReached behind h pte name part' e') : e = e' := by
  obtain ⟨⟨hlow, -, hslot, -⟩, hname, hbefore⟩ := first
  obtain ⟨⟨hlow', -, hslot', -⟩, hname', hbefore'⟩ := first'
  rcases Nat.lt_trichotomy part part' with hlt | rfl | hlt
  · exact absurd hname (hbefore' part hlow hlt e hslot)
  · exact Option.some.inj (hslot.symm.trans hslot')
  · exact absurd hname' (hbefore part' hlow' hlt e' hslot')

theorem Reached.searchFrom (dev : BlockDev) {part : Nat} {e : GptEntry}
    (reached : Reached behind h pte part e) (hname : infoName e = name) :
    ∃ info, searchFrom dev (usedSlot behind h pte) name (GPT_ENTRY_NUMBERS - 1) 1 = .ok info := by
  obtain ⟨hlow, hhigh, hslot, hused⟩ := reached
  exact searchFrom_of_exists hlow (by omega) hused hslot hname

theorem reached_of_searchFrom {dev : BlockDev} {info : PartInfo}
    (hinfo : searchFrom dev (usedSlot behind h pte) name (GPT_ENTRY_NUMBERS - 1) 1 = .ok info) :
    ∃ part e, Reached behind h pte part e ∧ infoName e = name ∧
      (∀ i, 1 ≤ i → i < part → ∀ e', usedSlot behind h pte i = some e' → infoName e' ≠ name) ∧
      info = { infoOf dev e with name := infoName e } := by
  obtain ⟨part, e, hlow, hhigh, hused, hfirst, hslot, hname, hrest⟩ := exists_of_searchFrom hinfo
  exact ⟨part, e, ⟨hlow, by omega, hslot, hused⟩, hname, hfirst, hrest⟩

theorem firstReached_of_searchFrom {dev : BlockDev} {info : PartInfo} (hshort : name.length < 32)
    (hinfo : searchFrom dev (usedSlot behind h pte) name (GPT_ENTRY_NUMBERS - 1) 1 = .ok info) :
    ∃ part e, FirstReached behind h pte name part e ∧ info = infoOf dev e := by
  obtain ⟨part, e, reached, hname, hfirst, rfl⟩ := reached_of_searchFrom hinfo
  have hprint := (infoName_eq_iff_of_lt hshort).mp hname
  refine ⟨part, e, ⟨reached, hprint, fun i hlow hlt e' he' => ?_⟩, ?_⟩
  · exact mt (infoName_eq_iff_of_lt hshort).mpr (hfirst i hlow hlt e' he')
  · rw [hname, ← hprint]
    rfl

/-- A long name that is found has 38 characters, more than the name of an entry. -/
theorem SearchedRight.ne_ok {dev : BlockDev} {info : PartInfo} (hlong : ¬name.length < 32)
    (right : SearchedRight behind h pte name dev
      (searchFrom dev (usedSlot behind h pte) name (GPT_ENTRY_NUMBERS - 1) 1)) :
    searchFrom dev (usedSlot behind h pte) name (GPT_ENTRY_NUMBERS - 1) 1 ≠ .ok info := by
  intro hinfo
  obtain ⟨part, e, -, hname, -, -⟩ := reached_of_searchFrom hinfo
  obtain ⟨part', e', used, hprint, -⟩ := right.sound info hinfo
  have hlen := used.length_printEfiname_le
  have hle : 32 ≤ (printEfiname e).length := by
    by_contra hlt
    rw [← hname, infoName_of_lt (Nat.not_le.mp hlt)] at hlong
    omega
  have := length_infoName_of_le hle
  rw [hname, ← hprint] at this
  simp only [PARTNAME_SZ] at hlen
  omega

/-- A search over the slots of a table is right for the names that it can find. -/
theorem searchedRight_searchFrom_iff (dev : BlockDev) :
    SearchedRight behind h pte name dev
        (searchFrom dev (usedSlot behind h pte) name (GPT_ENTRY_NUMBERS - 1) 1) ↔
      Findable behind h pte name dev := by
  rw [Findable]
  split
  · rename_i hshort
    constructor
    · intro right
      refine ⟨fun hnamed => ?_, .inr fun part e first => ?_⟩
      · obtain ⟨info, hinfo⟩ := right.complete hnamed
        obtain ⟨part, e, first, -⟩ := firstReached_of_searchFrom hshort hinfo
        exact ⟨part, e, first.1, first.2.1⟩
      · obtain ⟨info, hinfo⟩ := first.1.searchFrom dev
          ((infoName_eq_iff_of_lt hshort).mpr first.2.1)
        obtain ⟨part', e', first', rfl⟩ := firstReached_of_searchFrom hshort hinfo
        rw [first.unique first']
        exact right.sound _ hinfo
    · rintro ⟨hreach, hslots⟩
      refine ⟨fun info hinfo => ?_, fun hnamed => ?_⟩
      · obtain ⟨part, e, first, rfl⟩ := firstReached_of_searchFrom hshort hinfo
        rcases hslots with hsize | hslots
        · exact ⟨part, e, first.1.used hsize, first.2.1, rfl⟩
        · exact hslots part e first
      · obtain ⟨part, e, reached, hprint⟩ := hreach hnamed
        exact reached.searchFrom dev ((infoName_eq_iff_of_lt hshort).mpr hprint)
  · rename_i hlong
    constructor
    · intro right
      refine ⟨fun hnamed => ?_, fun part e reached hle hname => ?_⟩
      · obtain ⟨info, hinfo⟩ := right.complete hnamed
        exact right.ne_ok hlong hinfo
      · obtain ⟨info, hinfo⟩ := reached.searchFrom dev ((infoName_of_le hle).trans hname)
        exact right.ne_ok hlong hinfo
    · rintro ⟨hnone, hreach⟩
      refine ⟨fun info hinfo => ?_, fun hnamed => absurd hnamed hnone⟩
      obtain ⟨part, e, reached, hname, -⟩ := reached_of_searchFrom hinfo
      by_cases hle : 32 ≤ (printEfiname e).length
      · exact absurd ((infoName_of_le hle).symm.trans hname) (hreach part e reached hle)
      · rw [← hname, infoName_of_lt (Nat.not_le.mp hle)] at hlong
        omega

end

/-- In a valid table `get_partition_info_efi_by_name` is right for a name exactly when the
name can be found. -/
theorem searchedRight_iff (crc32 : List UInt8 → UInt32) (behind : Ptr) (dev : BlockDev)
    (disk : Disk) {h : GptHeader} {pte : List UInt8}
    (hvalid : (isGptValid crc32 behind dev disk GPT_PRIMARY_PARTITION_TABLE_LBA.toUInt32).or
      (isGptValid crc32 behind dev disk (dev.lba - 1)) = some (h, pte)) (name : List UInt8) :
    SearchedRight behind h pte name dev
        (getPartitionInfoEfiByName crc32 behind dev disk name) ↔
      Findable behind h pte name dev := by
  have hlookup : partEntryEfi crc32 behind dev disk = usedSlot behind h pte := by
    funext part
    rw [partEntryEfi, hvalid]
    rfl
  rw [getPartitionInfoEfiByName, hlookup]
  exact searchedRight_searchFrom_iff dev

/-! ### The table with a hole -/

theorem validTable_hole :
    (isGptValid crc32 0 smallDisk (diskOf holeHeader holeTable)
      GPT_PRIMARY_PARTITION_TABLE_LBA.toUInt32).or (isGptValid crc32 0 smallDisk
        (diskOf holeHeader holeTable) (smallDisk.lba - 1)) = some (holeHeader, holeTable) := by
  rw [show GPT_PRIMARY_PARTITION_TABLE_LBA.toUInt32 = 1 from rfl, isGptValid_hole]
  rfl

theorem usedSlot_hole :
    usedSlot 0 holeHeader holeTable 1 = some (partEntry 43) ∧
      usedSlot 0 holeHeader holeTable 2 = none := by
  simp only [usedSlot, entryAt_holeTable]
  decide

/-- The partition before the hole is found. -/
theorem searchedRight_iff_before_hole :
    SearchedRight 0 holeHeader holeTable [97] smallDisk
      (getPartitionInfoEfiByName crc32 0 smallDisk (diskOf holeHeader holeTable) [97]) := by
  refine (searchedRight_iff crc32 0 smallDisk _ validTable_hole [97]).mpr ?_
  rw [Findable, if_pos (by decide)]
  refine ⟨fun _ => ⟨1, partEntry 43, ⟨by decide, by decide, usedSlot_hole.1,
    fun i hlow hhigh => ?_⟩, rfl⟩, .inl rfl⟩
  rw [Nat.le_antisymm hhigh hlow, usedSlot_hole.1]
  rfl

/-- The partition behind it is not. -/
theorem behind_hole :
    (isGptValid crc32 0 smallDisk (diskOf holeHeader holeTable) 1).isSome ∧
      Named 0 holeHeader holeTable [98] ∧
      getPartitionInfoEfiByName crc32 0 smallDisk (diskOf holeHeader holeTable) [98] =
        .error (-1) := by
  refine ⟨Option.isSome_of_mem isGptValid_hole,
    ⟨3, entryB, ⟨by decide, by decide, entryAt_holeTable.2.2, rfl⟩, rfl⟩, ?_⟩
  have hlookup : ∀ part, partEntryEfi crc32 0 smallDisk (diskOf holeHeader holeTable) part =
      usedSlot 0 holeHeader holeTable part := by
    intro part
    rw [partEntryEfi, validTable_hole]
    rfl
  have hname : infoName (partEntry 43) ≠ [98] := by decide
  obtain ⟨hfirst, hsecond⟩ := usedSlot_hole
  have htwo : ∀ left, searchFrom smallDisk (partEntryEfi crc32 0 smallDisk
      (diskOf holeHeader holeTable)) [98] (left + 2) 1 = .error (-1) := by
    intro left
    rw [searchFrom, hlookup, hfirst]
    refine (if_neg hname).trans ?_
    rw [searchFrom, hlookup, hsecond]
  exact htwo 125

end UBoot.Gpt
