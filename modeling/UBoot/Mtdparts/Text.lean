import Mathlib.Data.List.TakeDrop
import Mathlib.Tactic.IntervalCases
import UBoot.Mtdparts.Parse

/-!
# Reading back what `generate_mtdparts` writes

Sizes are written in decimal with a suffix and read back exactly; the text of
one partition is read back as the partition, provided its size passes the
check against `MIN_PART_SIZE`, and is not taken for the mark of a remaining
size in front of another partition.
-/

namespace UBoot.Mtdparts

/-! ### Numbers -/

theorem digitChar_digit {d : Nat} (hd : d < 10) :
    isXdigit d.digitChar ∧ digitValue d.digitChar = d := by
  interval_cases d <;> decide

/-- Reading the decimal digits of a number puts it in the accumulator. -/
theorem digitLoop_toDigits {n : Nat} (hn : n < 2 ^ 64) (rest : List Char) :
    digitLoop 64 10 (Nat.toDigits 10 n ++ rest) 0 = digitLoop 64 10 rest n := by
  induction n using Nat.strongRecOn generalizing rest with
  | ind n ih =>
    by_cases hlt : n < 10
    · obtain ⟨hdigit, hvalue⟩ := digitChar_digit hlt
      rw [Nat.toDigits_of_lt_base hlt, List.singleton_append, digitLoop]
      rw [if_pos ⟨hdigit, by omega⟩, hvalue, Nat.zero_mul, Nat.zero_add, Nat.mod_eq_of_lt hn]
    · obtain ⟨hdigit, hvalue⟩ := digitChar_digit (Nat.mod_lt n (show 0 < 10 by omega))
      rw [Nat.toDigits_of_base_le (by omega) (by omega), List.append_assoc,
        ih (n / 10) (by omega) (by omega), List.singleton_append, digitLoop]
      rw [if_pos ⟨hdigit, by omega⟩, hvalue,
        show n / 10 * 10 + n % 10 = n by omega, Nat.mod_eq_of_lt hn]

/-- The first digit of a number is zero only for zero. -/
theorem toDigits_head {n : Nat} (hn : 0 < n) :
    ∃ d cs, Nat.toDigits 10 n = Nat.digitChar d :: cs ∧ 0 < d ∧ d < 10 := by
  induction n using Nat.strongRecOn with
  | ind n ih =>
    by_cases hlt : n < 10
    · exact ⟨n, [], Nat.toDigits_of_lt_base hlt, hn, hlt⟩
    · obtain ⟨d, cs, hcs, hd⟩ := ih (n / 10) (by omega) (by omega)
      refine ⟨d, cs ++ [Nat.digitChar (n % 10)], ?_, hd⟩
      rw [Nat.toDigits_of_base_le (by omega) (by omega), hcs, List.cons_append]

/-- What may follow a number in a partition definition. -/
def Stops (rest : List Char) : Prop :=
  ∀ c ∈ rest.head?, c = '@' ∨ c = '(' ∨ c = 'r' ∨ c = ',' ∨ c = ';'

theorem digitLoop_stop {base n : Nat} {rest : List Char} (hbase : base ≤ 10)
    (h : ∀ c ∈ rest.head?, ¬(isXdigit c ∧ digitValue c < 10)) :
    digitLoop 64 base rest n = (n, rest) := by
  cases rest with
  | nil => rfl
  | cons c rest =>
    rw [digitLoop, if_neg]
    rintro ⟨hdigit, hvalue⟩
    exact h c rfl ⟨hdigit, by omega⟩

/-- `simple_strtoull` reads a decimal number back. Only zero starts with the
digit that announces another base. -/
theorem simpleStrtou_toDigits {n : Nat} (hn : n < 2 ^ 64) {rest : List Char}
    (h : ∀ c ∈ rest.head?, ¬(isXdigit c ∧ digitValue c < 10) ∧ c ≠ 'x') :
    simpleStrtou 64 (Nat.toDigits 10 n ++ rest) = (n, rest) := by
  have hstop : ∀ c ∈ rest.head?, ¬(isXdigit c ∧ digitValue c < 10) := fun c hc => (h c hc).1
  by_cases hzero : n = 0
  · subst hzero
    have hbase : numberBase (Nat.toDigits 10 0 ++ rest) = (8, rest) := by
      rw [Nat.toDigits_zero, List.singleton_append]
      cases rest with
      | nil => rfl
      | cons c rest =>
        have hx := (h c rfl).2
        unfold numberBase
        split
        next heq =>
          exact absurd (List.cons.inj (List.cons.inj heq).2).1 hx
        next heq => rw [(List.cons.inj heq).2]
        next hne => exact absurd rfl (hne _)
    rw [simpleStrtou, hbase]
    exact digitLoop_stop (by omega) hstop
  · have hbase : numberBase (Nat.toDigits 10 n ++ rest) = (10, Nat.toDigits 10 n ++ rest) := by
      obtain ⟨d, cs, hcs, hpos, hlt⟩ := toDigits_head (Nat.pos_of_ne_zero hzero)
      have hchar : Nat.digitChar d ≠ '0' := by
        interval_cases d <;> decide
      rw [hcs, List.cons_append]
      unfold numberBase
      split
      next heq => exact absurd (List.cons.inj heq).1 hchar
      next heq => exact absurd (List.cons.inj heq).1 hchar
      next => rfl
    rw [simpleStrtou, hbase]
    simp only
    rw [digitLoop_toDigits hn]
    exact digitLoop_stop (by omega) hstop

/-- A size is read back from its text. -/
theorem memsizeParse_format (size : UInt64) {rest : List Char} (h : Stops rest) :
    memsizeParse (memsizeFormat size ++ rest) = (size, rest) := by
  have hsize := size.toNat_lt
  have hround : UInt64.ofNat size.toNat = size := UInt64.ofNat_toNat
  unfold memsizeFormat
  split_ifs with hg hm hk
  · rw [List.append_assoc, List.singleton_append, memsizeParse,
      simpleStrtou_toDigits (by omega) (by simp; decide)]
    simp only [or_true, if_true]
    rw [Nat.div_mul_cancel (Nat.dvd_of_mod_eq_zero hg), hround]
  · rw [List.append_assoc, List.singleton_append, memsizeParse,
      simpleStrtou_toDigits (by omega) (by simp; decide)]
    simp only [or_true, if_true, Char.reduceEq, or_self, if_false]
    rw [Nat.div_mul_cancel (Nat.dvd_of_mod_eq_zero hm), hround]
  · rw [List.append_assoc, List.singleton_append, memsizeParse,
      simpleStrtou_toDigits (by omega) (by simp; decide)]
    simp only [or_true, if_true, Char.reduceEq, or_self, if_false]
    rw [Nat.div_mul_cancel (Nat.dvd_of_mod_eq_zero hk), hround]
  · rw [memsizeParse, simpleStrtou_toDigits (by omega)]
    · cases rest with
      | nil => simp [hround]
      | cons c rest =>
        obtain rfl | rfl | rfl | rfl | rfl := h c rfl <;> simp [hround]
    · intro c hc
      obtain rfl | rfl | rfl | rfl | rfl := h c hc <;> decide

/-! ### One partition -/

def partText (prev : Option PartInfo) (part : PartInfo) : List Char :=
  memsizeFormat part.size ++ (offsetText prev part ++ (nameText part ++ flagsText part))

/-- What is read back of a name and the flags: a name is present or made up,
and the flags are those a definition can give. -/
structure Written (part : PartInfo) : Prop where
  name : part.autoName = false → part.name ≠ [] ∧ ')' ∉ part.name
  flags : part.maskFlags = 0 ∨ part.maskFlags = 1

/-- The end of a definition: a comma, or the end of the device. -/
def Ends (sep : List Char) : Prop :=
  (∃ rest, sep = ',' :: rest) ∨ (∃ rest, sep = ';' :: rest) ∨ sep = []

theorem Ends.stops {sep : List Char} (h : Ends sep) : Stops sep := by
  obtain ⟨rest, rfl⟩ | ⟨rest, rfl⟩ | rfl := h <;> simp [Stops]

theorem memsizeFormat_head (size : UInt64) :
    ∃ d cs, memsizeFormat size = Nat.digitChar d :: cs ∧ d < 10 := by
  have hdigits : ∀ n, ∃ d cs, Nat.toDigits 10 n = Nat.digitChar d :: cs ∧ d < 10 := by
    intro n
    obtain rfl | hn := Nat.eq_zero_or_pos n
    · exact ⟨0, [], Nat.toDigits_zero 10, by omega⟩
    · obtain ⟨d, cs, hcs, -, hd⟩ := toDigits_head hn
      exact ⟨d, cs, hcs, hd⟩
  have happend : ∀ n (tail : List Char),
      ∃ d cs, Nat.toDigits 10 n ++ tail = Nat.digitChar d :: cs ∧ d < 10 := by
    intro n tail
    obtain ⟨d, cs, hcs, hd⟩ := hdigits n
    exact ⟨d, cs ++ tail, by rw [hcs, List.cons_append], hd⟩
  unfold memsizeFormat
  split_ifs
  · exact happend _ _
  · exact happend _ _
  · exact happend _ _
  · exact hdigits _

theorem partSize_format (size : UInt64) {rest : List Char} (h : Stops rest) :
    partSize (memsizeFormat size ++ rest) =
      if size < minPartSize then none else some (size, rest) := by
  have hparse := memsizeParse_format size h
  obtain ⟨d, cs, hcs, hd⟩ := memsizeFormat_head size
  have hchar : Nat.digitChar d ≠ '-' := by
    interval_cases d <;> decide
  rw [hcs, List.cons_append] at hparse ⊢
  unfold partSize
  split
  next heq => exact absurd (List.cons.inj heq).1 hchar
  next => rw [hparse]

theorem flagsText_stops (part : PartInfo) {sep : List Char} (h : Ends sep) :
    Stops (flagsText part ++ sep) := by
  unfold flagsText
  split_ifs
  · simp [Stops]
  · exact h.stops

theorem nameText_stops (part : PartInfo) {sep : List Char} (h : Ends sep) :
    Stops (nameText part ++ (flagsText part ++ sep)) := by
  unfold nameText
  split_ifs
  · exact flagsText_stops part h
  · simp [Stops]

theorem offsetText_stops (prev : Option PartInfo) (part : PartInfo) {sep : List Char}
    (h : Ends sep) : Stops (offsetText prev part ++ (nameText part ++ (flagsText part ++ sep))) := by
  unfold offsetText
  split_ifs
  · simp [Stops]
  · exact nameText_stops part h

/-- The text behind the offset does not start with `@`. -/
theorem nameText_head (part : PartInfo) {sep : List Char} (h : Ends sep) :
    (nameText part ++ (flagsText part ++ sep)).head? ≠ some '@' := by
  unfold nameText flagsText
  obtain ⟨rest, rfl⟩ | ⟨rest, rfl⟩ | rfl := h <;> split_ifs <;> simp

theorem partOffset_text (prev : Option PartInfo) (part : PartInfo) {sep : List Char}
    (h : Ends sep) :
    partOffset (offsetText prev part ++ (nameText part ++ (flagsText part ++ sep))) =
      (if gapBefore prev part then part.offset else offsetNotSpecified,
        nameText part ++ (flagsText part ++ sep)) := by
  unfold offsetText
  split_ifs
  · exact memsizeParse_format part.offset (nameText_stops part h)
  · have hhead := nameText_head part h
    rw [List.nil_append]
    unfold partOffset
    split
    next heq => simp [heq] at hhead
    next => rfl

theorem partName_text {part : PartInfo} (w : Written part) {sep : List Char} (h : Ends sep) :
    partName (nameText part ++ (flagsText part ++ sep)) =
      some (if part.autoName then none else some part.name, flagsText part ++ sep) := by
  unfold nameText
  split_ifs with hauto
  · have hhead : (flagsText part ++ sep).head? ≠ some '(' := by
      unfold flagsText
      obtain ⟨rest, rfl⟩ | ⟨rest, rfl⟩ | rfl := h <;> split_ifs <;> simp
    rw [List.nil_append]
    unfold partName
    split
    next heq => simp [heq] at hhead
    next => rfl
  · obtain ⟨hne, hparen⟩ := w.name (by simpa using hauto)
    have hpos : ∀ c ∈ part.name, (decide (c ≠ ')')) = true := by
      intro c hc
      simpa using fun heq : c = ')' => hparen (heq ▸ hc)
    obtain ⟨c, cs, hname⟩ := List.exists_cons_of_ne_nil hne
    simp only [List.cons_append, List.append_assoc, List.nil_append, partName]
    rw [List.span_eq_takeWhile_dropWhile, List.takeWhile_append_of_pos hpos,
      List.dropWhile_append_of_pos hpos]
    simp [hname]

theorem partFlags_text {part : PartInfo} (w : Written part) {sep : List Char} (h : Ends sep) :
    partFlags (flagsText part ++ sep) = (part.maskFlags, sep) := by
  unfold flagsText
  obtain hzero | hone := w.flags
  · rw [hzero]
    obtain ⟨rest, rfl⟩ | ⟨rest, rfl⟩ | rfl := h <;> rfl
  · rw [hone]
    rfl

/-- The partition `part_parse` makes of the text. -/
def reread (prev : Option PartInfo) (part : PartInfo) : PartInfo :=
  let offset := if gapBefore prev part then part.offset else offsetNotSpecified
  { part with
    ptr := 0
    name := if part.autoName then autoPartName part.size offset else part.name
    offset := offset }

theorem partParse_text {part : PartInfo} (w : Written part) (prev : Option PartInfo)
    {sep : List Char} (h : Ends sep) :
    partParse (partText prev part ++ sep) =
      if part.size < minPartSize then none
      else (partEnd part.size sep).map fun rest => (reread prev part, rest) := by
  have hsize := partSize_format part.size (offsetText_stops prev part h)
  have hoffset := partOffset_text prev part h
  have hname := partName_text w h
  have hflags := partFlags_text w h
  unfold partParse partText
  simp only [List.append_assoc]
  rw [hsize]
  split_ifs with hmin
  · rfl
  · simp only [Option.bind_eq_bind, Option.bind_some, hoffset, hname, hflags]
    cases partEnd part.size sep with
    | none => rfl
    | some rest => cases hauto : part.autoName <;> simp [reread, hauto]

/-! ### The partitions of a device -/

def partsText : Option PartInfo → List PartInfo → List Char
  | _, [] => []
  | prev, [part] => partText prev part
  | prev, part :: next :: rest =>
    partText prev part ++ ',' :: partsText (some part) (next :: rest)

/-- The end of the previous partition. -/
def endOf : Option PartInfo → UInt64
  | none => 0
  | some prev => prev.offset + prev.size

/-- The sizes a list of definitions can have. -/
def SizesReadable : List PartInfo → Prop
  | [] => True
  | [part] => ¬part.size < minPartSize
  | part :: next :: rest =>
    ¬part.size < minPartSize ∧ part.size ≠ sizeRemaining ∧ SizesReadable (next :: rest)

structure PartKey where
  offset : UInt64
  size : UInt64
  maskFlags : UInt32
  name : Option (List Char)
  deriving DecidableEq, Repr

def PartInfo.key (part : PartInfo) : PartKey where
  offset := part.offset
  size := part.size
  maskFlags := part.maskFlags
  name := if part.autoName then none else some part.name

section Validation

variable {getMtdInfo : MtdType → UInt8 → Option MtdInfo} {id : MtdIds}

/-- A partition that passes validation as it is. -/
def Valid (getMtdInfo : MtdType → UInt8 → Option MtdInfo) (id : MtdIds) (part : PartInfo) : Prop :=
  partValidate getMtdInfo id part = some part

def filledSize (id : MtdIds) (part : PartInfo) : UInt64 :=
  if part.size = sizeRemaining then id.size - part.offset else part.size

/-- Validation looks at the offset and the size only. -/
theorem partValidate_eq_some_iff {part part' : PartInfo} :
    partValidate getMtdInfo id part = some part' ↔
      part' = { part with size := filledSize id part } ∧
      ¬part.offset > id.size ∧ ¬part.offset + filledSize id part ≤ part.offset ∧
      ¬part.offset + filledSize id part > id.size ∧
      ∃ mtd, getMtdInfo id.type id.num = some mtd ∧
        partValidateEraseblock mtd { part with size := filledSize id part } = true := by
  have hfill : (if part.size = sizeRemaining then
      { part with size := id.size - part.offset } else part) =
        { part with size := filledSize id part } := by
    unfold filledSize
    split_ifs <;> rfl
  unfold partValidate
  simp only [hfill]
  split_ifs with h1 h2 h3
  · simp [h1]
  · simp [h2]
  · simp [h3]
  · cases hmtd : getMtdInfo id.type id.num with
    | none => simp
    | some mtd =>
      cases hblock : partValidateEraseblock mtd { part with size := filledSize id part } with
      | false => simp [hblock]
      | true =>
        simp only [hblock, if_true, Option.some.injEq]
        constructor
        · rintro rfl
          exact ⟨rfl, h1, h2, h3, mtd, rfl, hblock⟩
        · rintro ⟨rfl, -⟩
          rfl

theorem Valid.of_eq {part part' : PartInfo} (h : Valid getMtdInfo id part)
    (hsize : part'.size = part.size) (hoffset : part'.offset = part.offset) :
    Valid getMtdInfo id part' := by
  obtain ⟨hpart, h1, h2, h3, mtd, hmtd, hblock⟩ := partValidate_eq_some_iff.mp h
  have hfill : filledSize id part' = filledSize id part := by
    simp [filledSize, hsize, hoffset]
  have hself : part.size = filledSize id part := congrArg PartInfo.size hpart
  refine partValidate_eq_some_iff.mpr ⟨?_, ?_, ?_, ?_, mtd, hmtd, ?_⟩
  · rw [hfill, ← hself, ← hsize]
  · rwa [hoffset]
  · rwa [hfill, hoffset]
  · rwa [hfill, hoffset]
  · simpa only [partValidateEraseblock, hfill, hoffset] using hblock

theorem valid_of_partValidate {part part' : PartInfo}
    (h : partValidate getMtdInfo id part = some part') : Valid getMtdInfo id part' := by
  obtain ⟨rfl, h1, h2, h3, mtd, hmtd, hblock⟩ := partValidate_eq_some_iff.mp h
  have hfill : filledSize id { part with size := filledSize id part } = filledSize id part := by
    unfold filledSize
    split_ifs <;> rfl
  refine partValidate_eq_some_iff.mpr ⟨?_, h1, ?_, ?_, mtd, hmtd, ?_⟩
  · rw [hfill]
  · simpa only [hfill] using h2
  · simpa only [hfill] using h3
  · simpa only [hfill] using hblock

theorem Valid.offset_ne {part : PartInfo} (h : Valid getMtdInfo id part) :
    part.offset ≠ offsetNotSpecified := by
  obtain ⟨-, -, h2, -⟩ := partValidate_eq_some_iff.mp h
  intro heq
  apply h2
  have hmax : offsetNotSpecified.toNat = 2 ^ 64 - 1 := rfl
  have hlt := (offsetNotSpecified + filledSize id part).toNat_lt
  rw [heq, UInt64.le_iff_toNat_le, hmax]
  omega

theorem partsLoop_succ {fuel : Nat} {c : Char} {p : List Char} (hc : c ≠ ';') (offset : UInt64) :
    partsLoop getMtdInfo id (fuel + 1) (c :: p) offset = (partParse (c :: p)).bind fun r =>
      (partValidate getMtdInfo id
        (if r.1.offset = offsetNotSpecified then { r.1 with offset := offset } else r.1)).bind
          fun part => (partsLoop getMtdInfo id fuel r.2 (part.offset + part.size)).bind
            fun rest => some (part :: rest.1, rest.2) := by
  rw [partsLoop]
  · rfl
  · simp
  · rintro q heq
    exact hc (List.cons.inj heq).1

/-- The loop over the text of one partition in front of `sep`. -/
theorem partsLoop_partText {part : PartInfo} (w : Written part) (hv : Valid getMtdInfo id part)
    (prev : Option PartInfo) {sep : List Char} (h : Ends sep) (fuel : Nat) :
    ∃ part', part'.key = part.key ∧
      partsLoop getMtdInfo id (fuel + 1) (partText prev part ++ sep) (endOf prev) =
        if part.size < minPartSize then none
        else (partEnd part.size sep).bind fun rest =>
          (partsLoop getMtdInfo id fuel rest (endOf (some part))).bind
            fun r => some (part' :: r.1, r.2) := by
  refine ⟨{ reread prev part with offset := part.offset }, ?_, ?_⟩
  · simp only [PartInfo.key, reread]
    split_ifs <;> rfl
  · have hparse := partParse_text w prev h
    obtain ⟨d, cs, hcs, hd⟩ := memsizeFormat_head part.size
    have hchar : Nat.digitChar d ≠ ';' := by
      interval_cases d <;> decide
    have htext : ∃ cs', partText prev part ++ sep = Nat.digitChar d :: cs' := by
      simp [partText, hcs]
    obtain ⟨cs', htext⟩ := htext
    rw [htext] at hparse ⊢
    rw [partsLoop_succ hchar, hparse]
    split_ifs with hmin
    · rfl
    · cases partEnd part.size sep with
      | none => rfl
      | some rest =>
        simp only [Option.map_some, Option.bind_some]
        have hfixed : (if (reread prev part).offset = offsetNotSpecified then
            { reread prev part with offset := endOf prev } else reread prev part) =
              { reread prev part with offset := part.offset } := by
          cases hgap : gapBefore prev part with
          | true =>
            have : (reread prev part).offset = part.offset := by simp [reread, hgap]
            rw [this, if_neg hv.offset_ne, ← this]
          | false =>
            have hoff : (reread prev part).offset = offsetNotSpecified := by
              simp [reread, hgap]
            have hend : endOf prev = part.offset := by
              cases prev with
              | none => exact (by simpa [gapBefore] using hgap : part.offset = 0).symm
              | some prev => simpa [gapBefore, endOf] using hgap
            rw [if_pos hoff, hend]
        have hvalid : partValidate getMtdInfo id { reread prev part with offset := part.offset } =
            some { reread prev part with offset := part.offset } := hv.of_eq rfl rfl
        rw [hfixed, hvalid]
        rfl

/-- The end of a device: nothing, or the next one. -/
def DeviceEnds (tail : List Char) : Prop :=
  tail = [] ∨ ∃ rest, tail = ';' :: rest

theorem DeviceEnds.ends {tail : List Char} (h : DeviceEnds tail) : Ends tail := by
  obtain rfl | ⟨rest, rfl⟩ := h
  · exact .inr (.inr rfl)
  · exact .inr (.inl ⟨rest, rfl⟩)

theorem DeviceEnds.partEnd {tail : List Char} (h : DeviceEnds tail) (size : UInt64) :
    partEnd size tail = some tail := by
  obtain rfl | ⟨rest, rfl⟩ := h <;> rfl

theorem DeviceEnds.partsLoop {tail : List Char} (h : DeviceEnds tail) (fuel : Nat)
    (offset : UInt64) : partsLoop getMtdInfo id fuel tail offset = some ([], tail) := by
  obtain rfl | ⟨rest, rfl⟩ := h <;> simp [Mtdparts.partsLoop]

/-- The loop reads the partitions back exactly when their sizes can be read. -/
theorem partsLoop_partsText {parts : List PartInfo} (hne : parts ≠ [])
    (w : ∀ p ∈ parts, Written p) (hv : ∀ p ∈ parts, Valid getMtdInfo id p)
    (prev : Option PartInfo) {tail : List Char} (htail : DeviceEnds tail) {fuel : Nat}
    (hfuel : parts.length ≤ fuel) :
    (SizesReadable parts → ∃ read, read.map PartInfo.key = parts.map PartInfo.key ∧
      partsLoop getMtdInfo id fuel (partsText prev parts ++ tail) (endOf prev) =
        some (read, tail)) ∧
    (¬SizesReadable parts →
      partsLoop getMtdInfo id fuel (partsText prev parts ++ tail) (endOf prev) = none) := by
  induction parts generalizing prev fuel with
  | nil => exact absurd rfl hne
  | cons part rest ih =>
    obtain - | fuel := fuel
    · simp at hfuel
    have wpart := w part List.mem_cons_self
    have vpart := hv part List.mem_cons_self
    obtain - | ⟨next, rest⟩ := rest
    · obtain ⟨part', hkey, hloop⟩ := partsLoop_partText wpart vpart prev htail.ends fuel
      simp only [htail.partEnd, Option.bind_some, htail.partsLoop] at hloop
      simp only [partsText, hloop, SizesReadable]
      refine ⟨fun h => ⟨[part'], by simp [hkey], by simp [h]⟩, fun h => ?_⟩
      rw [if_pos (not_not.mp h)]
    · have hsep : Ends (',' :: (partsText (some part) (next :: rest) ++ tail)) := .inl ⟨_, rfl⟩
      obtain ⟨part', hkey, hloop⟩ := partsLoop_partText wpart vpart prev hsep fuel
      have hfuel' : (next :: rest).length ≤ fuel := by
        simpa using hfuel
      obtain ⟨hread, hfail⟩ := ih (by simp) (fun p hp => w p (List.mem_cons_of_mem _ hp))
        (fun p hp => hv p (List.mem_cons_of_mem _ hp)) (some part) hfuel'
      simp only [partsText, SizesReadable, List.append_assoc, List.cons_append, hloop]
      constructor
      · rintro ⟨hmin, hrem, hreadable⟩
        obtain ⟨read, hkeys, hrest⟩ := hread hreadable
        refine ⟨part' :: read, by simp [hkey, hkeys], ?_⟩
        simp [hmin, partEnd, hrem, hrest]
      · intro hnot
        by_cases hmin : part.size < minPartSize
        · simp [hmin]
        · by_cases hrem : part.size = sizeRemaining
          · simp [partEnd, hrem]
          · have := hfail fun hreadable => hnot ⟨hmin, hrem, hreadable⟩
            simp [hmin, partEnd, hrem, this]

end Validation

/-! ### The text that is written -/

theorem put_eq_some {text : List Char} {out out' : List Char × Nat} (h : put text out = some out') :
    out'.1 = out.1 ++ text ∧ out'.2 + text.length = out.2 := by
  unfold put at h
  split_ifs at h with hlen
  obtain rfl := Option.some.inj h
  exact ⟨rfl, by simp only; omega⟩

/-- One turn of the loop over the partitions. -/
theorem generateParts_cons {numParts : UInt16} {prev : Option PartInfo} {cnt : Nat}
    {part : PartInfo} {rest : List PartInfo} {out out' : List Char × Nat}
    (h : generateParts numParts prev cnt (part :: rest) out = some out') :
    ∃ out1, out1.1 = out.1 ++ partText prev part ++
        (if numParts.toNat > cnt + 1 then [','] else []) ∧ out1.2 + 1 ≤ out.2 ∧
      generateParts numParts (some part) (cnt + 1) rest out1 = some out' := by
  rw [generateParts] at h
  simp only [Option.bind_eq_bind, Option.bind_eq_some_iff] at h
  obtain ⟨out1, h1, out2, h2, out3, h3, out4, h4, out5, h5, h6⟩ := h
  obtain ⟨e1, l1⟩ := put_eq_some h1
  obtain ⟨e2, l2⟩ := put_eq_some h2
  obtain ⟨e3, l3⟩ := put_eq_some h3
  obtain ⟨e4, l4⟩ := put_eq_some h4
  obtain ⟨e5, l5⟩ := put_eq_some h5
  refine ⟨out5, ?_, ?_, h6⟩
  · rw [e5, e4, e3, e2, e1]
    simp only [partText, List.append_assoc]
  · obtain ⟨d, cs, hcs, -⟩ := memsizeFormat_head part.size
    rw [hcs, List.length_cons] at l1
    omega

/-- Every partition takes room in the buffer. -/
theorem generateParts_length {numParts : UInt16} {prev : Option PartInfo} {cnt : Nat}
    {parts : List PartInfo} {out out' : List Char × Nat}
    (h : generateParts numParts prev cnt parts out = some out') :
    parts.length + out'.2 ≤ out.2 := by
  induction parts generalizing prev cnt out with
  | nil =>
    obtain rfl : out = out' := by simpa [generateParts] using h
    simp
  | cons part rest ih =>
    obtain ⟨out1, -, hroom, hrest⟩ := generateParts_cons h
    have := ih hrest
    rw [List.length_cons]
    omega

/-- The partitions are written one after the other with commas between them. -/
theorem generateParts_eq {numParts : UInt16} {prev : Option PartInfo} {cnt : Nat}
    {parts : List PartInfo} {out out' : List Char × Nat}
    (hcnt : cnt + parts.length = numParts.toNat)
    (h : generateParts numParts prev cnt parts out = some out') :
    out'.1 = out.1 ++ partsText prev parts := by
  induction parts generalizing prev cnt out with
  | nil =>
    obtain rfl : out = out' := by simpa [generateParts] using h
    simp [partsText]
  | cons part rest ih =>
    obtain ⟨out1, hout1, -, hrest⟩ := generateParts_cons h
    rw [List.length_cons] at hcnt
    rw [ih (by omega) hrest, hout1]
    obtain - | ⟨next, rest⟩ := rest
    · have hlast : ¬numParts.toNat > cnt + 1 := by
        simp only [List.length_nil] at hcnt
        omega
      simp [hlast, partsText]
    · have hmore : numParts.toNat > cnt + 1 := by
        simp only [List.length_cons] at hcnt
        omega
      simp [hmore, partsText]

def devicesText : List MtdDevice → List Char
  | [] => []
  | [dev] => dev.id.mtdId ++ ':' :: partsText none dev.parts
  | dev :: next :: rest =>
    dev.id.mtdId ++ ':' :: (partsText none dev.parts ++ ';' :: devicesText (next :: rest))

theorem generateDevices_eq {devices : List MtdDevice} {out out' : List Char × Nat}
    (hroom : out.2 < 65536)
    (hcount : ∀ dev ∈ devices, dev.numParts = UInt16.ofNat dev.parts.length)
    (h : generateDevices devices out = some out') : out'.1 = out.1 ++ devicesText devices := by
  induction devices generalizing out with
  | nil =>
    obtain rfl : out = out' := by simpa [generateDevices] using h
    simp [devicesText]
  | cons dev rest ih =>
    rw [generateDevices] at h
    simp only [Option.bind_eq_bind, Option.bind_eq_some_iff] at h
    obtain ⟨out1, h1, out2, h2, out3, h3, h4⟩ := h
    obtain ⟨e1, l1⟩ := put_eq_some h1
    obtain ⟨e3, l3⟩ := put_eq_some h3
    have l2 := generateParts_length h2
    have hparts : 0 + dev.parts.length = dev.numParts.toNat := by
      rw [hcount dev List.mem_cons_self, UInt16.toNat_ofNat', Nat.mod_eq_of_lt (by omega)]
      omega
    have e2 := generateParts_eq hparts h2
    rw [ih (by omega) (fun d hd => hcount d (List.mem_cons_of_mem _ hd)) h4, e3, e2, e1]
    obtain - | ⟨next, rest⟩ := rest <;> simp [devicesText]

end UBoot.Mtdparts
