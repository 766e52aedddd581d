import Mathlib.Data.List.Chain
import UBoot.Env.Export.Basic
import UBoot.Crc32
import UBoot.HashTable.Capacity

/-!
# Importing what was exported

What `env export` has written is found again by `env import -d`, with the size that the
export leaves in `filesize`, or without a size: the separator followed by NUL stands at
the end of the text only. The option `-s` bounds what is written for the text format;
the other formats always clear a buffer of `ENV_SIZE` bytes.
-/

namespace UBoot.Env.Export

open Verification HashTable

/-! ### The end of the text -/

section Text

variable {sep : UInt8} {entries : List (Str × Str)}

theorem zero_not_mem_escape {value : Str} (h : 0 ∉ value) : 0 ∉ escape sep value := by
  induction value with
  | nil => simp
  | cons c value ih =>
    rw [List.mem_cons, not_or] at h
    rw [escape_cons, List.mem_append, not_or]
    refine ⟨?_, ih h.2⟩
    split
    · simp [h.1, show (0 : UInt8) ≠ chBackslash by decide]
    · simp [h.1]

/-- An entry without its separator. -/
theorem exportEntry_eq (e : Str × Str) (hkey : GoodKey sep e.1) (hvalue : GoodValue e.2) :
    ∃ body, exportEntry sep e = body ++ [sep] ∧ body ≠ [] ∧ 0 ∉ body := by
  refine ⟨e.1 ++ chEquals :: escape sep e.2, by simp [exportEntry], by simp, ?_⟩
  rw [List.mem_append, List.mem_cons, not_or, not_or]
  exact ⟨hkey.noNul, by decide, zero_not_mem_escape hvalue.noNul⟩

/-- Two neighbouring bytes that do not end the text. -/
def NoEnd (sep a b : UInt8) : Prop := ¬(a = sep ∧ b = 0)

theorem isChain_body {body : List UInt8} (h : 0 ∉ body) :
    (body ++ [sep]).IsChain (NoEnd sep) := by
  induction body with
  | nil => simp
  | cons a body ih =>
    rw [List.mem_cons, not_or] at h
    rw [List.cons_append, List.isChain_cons]
    refine ⟨fun b hb => ?_, ih h.2⟩
    rintro ⟨rfl, rfl⟩
    cases body with
    | nil => exact h.1 (by simpa using hb.symm)
    | cons b body => exact h.2 (by simp at hb; simp [hb])

theorem isChain_entries (hgood : ∀ e ∈ entries, GoodKey sep e.1 ∧ GoodValue e.2) :
    (entries.flatMap (exportEntry sep)).IsChain (NoEnd sep) ∧
      ∀ b ∈ (entries.flatMap (exportEntry sep)).head?, b ≠ 0 := by
  induction entries with
  | nil => simp
  | cons e entries ih =>
    obtain ⟨hkey, hvalue⟩ := hgood e List.mem_cons_self
    obtain ⟨body, hbody, hne, hzero⟩ := exportEntry_eq e hkey hvalue
    obtain ⟨hchain, hhead⟩ := ih fun e he => hgood e (List.mem_cons_of_mem _ he)
    rw [List.flatMap_cons, hbody]
    refine ⟨List.isChain_append.mpr ⟨isChain_body hzero, hchain, ?_⟩, ?_⟩
    · intro a _ b hb hend
      exact hhead b hb hend.2
    · obtain ⟨c, body, rfl⟩ := List.exists_cons_of_ne_nil hne
      rintro b ⟨⟩ rfl
      exact hzero List.mem_cons_self

theorem exportText_end (hgood : ∀ e ∈ entries, GoodKey sep e.1 ∧ GoodValue e.2)
    (hne : entries ≠ []) :
    ∃ n, (exportText sep entries).length = n + 2 ∧ (exportText sep entries)[n]? = some sep ∧
      (exportText sep entries)[n + 1]? = some 0 ∧
      ∀ i < n, ¬((exportText sep entries)[i]? = some sep ∧
        (exportText sep entries)[i + 1]? = some 0) := by
  obtain ⟨sorted, hsorted⟩ : ∃ l, qsort (fun a b => strcmp a.1 b.1) entries = l := ⟨_, rfl⟩
  have hperm : sorted.Perm entries := hsorted ▸ qsort_perm _ _
  obtain ⟨hchain, -⟩ := @isChain_entries sep sorted
    fun e he => hgood e (hperm.mem_iff.mp he)
  have hsne : sorted ≠ [] := fun h => hne (List.perm_nil.mp (h ▸ hperm.symm))
  obtain ⟨first, last, rfl⟩ := List.eq_nil_or_concat' sorted |>.resolve_left hsne
  obtain ⟨hkey, hvalue⟩ := hgood last (hperm.mem_iff.mp (by simp))
  obtain ⟨body, hbody, -, -⟩ := exportEntry_eq last hkey hvalue
  obtain ⟨front, hfront⟩ : ∃ front, (first ++ [last]).flatMap (exportEntry sep) =
      front ++ [sep] := ⟨first.flatMap (exportEntry sep) ++ body, by simp [hbody]⟩
  have htext : exportText sep entries = front ++ [sep] ++ [0] := by
    rw [exportText, hsorted, hfront]
  rw [htext]
  refine ⟨front.length, by simp, by simp, by simp, ?_⟩
  rintro i hi ⟨ha, hb⟩
  rw [List.getElem?_append_left (by simp; omega)] at ha hb
  rw [hfront, List.isChain_iff_getElem] at hchain
  have hlt : i + 1 < (front ++ [sep]).length := by
    rw [List.length_append, List.length_singleton]
    omega
  rw [List.getElem?_eq_getElem (by omega), Option.some.injEq] at ha
  rw [List.getElem?_eq_getElem hlt, Option.some.injEq] at hb
  exact hchain i hlt ⟨ha, hb⟩

theorem scanEnd_eq {mem : Ptr} {ptr n : Nat} (hend : mem (ptr + n) = sep ∧ mem (ptr + n + 1) = 0)
    (hfirst : ∀ i < n, ¬(mem (ptr + i) = sep ∧ mem (ptr + i + 1) = 0)) :
    ∀ fuel size, size ≤ n → n ≤ size + fuel → scanEnd sep mem ptr fuel size = n := by
  intro fuel
  induction fuel with
  | zero =>
    intro size hle hge
    exact Nat.le_antisymm hle hge
  | succ fuel ih =>
    intro size hle hge
    rw [scanEnd]
    rcases Nat.eq_or_lt_of_le hle with rfl | hlt
    · rw [if_pos hend]
    · rw [if_neg (hfirst size hlt)]
      exact ih (size + 1) hlt (by omega)

theorem scanEnd_text (hgood : ∀ e ∈ entries, GoodKey sep e.1 ∧ GoodValue e.2) (hne : entries ≠ [])
    {mem : Ptr} {ptr : Nat}
    (hmem : (mem.add ptr).bytes (exportText sep entries).length = exportText sep entries)
    (hlen : (exportText sep entries).length ≤ MAX_ENV_SIZE + 2) :
    scanEnd sep mem ptr MAX_ENV_SIZE 0 + 2 = (exportText sep entries).length := by
  obtain ⟨n, hn, hsep, hzero, hfirst⟩ := exportText_end hgood hne
  have hget : ∀ i < n + 2, (exportText sep entries)[i]? = some (mem (ptr + i)) := by
    intro i hi
    rw [← hmem, hn, Ptr.bytes, List.getElem?_map, List.getElem?_range hi]
    rfl
  rw [hget n (by omega), Option.some.injEq] at hsep
  rw [hget (n + 1) (by omega), Option.some.injEq] at hzero
  rw [scanEnd_eq ⟨hsep, hzero⟩ ?_ MAX_ENV_SIZE 0 (Nat.zero_le _) (by omega), hn]
  intro i hi hend
  refine hfirst i hi ⟨?_, ?_⟩
  · rw [hget i (by omega), hend.1]
  · rw [hget (i + 1) (by omega), ← Nat.add_assoc, hend.2]

end Text

/-! ### The round trip -/

section Restored

variable {crc32 : List UInt8 → UInt32} {config : Config} {format : Format} {size addr : Nat}
  {names : List Str} {htab : HsearchData} {entries : List (Str × Str)} {mem : Ptr}

/-- How many bytes `himport_r` is given, with `filesize` as the argument or without one. -/
def importedLength (config : Config) (format : Format) (size : Nat) (entries : List (Str × Str))
    (sized : Bool) : Nat :=
  if sized then
    bufferSize format.sep entries (format.capacity config size) +
      if format = .binary then config.dataOffset else 0
  else (exportText format.sep entries).length

/-- The variables fit: into the buffer, into the table that the import creates, and below
the limit of the scan when there is no size. -/
structure Fits (config : Config) (format : Format) (size : Nat) (entries : List (Str × Str))
    (target : HsearchData) (sized : Bool) : Prop where
  buffer : LargeEnough format.sep entries (format.capacity config size)
  table : ∀ new, created target (importedLength config format size entries sized) = some (1, new) →
    entries.length ≤ new.size
  scanned : sized = false →
    format ≠ .checksum ∧ (exportText format.sep entries).length ≤ MAX_ENV_SIZE + 2

theorem not_refused (h : LargeEnough format.sep entries (format.capacity config size)) :
    ¬Refused format config size entries := by
  rintro ⟨hne, hlt⟩
  have := h.1
  rw [bufferSize, if_neg hne] at this
  rw [totlen] at hlt
  omega

/-- The checksum that is stored is the one of the data in memory. -/
theorem putHeader_crc :
    ((putHeader crc32 config mem addr).add addr).bytes 4 =
      leBytes 4 (crc32 (((putHeader crc32 config mem addr).add (addr + config.dataOffset)).bytes
        config.envSize)).toNat := by
  have hdata : ((putHeader crc32 config mem addr).add (addr + config.dataOffset)).bytes
      config.envSize = (mem.add (addr + config.dataOffset)).bytes config.envSize := by
    apply Ptr.bytes_congr
    intro i _
    exact putHeader_outside (by omega)
  have hstored : ∀ bs : List UInt8, bs.length = 4 →
      ((mem.write addr 4 (Ptr.ofList bs)).add addr).bytes 4 = bs := by
    intro bs hbs
    rw [Ptr.bytes_write_self, ← hbs, Ptr.bytes_ofList]
  rw [hdata, putHeader]
  split
  · rw [Ptr.bytes_write_of_disjoint _ _ (by omega)]
    exact hstored _ (by simp [leBytes])
  · exact hstored _ (by simp [leBytes])

theorem importAt_text (hgood : ∀ e ∈ entries, GoodKey format.sep e.1 ∧ GoodValue e.2)
    (hkeys : (entries.map Prod.fst).Nodup) (hne : entries ≠ []) {ctx : Context}
    {target : HsearchData} (hacc : Accepts ctx target) {ptr len : Nat}
    (hmem : (mem.add ptr).bytes (exportText format.sep entries).length =
      exportText format.sep entries)
    (hlen : (exportText format.sep entries).length ≤ len)
    (htable : ∀ new, created target len = some (1, new) → entries.length ≤ new.size) :
    ∃ htab', importAt ctx target format true false mem ptr len = some (0, htab') ∧
      ∀ key value, Stores htab' key value ↔ (key, value) ∈ entries := by
  have hsep : format.sep = 0 ∨ format.sep = chLf := by
    cases format with
    | text => exact .inr rfl
    | binary => exact .inl rfl
    | checksum => exact .inl rfl
  obtain ⟨rest, rfl⟩ := Nat.exists_eq_add_of_le hlen
  have hbytes := (mem.add ptr).bytes_add (exportText format.sep entries).length rest
  rw [hmem] at hbytes
  have hlength := congrArg List.length hbytes
  rw [Ptr.length_bytes] at hlength
  obtain ⟨htab', himport, -, hstores⟩ := himportR_text hsep hgood hkeys _
    (fun h => absurd h hne) hacc (show 0 &&& H_NOCLEAR = 0 from rfl) (by rwa [← hlength])
  refine ⟨htab', ?_, hstores⟩
  rw [importAt, hbytes]
  simp only [if_true, Bool.false_and]
  rw [himport]
  rfl

/-- What was exported is restored. -/
theorem doEnvImport_exported (hplace : format.textAt config addr ≠ 0)
    (henv : EnvTable format.sep htab)
    (hne : exported htab names ≠ []) {ctx : Context} {target : HsearchData}
    (hacc : Accepts ctx target) {sized : Bool}
    (hfits : Fits config format size (exported htab names) target sized) (mem : Ptr) :
    ∃ mem' filesize htab',
      doEnvExport crc32 config format size addr names htab mem = some (mem', some filesize) ∧
      doEnvImport crc32 config ctx target format true false mem' addr
        (if sized then some filesize else none) = some (0, htab') ∧
      ∀ key value, Stores htab' key value ↔
        Stores htab key value ∧ (names = [] ∨ key ∈ names) := by
  obtain ⟨mem', hmem'⟩ : ∃ mem',
      exportedMemory crc32 config format size addr (exported htab names) mem = mem' := ⟨_, rfl⟩
  have htext := @exportedMemory_text crc32 config format size addr (exported htab names) mem
    hplace
  rw [hmem'] at htext
  have hexport := @doEnvExport_eq crc32 config format htab henv names size addr mem
  rw [if_neg (not_refused hfits.buffer), hmem'] at hexport
  have hgood := exported_good henv names
  -- the length that the import uses
  have hlen : (exportText format.sep (exported htab names)).length ≤
      importedLength config format size (exported htab names) sized := by
    rw [importedLength]
    split
    · exact Nat.le_add_right_of_le hfits.buffer.2
    · exact Nat.le_refl _
  obtain ⟨htab', himport, hstores⟩ := importAt_text hgood (exported_nodup henv names) hne hacc
    htext hlen hfits.table
  refine ⟨mem', _, htab', hexport, ?_, fun key value => ?_⟩
  · cases sized with
    | false =>
      obtain ⟨hformat, hmax⟩ := hfits.scanned rfl
      have hat : format.textAt config addr = addr := if_neg hformat
      rw [hat] at htext himport
      simp only [doEnvImport, inputSize, Bool.false_eq_true, if_false, hformat]
      rw [scanEnd_text hgood hne htext hmax]
      exact himport
    | true =>
      simp only [doEnvImport, inputSize, if_true]
      by_cases hformat : format = .checksum
      · subst hformat
        have hsize : (Format.filesize .checksum config (bufferSize (Format.sep .checksum)
            (exported htab names) (Format.capacity .checksum config size)) + 4294967296 -
              config.dataOffset) % 4294967296 = config.envSize := by
          have hpos := config.envSize_pos
          have hlt := config.envSize_lt
          simp only [Format.filesize, Format.capacity, bufferSize, reduceCtorEq, if_false]
          rw [if_neg (Nat.ne_of_gt hpos)]
          omega
        have hlength : importedLength config .checksum size (exported htab names) true =
            config.envSize := by
          have hpos := config.envSize_pos
          simp only [importedLength, Format.capacity, bufferSize, reduceCtorEq, if_false, if_true]
          rw [if_neg (Nat.ne_of_gt hpos), Nat.add_zero]
        have hcrc : leBytes 4 (crc32 ((mem'.add (addr + config.dataOffset)).bytes
            config.envSize)).toNat = (mem'.add addr).bytes 4 := by
          rw [← hmem', exportedMemory, Format.finish, if_pos rfl, putHeader_crc]
        rw [hlength] at himport
        rw [if_pos rfl, hsize, if_neg (not_not.mpr hcrc)]
        exact himport
      · have hat : format.textAt config addr = addr := if_neg hformat
        have hlength : format.filesize config (bufferSize format.sep (exported htab names)
            (format.capacity config size)) =
              importedLength config format size (exported htab names) true := by
          cases format with
          | text => rfl
          | binary => rfl
          | checksum => exact absurd rfl hformat
        rw [hat] at himport
        rw [if_neg hformat, hlength]
        exact himport
  · rw [hstores, mem_exported henv]

end Restored

/-! ### The bytes that are written -/

/-- The bytes from `addr` on that a successful export writes, besides those that are
cleared for `-s`, with room for the text that goes elsewhere for a null pointer. -/
def writtenLength (config : Config) (format : Format) (size addr : Nat)
    (entries : List (Str × Str)) : Nat :=
  (if format = .checksum then config.dataOffset else 0) +
    max (if format.textAt config addr = 0 then 0
      else bufferSize format.sep entries (format.capacity config size))
      (exportText format.sep entries).length

/-- The size given with `-s` is large enough for what is written, or the export fails. -/
def SizeKept (config : Config) (format : Format) (size addr : Nat) (entries : List (Str × Str)) :
    Prop :=
  match format with
  | .text => size ≠ 0
  | .binary => config.envSize < totlen 0 entries + 1 ∨
      max (if addr = 0 then 0 else config.envSize) (exportText 0 entries).length ≤ size
  | .checksum => config.envSize < totlen 0 entries + 1 ∨
      config.dataOffset + max config.envSize (exportText 0 entries).length ≤ size

section Written

variable {crc32 : List UInt8 → UInt32} {config : Config} {format : Format} {size addr : Nat}
  {names : List Str} {htab : HsearchData} {entries : List (Str × Str)} {mem : Ptr} {a : Nat}

theorem textAt_eq : format.textAt config addr =
    addr + if format = .checksum then config.dataOffset else 0 := by
  rw [Format.textAt]
  split <;> rfl

theorem sizeKept_iff :
    SizeKept config format size addr entries ↔
      Refused format config size entries ∨
        writtenLength config format size addr entries ≤ size := by
  have hpos := config.envSize_pos
  have hat := @textAt_eq config format addr
  cases format with
  | text =>
    have hlen : _ = totlen chLf entries + 1 := length_text_of_ne (by decide) entries
    simp only [SizeKept, Refused, writtenLength, Format.capacity, Format.sep, bufferSize,
      reduceCtorEq, if_true, if_false]
    by_cases hsize : size = 0
    · simp [hsize, exportText]
    · rw [if_neg hsize]
      split <;> omega
  | binary =>
    simp only [SizeKept, Refused, writtenLength, Format.capacity, Format.sep, bufferSize,
      reduceCtorEq, if_false]
    rw [if_neg (Nat.ne_of_gt hpos), show Format.binary.textAt config addr = addr from hat]
    omega
  | checksum =>
    have hplace : Format.checksum.textAt config addr ≠ 0 := by
      rcases dataOffset_cases config with ⟨hoff, -⟩ | ⟨hoff, -⟩ <;>
        rw [hat, if_pos rfl] <;> omega
    simp only [SizeKept, Refused, writtenLength, Format.capacity, Format.sep, bufferSize,
      reduceCtorEq, if_true, if_false]
    rw [if_neg (Nat.ne_of_gt hpos), if_neg hplace]
    omega

theorem clear_outside {n : Nat} (h : a < addr ∨ addr + n ≤ a) : clear mem addr n a = mem a :=
  if_neg (by omega)

theorem cleared_outside (h : a < addr ∨ addr + size ≤ a) :
    (if size ≠ 0 then clear mem addr size else mem) a = mem a := by
  split
  · exact clear_outside h
  · rfl

theorem finish_behind (h : a < addr ∨ format.textAt config addr ≤ a) :
    format.finish crc32 config mem addr a = mem a := by
  rw [Format.finish]
  split
  · next hformat =>
      rw [Format.textAt, if_pos hformat] at h
      exact putHeader_outside h
  · rfl

/-- Bytes outside are kept when the size is large enough. -/
theorem exportedMemory_outside (hlen : writtenLength config format size addr entries ≤ size)
    (h : a < addr ∨ addr + size ≤ a) :
    exportedMemory crc32 config format size addr entries mem a = mem a := by
  have hat := @textAt_eq config format addr
  rw [writtenLength] at hlen
  rw [exportedMemory, finish_behind (by omega), putAt]
  split
  · exact cleared_outside h
  · next hplace =>
      rw [if_neg hplace] at hlen
      rw [putText, Ptr.write, if_neg (by omega), clear, Ptr.write, if_neg (by omega)]
      exact cleared_outside h

/-- What is found behind the header does not depend on what was there. -/
theorem exportedMemory_inside (mem mem' : Ptr) (hplace : format.textAt config addr ≠ 0)
    (h : format.textAt config addr ≤ a)
    (hlt : a < addr + writtenLength config format size addr entries) :
    exportedMemory crc32 config format size addr entries mem a =
      exportedMemory crc32 config format size addr entries mem' a := by
  have hat := @textAt_eq config format addr
  rw [writtenLength, if_neg hplace] at hlt
  have hput : ∀ mem mem' : Ptr,
      putText mem (format.textAt config addr)
          (bufferSize format.sep entries (format.capacity config size))
          (exportText format.sep entries) a =
        putText mem' (format.textAt config addr)
          (bufferSize format.sep entries (format.capacity config size))
          (exportText format.sep entries) a := by
    intro mem mem'
    simp only [putText, clear, Ptr.write]
    split
    · rfl
    · rw [if_pos (by omega), if_pos (by omega)]
  rw [exportedMemory, exportedMemory, finish_behind (.inr h), finish_behind (.inr h), putAt, putAt,
    if_neg hplace, if_neg hplace]
  exact hput _ _

/-- The size given with `-s` is not exceeded, and the export fails when it is not
sufficient. -/
def StaysInside (crc32 : List UInt8 → UInt32) (config : Config) (format : Format)
    (size addr : Nat) (names : List Str) (htab : HsearchData) : Prop :=
  ∀ mem mem' filesize,
    doEnvExport crc32 config format size addr names htab mem = some (mem', filesize) →
    (∀ a, a < addr ∨ addr + size ≤ a → mem' a = mem a) ∧
      (size < (if format = .checksum then config.dataOffset else 0) +
        (exportText format.sep (exported htab names)).length → filesize = none)

theorem exportInside_iff (henv : EnvTable format.sep htab) :
    StaysInside crc32 config format size addr names htab ↔
      SizeKept config format size addr (exported htab names) := by
  have hexport := fun mem => @doEnvExport_eq crc32 config format htab henv names size addr mem
  rw [sizeKept_iff]
  constructor
  · intro hinside
    by_contra hnot
    rw [not_or, Nat.not_le] at hnot
    obtain ⟨hrefused, hlong⟩ := hnot
    simp only [if_neg hrefused] at hexport
    by_cases hplace : format.textAt config addr = 0
    · -- the text is elsewhere, and the command succeeds
      rw [writtenLength, if_pos hplace, Nat.zero_max] at hlong
      cases (hinside (fun _ => 0) _ _ (hexport _)).2 hlong
    -- the last byte written has the same value for every memory
    have hat := @textAt_eq config format addr
    obtain ⟨a, hout, hbehind, hlt⟩ : ∃ a, addr + size ≤ a ∧ format.textAt config addr ≤ a ∧
        a < addr + writtenLength config format size addr (exported htab names) := by
      refine ⟨addr + writtenLength config format size addr (exported htab names) - 1, ?_, ?_, ?_⟩
      · omega
      · have : 0 < (exportText format.sep (exported htab names)).length := by simp [exportText]
        rw [writtenLength]
        omega
      · omega
    obtain ⟨c, hc⟩ : ∃ c, exportedMemory crc32 config format size addr (exported htab names)
        (fun _ => 0) a = c := ⟨_, rfl⟩
    have hkept := (hinside (fun _ => c + 1) _ _ (hexport _)).1 a (.inr hout)
    rw [exportedMemory_inside _ (fun _ => 0) hplace hbehind hlt, hc] at hkept
    exact absurd hkept (by simp)
  · intro hkept mem mem' filesize hrun
    rw [hexport mem, Option.some.injEq] at hrun
    by_cases hrefused : Refused format config size (exported htab names)
    · rw [if_pos hrefused, Prod.mk.injEq] at hrun
      obtain ⟨rfl, rfl⟩ := hrun
      exact ⟨fun a ha => cleared_outside ha, fun _ => rfl⟩
    · rw [if_neg hrefused, Prod.mk.injEq] at hrun
      obtain ⟨rfl, rfl⟩ := hrun
      have hlen := hkept.resolve_left hrefused
      refine ⟨fun a ha => exportedMemory_outside hlen ha, fun hshort => ?_⟩
      rw [writtenLength] at hlen
      omega

end Written

/-- Export and import as they are described. -/
structure MeetsDescription (crc32 : List UInt8 → UInt32) (config : Config) (format : Format)
    (size : Option Nat) (addr : Nat) (names : List Str) (htab : HsearchData) : Prop where
  restores : ∀ (ctx : Context) (target : HsearchData) (sized : Bool), Accepts ctx target →
    Fits config format (size.getD 0) (exported htab names) target sized → ∀ mem,
    ∃ mem' filesize htab',
      doEnvExport crc32 config format (size.getD 0) addr names htab mem =
        some (mem', some filesize) ∧
      doEnvImport crc32 config ctx target format true false mem' addr
        (if sized then some filesize else none) = some (0, htab') ∧
      ∀ key value, Stores htab' key value ↔ Stores htab key value ∧ (names = [] ∨ key ∈ names)
  inside : ∀ n, size = some n → StaysInside crc32 config format n addr names htab

/-! ### A null pointer -/

section Null

variable {crc32 : List UInt8 → UInt32} {config : Config} {format : Format} {size addr : Nat}
  {names : List Str} {htab : HsearchData}

/-- Memory of zeros holds no variable. -/
theorem importAt_zeros {ctx : Context} {target : HsearchData} (hacc : Accepts ctx target) {mem : Ptr}
    {ptr n : Nat} (hmem : ∀ a, mem a = 0) (hn : n ≠ 0) {ret : Nat} {htab' : HsearchData}
    (himport : importAt ctx target format true false mem ptr n = some (ret, htab')) :
    ∀ key value, ¬Stores htab' key value := by
  obtain ⟨n, rfl⟩ := Nat.exists_eq_succ_of_ne_zero hn
  have hdata : (mem.add ptr).bytes (n + 1) =
      exportText format.sep [] ++ List.replicate n 0 := by
    have hzero : ∀ b ∈ (mem.add ptr).bytes (n + 1), b = 0 := by
      intro b hb
      obtain ⟨i, -, rfl⟩ := List.mem_map.mp hb
      exact hmem _
    exact List.eq_replicate_iff.mpr ⟨(mem.add ptr).length_bytes (n + 1), hzero⟩
  have hsep : format.sep = 0 ∨ format.sep = chLf := by
    cases format with
    | text => exact .inr rfl
    | binary => exact .inl rfl
    | checksum => exact .inl rfl
  obtain ⟨new, hnew, -, hstores⟩ := @himportR_text _ hsep [] (by simp) List.nodup_nil
    (List.replicate n 0) (fun _ c hc => List.eq_of_mem_replicate hc) _ _ hacc 0 rfl
    (fun _ _ => Nat.zero_le _)
  rw [importAt, hdata] at himport
  simp only [if_true, Bool.false_and] at himport
  rw [hnew] at himport
  obtain ⟨-, rfl⟩ : ret = 0 ∧ htab' = new := by simpa using himport.symm
  exact fun key value h => absurd ((hstores key value).mp h) List.not_mem_nil

/-- The text is not in memory, and the import finds what was there. -/
theorem not_restores_null (hnull : addr = 0) (hformat : format ≠ .checksum)
    (henv : EnvTable format.sep htab) (hne : exported htab names ≠ []) {ctx : Context}
    {target : HsearchData} {sized : Bool} (hacc : Accepts ctx target)
    (hfits : Fits config format size (exported htab names) target sized) :
    ¬∃ mem' filesize htab',
      doEnvExport crc32 config format size addr names htab (fun _ => 0) = some (mem', some filesize) ∧
      doEnvImport crc32 config ctx target format true false mem' addr
        (if sized then some filesize else none) = some (0, htab') ∧
      ∀ key value, Stores htab' key value ↔
        Stores htab key value ∧ (names = [] ∨ key ∈ names) := by
  rintro ⟨mem', filesize, htab', hexport, himport, hstores⟩
  have hplace : format.textAt config addr = 0 := by rw [Format.textAt, if_neg hformat, hnull]
  rw [doEnvExport_eq henv, if_neg (not_refused hfits.buffer), exportedMemory, putAt, if_pos hplace,
    Format.finish, if_neg hformat] at hexport
  obtain ⟨hmem', hlen⟩ := Prod.mk.inj (Option.some.inj hexport)
  obtain rfl := Option.some.inj hlen
  have hmem : ∀ a, mem' a = 0 := by
    intro a
    rw [← hmem']
    split
    · exact ite_self _
    · rfl
  obtain ⟨n, hsize, hn⟩ : ∃ n, inputSize format mem' addr
      (if sized then some (format.filesize config (bufferSize format.sep (exported htab names)
        (format.capacity config size))) else none) = some n ∧ n ≠ 0 := by
    cases sized with
    | false =>
      refine ⟨scanEnd format.sep mem' addr MAX_ENV_SIZE 0 + 2, ?_, Nat.succ_ne_zero _⟩
      simp only [inputSize, Bool.false_eq_true, if_false, hformat]
    | true =>
      refine ⟨_, rfl, ?_⟩
      have := hfits.buffer.1
      rw [Format.filesize]
      split <;> omega
  rw [doEnvImport, hsize] at himport
  simp only [if_neg hformat] at himport
  obtain ⟨⟨key, value⟩, he⟩ := List.exists_mem_of_ne_nil _ hne
  exact importAt_zeros hacc hmem hn himport key value
    ((hstores key value).mpr ((mem_exported henv names).mp he))

end Null

/-- The commands are as described exactly when the size given with `-s` is large enough
for the buffer that is cleared, and the text goes to memory. -/
theorem meetsDescription_iff (crc32 : List UInt8 → UInt32) (config : Config) (format : Format)
    (size : Option Nat) (addr : Nat) (names : List Str) (htab : HsearchData)
    (henv : EnvTable format.sep htab) (hne : exported htab names ≠ []) :
    MeetsDescription crc32 config format size addr names htab ↔
      (∀ n, size = some n → SizeKept config format n addr (exported htab names)) ∧
        (addr = 0 → format ≠ .checksum → ∀ (ctx : Context) (target : HsearchData) (sized : Bool),
          Accepts ctx target → ¬Fits config format (size.getD 0) (exported htab names) target sized)
    := by
  constructor
  · intro h
    refine ⟨fun n hn => (exportInside_iff henv).mp (h.inside n hn), ?_⟩
    intro hnull hformat ctx target sized hacc hfits
    exact not_restores_null hnull hformat henv hne hacc hfits (h.restores ctx target sized hacc hfits _)
  · rintro ⟨hsize, hnull⟩
    refine ⟨fun ctx target sized hacc hfits mem => ?_, fun n hn => ?_⟩
    · refine doEnvImport_exported (fun hplace => ?_) henv hne hacc hfits mem
      rw [textAt_eq] at hplace
      by_cases hformat : format = .checksum
      · rcases dataOffset_cases config with ⟨hoff, -⟩ | ⟨hoff, -⟩ <;>
          rw [if_pos hformat] at hplace <;> omega
      · exact hnull (by omega) hformat ctx target sized hacc hfits
    · exact (exportInside_iff henv).mpr (hsize n hn)

/-- An environment of 8 KiB, without flags. -/
def eightKiB : Config := ⟨8188, false, false, by decide, by decide⟩

/-- The environment `a=1`. -/
def oneVariable : HsearchData where
  active := true
  table i := if i = 1 then ⟨1, some [97], some [49], none, 0⟩ else Slot.zero
  size := 5
  filled := 1
  changeOk := none

theorem oneVariable_env : EnvTable 0 oneVariable := by
  have hlive : ∀ i, 0 < (oneVariable.table i).used → i = 1 := by
    intro i hused
    by_contra hne
    simp [oneVariable, hne, Slot.zero] at hused
  refine ⟨fun i _ _ hused => ?_, fun i j _ _ _ _ hi hj _ => ?_⟩
  · obtain rfl := hlive i hused
    exact ⟨[97], [49], rfl, rfl, ⟨by decide, by decide, by decide, by decide, by simp; decide⟩,
      by decide, by decide⟩
  · rw [hlive i hi, hlive j hj]

/-- The block with the checksum takes 8 KiB. -/
theorem meetsDescription_checksum :
    MeetsDescription crc32 eightKiB .checksum (some 8192) 256 [] oneVariable := by
  refine (meetsDescription_iff crc32 eightKiB .checksum (some 8192) 256 [] oneVariable
    oneVariable_env (by decide)).mpr ⟨?_, fun hnull => absurd hnull (by decide)⟩
  rintro n ⟨⟩
  exact .inr (by decide)

/-- With `-b -s 10` the export of one variable clears 8188 bytes. -/
theorem not_meetsDescription_binary :
    ¬MeetsDescription crc32 eightKiB .binary (some 16) 256 [] oneVariable := by
  intro h
  have hkept := (@exportInside_iff crc32 eightKiB .binary 16 256 [] oneVariable
    oneVariable_env).mp (h.inside 16 rfl)
  rcases hkept with hlt | hle
  · exact absurd hlt (by decide)
  · exact absurd hle (by decide)

end UBoot.Env.Export
