import UBoot.HashTable.RoundTrip
import UBoot.Verification.Bytes

/-!
# `env export` and `env import`

`do_env_export` writes variables to memory, as text, as binary data or as a block with
a checksum, and `do_env_import` reads them back. Allocations succeed, and `CONFIG_REGEX` is
not set.
-/

namespace UBoot.Env.Export

open Verification HashTable

/-- What the build fixes: `ENV_SIZE`, whether `env_t` has flags behind the checksum, and
whether the export sets them (`CONFIG_ENV_ADDR_REDUND`). -/
structure Config where
  envSize : Nat
  redundant : Bool
  addrRedund : Bool
  envSize_pos : 0 < envSize
  envSize_lt : envSize + 5 < 4294967296

/-- `offsetof(env_t, data)` -/
def Config.dataOffset (config : Config) : Nat := if config.redundant then 5 else 4

/-- The options `-t`, `-b` and `-c`. -/
inductive Format where
  | text
  | binary
  | checksum
  deriving DecidableEq, Repr

def Format.sep : Format → UInt8
  | .text => chLf
  | .binary => 0
  | .checksum => 0

/-- `MAX_ENV_SIZE` -/
def MAX_ENV_SIZE : Nat := 1048576

def ACTIVE_FLAG : UInt8 := 1

/-! ### Export -/

/-- `memset` with zeros -/
def clear (mem : Ptr) (addr n : Nat) : Ptr := mem.write addr n fun _ => 0

/-- Pass 2 of `hexport_r`: the buffer is cleared and the text is written, however long
it is. -/
def putText (mem : Ptr) (res size : Nat) (text : List UInt8) : Ptr :=
  (clear mem res size).write res text.length (Ptr.ofList text)

/-- What pass 2 leaves in memory: a null pointer stands for no buffer, and the text goes into
one that `calloc` gives. -/
def putAt (mem : Ptr) (res size : Nat) (text : List UInt8) : Ptr :=
  if res = 0 then mem else putText mem res size text

/-- `match_entry` with `H_MATCH_KEY | H_MATCH_IDENT` -/
def matchEntry (names : List Str) : Option (Entry → Bool) :=
  if names = [] then none else some fun entry => names.any fun name => entry.key = some name

/-- `hexport_r` with `*resp` as `res`: the memory and the value returned. -/
def hexportTo (htab : HsearchData) (sep : UInt8) (names : List Str) (size : Nat) (mem : Ptr)
    (res : Nat) : Option (Except Errno (Ptr × Nat)) := do
  let entries ← collectEntries htab 0 (matchEntry names)
  let totlen := (entries.map (reservedLength sep)).sum
  if size ≠ 0 ∧ size < totlen + 1 then return .error .enomem
  else
    let size := if size = 0 then totlen + 1 else size
    return .ok (putAt mem res size (exportText sep entries), size)

section Commands

variable (crc32 : List UInt8 → UInt32) (config : Config)

/-- The checksum, and the flags, of a block at `addr`. -/
def putHeader (mem : Ptr) (addr : Nat) : Ptr :=
  let crc := crc32 ((mem.add (addr + config.dataOffset)).bytes config.envSize)
  let mem := mem.write addr 4 (Ptr.ofList (leBytes 4 crc.toNat))
  if config.redundant && config.addrRedund then mem.write (addr + 4) 1 fun _ => ACTIVE_FLAG
  else mem

/-- `do_env_export`: the memory, and the value of `filesize` when it succeeds. The size
is 0 when `-s` is not given. -/
def doEnvExport (format : Format) (size addr : Nat) (names : List Str) (htab : HsearchData)
    (mem : Ptr) : Option (Ptr × Option Nat) := do
  let mem := if size ≠ 0 then clear mem addr size else mem
  match format with
  | .text =>
    match ← hexportTo htab chLf names size mem addr with
    | .error _ => return (mem, none)
    | .ok (mem, len) => return (mem, some len)
  | .binary =>
    match ← hexportTo htab 0 names config.envSize mem addr with
    | .error _ => return (mem, none)
    | .ok (mem, len) => return (mem, some (len + config.dataOffset))
  | .checksum =>
    match ← hexportTo htab 0 names config.envSize mem (addr + config.dataOffset) with
    | .error _ => return (mem, none)
    | .ok (mem, len) =>
      return (putHeader crc32 config mem addr, some (len + config.dataOffset))

/-! ### Import -/

/-- The loop that looks for the separator followed by NUL. -/
def scanEnd (sep : UInt8) (mem : Ptr) (ptr : Nat) : Nat → Nat → Nat
  | 0, size => size
  | fuel + 1, size =>
    if mem (ptr + size) = sep ∧ mem (ptr + size + 1) = 0 then size
    else scanEnd sep mem ptr fuel (size + 1)

/-- The size of the input; the checksum format needs the argument. -/
def inputSize (format : Format) (mem : Ptr) (addr : Nat) : Option Nat → Option Nat
  | some size => some size
  | none =>
    if format = .checksum then none
    else some (scanEnd format.sep mem addr MAX_ENV_SIZE 0 + 2)

/-- The call of `himport_r`: the return value of the command and the table. -/
def importAt (ctx : Context) (target : HsearchData) (format : Format) (delete crlf : Bool)
    (mem : Ptr) (ptr size : Nat) : Option (Nat × HsearchData) := do
  let (ret, htab) ← himportR ctx target ((mem.add ptr).bytes size) format.sep
    (if delete then 0 else H_NOCLEAR) (crlf && format = .text) [] true true
  return (if ret = 0 then 1 else 0, htab)

/-- `do_env_import`, with `-d` as `delete` and `-r` as `crlf`. -/
def doEnvImport (ctx : Context) (target : HsearchData) (format : Format) (delete crlf : Bool)
    (mem : Ptr) (addr : Nat) (sizeArg : Option Nat) : Option (Nat × HsearchData) :=
  match inputSize format mem addr sizeArg with
  | none => some (1, target)
  | some size =>
    if format = .checksum then
      let size := (size + 4294967296 - config.dataOffset) % 4294967296
      let data := addr + config.dataOffset
      let crc := crc32 ((mem.add data).bytes size)
      if leBytes 4 crc.toNat ≠ (mem.add addr).bytes 4 then some (1, target)
      else importAt ctx target format delete crlf mem data size
    else importAt ctx target format delete crlf mem addr size

end Commands

/-! ### What is exported -/

/-- The variables that the command exports: all, or those that are named. -/
def exported (htab : HsearchData) (names : List Str) : List (Str × Str) :=
  htab.entries.filter fun e => names = [] ∨ names.contains e.1

section Exported

variable {sep : UInt8} {htab : HsearchData}

theorem collectEntries_exported (h : EnvTable sep htab) (names : List Str) :
    collectEntries htab 0 (matchEntry names) = some (exported htab names) := by
  refine h.collectEntries_matched _ (fun key => names = [] ∨ names.contains key) fun entry key hkey => ?_
  rw [matchEntry]
  split
  · next hnil => simp [hnil]
  · next hne =>
      simp only [Option.all_some, hkey]
      rw [Bool.eq_iff_iff]
      simp [hne]

theorem exported_good (h : EnvTable sep htab) (names : List Str) :
    ∀ e ∈ exported htab names, GoodKey sep e.1 ∧ GoodValue e.2 :=
  fun e he => h.good_entries e (List.mem_of_mem_filter he)

theorem exported_nodup (h : EnvTable sep htab) (names : List Str) :
    ((exported htab names).map Prod.fst).Nodup :=
  h.nodup_keys.sublist (List.filter_sublist.map _)

theorem mem_exported (h : EnvTable sep htab) (names : List Str) {key value : Str} :
    (key, value) ∈ exported htab names ↔ Stores htab key value ∧ (names = [] ∨ key ∈ names) := by
  rw [exported, List.mem_filter, h.mem_entries, decide_eq_true_eq, List.contains_iff_mem]

/-- The length that pass 1 computes. -/
def totlen (sep : UInt8) (entries : List (Str × Str)) : Nat :=
  (entries.map (reservedLength sep)).sum

theorem hexportTo_eq (h : EnvTable sep htab) (names : List Str) (size : Nat) (mem : Ptr)
    (res : Nat) :
    hexportTo htab sep names size mem res =
      some (if size ≠ 0 ∧ size < totlen sep (exported htab names) + 1 then .error .enomem
        else .ok (putAt mem res (bufferSize sep (exported htab names) size)
            (exportText sep (exported htab names)), bufferSize sep (exported htab names) size)) := by
  rw [hexportTo, collectEntries_exported h]
  simp only [Option.bind_eq_bind, Option.bind_some, Option.pure_def]
  exact (apply_ite some _ _ _).symm

end Exported

/-! ### The memory after an export -/

def Format.textAt (format : Format) (config : Config) (addr : Nat) : Nat :=
  if format = .checksum then addr + config.dataOffset else addr

/-- The size that `hexport_r` is called with. -/
def Format.capacity (format : Format) (config : Config) (size : Nat) : Nat :=
  if format = .text then size else config.envSize

/-- What is written besides the text. -/
def Format.finish (format : Format) (crc32 : List UInt8 → UInt32) (config : Config) (mem : Ptr)
    (addr : Nat) : Ptr :=
  if format = .checksum then putHeader crc32 config mem addr else mem

/-- The value of `filesize`. -/
def Format.filesize (format : Format) (config : Config) (len : Nat) : Nat :=
  if format = .text then len else len + config.dataOffset

/-- The check of pass 1 fails. -/
def Refused (format : Format) (config : Config) (size : Nat) (entries : List (Str × Str)) : Prop :=
  format.capacity config size ≠ 0 ∧ format.capacity config size < totlen format.sep entries + 1

instance (format : Format) (config : Config) (size : Nat) (entries : List (Str × Str)) :
    Decidable (Refused format config size entries) :=
  inferInstanceAs (Decidable (_ ∧ _))

def exportedMemory (crc32 : List UInt8 → UInt32) (config : Config) (format : Format)
    (size addr : Nat) (entries : List (Str × Str)) (mem : Ptr) : Ptr :=
  format.finish crc32 config
    (putAt (if size ≠ 0 then clear mem addr size else mem) (format.textAt config addr)
      (bufferSize format.sep entries (format.capacity config size))
      (exportText format.sep entries)) addr

section Memory

variable {crc32 : List UInt8 → UInt32} {config : Config} {format : Format} {size addr : Nat}
  {names : List Str} {htab : HsearchData} {entries : List (Str × Str)} {mem : Ptr}

theorem doEnvExport_eq (h : EnvTable format.sep htab) (names : List Str) (size addr : Nat)
    (mem : Ptr) :
    doEnvExport crc32 config format size addr names htab mem =
      some (if Refused format config size (exported htab names) then
          (if size ≠ 0 then clear mem addr size else mem, none)
        else (exportedMemory crc32 config format size addr (exported htab names) mem,
          some (format.filesize config
            (bufferSize format.sep (exported htab names) (format.capacity config size))))) := by
  cases format with
  | text =>
    have hexport := @hexportTo_eq chLf htab h names size
    rw [doEnvExport, hexport]
    by_cases hrefused : size ≠ 0 ∧ size < totlen chLf (exported htab names) + 1
    · rw [if_pos hrefused, if_pos (show Refused .text config size _ from hrefused)]
      rfl
    · rw [if_neg hrefused, if_neg (show ¬Refused .text config size _ from hrefused)]
      rfl
  | binary =>
    have hexport := @hexportTo_eq 0 htab h names config.envSize
    rw [doEnvExport, hexport]
    by_cases hrefused : config.envSize ≠ 0 ∧ config.envSize < totlen 0 (exported htab names) + 1
    · rw [if_pos hrefused, if_pos (show Refused .binary config size _ from hrefused)]
      rfl
    · rw [if_neg hrefused, if_neg (show ¬Refused .binary config size _ from hrefused)]
      rfl
  | checksum =>
    have hexport := @hexportTo_eq 0 htab h names config.envSize
    rw [doEnvExport, hexport]
    by_cases hrefused : config.envSize ≠ 0 ∧ config.envSize < totlen 0 (exported htab names) + 1
    · rw [if_pos hrefused, if_pos (show Refused .checksum config size _ from hrefused)]
      rfl
    · rw [if_neg hrefused, if_neg (show ¬Refused .checksum config size _ from hrefused)]
      rfl

theorem putText_text (mem : Ptr) (res size : Nat) (text : List UInt8) :
    ((putText mem res size text).add res).bytes text.length = text := by
  rw [putText, Ptr.bytes_write_self, Ptr.bytes_ofList]

theorem dataOffset_cases (config : Config) :
    config.dataOffset = 4 ∧ config.redundant = false ∨
      config.dataOffset = 5 ∧ config.redundant = true := by
  unfold Config.dataOffset
  cases config.redundant <;> simp

/-- The header does not touch what lies behind it. -/
theorem putHeader_outside {a : Nat} (h : a < addr ∨ addr + config.dataOffset ≤ a) :
    putHeader crc32 config mem addr a = mem a := by
  have hwrite : ∀ crc : Ptr, mem.write addr 4 crc a = mem a := by
    intro crc
    rw [Ptr.write, if_neg]
    rcases dataOffset_cases config with ⟨hoff, -⟩ | ⟨hoff, -⟩ <;> omega
  rw [putHeader]
  split
  · next hflag =>
      rcases dataOffset_cases config with ⟨-, hred⟩ | ⟨hoff, -⟩
      · simp [hred] at hflag
      · rw [Ptr.write, if_neg (by omega), hwrite]
  · exact hwrite _

theorem exportedMemory_text (hplace : format.textAt config addr ≠ 0) :
    ((exportedMemory crc32 config format size addr entries mem).add
      (format.textAt config addr)).bytes (exportText format.sep entries).length =
        exportText format.sep entries := by
  rw [exportedMemory, putAt, if_neg hplace, Format.finish]
  split
  · next hformat =>
      have hbehind : ∀ mem : Ptr, ∀ n, ((putHeader crc32 config mem addr).add
          (format.textAt config addr)).bytes n = (mem.add (format.textAt config addr)).bytes n := by
        intro mem n
        apply Ptr.bytes_congr
        intro i _
        rw [Format.textAt, if_pos hformat]
        exact putHeader_outside (by omega)
      rw [hbehind, putText_text]
  · exact putText_text _ _ _ _

end Memory

end UBoot.Env.Export
