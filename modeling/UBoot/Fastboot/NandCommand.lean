import UBoot.Fastboot.WriteToPtn
import UBoot.Nand.Changes

/-!
# The `nand` commands of a call

`do_nand` of `common/cmd_nand.c` for the commands that `write_to_ptn` composes. The
offset and the size are numbers, and `dev` is the current device. A good block can be
erased, and a program error may happen anywhere.
-/

namespace UBoot.Fastboot.Ptn

open Verification UBoot.Nand

/-- The options of a write: `WITH_WR_VERIFY`, and with `.trimffs` also `WITH_DROP_FFS`. -/
def WriteType.flags : WriteType → Flags
  | .write | .writeI => ⟨false, true⟩
  | .writeTrimffs => ⟨true, true⟩

section

variable (nand : NandInfo)

/-- `arg_off_size` fails: the offset or the size exceeds the device. -/
def Refused (off len : UInt32) : Prop :=
  nand.size ≤ off.toNat ∨ nand.size - off.toNat < len.toNat

instance (off len : UInt32) : Decidable (Refused nand off len) :=
  inferInstanceAs (Decidable (_ ∨ _))

/-- A chip whose good blocks can be erased. -/
def erasable : Chip := ⟨0, fun _ => false, fun _ => false⟩

def afterErase (events : List EraseEvent) (flash : Flash) : Flash := fun q =>
  if .erase (blockStart nand q) true ∈ events then 0xFF else flash q

/-- `do_nand`; a write that needs more fuel changes nothing and fails. -/
def doNand (progFails : Nat → Bool) (buffer : Ptr) (fuel : Nat) : RunCommand
  | .unlock _ _, flash | .lock _ _, flash => (0, flash)
  | .erase off len, flash =>
    if Refused nand off len then (1, flash)
    else
      let (ret, events) := nandEraseOpts nand erasable (.plain off.toNat len.toNat)
      (if ret = 0 then 0 else 1, afterErase nand events flash)
  | .write type src off len, flash =>
    if Refused nand off len then (1, flash)
    else
      match nandWriteSkipBad nand progFails type.flags fuel off.toNat len
          (nand.size - off.toNat) (buffer.add src.toNat) flash with
      | some written => (if written.error = none then 0 else 1, written.flash)
      | none => (1, flash)

/-- The flash that a command erases or programs. -/
def Command.Touches (a : Nat) : Command → Prop
  | .erase off len => ¬Refused nand off len ∧ off.toNat ≤ a ∧ a < off.toNat + len.toNat ∧
      nand.bad (blockStart nand a) = false
  | .write _ _ off len => Programs nand off.toNat len.toNat a
  | .unlock _ _ | .lock _ _ => False

/-- What is known about the commands, and used in the following. -/
structure Runs (buffer : Ptr) (run : RunCommand) : Prop where
  unlock : ∀ off len flash, (run (.unlock off len) flash).2 = flash
  lock : ∀ off len flash, (run (.lock off len) flash).2 = flash
  erase : ∀ off len flash a, nand.erasesize ∣ off.toNat → nand.erasesize ∣ len.toNat →
    (Command.erase off len).Touches nand a → (run (.erase off len) flash).2 a = 0xFF
  erase_frame : ∀ off len flash a, nand.erasesize ∣ off.toNat → nand.erasesize ∣ len.toNat →
    ¬(Command.erase off len).Touches nand a → (run (.erase off len) flash).2 a = flash a
  write_frame : ∀ type src off len high flash a, EndsBy nand off.toNat len.toNat high →
    ¬(Command.write type src off len).Touches nand a →
    (run (.write type src off len) flash).2 a = flash a
  write : ∀ type src off len high flash, EndsBy nand off.toNat len.toNat high →
    (run (.write type src off len) flash).1 = 0 →
    ∃ pieces stop, Walk nand off.toNat len.toNat pieces stop ∧ stop ≤ nand.size ∧
      (Erased nand flash off.toNat stop →
        gather (run (.write type src off len) flash).2 pieces =
          (buffer.add src.toNat).bytes len.toNat)

end

section

variable {nand : NandInfo} {progFails : Nat → Bool} {buffer : Ptr} {fuel : Nat}

/-- Only the good blocks of the range are erased. -/
theorem doNand_erase {off len : UInt32} (hoff : nand.erasesize ∣ off.toNat)
    (hlen : nand.erasesize ∣ len.toNat) (flash : Flash) (a : Nat) :
    ((Command.erase off len).Touches nand a →
        (doNand nand progFails buffer fuel (.erase off len) flash).2 a = 0xFF) ∧
      (¬(Command.erase off len).Touches nand a →
        (doNand nand progFails buffer fuel (.erase off len) flash).2 a = flash a) := by
  rw [doNand, Command.Touches]
  by_cases href : Refused nand off len
  · rw [if_pos href]
    exact ⟨fun h => absurd href h.1, fun _ => rfl⟩
  · have hsize : off.toNat + len.toNat ≤ nand.size := by
      rw [Refused] at href
      omega
    have hmem := @mem_nandEraseOpts_plain nand erasable _ _ (fun _ => rfl) hoff hlen len.toNat_lt
      hsize a
    rw [if_neg href]
    exact ⟨fun h => if_pos (hmem.mpr h.2), fun h => if_neg fun hin => h ⟨href, hmem.mp hin⟩⟩

theorem doNand_write_frame {type : WriteType} {src off len : UInt32} {high : Nat} {flash : Flash}
    {a : Nat} (hends : EndsBy nand off.toNat len.toNat high)
    (ha : ¬Programs nand off.toNat len.toNat a) :
    (doNand nand progFails buffer fuel (.write type src off len) flash).2 a = flash a := by
  rw [doNand]
  by_cases href : Refused nand off len
  · rw [if_pos href]
  · rw [if_neg href]
    rw [Refused, not_or, not_le] at href
    split
    · rename_i written h
      by_cases hstays : Stays nand off.toNat len.toNat
      · obtain ⟨pieces, stop, hwalk, hsize⟩ := hstays
        refine (nandWriteSkipBad_changes hwalk (hends _ _ hwalk hsize).2.le h).1 a fun p hp => ?_
        by_contra hin
        exact ha ⟨pieces, stop, hwalk, hsize, p, hp, by omega, by omega⟩
      · rw [(nandWriteSkipBad_outside hstays href.1.le h).2]
    · rfl

theorem doNand_write {type : WriteType} {src off len : UInt32} {high : Nat} {flash : Flash}
    (hends : EndsBy nand off.toNat len.toNat high)
    (hok : (doNand nand progFails buffer fuel (.write type src off len) flash).1 = 0) :
    ∃ pieces stop, Walk nand off.toNat len.toNat pieces stop ∧ stop ≤ nand.size ∧
      (Erased nand flash off.toNat stop →
        gather (doNand nand progFails buffer fuel (.write type src off len) flash).2 pieces =
          (buffer.add src.toNat).bytes len.toNat) := by
  rw [doNand] at hok ⊢
  by_cases href : Refused nand off len
  · rw [if_pos href] at hok
    exact absurd hok Int.one_ne_zero
  · rw [if_neg href] at hok ⊢
    rw [Refused, not_or, not_le] at href
    split at hok
    · rename_i written h
      have herror : written.error = none := by
        by_contra hne
        rw [if_neg hne] at hok
        exact absurd hok Int.one_ne_zero
      obtain ⟨pieces, stop, hwalk, hsize⟩ : Stays nand off.toNat len.toNat := by
        by_contra hout
        exact (nandWriteSkipBad_outside hout href.1.le h).1 herror
      exact ⟨pieces, stop, hwalk, hsize,
        (nandWriteSkipBad_changes hwalk (hends _ _ hwalk hsize).2.le h).2 herror⟩
    · exact absurd hok Int.one_ne_zero

theorem runs_doNand : Runs nand buffer (doNand nand progFails buffer fuel) where
  unlock _ _ _ := rfl
  lock _ _ _ := rfl
  erase _ _ flash a hoff hlen := (doNand_erase hoff hlen flash a).1
  erase_frame _ _ flash a hoff hlen := (doNand_erase hoff hlen flash a).2
  write_frame _ _ _ _ _ _ _ hends ha := doNand_write_frame hends ha
  write _ _ _ _ _ _ hends hok := doNand_write hends hok

end

end UBoot.Fastboot.Ptn
