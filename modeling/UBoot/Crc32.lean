import Mathlib.Data.Nat.Bitwise
import Mathlib.Data.UInt
import Mathlib.Logic.Function.Iterate
import Mathlib.Tactic.Common

/-!
# The check sum of `lib/crc32.c`

The sum of a text, and texts whose sums differ: a change of one byte is always noticed.
-/

namespace UBoot

/-- One step of the table of `lib/crc32.c`. -/
def crcBit (crc : UInt32) : UInt32 :=
  if crc &&& 1 = 1 then (crc >>> 1) ^^^ 0xEDB88320 else crc >>> 1

/-- `crc32` of `lib/crc32.c`, from an initial value of 0. -/
def crc32 (bytes : List UInt8) : UInt32 :=
  bytes.foldl (fun crc c => Nat.iterate crcBit 8 (crc ^^^ c.toUInt32)) 0xFFFFFFFF ^^^ 0xFFFFFFFF

example : crc32 [49, 50, 51, 52, 53, 54, 55, 56, 57] = 0xCBF43926 := by decide +kernel

/-- The sum of some bytes before its bits are inverted. -/
def crcState (crc : UInt32) (bytes : List UInt8) : UInt32 :=
  bytes.foldl (fun crc c => Nat.iterate crcBit 8 (crc ^^^ c.toUInt32)) crc

theorem toNat_shiftRight_one (c : UInt32) : (c >>> 1).toNat = c.toNat / 2 := by
  rw [UInt32.toNat_shiftRight]
  exact Nat.shiftRight_eq_div_pow _ _

theorem crcBit_injective : Function.Injective crcBit := by
  have htop : ∀ c : UInt32, (crcBit c).toNat.testBit 31 = decide (c &&& 1 = 1) := by
    intro c
    have hhalf : (c >>> 1).toNat.testBit 31 = false := by
      apply Nat.testBit_lt_two_pow
      have := c.toNat_lt
      rw [toNat_shiftRight_one]
      omega
    rw [crcBit]
    split
    · rename_i hodd
      rw [UInt32.toNat_xor, Nat.testBit_xor, hhalf]
      simp [hodd]
      decide
    · rename_i heven
      rw [hhalf]
      simp [heven]
  intro a b hab
  have hodd : (a &&& 1 = 1) ↔ (b &&& 1 = 1) := by
    have := (htop a).symm.trans ((congrArg (fun c => c.toNat.testBit 31) hab).trans (htop b))
    simpa using this
  have hhalf : a >>> 1 = b >>> 1 := by
    simp only [crcBit] at hab
    by_cases ha : a &&& 1 = 1
    · rw [if_pos ha, if_pos (hodd.mp ha)] at hab
      exact (UInt32.xor_left_inj _).mp hab
    · rw [if_neg ha, if_neg fun hb => ha (hodd.mpr hb)] at hab
      exact hab
  have hone : (1 : UInt32).toNat = 1 := rfl
  have hdiv : a.toNat / 2 = b.toNat / 2 := by
    rw [← toNat_shiftRight_one, ← toNat_shiftRight_one, hhalf]
  have hmod : ∀ c : UInt32, c &&& 1 = 1 ↔ c.toNat % 2 = 1 := by
    intro c
    rw [← UInt32.toNat_inj, UInt32.toNat_and, hone, Nat.and_one_is_mod]
  rw [hmod, hmod] at hodd
  apply UInt32.toNat_inj.mp
  omega

theorem crcState_injective (bytes : List UInt8) :
    Function.Injective fun crc => crcState crc bytes := by
  induction bytes with
  | nil => exact Function.injective_id
  | cons c bytes ih =>
    intro a b hab
    have hstep := ih hab
    exact (UInt32.xor_left_inj _).mp (crcBit_injective.iterate 8 hstep)

/-- A change of one byte changes the sum. -/
theorem crcState_byte_ne (crc : UInt32) (front : List UInt8) {a b : UInt8} (hab : a ≠ b)
    (rest : List UInt8) : crcState crc (front ++ a :: rest) ≠ crcState crc (front ++ b :: rest) := by
  intro heq
  simp only [crcState, List.foldl_append, List.foldl_cons] at heq
  have hstep := crcBit_injective.iterate 8 (crcState_injective rest heq)
  have hbytes : a.toUInt32 = b.toUInt32 := (UInt32.xor_right_inj _).mp hstep
  apply hab
  apply UInt8.toNat_inj.mp
  have := congrArg UInt32.toNat hbytes
  rwa [UInt8.toNat_toUInt32, UInt8.toNat_toUInt32] at this

/-- Different sums stay different when the same bytes follow. -/
theorem crc32_append_ne {a b : List UInt8} (rest : List UInt8)
    (h : crcState 0xFFFFFFFF a ≠ crcState 0xFFFFFFFF b) : crc32 (a ++ rest) ≠ crc32 (b ++ rest) := by
  intro heq
  have hstate : crcState 0xFFFFFFFF (a ++ rest) = crcState 0xFFFFFFFF (b ++ rest) :=
    (UInt32.xor_left_inj _).mp heq
  simp only [crcState, List.foldl_append] at hstate
  exact h (crcState_injective rest hstate)

/-! ### Sums of many bytes -/

/-- The states of the sum after every 32 bytes. -/
def CrcRun : UInt32 → List UInt8 → List UInt32 → Prop
  | _, bytes, [] => bytes = []
  | crc, bytes, next :: states =>
    crcState crc (bytes.take 32) = next ∧ CrcRun next (bytes.drop 32) states

instance CrcRun.decidable : ∀ crc bytes states, Decidable (CrcRun crc bytes states)
  | _, bytes, [] => inferInstanceAs (Decidable (bytes = []))
  | _, bytes, next :: states =>
    have : Decidable (CrcRun next (bytes.drop 32) states) := CrcRun.decidable _ _ states
    inferInstanceAs (Decidable (_ ∧ _))

theorem CrcRun.crcState_eq {crc : UInt32} {bytes : List UInt8} {states : List UInt32}
    (run : CrcRun crc bytes states) : crcState crc bytes = states.getLastD crc := by
  induction states generalizing crc bytes with
  | nil =>
    obtain rfl : bytes = [] := run
    rfl
  | cons next states ih =>
    obtain ⟨hnext, run⟩ := run
    rw [List.getLastD_cons, ← ih run, ← hnext]
    nth_rewrite 1 [← List.take_append_drop 32 bytes]
    exact List.foldl_append

theorem CrcRun.crc32_eq {bytes : List UInt8} {states : List UInt32}
    (run : CrcRun 0xFFFFFFFF bytes states) :
    crc32 bytes = states.getLastD 0xFFFFFFFF ^^^ 0xFFFFFFFF := by
  rw [← run.crcState_eq]
  rfl

end UBoot
