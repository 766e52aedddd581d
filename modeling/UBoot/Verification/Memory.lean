import Mathlib.Data.UInt
import Mathlib.Tactic.Common

/-!
# Bytes in memory from a load address on

Addresses have 32 bits and are relative to the load address.
-/

namespace Verification

/-- The first `n` of some bytes are in memory. -/
def Stored (mem : UInt32 → UInt8) (bytes : List UInt8) (n : Nat) : Prop :=
  ∀ i < n, bytes[i]? = some (mem (UInt32.ofNat i))

theorem stored_zero (mem : UInt32 → UInt8) (bytes : List UInt8) : Stored mem bytes 0 :=
  fun i hi => absurd hi (Nat.not_lt_zero i)

theorem Stored.of_prefix {mem : UInt32 → UInt8} {bytes first : List UInt8}
    (h : Stored mem bytes bytes.length) (hp : first <+: bytes) :
    Stored mem first first.length := by
  intro i hi
  obtain ⟨rest, rfl⟩ := hp
  have hi' : i < (first ++ rest).length := by
    rw [List.length_append]
    omega
  rw [← h i hi', List.getElem?_append_left hi]

theorem ofNat_toNat_lt {i : Nat} (h : i < 4294967296) : (UInt32.ofNat i).toNat = i := by
  rw [UInt32.toNat_ofNat']
  omega

/-- One more byte is written behind the others. -/
theorem Stored.write {mem : UInt32 → UInt8} {bytes : List UInt8}
    (h : Stored mem bytes bytes.length) (c : UInt8) (hlen : bytes.length < 4294967296) :
    Stored (fun q => if q = UInt32.ofNat bytes.length then c else mem q) (bytes ++ [c])
      (bytes.length + 1) := by
  intro i hi
  obtain hlt | rfl : i < bytes.length ∨ i = bytes.length := by omega
  · have hne : UInt32.ofNat i ≠ UInt32.ofNat bytes.length := by
      intro heq
      have := congrArg UInt32.toNat heq
      rw [ofNat_toNat_lt (by omega), ofNat_toNat_lt hlen] at this
      omega
    simp only [List.getElem?_append_left hlt, if_neg hne]
    exact h i hlt
  · simp

/-- A block is written behind the first `offset` bytes. -/
theorem Stored.block {mem : UInt32 → UInt8} {bytes src : List UInt8} {offset len : UInt32}
    (stored : Stored mem bytes offset.toNat) (hle : offset.toNat + len.toNat ≤ bytes.length)
    (hsize : bytes.length < 4294967296)
    (hsrc : src.take len.toNat = (bytes.drop offset.toNat).take len.toNat) :
    Stored (fun q => if q - offset < len then src.getD (q - offset).toNat 0 else mem q) bytes
      (offset.toNat + len.toNat) := by
  intro i hi
  have hi' : (UInt32.ofNat i).toNat = i := ofNat_toNat_lt (by omega)
  have hget : bytes[i]? = some bytes[i] := List.getElem?_eq_getElem (by omega)
  by_cases hold : i < offset.toNat
  · have hout : ¬UInt32.ofNat i - offset < len := by
      rw [UInt32.lt_iff_toNat_lt, UInt32.toNat_sub, hi']
      omega
    simp only [if_neg hout]
    exact stored i hold
  · have hk : (UInt32.ofNat i - offset).toNat = i - offset.toNat := by
      rw [UInt32.toNat_sub, hi']
      have := offset.toNat_lt
      omega
    have hin : UInt32.ofNat i - offset < len := by
      rw [UInt32.lt_iff_toNat_lt, hk]
      omega
    have hsome : src[i - offset.toNat]? = some bytes[i] := by
      have hcongr := congrArg (·[i - offset.toNat]?) hsrc
      simp only [List.getElem?_take, List.getElem?_drop] at hcongr
      rw [if_pos (by omega), if_pos (by omega)] at hcongr
      rw [hcongr, Nat.add_sub_cancel' (by omega), hget]
    simp only [if_pos hin, hk, List.getD_eq_getElem?_getD, hsome]
    exact hget

end Verification
