import UBoot.Ext4.Session
import UBoot.Ext4.RoundTrip

/-!
# The bits of the bitmaps

The search for a bit finds one that is not set, and a block is found again from the group
and the bit that the code computes for it.
-/

namespace UBoot.Ext4

open Verification

/-! ## Bits -/

section

variable {p q : Ptr} {byte bit byte' bit' : Nat}

theorem bitSet_setBit_self (hbit : bit < 8) : bitSet (setBit p byte bit) byte bit = true := by
  have hpow : 2 ^ bit < 2 ^ 8 := Nat.pow_lt_pow_right (by decide) hbit
  rw [bitSet, setBit, Ptr.write, if_pos (by omega), UInt8.toNat_or, Nat.testBit_or,
    UInt8.toNat_ofNat_of_lt' hpow, Nat.testBit_two_pow_self, Bool.or_true]

theorem firstZero_spec {n from' : Nat} (h : firstZero p n from' = some (byte, bit)) :
    bitSet p byte bit = false ∧ bit < 8 ∧ byte < from' + n := by
  induction n generalizing from' with
  | zero => exact nomatch h
  | succ n ih =>
    unfold firstZero at h
    split_ifs at h with hfull
    · obtain ⟨hset, hbit, hbyte⟩ := ih h
      exact ⟨hset, hbit, by omega⟩
    · obtain ⟨bit', hfind, heq⟩ := Option.map_eq_some_iff.mp h
      cases heq
      have hset := List.find?_some hfind
      have hmem := List.mem_of_find?_eq_some hfind
      exact ⟨of_decide_eq_true hset, List.mem_range.mp hmem, by omega⟩

end

/-! ## Blocks -/

section

variable {L : Layout}

/-- One for volumes with blocks of 1024 bytes, whose groups start at block 1. -/
def firstDataBlock (L : Layout) : Nat := if L.blksz = 1024 then 1 else 0

/-- A block is found again from its group, byte and bit. -/
theorem blockBit_bgIdx (hblksz : 0 < L.blksz) (hgroup : L.blkPerGrp = 8 * L.blksz) {b : Nat}
    (hb : firstDataBlock L ≤ b) :
    (blockBit L b (bgIdx L b)).2 < 8 ∧ (blockBit L b (bgIdx L b)).1 < L.blksz ∧
      b = 8 * (bgIdx L b * L.blksz + (blockBit L b (bgIdx L b)).1) +
        (blockBit L b (bgIdx L b)).2 + firstDataBlock L := by
  unfold blockBit bgIdx firstDataBlock at *
  dsimp only
  by_cases h1024 : L.blksz = 1024
  · simp only [hgroup, h1024, true_and, ne_eq, not_true_eq_false, if_false, if_true] at hb ⊢
    split_ifs <;> dsimp only <;> omega
  · simp only [h1024, false_and, if_false, ne_eq, not_false_eq_true, if_true, hgroup]
    have hdiv := Nat.div_add_mod b (8 * L.blksz)
    have hmod := Nat.mod_lt b (show 0 < 8 * L.blksz by omega)
    rw [Nat.mul_assoc, Nat.mul_comm L.blksz] at hdiv
    generalize b / (8 * L.blksz) * L.blksz = X at hdiv ⊢
    omega

end

end UBoot.Ext4
