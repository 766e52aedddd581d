import Mathlib.Data.Finset.Card
import Mathlib.Data.Finset.Range
import UBoot.Ext4.Groups

/-!
# Positions in a bitmap

The search of the first passes finds the least position that is clear, a bit that is
set takes one position away, and a field of a group descriptor keeps its value when
another field is stored.
-/

namespace UBoot.Ext4

open Verification

/-! ## Bitmaps -/

/-- The bit at a position of a bitmap is clear. -/
def Clear (p : Ptr) (pos : Nat) : Prop := bitSet p (pos / 8) (pos % 8) = false

instance (p : Ptr) : DecidablePred (Clear p) := fun _ => inferInstanceAs (Decidable (_ = _))

/-- The number of positions in the first `n` that are clear. -/
def clearCount (p : Ptr) (n : Nat) : Nat := ((Finset.range n).filter (Clear p)).card

section

variable {p q : Ptr} {byte bit pos n : Nat}

theorem clear_at (hbit : bit < 8) : Clear p (8 * byte + bit) ↔ bitSet p byte bit = false := by
  rw [Clear, show (8 * byte + bit) / 8 = byte by omega, show (8 * byte + bit) % 8 = bit by omega]

theorem clear_zero (pos : Nat) : Clear (fun _ => 0) pos := Nat.zero_testBit _

theorem bitSet_setBit_of_ne {byte' bit' : Nat} (hbit : bit < 8)
    (hne : (byte', bit') ≠ (byte, bit)) :
    bitSet (setBit p byte bit) byte' bit' = bitSet p byte' bit' := by
  unfold bitSet
  rw [setBit, Ptr.write]
  split_ifs with heq
  · obtain rfl : byte' = byte := by omega
    have hne' : bit ≠ bit' := fun heq => hne (by rw [heq])
    have hpow : 2 ^ bit < 2 ^ 8 := Nat.pow_lt_pow_right (by decide) hbit
    rw [UInt8.toNat_or, Nat.testBit_or, UInt8.toNat_ofNat_of_lt' hpow,
      Nat.testBit_two_pow_of_ne hne', Bool.or_false]
  · rfl

/-- A bit that is set makes its own position unclear, and no other one. -/
theorem clear_setBit (hbit : bit < 8) :
    Clear (setBit p byte bit) pos ↔ Clear p pos ∧ pos ≠ 8 * byte + bit := by
  by_cases heq : pos = 8 * byte + bit
  · rw [heq, clear_at hbit, bitSet_setBit_self hbit]
    simp
  · have hne : (pos / 8, pos % 8) ≠ (byte, bit) := by
      intro h
      rw [Prod.mk.injEq] at h
      omega
    rw [Clear, bitSet_setBit_of_ne hbit hne]
    exact (and_iff_left heq).symm

theorem bitSet_clearBit {byte' bit' : Nat} (hbit : bit < 8) (hbit' : bit' < 8) :
    bitSet (clearBit p byte bit) byte' bit' =
      (bitSet p byte' bit' && decide ((byte', bit') ≠ (byte, bit))) := by
  have hpow : 2 ^ bit < 2 ^ 8 := Nat.pow_lt_pow_right (by decide) hbit
  unfold bitSet
  rw [clearBit, Ptr.write]
  split_ifs with heq
  · obtain rfl : byte' = byte := by omega
    have hnot : (~~~UInt8.ofNat (2 ^ bit)).toNat = 2 ^ 8 - (2 ^ bit + 1) := by
      rw [UInt8.toNat_not, UInt8.toNat_ofNat_of_lt' hpow]
      change 256 - 1 - 2 ^ bit = 256 - (2 ^ bit + 1)
      omega
    rw [UInt8.toNat_and, Nat.testBit_and, hnot, Nat.testBit_two_pow_sub_succ hpow,
      Nat.testBit_two_pow, decide_eq_true hbit', Bool.true_and, ← decide_not]
    congr 2
    simp [eq_comm]
  · have hne : (byte', bit') ≠ (byte, bit) := by
      intro h
      rw [Prod.mk.injEq] at h
      omega
    rw [decide_eq_true hne, Bool.and_true]

/-- A bit that is cleared makes its own position clear, and changes no other one. -/
theorem clear_clearBit (hbit : bit < 8) :
    Clear (clearBit p byte bit) pos ↔ Clear p pos ∨ pos = 8 * byte + bit := by
  rw [Clear, bitSet_clearBit hbit (Nat.mod_lt _ (by decide)), Bool.and_eq_false_iff,
    decide_eq_false_iff_not, not_not, Prod.mk.injEq]
  exact or_congr_right (by omega)

theorem clearCount_setBit (hbit : bit < 8) (hpos : 8 * byte + bit < n)
    (hclear : Clear p (8 * byte + bit)) :
    clearCount (setBit p byte bit) n + 1 = clearCount p n := by
  have hfilter : (Finset.range n).filter (Clear (setBit p byte bit)) =
      ((Finset.range n).filter (Clear p)).erase (8 * byte + bit) := by
    ext i
    rw [Finset.mem_erase, Finset.mem_filter, Finset.mem_filter, clear_setBit hbit]
    exact ⟨fun h => ⟨h.2.2, h.1, h.2.1⟩, fun h => ⟨h.2.1, h.2.2, h.1⟩⟩
  have hmem : 8 * byte + bit ∈ (Finset.range n).filter (Clear p) :=
    Finset.mem_filter.mpr ⟨Finset.mem_range.mpr hpos, hclear⟩
  rw [clearCount, clearCount, hfilter, Finset.card_erase_add_one hmem]

theorem clearCount_eq_zero : clearCount p n = 0 ↔ ∀ i < n, ¬Clear p i := by
  rw [clearCount, Finset.card_eq_zero, Finset.filter_eq_empty_iff]
  simp only [Finset.mem_range]

theorem clearCount_congr (h : ∀ i < n, Clear p i ↔ Clear q i) :
    clearCount p n = clearCount q n := by
  rw [clearCount, clearCount]
  congr 1
  apply Finset.filter_congr
  intro i hi
  exact h i (Finset.mem_range.mp hi)

theorem testBit_255 (bit : Nat) : (255 : UInt8).toNat.testBit bit = decide (bit < 8) :=
  Nat.testBit_two_pow_sub_one 8 bit

/-- A byte of ones has no clear position. -/
theorem not_clear_of_full (hfull : p (pos / 8) = 255) : ¬Clear p pos := by
  rw [Clear, bitSet, hfull, testBit_255, decide_eq_true (Nat.mod_lt _ (by decide))]
  decide

/-- A byte with another value has one. -/
theorem exists_clear_of_ne (hne : p byte ≠ 255) : ∃ bit < 8, bitSet p byte bit = false := by
  by_contra hno
  push Not at hno
  refine hne (UInt8.toNat_inj.mp (Nat.eq_of_testBit_eq fun i => ?_))
  obtain hlt | hge := Nat.lt_or_ge i 8
  · rw [testBit_255, decide_eq_true hlt]
    exact Bool.not_eq_false _ ▸ hno i hlt
  · have hpow : (p byte).toNat < 2 ^ i :=
      Nat.lt_of_lt_of_le (p byte).toNat_lt (Nat.pow_le_pow_right (by decide) hge)
    have hpow' : (255 : UInt8).toNat < 2 ^ i :=
      Nat.lt_of_lt_of_le (by decide) (Nat.pow_le_pow_right (by decide) hge)
    rw [Nat.testBit_lt_two_pow hpow, Nat.testBit_lt_two_pow hpow']

/-- The search finds the least position that is clear. -/
theorem firstZero_least {from' : Nat} (h : firstZero p n from' = some (byte, bit)) :
    ∀ pos, 8 * from' ≤ pos → Clear p pos → 8 * byte + bit ≤ pos := by
  induction n generalizing from' with
  | zero => exact nomatch h
  | succ n ih =>
    intro pos hpos hclear
    unfold firstZero at h
    split_ifs at h with hfull
    · refine ih h pos ?_ hclear
      by_contra hlt
      have heq : pos / 8 = from' := by omega
      exact not_clear_of_full (heq.symm ▸ hfull) hclear
    · obtain ⟨bit', hfind, heq⟩ := Option.map_eq_some_iff.mp h
      cases heq
      by_contra hlt
      have hbit := List.mem_range.mp (List.mem_of_find?_eq_some hfind)
      have hdiv : pos / 8 = byte := by omega
      have hbefore : pos % 8 < bit := by omega
      rw [Clear, hdiv] at hclear
      have hset := (List.find?_range_eq_some.mp hfind).2.2 _ hbefore
      simp [hclear] at hset

theorem firstZero_none {from' : Nat} (h : firstZero p n from' = none) :
    ∀ pos, 8 * from' ≤ pos → pos < 8 * (from' + n) → ¬Clear p pos := by
  induction n generalizing from' with
  | zero => exact fun pos hlow hhigh => absurd hhigh (by omega)
  | succ n ih =>
    intro pos hlow hhigh
    unfold firstZero at h
    split_ifs at h with hfull
    · obtain heq | hne := eq_or_ne (pos / 8) from'
      · exact not_clear_of_full (heq.symm ▸ hfull)
      · exact ih h pos (by omega) (by omega)
    · obtain ⟨bit, hbit, hclear⟩ := exists_clear_of_ne hfull
      rw [Option.map_eq_none_iff, List.find?_eq_none] at h
      exact absurd (decide_eq_true hclear) (h bit (List.mem_range.mpr hbit))

end

/-! ## The log -/

section

variable {L : Layout} {s s' : Session} {g : Nat}

theorem logBlock_eq {blknr : UInt32} (h : logBlock L s blknr = some s') :
    ∃ journal, s' = { s with journal := journal } := by
  obtain ⟨journal, -, rfl⟩ := Option.map_eq_some_iff.mp h
  exact ⟨journal, rfl⟩

theorem logBitmap_eq {gate : Gate} {blknr : UInt32}
    (h : logBitmap L gate g blknr s = some s') :
    ∃ journal prevIndex, s' = { s with journal := journal, prevIndex := prevIndex } := by
  rw [logBitmap] at h
  split_ifs at h
  · exact ⟨s.journal, s.prevIndex, (Option.some.inj h).symm⟩
  · obtain ⟨s₁, hlog, rfl⟩ := Option.map_eq_some_iff.mp h
    obtain ⟨journal, rfl⟩ := logBlock_eq hlog
    exact ⟨journal, _, rfl⟩

end

/-! ## Fields of group descriptors -/

section

variable (p : Ptr) {i j a b : Nat} (x : UInt16)

theorem le16At_congr {p q : Ptr} {offset : Nat} (h : ∀ k < 2, p (offset + k) = q (offset + k)) :
    le16At p offset = le16At q offset := by
  rw [le16At, le16At, @Ptr.bytes_congr (p.add offset) (q.add offset) 2 h]

theorem le32At_congr {p q : Ptr} {offset : Nat} (h : ∀ k < 4, p (offset + k) = q (offset + k)) :
    le32At p offset = le32At q offset := by
  rw [le32At, le32At, @Ptr.bytes_congr (p.add offset) (q.add offset) 4 h]

theorem le16At_setLe16 (offset : Nat) : le16At (setLe16 p offset x) offset = x := by
  have hbytes : ((setLe16 p offset x).add offset).bytes 2 = leBytes 2 x.toNat := by
    rw [setLe16, Ptr.bytes_write_self]
    have hlen := length_leBytes 2 x.toNat
    conv => lhs; arg 2; rw [← hlen]
    exact Ptr.bytes_ofList _
  rw [le16At, hbytes, leValue_leBytes,
    Nat.mod_eq_of_lt (show x.toNat < 256 ^ 2 from x.toNat_lt), UInt16.ofNat_toNat]

/-- A byte outside of the field. -/
theorem setLe16_of_ne {offset k : Nat} (h : k < offset ∨ offset + 2 ≤ k) :
    setLe16 p offset x k = p k :=
  if_neg (by omega)

theorem le16At_setLe16_of_ne {offset offset' : Nat}
    (h : offset' + 2 ≤ offset ∨ offset + 2 ≤ offset') :
    le16At (setLe16 p offset x) offset' = le16At p offset' :=
  le16At_congr fun k hk => setLe16_of_ne p x (by omega)

theorem le32At_setLe16_of_ne {offset offset' : Nat}
    (h : offset' + 4 ≤ offset ∨ offset + 2 ≤ offset') :
    le32At (setLe16 p offset x) offset' = le32At p offset' :=
  le32At_congr fun k hk => setLe16_of_ne p x (by omega)

end

end UBoot.Ext4
