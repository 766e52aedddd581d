import UBoot.Gpt.RoundTrip

/-!
# Where `gpt_fill_pte` puts the partitions

A start is compared with a running offset, and the offset with the end of the usable
blocks. Both are sums of 32 bits, and an entry ends one block before the offset.
-/

namespace UBoot.Gpt

/-- The entries lie in the usable blocks, one behind the other. -/
structure LaidOut (h : GptHeader) (entries : List GptEntry) : Prop where
  inside : ∀ e ∈ entries, h.firstUsableLba ≤ e.startingLba ∧ e.startingLba ≤ e.endingLba ∧
    e.endingLba ≤ h.lastUsableLba
  apart : entries.Pairwise fun a b => a.endingLba < b.startingLba

/-- Only the last partition asks for the rest, and no sum of a start and a size leaves 32
bits. The last sum may be `2 ^ 32` when the usable blocks go on to the last number that 32
bits have. -/
def Unwrapped (last : UInt32) : UInt32 → List Partition → Prop
  | _, [] => True
  | offset, p :: parts =>
    let start := if p.start ≠ 0 then p.start else offset
    (p.size = 0 → parts = []) ∧
      (start.toNat + p.size.toNat < 2 ^ 32 ∨
        parts = [] ∧ start.toNat + p.size.toNat = 2 ^ 32 ∧ last.toNat = 2 ^ 32 - 1) ∧
      Unwrapped last (start + p.size) parts

instance Unwrapped.decidable (last : UInt32) :
    ∀ offset parts, Decidable (Unwrapped last offset parts)
  | _, [] => .isTrue trivial
  | offset, p :: parts =>
    have : Decidable (Unwrapped last ((if p.start ≠ 0 then p.start else offset) + p.size) parts) :=
      Unwrapped.decidable last _ parts
    inferInstanceAs (Decidable (_ ∧ _ ∧ _))

def endOf (h : GptHeader) (start size : UInt32) (parts : List Partition) : UInt64 :=
  if parts = [] ∧ size = 0 then h.lastUsableLba else (start + size - 1).toUInt64

section

variable {h : GptHeader} {start size : UInt32} {parts : List Partition}

/-- Without a wrap an entry ends where its blocks end, or with the usable blocks. -/
theorem toNat_endOf (hpos : 0 < start.toNat)
    (hsum : start.toNat + size.toNat < 2 ^ 32) :
    (endOf h start size parts).toNat =
      if parts = [] ∧ size = 0 then h.lastUsableLba.toNat else start.toNat + size.toNat - 1 := by
  rw [endOf]
  split
  · rfl
  · have hadd : (start + size).toNat = start.toNat + size.toNat := by
      rw [UInt32.toNat_add, Nat.mod_eq_of_lt hsum]
    rw [UInt32.toNat_toUInt64, UInt32.toNat_sub_of_le, hadd]
    · rfl
    · rw [UInt32.le_iff_toNat_le, hadd]
      exact Nat.le_add_right_of_le hpos

/-- With a wrap it ends before its start, or with the last number there is. -/
theorem toNat_endOf_of_wrap (hsum : 2 ^ 32 ≤ start.toNat + size.toNat) :
    (endOf h start size parts).toNat =
      if start.toNat + size.toNat = 2 ^ 32 then 2 ^ 32 - 1
      else start.toNat + size.toNat - 2 ^ 32 - 1 := by
  have hstart := start.toNat_lt
  have hsize := size.toNat_lt
  have hadd : (start + size).toNat = start.toNat + size.toNat - 2 ^ 32 := by
    rw [UInt32.toNat_add]
    omega
  have hne : ¬(parts = [] ∧ size = 0) := by
    rintro ⟨-, rfl⟩
    have : (0 : UInt32).toNat = 0 := rfl
    omega
  have hone : (1 : UInt32).toNat = 1 := rfl
  rw [endOf, if_neg hne, UInt32.toNat_toUInt64, UInt32.toNat_sub, hadd, hone]
  split <;> omega

end

theorem toNat_start {p : Partition} {offset : UInt32} (hoverlap : ¬(p.start ≠ 0 ∧ p.start < offset)) :
    offset.toNat ≤ (if p.start ≠ 0 then p.start else offset).toNat := by
  split
  · rename_i hne
    exact UInt32.le_iff_toNat_le.mp (UInt32.not_lt.mp fun h => hoverlap ⟨hne, h⟩)
  · exact Nat.le_refl _

section

variable {h : GptHeader} (hlast : h.lastUsableLba.toNat < 2 ^ 32)
include hlast

/-- Where no sum wraps, the entries are laid out behind the offset. -/
theorem laidOut_of_unwrapped {offset : UInt32} {parts : List Partition} {entries : List GptEntry}
    (hfill : gptFillPte h offset parts = some entries) (hoffset : 0 < offset.toNat)
    (hun : Unwrapped h.lastUsableLba.toUInt32 offset parts) :
    (∀ e ∈ entries, offset.toNat ≤ e.startingLba.toNat ∧
        e.startingLba.toNat ≤ e.endingLba.toNat ∧ e.endingLba.toNat ≤ h.lastUsableLba.toNat) ∧
      entries.Pairwise fun a b => a.endingLba.toNat < b.startingLba.toNat := by
  have hlast32 : h.lastUsableLba.toUInt32.toNat = h.lastUsableLba.toNat := by
    rw [UInt64.toNat_toUInt32, Nat.mod_eq_of_lt hlast]
  induction parts generalizing offset entries with
  | nil =>
    obtain rfl := Option.some.inj hfill
    simp
  | cons p parts ih =>
    obtain ⟨hoverlap, hnext, guid, rest, -, hrest, rfl⟩ := gptFillPte_cons hfill
    have hstart := toNat_start hoverlap
    obtain ⟨hsize, hsum, hun⟩ := hun
    generalize (if p.start ≠ 0 then p.start else offset) = start at *
    have hnext' := UInt32.lt_iff_toNat_lt.mp hnext
    rw [hlast32] at hnext'
    rcases hsum with hsum | ⟨rfl, hsum, hall⟩
    · have hadd : (start + p.size).toNat = start.toNat + p.size.toNat := by
        rw [UInt32.toNat_add, Nat.mod_eq_of_lt hsum]
      have hend := @toNat_endOf h start p.size parts (by omega) hsum
      rw [endOf] at hend
      obtain ⟨hinside, hapart⟩ := ih hrest (by omega) hun
      rw [List.forall_mem_cons, List.pairwise_cons]
      refine ⟨⟨?_, fun e he => ?_⟩, fun e he => ?_, hapart⟩
      · dsimp only
        rw [UInt32.toNat_toUInt64, hend]
        split
        · omega
        · rename_i hnot
          have hpos : p.size.toNat ≠ 0 := fun hzero =>
            hnot ⟨hsize (UInt32.toNat_inj.mp hzero), UInt32.toNat_inj.mp hzero⟩
          omega
      · have := hinside e he
        omega
      · -- a partition follows, so that this one has a size
        have hne : ¬(parts = [] ∧ p.size = 0) := by
          rintro ⟨rfl, -⟩
          cases Option.some.inj hrest
          cases he
        have := (hinside e he).1
        dsimp only
        rw [hend, if_neg hne]
        omega
    · -- the last entry ends with the last number
      obtain rfl := Option.some.inj hrest
      have hend := @toNat_endOf_of_wrap h start p.size [] hsum.ge
      rw [if_pos hsum, endOf] at hend
      have := start.toNat_lt
      refine ⟨fun e he => ?_, List.pairwise_singleton _ _⟩
      obtain rfl := List.mem_singleton.mp he
      dsimp only
      rw [UInt32.toNat_toUInt64, hend]
      omega

theorem unwrapped_of_laidOut {offset : UInt32} {parts : List Partition} {entries : List GptEntry}
    (hfill : gptFillPte h offset parts = some entries) (hoffset : 0 < offset.toNat)
    (hinside : ∀ e ∈ entries, e.startingLba.toNat ≤ e.endingLba.toNat ∧
      e.endingLba.toNat ≤ h.lastUsableLba.toNat)
    (hapart : entries.Pairwise fun a b => a.endingLba.toNat < b.startingLba.toNat) :
    Unwrapped h.lastUsableLba.toUInt32 offset parts := by
  have hlast32 : h.lastUsableLba.toUInt32.toNat = h.lastUsableLba.toNat := by
    rw [UInt64.toNat_toUInt32, Nat.mod_eq_of_lt hlast]
  induction parts generalizing offset entries with
  | nil => trivial
  | cons p parts ih =>
    obtain ⟨hoverlap, -, guid, rest, -, hrest, rfl⟩ := gptFillPte_cons hfill
    have hstart := toNat_start hoverlap
    rw [Unwrapped]
    generalize (if p.start ≠ 0 then p.start else offset) = start at *
    obtain ⟨hfirst, hinside⟩ := List.forall_mem_cons.mp hinside
    obtain ⟨hbehind, hapart⟩ := List.pairwise_cons.mp hapart
    have hlt := start.toNat_lt
    have hlt' := p.size.toNat_lt
    dsimp only at hfirst hbehind
    rw [UInt32.toNat_toUInt64] at hfirst
    by_cases hsum : start.toNat + p.size.toNat < 2 ^ 32
    · have hadd : (start + p.size).toNat = start.toNat + p.size.toNat := by
        rw [UInt32.toNat_add, Nat.mod_eq_of_lt hsum]
      have hend := @toNat_endOf h start p.size parts (by omega) hsum
      rw [endOf] at hend
      rw [hend] at hfirst
      refine ⟨fun hzero => ?_, .inl hsum, ih hrest (by omega) hinside hapart⟩
      by_contra hparts
      rw [if_neg (hparts ·.1), hzero] at hfirst
      have : (0 : UInt32).toNat = 0 := rfl
      omega
    · have hend := @toNat_endOf_of_wrap h start p.size parts (by omega)
      rw [endOf] at hend
      rw [hend] at hfirst hbehind
      have hsum' : start.toNat + p.size.toNat = 2 ^ 32 := by
        by_contra hne
        rw [if_neg hne] at hfirst
        omega
      rw [if_pos hsum'] at hfirst hbehind
      have hparts : parts = [] := by
        -- a start behind the last number
        cases parts with
        | nil => rfl
        | cons q parts =>
          obtain ⟨-, -, _, _, -, -, rfl⟩ := gptFillPte_cons hrest
          have := hbehind _ (List.mem_cons_self ..)
          dsimp only at this
          rw [UInt32.toNat_toUInt64] at this
          have := (if q.start ≠ 0 then q.start else start + p.size).toNat_lt
          omega
      subst hparts
      exact ⟨fun _ => rfl, .inr ⟨rfl, hsum', by omega⟩, trivial⟩

end

/-- `gpt_fill_pte` lays the entries out, and none behind the table, exactly when there is
room for them and no sum wraps. -/
theorem laidOut_iff (dev : BlockDev) (strGuid : List UInt8) (parts : List Partition)
    {h : GptHeader} {entries : List GptEntry} (hheader : gptFillHeader dev strGuid = some h)
    (hfill : gptFillPte h h.firstUsableLba.toUInt32 parts = some entries) :
    LaidOut h entries ∧ entries.length ≤ GPT_ENTRY_NUMBERS ↔
      parts.length ≤ GPT_ENTRY_NUMBERS ∧
        Unwrapped h.lastUsableLba.toUInt32 h.firstUsableLba.toUInt32 parts := by
  have filled := filled_gptFillHeader hheader
  have hlast : h.lastUsableLba.toNat < 2 ^ 32 := by
    rw [filled.last, UInt32.toNat_toUInt64]
    exact UInt32.toNat_lt _
  have hfirst : h.firstUsableLba.toUInt32.toNat = 34 ∧ h.firstUsableLba.toNat = 34 := by
    rw [filled.first]
    exact ⟨rfl, rfl⟩
  rw [(gptFillPte_spec dev hfill).1, and_comm]
  refine and_congr_right fun _ => ⟨fun laid => ?_, fun hun => ?_⟩
  · exact unwrapped_of_laidOut hlast hfill (by omega)
      (fun e he => (laid.inside e he).2.imp UInt64.le_iff_toNat_le.mp UInt64.le_iff_toNat_le.mp)
      (laid.apart.imp UInt64.lt_iff_toNat_lt.mp)
  · obtain ⟨hinside, hapart⟩ := laidOut_of_unwrapped hlast hfill (by omega) hun
    refine ⟨fun e he => ?_, hapart.imp UInt64.lt_iff_toNat_lt.mpr⟩
    obtain ⟨hlow, hle, hhigh⟩ := hinside e he
    simp only [UInt64.le_iff_toNat_le]
    exact ⟨by omega, hle, hhigh⟩

/-- Two partitions of ten blocks, the second from block 50. -/
theorem laidOut_iff_two_partitions :
    ∃ entries, gptFillPte smallHeader smallHeader.firstUsableLba.toUInt32
        [⟨0, 10, nameA, mirroredUuid⟩, ⟨50, 10, nameA, mirroredUuid⟩] = some entries ∧
      LaidOut smallHeader entries ∧ entries.length ≤ GPT_ENTRY_NUMBERS := by
  obtain ⟨entries, hfill⟩ := Option.isSome_iff_exists.mp
    (show (gptFillPte smallHeader smallHeader.firstUsableLba.toUInt32
      [⟨0, 10, nameA, mirroredUuid⟩, ⟨50, 10, nameA, mirroredUuid⟩]).isSome from by decide)
  exact ⟨entries, hfill,
    (laidOut_iff smallDisk mirroredUuid _ filled_small.1 hfill).mpr (by decide)⟩

/-- The first of two partitions is of no size, and its entry ends before it starts. -/
theorem reversed_entry :
    gptFillHeader smallDisk mirroredUuid = some smallHeader ∧
      ∃ entries, gptFillPte smallHeader smallHeader.firstUsableLba.toUInt32
          [⟨0, 0, nameA, mirroredUuid⟩, ⟨0, 10, nameA, mirroredUuid⟩] = some entries ∧
        (entries.map fun e => (e.startingLba, e.endingLba)) = [(34, 33), (34, 43)] ∧
        ¬LaidOut smallHeader entries := by
  refine ⟨filled_small.1, _, rfl, by decide, fun laid => ?_⟩
  have := (laid.inside _ (List.mem_cons_self ..)).2.1
  revert this
  decide

end UBoot.Gpt
