import Mathlib.Algebra.BigOperators.Group.Finset.Piecewise
import UBoot.Ext4.NewBlock

/-!
# Runs of allocations

A call looks at no byte behind a bitmap as long as the counts are right. What it finds is
the first block behind the ones before, unless it skips some of a group behind a full one.
-/

namespace UBoot.Ext4

open Verification

section

variable {L : Layout} {s s' s₁ : Session} {g byte bit : Nat}

/-! ## The search in one bitmap -/

/-- The search stops in the bitmap if there is a clear bit. -/
theorem skipFull_firstZero (hblksz : L.blksz = 1024 ∨ firstDataBlock L = 0) {p : Ptr}
    {left count : Nat} (hleft : byte + left = L.blksz)
    (hcount : count = 8 * byte + firstDataBlock L)
    (hclear : ∃ pos, 8 * byte ≤ pos ∧ pos < 8 * L.blksz ∧ Clear p pos) :
    ((skipFull L p left byte count).map fun found => found.bind fun byte =>
      ((List.range 8).find? fun bit => bitSet p byte bit = false).map (byte, ·)) =
        some (firstZero p left byte) := by
  induction left generalizing byte count with
  | zero =>
    obtain ⟨pos, hlow, hhigh, -⟩ := hclear
    omega
  | succ left ih =>
    rw [skipFull, firstZero]
    by_cases hfull : p byte = 255
    · obtain ⟨pos, hlow, hhigh, hpos⟩ := hclear
      have hne : pos / 8 ≠ byte := fun heq => not_clear_of_full (heq.symm ▸ hfull) hpos
      -- counting from 1, the loop never gets to the end of the bitmap
      have hgo : count + 8 ≠ L.blksz * 8 := by
        obtain h1024 | hzero := hblksz
        · rw [firstDataBlock, if_pos h1024] at hcount
          omega
        · omega
      rw [if_pos hfull, if_pos hfull, if_neg hgo]
      exact ih (by omega) (by omega) ⟨pos, by omega, hhigh, hpos⟩
    · rw [if_neg hfull, if_neg hfull]
      rfl

theorem newBlkNoIn_eq {p : Ptr} (hclear : ∃ pos < 8 * L.blksz, Clear p pos) :
    newBlkNoIn L p = some (firstZero p L.blksz 0) := by
  obtain ⟨pos, hpos, hset⟩ := hclear
  refine skipFull_firstZero ?_ (Nat.zero_add _) (Nat.zero_add _).symm
    ⟨pos, Nat.zero_le _, hpos, hset⟩
  rw [firstDataBlock]
  split_ifs with h1024
  · exact .inl h1024
  · exact .inr rfl

/-! ## Positions -/

theorem Grouped.blksz_pos (h : Grouped L) : 0 < L.blksz := by
  have := h.blksz
  omega

theorem Grouped.perGrp_pos (h : Grouped L) : 0 < L.blkPerGrp := by
  have := h.blksz
  rw [h.perGrp]
  omega

theorem blockBit_position (h : Grouped L) {blkno : Nat} (hfirst : firstDataBlock L ≤ blkno) :
    bgIdx L blkno = (blkno - firstDataBlock L) / L.blkPerGrp ∧
      (blockBit L blkno (bgIdx L blkno)).2 < 8 ∧ (blockBit L blkno (bgIdx L blkno)).1 < L.blksz ∧
      8 * (blockBit L blkno (bgIdx L blkno)).1 + (blockBit L blkno (bgIdx L blkno)).2 =
        (blkno - firstDataBlock L) % L.blkPerGrp := by
  obtain ⟨hbit, hbyte, heq⟩ := blockBit_bgIdx h.blksz_pos h.perGrp hfirst
  generalize blockBit L blkno (bgIdx L blkno) = found at *
  generalize bgIdx L blkno = group at *
  have hlt : 8 * found.1 + found.2 < L.blkPerGrp := by
    rw [h.perGrp]
    omega
  have hpos : blkno - firstDataBlock L = 8 * found.1 + found.2 + L.blkPerGrp * group := by
    rw [h.perGrp, Nat.mul_assoc, Nat.mul_comm L.blksz]
    omega
  rw [hpos, Nat.add_mul_div_left _ _ h.perGrp_pos, Nat.div_eq_of_lt hlt, Nat.zero_add,
    Nat.add_mul_mod_self_left, Nat.mod_eq_of_lt hlt]
  exact ⟨rfl, hbit, hbyte, rfl⟩

theorem position_div_mod {i : Nat} (hi : i < L.blkPerGrp) :
    (g * L.blkPerGrp + i) / L.blkPerGrp = g ∧ (g * L.blkPerGrp + i) % L.blkPerGrp = i := by
  rw [Nat.mul_comm, Nat.mul_add_div (Nat.zero_lt_of_lt hi), Nat.div_eq_of_lt hi, Nat.add_zero,
    Nat.mul_add_mod, Nat.mod_eq_of_lt hi]
  exact ⟨rfl, rfl⟩

theorem clearAt_position {i : Nat} (hi : i < L.blkPerGrp) :
    ClearAt L s (g * L.blkPerGrp + i) ↔ Clear (s.blkBmaps g) i := by
  rw [ClearAt, (position_div_mod hi).1, (position_div_mod hi).2]

theorem position_lt {i : Nat} (hg : g < L.noBlkgrp) (hi : i < L.blkPerGrp) :
    g * L.blkPerGrp + i < L.noBlkgrp * L.blkPerGrp := by
  have hle := Nat.mul_le_mul_right L.blkPerGrp (Nat.succ_le_of_lt hg)
  rw [Nat.succ_mul] at hle
  omega

theorem BlocksCounted.not_clear (h : BlocksCounted L s) (hg : g < L.noBlkgrp)
    (hfull : freeBlocks s.gdtable g = 0) {i : Nat} (hi : i < L.blkPerGrp) :
    ¬Clear (s.blkBmaps g) i := by
  have hzero := h.count g hg
  rw [hfull] at hzero
  exact clearCount_eq_zero.mp hzero.symm i hi

theorem BlocksCounted.exists_clear (h : BlocksCounted L s) (hg : g < L.noBlkgrp)
    (hfree : freeBlocks s.gdtable g ≠ 0) : ∃ i < L.blkPerGrp, Clear (s.blkBmaps g) i := by
  by_contra hno
  push Not at hno
  rw [← clearCount_eq_zero, ← h.count g hg] at hno
  exact hfree (UInt16.toNat_inj.mp hno)

/-! ## What is found -/

/-- What a pass finds: the bit is clear, and only a bitmap that was not initialised has
been emptied. -/
structure FoundBlk (L : Layout) (s s₁ : Session) (g byte bit : Nat) : Prop where
  group : g < L.noBlkgrp
  bit_lt : bit < 8
  index : 8 * byte + bit < L.blkPerGrp
  blkno : s₁.currBlkno = g * L.blkPerGrp + (8 * byte + bit) + firstDataBlock L
  clear : Clear (s.blkBmaps g) (8 * byte + bit)
  least : ∀ pos < g * L.blkPerGrp + (8 * byte + bit), ¬ClearAt L s pos
  bitmap : ∀ g', ∀ i < L.blkPerGrp, Clear (s₁.blkBmaps g') i ↔ Clear (s.blkBmaps g') i
  descriptors : ∀ k, ¬(32 * g + 18 ≤ k ∧ k < 32 * g + 20) → s₁.gdtable k = s.gdtable k
  superblock : s₁.vol.sb = s.vol.sb
  first : s₁.firstPassBbmap = true
  journal : s₁.journal = s.journal

/-- An empty bitmap takes the place of one that is not initialised. -/
theorem initBlkBmap_spec (hperGrp : L.blkPerGrp = 8 * L.blksz)
    (hempty : bgFlags s.gdtable g &&& 2 ≠ 0 → ∀ pos < 8 * L.blksz, Clear (s.blkBmaps g) pos) :
    (initBlkBmap L s g).vol.sb = s.vol.sb ∧ (initBlkBmap L s g).journal = s.journal ∧
      (initBlkBmap L s g).firstPassBbmap = s.firstPassBbmap ∧
      (initBlkBmap L s g).currBlkno = s.currBlkno ∧
      (∀ k, ¬(32 * g + 18 ≤ k ∧ k < 32 * g + 20) →
        (initBlkBmap L s g).gdtable k = s.gdtable k) ∧
      ∀ g', ∀ i < L.blkPerGrp,
        Clear ((initBlkBmap L s g).blkBmaps g') i ↔ Clear (s.blkBmaps g') i := by
  rw [initBlkBmap]
  split_ifs with hinit
  · exact ⟨rfl, rfl, rfl, rfl, fun _ _ => rfl, fun _ _ _ => Iff.rfl⟩
  · refine ⟨putBlock_sb _ _ _ _, rfl, rfl, rfl, fun k hk => setLe16_of_ne _ _ (by omega),
      fun g' i hi => ?_⟩
    change Clear (Function.update s.blkBmaps g (fun _ => 0) g') i ↔ _
    obtain rfl | hne := eq_or_ne g' g
    · rw [Function.update_self]
      exact iff_of_true (clear_zero i) (hempty hinit i (hperGrp ▸ hi))
    · rw [Function.update_of_ne hne]

/-- The first pass finds the first clear bit of the volume. -/
theorem firstPass_spec (hG : Grouped L) (hc : BlocksCounted L s)
    (hempty : ∀ g < L.noBlkgrp, bgFlags s.gdtable g &&& 2 ≠ 0 →
      ∀ pos < 8 * L.blksz, Clear (s.blkBmaps g) pos) {n i : Nat} (hn : i + n = L.noBlkgrp)
    (hfull : ∀ pos < i * L.blkPerGrp, ¬ClearAt L s pos) :
    (firstPass L n i s = some (s, none) ∧ ∀ pos < L.noBlkgrp * L.blkPerGrp, ¬ClearAt L s pos) ∨
      ∃ s₁ g byte bit, firstPass L n i s = some (s₁, some (g, byte, bit)) ∧
        FoundBlk L s s₁ g byte bit := by
  induction n generalizing i with
  | zero => exact .inl ⟨rfl, by rwa [← hn, Nat.add_zero]⟩
  | succ n ih =>
    have hi : i < L.noBlkgrp := by omega
    rw [firstPass]
    by_cases hfree : freeBlocks s.gdtable i = 0
    · rw [if_pos hfree]
      refine ih (by omega) fun pos hpos => ?_
      obtain hlt | hge := Nat.lt_or_ge pos (i * L.blkPerGrp)
      · exact hfull pos hlt
      · obtain ⟨k, rfl⟩ := Nat.exists_eq_add_of_le hge
        rw [Nat.succ_mul] at hpos
        have hk : k < L.blkPerGrp := by omega
        rw [clearAt_position hk]
        exact hc.not_clear hi hfree hk
    · rw [if_neg hfree]
      obtain ⟨hsb, hjournal, -, -, hdesc, hbits⟩ := initBlkBmap_spec hG.perGrp (hempty i hi)
      obtain ⟨pos, hpos, hclear⟩ := hc.exists_clear hi hfree
      have hclear₀ := (hbits i pos hpos).mpr hclear
      generalize initBlkBmap L s i = s₀ at *
      have hpos8 : pos < 8 * L.blksz := hG.perGrp ▸ hpos
      cases hzero : firstZero (s₀.blkBmaps i) L.blksz 0 with
      | none => exact absurd hclear₀ (firstZero_none hzero pos (Nat.zero_le _) (by omega))
      | some found =>
        obtain ⟨byte, bit⟩ := found
        obtain ⟨hset, hbit, -⟩ := firstZero_spec hzero
        have hleast := firstZero_least hzero
        have hindex : 8 * byte + bit < L.blkPerGrp :=
          Nat.lt_of_le_of_lt (hleast pos (Nat.zero_le _) hclear₀) hpos
        right
        dsimp only
        rw [newBlkNoIn_eq ⟨pos, hpos8, hclear₀⟩, hzero]
        refine ⟨_, i, byte, bit, rfl, hi, hbit, hindex, ?_, ?_, fun p hp => ?_, hbits, hdesc,
          hsb, rfl, hjournal⟩
        · change 8 * byte + bit + firstDataBlock L + i * L.blksz * 8 = _
          rw [hG.perGrp, Nat.mul_assoc, Nat.mul_comm L.blksz]
          omega
        · exact (hbits i _ hindex).mp ((clear_at hbit).mpr hset)
        · obtain hlt | hge := Nat.lt_or_ge p (i * L.blkPerGrp)
          · exact hfull p hlt
          · obtain ⟨k, rfl⟩ := Nat.exists_eq_add_of_le hge
            have hk : k < L.blkPerGrp := by omega
            rw [clearAt_position hk, ← hbits i k hk]
            exact fun hcl => absurd (hleast k (Nat.zero_le _) hcl) (by omega)

theorem SkipsNothing.next {pos : Nat} (hpos : 0 < L.blkPerGrp) (h : SkipsNothing L s pos)
    (hfree : freeBlocks s.gdtable (pos / L.blkPerGrp) = 0) :
    SkipsNothing L s (pos + L.blkPerGrp) := by
  intro g hg hlt hfull i hi
  rw [Nat.add_div_right _ hpos] at hlt hfull
  rw [Nat.add_mod_right] at hi
  refine h g hg (by omega) (fun j hj hj' => ?_) i hi
  obtain rfl | hgt := Nat.eq_or_lt_of_le hj
  · exact hfree
  · exact hfull j hgt hj'

/-- Behind a position in a group that is not full nothing is skipped. -/
theorem skipsNothing_succ {pos : Nat} (hpos : 0 < L.blkPerGrp)
    (hfree : freeBlocks s.gdtable (pos / L.blkPerGrp) ≠ 0) : SkipsNothing L s (pos + 1) := by
  intro g hg hlt hfull i hi
  have hdiv := Nat.div_add_mod pos L.blkPerGrp
  have hmod := Nat.mod_lt pos hpos
  by_cases hlast : pos % L.blkPerGrp + 1 = L.blkPerGrp
  · have hnext : pos + 1 = L.blkPerGrp * (pos / L.blkPerGrp + 1) := by
      rw [Nat.mul_succ]
      omega
    rw [hnext, Nat.mul_mod_right] at hi
    exact absurd hi (Nat.not_lt_zero i)
  · have hsame : (pos + 1) / L.blkPerGrp = pos / L.blkPerGrp := by
      have hsucc : pos + 1 = L.blkPerGrp * (pos / L.blkPerGrp) + (pos % L.blkPerGrp + 1) := by omega
      have hlt' : pos % L.blkPerGrp + 1 < L.blkPerGrp := by omega
      rw [hsucc, Nat.mul_add_div hpos, Nat.div_eq_of_lt hlt', Nat.add_zero]
    rw [hsame] at hlt hfull
    exact absurd (hfull _ le_rfl hlt) hfree

/-- What is passed over behind a full group is not clear. -/
theorem SkipsNothing.not_clear {pos p : Nat} (h : SkipsNothing L s pos) (hc : BlocksCounted L s)
    (hfree : freeBlocks s.gdtable (pos / L.blkPerGrp) = 0) (hlow : pos ≤ p)
    (hhigh : p < pos + L.blkPerGrp) (hin : p < L.noBlkgrp * L.blkPerGrp) : ¬ClearAt L s p := by
  have hpos : 0 < L.blkPerGrp := by omega
  have hg : p / L.blkPerGrp < L.noBlkgrp := Nat.div_lt_of_lt_mul (by rwa [Nat.mul_comm])
  have hmod := Nat.mod_lt p hpos
  have hle := Nat.div_le_div_right (c := L.blkPerGrp) hlow
  obtain heq | hlt := Nat.eq_or_lt_of_le hle
  · exact hc.not_clear hg (heq ▸ hfree) hmod
  · have hnext : p / L.blkPerGrp < pos / L.blkPerGrp + 2 :=
      Nat.div_lt_of_lt_mul (by
        have hdiv := Nat.div_add_mod pos L.blkPerGrp
        have hmod' := Nat.mod_lt pos hpos
        rw [Nat.mul_add]
        omega)
    have hone : p / L.blkPerGrp = pos / L.blkPerGrp + 1 := by omega
    refine h _ hg hlt (fun j hj hj' => ?_) _ ?_
    · obtain rfl : j = pos / L.blkPerGrp := by omega
      exact hfree
    · have hdiv := Nat.div_add_mod pos L.blkPerGrp
      have hdiv' := Nat.div_add_mod p L.blkPerGrp
      rw [hone, Nat.mul_succ] at hdiv'
      omega

/-- The later passes find the next clear bit, or there is none. -/
theorem nextPass_spec (hG : Grouped L) (hc : BlocksCounted L s)
    (hempty : ∀ g < L.noBlkgrp, bgFlags s.gdtable g &&& 2 ≠ 0 →
      ∀ pos < 8 * L.blksz, Clear (s.blkBmaps g) pos) (hfirst : s.firstPassBbmap = true)
    {fuel curr : Nat} (hcurr : firstDataBlock L ≤ curr + 1)
    (hpassed : ∀ pos < curr + 1 - firstDataBlock L, pos < L.noBlkgrp * L.blkPerGrp →
      ¬ClearAt L s pos)
    (hskip : SkipsNothing L s (curr + 1 - firstDataBlock L))
    (hfuel : L.noBlkgrp * L.blkPerGrp + firstDataBlock L ≤ curr + 1 + fuel) :
    ((∃ curr', nextPass L fuel { s with currBlkno := curr } =
        some ({ s with currBlkno := curr' }, none) ∧ firstDataBlock L ≤ curr' + 1) ∧
      ∀ pos < L.noBlkgrp * L.blkPerGrp, ¬ClearAt L s pos) ∨
      ∃ s₁ g byte bit, nextPass L fuel { s with currBlkno := curr } =
        some (s₁, some (g, byte, bit)) ∧ FoundBlk L s s₁ g byte bit := by
  induction fuel generalizing curr with
  | zero => exact .inl ⟨⟨curr, rfl, hcurr⟩, fun pos hpos => hpassed pos (by omega) hpos⟩
  | succ fuel ih =>
    obtain ⟨hgroup, hbit, hbyte, hindex⟩ := blockBit_position hG hcurr
    have hpos := hG.perGrp_pos
    have hdiv := Nat.div_add_mod (curr + 1 - firstDataBlock L) L.blkPerGrp
    have hmod := Nat.mod_lt (curr + 1 - firstDataBlock L) hpos
    rw [Nat.mul_comm] at hdiv
    rw [nextPass]
    dsimp only
    rw [hgroup] at hbit hbyte hindex ⊢
    by_cases hout : L.noBlkgrp ≤ (curr + 1 - firstDataBlock L) / L.blkPerGrp
    · rw [if_pos hout]
      refine .inl ⟨⟨curr + 1, rfl, by omega⟩, fun pos hlt => hpassed pos ?_ hlt⟩
      have hle := Nat.mul_le_mul_right L.blkPerGrp hout
      omega
    · rw [if_neg hout]
      rw [not_le] at hout
      by_cases hfree : freeBlocks s.gdtable ((curr + 1 - firstDataBlock L) / L.blkPerGrp) = 0
      · rw [if_pos hfree]
        have hnext : curr + 1 + L.blkPerGrp - 1 + 1 - firstDataBlock L =
            curr + 1 - firstDataBlock L + L.blkPerGrp := by omega
        refine ih (by omega) (fun pos hlt hin => ?_) ?_ (by omega)
        · rw [hnext] at hlt
          obtain hold | hnew := Nat.lt_or_ge pos (curr + 1 - firstDataBlock L)
          · exact hpassed pos hold hin
          · exact hskip.not_clear hc hfree hnew hlt hin
        · rw [hnext]
          exact hskip.next hpos hfree
      · rw [if_neg hfree]
        obtain ⟨hsb, hjournal, hfirst₀, hblkno, hdesc, hbits⟩ := @initBlkBmap_spec L
          { s with currBlkno := curr + 1 } _ hG.perGrp (hempty _ hout)
        have hsame : bgFlags s.gdtable ((curr + 1 - firstDataBlock L) / L.blkPerGrp) &&& 2 = 0 →
            initBlkBmap L { s with currBlkno := curr + 1 }
              ((curr + 1 - firstDataBlock L) / L.blkPerGrp) = { s with currBlkno := curr + 1 } :=
          fun hinit => if_pos hinit
        have hclear₀ := hbits ((curr + 1 - firstDataBlock L) / L.blkPerGrp) _ hmod
        generalize initBlkBmap L { s with currBlkno := curr + 1 }
          ((curr + 1 - firstDataBlock L) / L.blkPerGrp) = s₀ at *
        generalize blockBit L (curr + 1)
          ((curr + 1 - firstDataBlock L) / L.blkPerGrp) = found at *
        obtain ⟨byte, bit⟩ := found
        dsimp only at hbit hbyte hindex
        rw [← hindex, clear_at hbit] at hclear₀
        dsimp only
        rw [if_neg (Nat.not_le_of_lt hbyte)]
        by_cases hset :
            bitSet (s₀.blkBmaps ((curr + 1 - firstDataBlock L) / L.blkPerGrp)) byte bit
        · -- a bitmap with a bit is initialised
          have hinit :
              bgFlags s.gdtable ((curr + 1 - firstDataBlock L) / L.blkPerGrp) &&& 2 = 0 := by
            by_contra hinit
            have hclear := hempty _ hout hinit (8 * byte + bit) (by omega)
            rw [hclear₀.mpr hclear] at hset
            exact Bool.noConfusion hset
          rw [if_pos hset, hsame hinit]
          have hnext : curr + 1 + 1 - firstDataBlock L = curr + 1 - firstDataBlock L + 1 := by
            omega
          refine ih (by omega) (fun pos hlt hin => ?_) ?_ (by omega)
          · rw [hnext] at hlt
            obtain hold | rfl := Nat.lt_succ_iff_lt_or_eq.mp hlt
            · exact hpassed pos hold hin
            · rw [ClearAt, ← hindex]
              intro hclear
              rw [hclear₀.mpr hclear] at hset
              exact Bool.noConfusion hset
          · rw [hnext]
            exact skipsNothing_succ hpos hfree
        · rw [if_neg hset]
          right
          refine ⟨s₀, _, byte, bit, rfl, hout, hbit, hindex.trans_lt hmod, ?_,
            hclear₀.mp (Bool.not_eq_true _ ▸ hset), fun pos hlt => ?_, hbits, hdesc, hsb,
            hfirst₀.trans hfirst, hjournal⟩
          · rw [hblkno, hindex]
            change curr + 1 = _
            omega
          · rw [hindex] at hlt
            refine hpassed pos (by omega) ?_
            exact Nat.lt_trans hlt (position_lt hout hmod)

/-! ## The effect of a call -/

theorem toNat_add_neg_one {x : UInt32} (h : 0 < x.toNat) : (x + -1).toNat + 1 = x.toNat := by
  have hneg : (-1 : UInt32).toNat = 2 ^ 32 - 1 := rfl
  rw [UInt32.toNat_add, hneg]
  have := x.toNat_lt
  omega

/-- Taking a bit away lowers the number of clear bits of its group only. -/
theorem FoundBlk.clearCount_takeBlk (h : FoundBlk L s s₁ g byte bit) (g' : Nat) :
    clearCount ((takeBlk s₁ g byte bit).blkBmaps g') L.blkPerGrp + (if g' = g then 1 else 0) =
      clearCount (s.blkBmaps g') L.blkPerGrp := by
  rw [← clearCount_congr (h.bitmap g')]
  change clearCount (Function.update s₁.blkBmaps g (setBit (s₁.blkBmaps g) byte bit) g') _ + _ = _
  split_ifs with heq
  · subst heq
    rw [Function.update_self]
    exact clearCount_setBit h.bit_lt h.index ((h.bitmap g' _ h.index).mpr h.clear)
  · rw [Function.update_of_ne heq, Nat.add_zero]

theorem FoundBlk.freeBlocks_takeBlk (hc : BlocksCounted L s) (h : FoundBlk L s s₁ g byte bit)
    (g' : Nat) :
    (freeBlocks (takeBlk s₁ g byte bit).gdtable g').toNat + (if g' = g then 1 else 0) =
      (freeBlocks s.gdtable g').toNat := by
  have hsame : freeBlocks s₁.gdtable g' = freeBlocks s.gdtable g' :=
    le16At_congr fun k hk => h.descriptors _ (by omega)
  rw [← hsame]
  split_ifs with heq
  · subst heq
    have hfree : 0 < (freeBlocks s₁.gdtable g').toNat := by
      rw [hsame, hc.count g' h.group]
      have hcount := h.clearCount_takeBlk g'
      rw [if_pos rfl] at hcount
      omega
    have hset : freeBlocks (takeBlk s₁ g' byte bit).gdtable g' = freeBlocks s₁.gdtable g' - 1 :=
      le16At_setLe16 _ _ _
    have hlt := (freeBlocks s₁.gdtable g').toNat_lt
    rw [hset, UInt16.toNat_sub, UInt16.toNat_one]
    omega
  · rw [Nat.add_zero]
    exact congrArg UInt16.toNat (le16At_setLe16_of_ne _ _ (by omega))

theorem FoundBlk.counted (hc : BlocksCounted L s) (h : FoundBlk L s s₁ g byte bit) :
    BlocksCounted L (takeBlk s₁ g byte bit) ∧
      (le32At (takeBlk s₁ g byte bit).vol.sb 12).toNat + 1 = (le32At s.vol.sb 12).toNat := by
  have hsum : (∑ g' ∈ Finset.range L.noBlkgrp,
      clearCount ((takeBlk s₁ g byte bit).blkBmaps g') L.blkPerGrp) + 1 =
        ∑ g' ∈ Finset.range L.noBlkgrp, clearCount (s.blkBmaps g') L.blkPerGrp := by
    rw [← Finset.sum_congr rfl fun g' _ => h.clearCount_takeBlk g', Finset.sum_add_distrib,
      Finset.sum_ite_eq' (Finset.range L.noBlkgrp) g, if_pos (Finset.mem_range.mpr h.group)]
  have hsb : le32At (takeBlk s₁ g byte bit).vol.sb 12 = le32At s.vol.sb 12 + -1 := by
    rw [← h.superblock]
    exact le32At_setLe32 _ _ _
  have htotal : (le32At (takeBlk s₁ g byte bit).vol.sb 12).toNat + 1 =
      (le32At s.vol.sb 12).toNat := by
    rw [hsb]
    apply toNat_add_neg_one
    rw [hc.total, ← hsum]
    exact Nat.succ_pos _
  refine ⟨⟨fun g' hg' => ?_, ?_⟩, htotal⟩
  · have hcount := h.clearCount_takeBlk g'
    have hfree := h.freeBlocks_takeBlk hc g'
    rw [hc.count g' hg'] at hfree
    omega
  · rw [hc.total, ← hsum] at htotal
    exact Nat.succ_injective htotal

theorem FoundBlk.allocates (hc : BlocksCounted L s) (h : FoundBlk L s s₁ g byte bit) :
    Allocates L s (takeBlk s₁ g byte bit) s₁.currBlkno := by
  have hpos : s₁.currBlkno - firstDataBlock L = g * L.blkPerGrp + (8 * byte + bit) := by
    rw [h.blkno, Nat.add_sub_cancel]
  obtain ⟨hdiv, hmod⟩ := @position_div_mod L g _ h.index
  refine ⟨?_, ?_, ?_, fun pos hin => ?_, ?_, fun g' hne => ?_, (h.counted hc).2⟩
  · rw [h.blkno]
    exact Nat.le_add_left _ _
  · rw [hpos]
    exact position_lt h.group h.index
  · rw [hpos, clearAt_position h.index]
    exact h.clear
  · have hpos0 : 0 < L.blkPerGrp := Nat.zero_lt_of_lt h.index
    have hlt := Nat.mod_lt pos hpos0
    have hsplit := Nat.div_add_mod pos L.blkPerGrp
    rw [hpos, ClearAt, ClearAt, ← h.bitmap _ _ hlt]
    change Clear (Function.update s₁.blkBmaps g (setBit (s₁.blkBmaps g) byte bit) _) _ ↔ _
    by_cases heq : pos / L.blkPerGrp = g
    · rw [heq, Function.update_self, clear_setBit h.bit_lt]
      rw [heq, Nat.mul_comm] at hsplit
      exact and_congr_right fun _ => not_congr (by omega)
    · rw [Function.update_of_ne heq]
      refine (and_iff_left fun hsame => heq ?_).symm
      rw [hsame, hdiv]
  · have hfree := h.freeBlocks_takeBlk hc g
    rwa [hpos, hdiv, if_pos rfl] at *
  · rw [hpos, hdiv] at hne
    have hfree := h.freeBlocks_takeBlk hc g'
    rw [if_neg hne] at hfree
    exact UInt16.toNat_inj.mp hfree

theorem exists_logBlock (hroom : s.journal.length < maxJournalEntries) (blknr : UInt32) :
    ∃ s', logBlock L s blknr = some s' := by
  rw [logBlock, logJournal]
  split_ifs
  · exact ⟨_, rfl⟩
  · exact ⟨_, rfl⟩

theorem exists_logBitmap (hroom : s.journal.length < maxJournalEntries) (gate : Gate) (group : Nat)
    (blknr : UInt32) : ∃ s', logBitmap L gate group blknr s = some s' := by
  rw [logBitmap]
  split_ifs
  · exact ⟨s, rfl⟩
  · obtain ⟨s', hlog⟩ := @exists_logBlock L s hroom blknr
    rw [hlog]
    exact ⟨_, rfl⟩

/-- What holds between the calls: the counts are right, and behind the first pass no bit is
clear up to the last block. -/
structure AllocationInv (L : Layout) (s : Session) : Prop where
  counted : BlocksCounted L s
  curr : s.firstPassBbmap = true → firstDataBlock L ≤ s.currBlkno + 1
  passed : s.firstPassBbmap = true → ∀ pos < s.currBlkno + 1 - firstDataBlock L,
    pos < L.noBlkgrp * L.blkPerGrp → ¬ClearAt L s pos

theorem FoundBlk.callRight (hc : BlocksCounted L s) (hfine : CallFine L s)
    (hfind : (if s.firstPassBbmap = false then firstPass L L.noBlkgrp 0 s
      else nextPass L ((L.noBlkgrp + 1) * L.blkPerGrp + 2) s) = some (s₁, some (g, byte, bit)))
    (h : FoundBlk L s s₁ g byte bit) :
    CallRight L s ∧ AllocationInv L (callNewBlkNo L s ()) := by
  have hroom : (takeBlk s₁ g byte bit).journal.length < maxJournalEntries := by
    change s₁.journal.length < _
    rw [h.journal]
    exact hfine.journal
  have hlog : ∃ journal prevIndex, (if s.firstPassBbmap = false then
      logBlock L (takeBlk s₁ g byte bit) (blockId (takeBlk s₁ g byte bit).gdtable g)
      else logBitmap L .newBlk g (blockId (takeBlk s₁ g byte bit).gdtable g)
        (takeBlk s₁ g byte bit)) = some { takeBlk s₁ g byte bit with
          journal := journal, prevIndex := prevIndex } := by
    split_ifs
    · obtain ⟨s', hs'⟩ := exists_logBlock hroom (blockId (takeBlk s₁ g byte bit).gdtable g)
      obtain ⟨journal, rfl⟩ := logBlock_eq hs'
      exact ⟨journal, _, hs'⟩
    · obtain ⟨s', hs'⟩ := exists_logBitmap hroom .newBlk g
        (blockId (takeBlk s₁ g byte bit).gdtable g)
      obtain ⟨journal, prevIndex, rfl⟩ := logBitmap_eq hs'
      exact ⟨journal, prevIndex, hs'⟩
  obtain ⟨journal, prevIndex, hlog⟩ := hlog
  have hcall : newBlkNo L s = some ({ takeBlk s₁ g byte bit with
      journal := journal, prevIndex := prevIndex }, some s₁.currBlkno) := by
    rw [newBlkNo, hfind]
    dsimp only [Option.map_some]
    rw [hlog]
    rfl
  have halloc := h.allocates hc
  have hcounted := (h.counted hc).1
  refine ⟨⟨_, _, hcall, ⟨halloc.first, halloc.inside, halloc.clear, halloc.bits, halloc.group,
    halloc.groups, halloc.superblock⟩⟩, ?_⟩
  rw [callNewBlkNo, hcall]
  refine ⟨⟨hcounted.count, hcounted.total⟩, fun _ => ?_, fun _ pos hlt hin => ?_⟩
  · exact Nat.le_succ_of_le halloc.first
  · have hbits := halloc.bits pos hin
    change pos < s₁.currBlkno + 1 - firstDataBlock L at hlt
    rw [h.blkno] at hlt hbits
    refine fun hclear => ?_
    obtain ⟨hold, hne⟩ := hbits.mp hclear
    exact h.least pos (by omega) hold

/-- A call from a state between the calls. -/
theorem callRight_of_fine (hG : Grouped L) (hinv : AllocationInv L s) (hfine : CallFine L s) :
    CallRight L s ∧ AllocationInv L (callNewBlkNo L s ()) := by
  have hc := hinv.counted
  cases hfirst : s.firstPassBbmap with
  | false =>
    obtain ⟨hnone, hfull⟩ | ⟨s₁, g, byte, bit, hfind, hfound⟩ := firstPass_spec hG hc
      hfine.empty (Nat.zero_add _) (fun pos hpos => absurd hpos (by omega))
    · have hcall : newBlkNo L s = some (s, none) := by
        rw [newBlkNo, if_pos hfirst, hnone]
        rfl
      refine ⟨⟨s, none, hcall, hfull⟩, ?_⟩
      rw [callNewBlkNo, hcall]
      exact hinv
    · exact hfound.callRight hc hfine (by rw [if_pos hfirst, hfind])
  | true =>
    have hnot : ¬s.firstPassBbmap = false := by rw [hfirst]; decide
    have hfuel : L.noBlkgrp * L.blkPerGrp + firstDataBlock L ≤
        s.currBlkno + 1 + ((L.noBlkgrp + 1) * L.blkPerGrp + 2) := by
      have hle : firstDataBlock L ≤ 1 := by
        rw [firstDataBlock]
        split_ifs <;> decide
      rw [Nat.succ_mul]
      omega
    obtain ⟨⟨curr', hnone, hcurr'⟩, hfull⟩ | ⟨s₁, g, byte, bit, hfind, hfound⟩ :=
      nextPass_spec hG hc hfine.empty hfirst (hinv.curr hfirst) (hinv.passed hfirst)
        (hfine.skip hfirst) hfuel
    · have hcall : newBlkNo L s = some ({ s with currBlkno := curr' }, none) := by
        rw [newBlkNo, if_neg hnot, show s = { s with currBlkno := s.currBlkno } from rfl, hnone]
        rfl
      refine ⟨⟨_, none, hcall, hfull⟩, ?_⟩
      rw [callNewBlkNo, hcall]
      exact ⟨⟨hc.count, hc.total⟩, fun _ => hcurr', fun _ pos _ hin => hfull pos hin⟩
    · exact hfound.callRight hc hfine (by rw [if_neg hnot]; exact hfind)

end

/-- In a run of calls from the first pass on that all are fine, every call does what it
ought to do. -/
theorem newBlkNo_run {L : Layout} {s : Session} {calls : List Unit} (hG : Grouped L)
    (hc : BlocksCounted L s) (hfirst : s.firstPassBbmap = false)
    (hfine : Guarded (callNewBlkNo L) (fun s _ => CallFine L s) s calls) :
    Guarded (callNewBlkNo L) (fun s _ => CallRight L s) s calls := by
  have hstart : AllocationInv L s :=
    ⟨hc, fun h => absurd (hfirst.symm.trans h) (by decide),
      fun h => absurd (hfirst.symm.trans h) (by decide)⟩
  exact hfine.mono (I := AllocationInv L)
    (fun s _ hinv hok => (callRight_of_fine hG hinv hok).2)
    (fun s _ hinv hok => (callRight_of_fine hG hinv hok).1) hstart

/-! ## A full group -/

section

variable {L : Layout} {s : Session}

/-- The later passes do not go back. -/
theorem lt_currBlkno_nextPass (hpos : 0 < L.blkPerGrp) {fuel : Nat} {s₁ : Session}
    {found : Nat × Nat × Nat} (h : nextPass L fuel s = some (s₁, some found)) :
    s.currBlkno < s₁.currBlkno := by
  induction fuel generalizing s with
  | zero => exact nomatch (Prod.mk.inj (Option.some.inj h)).2
  | succ fuel ih =>
    have hinit : (initBlkBmap L { s with currBlkno := s.currBlkno + 1 }
        (bgIdx L (s.currBlkno + 1))).currBlkno = s.currBlkno + 1 := by
      rw [initBlkBmap]
      split_ifs <;> rfl
    rw [nextPass] at h
    dsimp only at h
    split_ifs at h with hout hfree hbyte hset
    · exact absurd (Prod.mk.inj (Option.some.inj h)).2 (by simp)
    · have hlt := ih h
      change s.currBlkno + 1 + L.blkPerGrp - 1 < _ at hlt
      omega
    · have hlt := ih h
      rw [hinit] at hlt
      omega
    · rw [← (Prod.mk.inj (Option.some.inj h)).1, hinit]
      exact Nat.lt_succ_self _

/-- A block that a later call returns is behind the place where the search goes on. -/
theorem exists_nextPass_of_newBlkNo (hfirst : s.firstPassBbmap = true) {s' : Session} {blkno : Nat}
    (h : newBlkNo L s = some (s', some blkno)) :
    ∃ s₁ found, nextPass L ((L.noBlkgrp + 1) * L.blkPerGrp + 2) s = some (s₁, some found) ∧
      s₁.currBlkno = blkno := by
  have hnot : ¬s.firstPassBbmap = false := by rw [hfirst]; decide
  rw [newBlkNo, if_neg hnot] at h
  dsimp only at h
  obtain ⟨⟨s₁, found⟩, hfind, heq⟩ := Option.map_eq_some_iff.mp h
  cases found with
  | none => exact absurd (Prod.mk.inj heq).2 (by simp)
  | some found =>
    refine ⟨s₁, found, hfind, ?_⟩
    dsimp only at heq
    rw [if_neg hnot] at heq
    split at heq
    · exact absurd (Prod.mk.inj heq).2 (by simp)
    · rename_i s'' hlog
      obtain ⟨journal, prevIndex, rfl⟩ := logBitmap_eq hlog
      exact Option.some.inj (Prod.mk.inj heq).2

end

/-! ## Two groups -/

/-- A bitmap with one clear bit, the first one. -/
def oneClear : Ptr := fun k => if k = 0 then 254 else 255

theorem clear_oneClear (pos : Nat) : Clear oneClear pos ↔ pos = 0 := by
  obtain hlt | hge := Nat.lt_or_ge pos 8
  · revert pos
    decide
  · refine iff_of_false (not_clear_of_full ?_) (by omega)
    exact if_neg (by omega)

theorem clearCount_oneClear {n : Nat} (hn : 0 < n) : clearCount oneClear n = 1 := by
  have hset := @clearCount_setBit oneClear 0 0 n (by decide) hn ((clear_oneClear 0).mpr rfl)
  have hzero : clearCount (setBit oneClear 0 0) n = 0 := by
    refine clearCount_eq_zero.mpr fun i _ => ?_
    rw [clear_setBit (by decide), clear_oneClear]
    exact fun hand => hand.2 hand.1
  rw [← hset, hzero]

/-- Two groups of blocks of 1024 bytes. -/
def twoBitmaps : Layout where
  blksz := 1024
  size := 16 * 1024 * 1024
  journalBlk := (10 + ·)
  noBlkgrp := 2
  blkPerGrp := 8192
  inodesPerGrp := 8

theorem grouped_twoBitmaps : Grouped twoBitmaps := ⟨.inl rfl, rfl, by decide⟩

def firstBlocksFree : Session where
  vol := ⟨fun _ => 0, fun k => if k = 12 then 2 else 0, [], []⟩
  journal := []
  dirty := []
  gdtable := fun k => if k = 12 ∨ k = 44 then 1 else 0
  blkBmaps := fun _ => oneClear
  inodeBmaps := fun _ _ => 0
  firstPassBbmap := false
  firstPassIbmap := false
  currBlkno := 0
  currInodeNo := 0
  prevIndex := fun _ => none
  allocated := []

theorem counted_firstBlocksFree : BlocksCounted twoBitmaps firstBlocksFree := by
  have hone : ∀ g, clearCount (firstBlocksFree.blkBmaps g) twoBitmaps.blkPerGrp = 1 :=
    fun _ => clearCount_oneClear (by decide)
  constructor
  · intro g hg
    rw [hone]
    revert g
    decide
  · simp only [hone]
    decide

/-- Bits are clear in the first byte only. -/
def firstByte (b : UInt8) : Ptr := fun k => if k = 0 then b else 255

theorem clearCount_firstByte (b : UInt8) {n : Nat} (hn : 8 ≤ n) :
    clearCount (firstByte b) n = clearCount (firstByte b) 8 := by
  rw [clearCount, clearCount]
  congr 1
  ext i
  simp only [Finset.mem_filter, Finset.mem_range]
  refine ⟨fun h => ⟨?_, h.2⟩, fun h => ⟨h.1.trans_le hn, h.2⟩⟩
  by_contra hge
  exact not_clear_of_full (if_neg (by omega)) h.2

def threeBlocksFree : Session :=
  { firstBlocksFree with
    vol := ⟨fun _ => 0, fun k => if k = 12 then 3 else 0, [], []⟩
    gdtable := fun k => if k = 12 then 2 else if k = 44 then 1 else 0
    blkBmaps := fun g => firstByte (if g = 0 then 252 else 251) }

theorem counted_threeBlocksFree : BlocksCounted twoBitmaps threeBlocksFree := by
  have hcount : ∀ g, clearCount (threeBlocksFree.blkBmaps g) twoBitmaps.blkPerGrp =
      clearCount (threeBlocksFree.blkBmaps g) 8 := fun g => clearCount_firstByte _ (by decide)
  constructor
  · intro g hg
    rw [hcount]
    revert g
    decide
  · simp only [hcount]
    decide

/-- A state without marked groups, in which the bits of the last group in front of the same
position are set. -/
theorem callFine_twoBitmaps {s : Session} (hjournal : s.journal.length < maxJournalEntries)
    (hflags : ∀ g < 2, bgFlags s.gdtable g &&& 2 = 0)
    (hset : ∀ i < s.currBlkno % 8192, s.currBlkno / 8192 < 1 → ¬Clear (s.blkBmaps 1) i) :
    CallFine twoBitmaps s where
  journal := hjournal
  empty g hg hinit := absurd (hflags g hg) hinit
  skip _ := by
    intro g hg hlt _ i hi
    change s.currBlkno / 8192 < g at hlt
    obtain rfl : g = 1 := by
      have : g < 2 := hg
      omega
    exact hset i hi hlt

/-- The first pass gives block 1. The later ones go on with block 2, pass over the group that is
full then to block 8195, and find nothing more. -/
theorem newBlkNo_run_first :
    Guarded (callNewBlkNo twoBitmaps) (fun s _ => CallRight twoBitmaps s) threeBlocksFree
      [(), (), (), ()] :=
  newBlkNo_run grouped_twoBitmaps counted_threeBlocksFree rfl
    ⟨callFine_twoBitmaps (by decide) (by decide) (by decide),
      callFine_twoBitmaps (by decide) (by decide) (by decide),
      callFine_twoBitmaps (by decide) (by decide) (by decide),
      callFine_twoBitmaps (by decide) (by decide) (by decide), trivial⟩

/-- The second call starts behind the first block of a full group, and passes over the first
block of the next one. -/
theorem free_block_skipped :
    ¬∀ (L : Layout) (s : Session) (calls : List Unit), Grouped L → BlocksCounted L s →
      s.firstPassBbmap = false →
      Guarded (callNewBlkNo L) (fun s _ => CallRight L s) s calls := by
  intro claim
  obtain ⟨-, ⟨s', result, hcall, hresult⟩, -⟩ := claim twoBitmaps firstBlocksFree [(), ()]
    grouped_twoBitmaps counted_firstBlocksFree rfl
  generalize hs : callNewBlkNo twoBitmaps firstBlocksFree () = s at *
  have hfirst : s.firstPassBbmap = true := by rw [← hs]; rfl
  have hcurr : s.currBlkno = 1 := by rw [← hs]; rfl
  have hfull : freeBlocks s.gdtable 0 = 0 := by rw [← hs]; decide
  have hbmaps : s.blkBmaps = Function.update (fun _ => oneClear) 0 (setBit oneClear 0 0) := by
    rw [← hs]; rfl
  have hclear : ∀ pos < 2 * 8192, ClearAt twoBitmaps s pos ↔ pos = 8192 := by
    intro pos hpos
    have hgroup : pos / 8192 < 2 := by omega
    rw [ClearAt, hbmaps]
    change Clear (Function.update (fun _ => oneClear) 0 (setBit oneClear 0 0) (pos / 8192))
      (pos % 8192) ↔ _
    obtain h0 | h1 : pos / 8192 = 0 ∨ pos / 8192 = 1 := by omega
    · rw [h0, Function.update_self, clear_setBit (by decide), clear_oneClear]
      omega
    · rw [h1, Function.update_of_ne (by decide), clear_oneClear]
      omega
  cases result with
  | none => exact hresult 8192 (by decide) ((hclear 8192 (by decide)).mpr rfl)
  | some blkno =>
    have hblkno := (hclear _ hresult.inside).mp hresult.clear
    change blkno - 1 = 8192 at hblkno
    obtain ⟨s₁, found, hpass, rfl⟩ := exists_nextPass_of_newBlkNo hfirst hcall
    have hgroup : bgIdx twoBitmaps (s.currBlkno + 1) = 0 := by rw [hcurr]; rfl
    rw [nextPass] at hpass
    dsimp only at hpass
    rw [hgroup, if_neg (by decide), if_pos hfull] at hpass
    have hlt := lt_currBlkno_nextPass (by decide) hpass
    change s.currBlkno + 1 + 8192 - 1 < _ at hlt
    omega

end UBoot.Ext4
