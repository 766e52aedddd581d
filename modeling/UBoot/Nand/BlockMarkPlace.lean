import Mathlib.Order.Bounds.Basic
import UBoot.Nand.BlockMark

/-!
# Where the block mark of a NAND page is protected

The mark is protected when its eight bits lie in the data of a chunk. The driver asks for
the first of them only.
-/

namespace UBoot.Nand

open Verification

/-! ## The place of the mark -/

/-- The mark is in chunk data at the offset that the driver computes, what is written there
is the mark, a second swap undoes the first, and the swap stays in the page. -/
structure MarkProtected (geo : Geometry) (g : Globals) : Prop where
  inData : ∃ k < geo.writesize / g.chunkDataChunkSize,
    g.bchLayout.metaBits + k * (g.bchLayout.dataBits + g.bchLayout.eccBits) ≤ geo.writesize * 8 ∧
    geo.writesize * 8 + 8 ≤ g.bchLayout.metaBits +
      k * (g.bchLayout.dataBits + g.bchLayout.eccBits) + g.bchLayout.dataBits ∧
    mxsNandGetMarkOffset g geo.writesize = k * g.bchLayout.dataBits + (geo.writesize * 8 -
      (g.bchLayout.metaBits + k * (g.bchLayout.dataBits + g.bchLayout.eccBits)))
  written : ∀ encode info buf oobPoi, ∀ t < 8,
    mxsNandEccWritePage geo g encode info buf oobPoi (geo.writesize * 8 + t) =
      (oobPoi 0).toBitVec.getLsbD t
  involutive : ∀ dataBuf oobBuf,
    mxsNandSwapBlockMark g geo.writesize (mxsNandSwapBlockMark g geo.writesize dataBuf oobBuf).1
      (mxsNandSwapBlockMark g geo.writesize dataBuf oobBuf).2 = (dataBuf, oobBuf)
  inside : mxsNandMarkByteOffset g geo.writesize + 1 < geo.writesize ∧
    ∀ dataBuf oobBuf i, (mxsNandSwapBlockMark g geo.writesize dataBuf oobBuf).1 i ≠ dataBuf i →
      i < geo.writesize

/-- The mark in a layout: it is behind the metadata, its bits are in the data of its chunk,
and the page has that chunk. -/
def BchLayout.Holds (l : BchLayout) (writesize : Nat) : Prop :=
  l.metaBits ≤ writesize * 8 ∧
    (writesize * 8 - l.metaBits) % (l.dataBits + l.eccBits) + 8 ≤ l.dataBits ∧
    (writesize * 8 - l.metaBits) / (l.dataBits + l.eccBits) < writesize * 8 / l.dataBits

theorem sub32_eq {a b : Nat} (hb : b ≤ a) (ha : a < 4294967296) : sub32 a b = a - b := by
  rw [sub32]
  omega

theorem mul_div_dataBits (g : Globals) (n : Nat) :
    n * 8 / g.bchLayout.dataBits = n / g.chunkDataChunkSize :=
  Nat.mul_div_mul_right n g.chunkDataChunkSize (by decide)

section

variable {geo : Geometry} {g : Globals}

theorem swap_involutive (dataBuf oobBuf : Ptr) :
    mxsNandSwapBlockMark g geo.writesize (mxsNandSwapBlockMark g geo.writesize dataBuf oobBuf).1
      (mxsNandSwapBlockMark g geo.writesize dataBuf oobBuf).2 = (dataBuf, oobBuf) :=
  swapAt_swapAt dataBuf oobBuf (Nat.mod_lt _ (by decide))

theorem mxsNandGetMarkOffset_eq (h : g.bchLayout.Holds geo.writesize) :
    mxsNandGetMarkOffset g geo.writesize =
      (geo.writesize * 8 - g.bchLayout.metaBits) /
          (g.bchLayout.dataBits + g.bchLayout.eccBits) * g.bchLayout.dataBits +
        (geo.writesize * 8 - g.bchLayout.metaBits) %
          (g.bchLayout.dataBits + g.bchLayout.eccBits) := by
  obtain ⟨hmeta, hdata, _⟩ := h
  have hlt := geo.writesize_lt
  have hmeta' : (if g.eccForMeta then
      sub32 (geo.writesize * 8) (MXS_NAND_METADATA_SIZE * 8 + mxsNandEccSizeInBits g)
      else sub32 (geo.writesize * 8) (MXS_NAND_METADATA_SIZE * 8)) =
        geo.writesize * 8 - g.bchLayout.metaBits := by
    rw [Globals.bchLayout] at hmeta ⊢
    dsimp only at hmeta ⊢
    split_ifs at hmeta ⊢
    · exact sub32_eq hmeta (by omega)
    · exact sub32_eq hmeta (by omega)
  rw [mxsNandGetMarkOffset, hmeta', show g.chunkDataChunkSize * 8 = g.bchLayout.dataBits from rfl,
    show mxsNandEccSizeInBits g = g.bchLayout.eccBits from rfl]
  generalize g.bchLayout = l at *
  obtain ⟨offset, hoffset⟩ : ∃ n, n = geo.writesize * 8 - l.metaBits := ⟨_, rfl⟩
  rw [← hoffset] at hdata ⊢
  have hdiv := Nat.div_add_mod offset (l.dataBits + l.eccBits)
  rw [Nat.mul_comm, Nat.mul_add] at hdiv
  rw [Nat.mul_add, sub32_eq (by omega) (by omega), sub32_eq (by omega) (by omega),
    if_neg (by omega)]
  omega

theorem page_mark (h : g.bchLayout.Holds geo.writesize) (ecc : Nat → Bool)
    (dataBuf oobBuf : Ptr) {t : Nat} (ht : t < 8) :
    g.bchLayout.page ecc dataBuf oobBuf (geo.writesize * 8 + t) =
      dataBuf.bit (mxsNandGetMarkOffset g geo.writesize + t) := by
  have hoffset := mxsNandGetMarkOffset_eq h
  obtain ⟨hmeta, hdata, _⟩ := h
  have hmeta80 : MXS_NAND_METADATA_SIZE * 8 ≤ g.bchLayout.metaBits := Nat.le_add_right _ _
  rw [hoffset, BchLayout.page, if_neg (by omega), if_neg (by omega)]
  generalize g.bchLayout = l at *
  dsimp only
  obtain ⟨offset, hoff⟩ : ∃ n, n = geo.writesize * 8 - l.metaBits := ⟨_, rfl⟩
  have hadd : geo.writesize * 8 + t - l.metaBits = offset + t := by omega
  rw [← hoff] at hdata ⊢
  have hmod : (offset + t) % (l.dataBits + l.eccBits) =
      offset % (l.dataBits + l.eccBits) + t := by
    rw [Nat.add_mod, Nat.mod_eq_of_lt (show t < l.dataBits + l.eccBits by omega)]
    exact Nat.mod_eq_of_lt (by omega)
  have hdiv : (offset + t) / (l.dataBits + l.eccBits) = offset / (l.dataBits + l.eccBits) := by
    have hsum := Nat.div_add_mod offset (l.dataBits + l.eccBits)
    rw [Nat.mul_comm] at hsum
    refine Nat.div_eq_of_lt_le (by omega) ?_
    rw [Nat.succ_mul]
    omega
  rw [hadd, hmod, hdiv, if_pos (by omega), Nat.add_assoc]

theorem written_mark (h : g.bchLayout.Holds geo.writesize) (encode : Ptr → Ptr → Nat → Bool)
    (info : Buffers) (buf oobPoi : Ptr) {t : Nat} (ht : t < 8) :
    mxsNandEccWritePage geo g encode info buf oobPoi (geo.writesize * 8 + t) =
      (info.oobBuf.write 0 geo.oobsize oobPoi).bit t := by
  have hoffset : 8 * mxsNandMarkByteOffset g geo.writesize + mxsNandMarkBitOffset g geo.writesize =
      mxsNandGetMarkOffset g geo.writesize := by
    rw [mxsNandMarkByteOffset, mxsNandMarkBitOffset, Nat.shiftRight_eq_div_pow]
    exact Nat.div_add_mod _ 8
  rw [mxsNandEccWritePage]
  dsimp only
  rw [page_mark h _ _ _ ht, mxsNandSwapBlockMark,
    bit_swapAt_fst _ _ (show mxsNandMarkBitOffset g geo.writesize < 8 from Nat.mod_lt _ (by decide)),
    hoffset, if_pos (by omega), Nat.add_sub_cancel_left]

theorem markProtected_iff (hpos : 0 < g.bchLayout.dataBits + g.bchLayout.eccBits) :
    MarkProtected geo g ↔ 0 < geo.oobsize ∧ g.bchLayout.Holds geo.writesize := by
  constructor
  · intro h
    have hholds : g.bchLayout.Holds geo.writesize := by
      obtain ⟨k, hk, hlow, hhigh, _⟩ := h.inData
      rw [← mul_div_dataBits] at hk
      generalize g.bchLayout = l at *
      rw [BchLayout.Holds]
      have hdiv : (geo.writesize * 8 - l.metaBits) / (l.dataBits + l.eccBits) = k := by
        refine Nat.div_eq_of_lt_le (by omega) ?_
        rw [Nat.succ_mul]
        omega
      have hmod := Nat.div_add_mod (geo.writesize * 8 - l.metaBits) (l.dataBits + l.eccBits)
      rw [hdiv, Nat.mul_comm] at hmod
      refine ⟨by omega, by omega, ?_⟩
      rw [hdiv]
      exact hk
    refine ⟨Nat.pos_of_ne_zero fun hzero => ?_, hholds⟩
    -- without an OOB area the byte of the buffer stays what it was
    have hwritten := h.written (fun _ _ _ => false) ⟨fun _ => 0, fun _ => 0⟩ (fun _ => 0)
      (fun _ => 1) 0 (by decide)
    rw [written_mark hholds _ _ _ _ (by decide), hzero] at hwritten
    cases hwritten
  · rintro ⟨hoob, hholds⟩
    have hoffset := mxsNandGetMarkOffset_eq hholds
    have hbyte : mxsNandMarkByteOffset g geo.writesize + 1 < geo.writesize := by
      have hmeta80 : 80 ≤ g.bchLayout.metaBits := Nat.le_add_right _ _
      have hle : mxsNandGetMarkOffset g geo.writesize ≤ geo.writesize * 8 - 80 := by
        have hmod := Nat.div_add_mod (geo.writesize * 8 - g.bchLayout.metaBits)
          (g.bchLayout.dataBits + g.bchLayout.eccBits)
        rw [Nat.mul_comm, Nat.mul_add] at hmod
        omega
      have hmeta := hholds.1
      rw [mxsNandMarkByteOffset, Nat.shiftRight_eq_div_pow]
      omega
    refine ⟨⟨(geo.writesize * 8 - g.bchLayout.metaBits) /
        (g.bchLayout.dataBits + g.bchLayout.eccBits), ?_, ?_, ?_, ?_⟩, ?_,
      fun dataBuf oobBuf => swap_involutive dataBuf oobBuf, hbyte,
      fun dataBuf oobBuf i hi => ?_⟩
    · rw [← mul_div_dataBits]
      exact hholds.2.2
    · have := hholds.1
      have := Nat.div_mul_le_self (geo.writesize * 8 - g.bchLayout.metaBits)
        (g.bchLayout.dataBits + g.bchLayout.eccBits)
      omega
    · have hmod := Nat.div_add_mod (geo.writesize * 8 - g.bchLayout.metaBits)
        (g.bchLayout.dataBits + g.bchLayout.eccBits)
      have hdata := hholds.2.1
      have := hholds.1
      rw [Nat.mul_comm] at hmod
      omega
    · have hmod := Nat.div_add_mod (geo.writesize * 8 - g.bchLayout.metaBits)
        (g.bchLayout.dataBits + g.bchLayout.eccBits)
      rw [Nat.mul_comm] at hmod
      rw [hoffset]
      omega
    · intro encode info buf oobPoi t ht
      rw [written_mark hholds _ _ _ _ ht, Ptr.bit_of_lt _ ht, Ptr.write, if_pos (by omega)]
    · by_contra hge
      exact hi (swapAt_fst_of_ne dataBuf oobBuf (by omega) (by omega))

end

/-! ## The choice of the layout -/

section

variable (soc : Soc) (geo : Geometry)

def Geometry.galoisField : Nat := if geo.eccStepDs.toNat = 1024 then 14 else 13

/-- The layout with this many bits in front of the chunks, and this strength. -/
def Geometry.layout (metaBits strength : Nat) : BchLayout where
  metaBits := metaBits
  dataBits := geo.eccStepDs.toNat * 8
  eccBits := strength * geo.galoisField

/-- The first bit of the mark is in the data of a chunk, behind metadata without ECC. -/
def Geometry.StartsInData (strength : Nat) : Prop :=
  sub32 (geo.writesize * 8) 80 % (geo.eccStepDs.toNat * 8 + strength * geo.galoisField) <
    geo.eccStepDs.toNat * 8

/-- A strength that is tried for a large OOB area. -/
def Geometry.Tried (strength : Nat) : Prop :=
  strength ≤ soc.MXS_NAND_MAX_ECC_STRENGTH ∧ ∃ i, strength = geo.eccStrengthDs.toNat + 2 * i

/-- The chip meets the requirements, and its step and strength are not both zero. -/
def Geometry.Accepted : Prop :=
  geo.eccStrengthDs.toNat ≤ soc.MXS_NAND_MAX_ECC_STRENGTH ∧
    (0 < geo.eccStrengthDs.toNat ∧ 0 < geo.eccStepDs.toNat ∨ 1024 < geo.oobsize) ∧
    0 < geo.eccStepDs.toNat + geo.eccStrengthDs.toNat

/-- There is an OOB area, and the layout holds the mark: with a small OOB area that of the
required strength, made even; else that of the smallest strength with which the mark starts
in the data, or when there is none, that with ECC for the metadata. -/
def Geometry.MarkFits : Prop :=
  0 < geo.oobsize ∧
  if geo.eccStepDs.toNat < geo.oobsize then
    (∀ s, IsLeast {s | geo.Tried soc s ∧ geo.StartsInData s} s →
      (geo.layout 80 s).Holds geo.writesize) ∧
    ((∀ s, geo.Tried soc s → ¬geo.StartsInData s) →
      (geo.layout (80 + geo.eccStrengthDs.toNat * geo.galoisField)
        geo.eccStrengthDs.toNat).Holds geo.writesize)
  else
    (geo.layout 80 (geo.eccStrengthDs.toNat + geo.eccStrengthDs.toNat % 2)).Holds geo.writesize

variable {soc geo} {g : Globals}

theorem mxsNandBbmInDataChunk_eq (hstep : g.chunkDataChunkSize = geo.eccStepDs.toNat)
    (hfield : g.galoisField = geo.galoisField)
    (hpos : 0 < geo.eccStepDs.toNat * 8 + g.eccStrength * geo.galoisField) :
    ∃ found, mxsNandBbmInDataChunk geo g = some found ∧
      (found ≠ none ↔ geo.StartsInData g.eccStrength) := by
  rw [mxsNandBbmInDataChunk, hstep, hfield, Nat.mul_comm geo.galoisField, Nat.add_comm]
  dsimp only
  rw [if_neg hpos.ne']
  refine ⟨_, rfl, ?_⟩
  rw [Geometry.StartsInData, show 80 = MXS_NAND_METADATA_SIZE * 8 from rfl]
  split_ifs with hdata
  · exact iff_of_true (Option.some_ne_none _) hdata
  · exact iff_of_false (not_not_intro rfl) hdata

/-- The loop ends with the first strength that starts the mark in the data, or with one that
is too large. -/
theorem strengthLoop_spec (g : Globals) (hstep : g.chunkDataChunkSize = geo.eccStepDs.toNat)
    (hfield : g.galoisField = geo.galoisField)
    (hpos : 0 < geo.eccStepDs.toNat * 8 + g.eccStrength * geo.galoisField) :
    ∃ g', strengthLoop geo soc g = some g' ∧ g'.chunkDataChunkSize = g.chunkDataChunkSize ∧
      g'.galoisField = g.galoisField ∧ g'.eccForMeta = g.eccForMeta ∧
      (∃ i, g'.eccStrength = g.eccStrength + 2 * i) ∧
      (∀ i, g.eccStrength + 2 * i < g'.eccStrength → ¬geo.StartsInData (g.eccStrength + 2 * i)) ∧
      (g'.eccStrength ≤ soc.MXS_NAND_MAX_ECC_STRENGTH → geo.StartsInData g'.eccStrength) := by
  induction g using strengthLoop.induct geo soc with
  | case1 g hlarge =>
    rw [strengthLoop, if_pos hlarge]
    exact ⟨g, rfl, rfl, rfl, rfl, ⟨0, rfl⟩, fun i hi => by omega, fun hle => by omega⟩
  | case2 g hsmall hnone =>
    obtain ⟨found, hfound, _⟩ := mxsNandBbmInDataChunk_eq hstep hfield hpos
    rw [hnone] at hfound
    cases hfound
  | case3 g hsmall chunk hchunk =>
    obtain ⟨found, hfound, hiff⟩ := mxsNandBbmInDataChunk_eq hstep hfield hpos
    obtain rfl : some chunk = found := Option.some.inj (hchunk.symm.trans hfound)
    rw [strengthLoop, if_neg hsmall, hchunk]
    exact ⟨_, rfl, rfl, rfl, rfl, ⟨0, rfl⟩, fun i hi => absurd hi (by simp),
      fun _ => hiff.mp (Option.some_ne_none _)⟩
  | case4 g hsmall hout ih =>
    obtain ⟨found, hfound, hiff⟩ := mxsNandBbmInDataChunk_eq hstep hfield hpos
    obtain rfl : none = found := Option.some.inj (hout.symm.trans hfound)
    have hnot : ¬geo.StartsInData g.eccStrength := fun h => hiff.mpr h rfl
    obtain ⟨g', hloop, hchunk', hfield', hmeta', ⟨i, hi⟩, hbefore, hat⟩ :=
      ih hstep hfield (by
        have := Nat.add_mul g.eccStrength 2 geo.galoisField
        dsimp only
        omega)
    rw [strengthLoop, if_neg hsmall, hout]
    refine ⟨g', hloop, hchunk', hfield', hmeta', ⟨i + 1, ?_⟩, fun k hk => ?_, hat⟩
    · rw [hi]
      dsimp only
      omega
    · cases k with
      | zero => exact hnot
      | succ k =>
        have := hbefore k
        dsimp only at this
        rw [show g.eccStrength + 2 + 2 * k = g.eccStrength + 2 * (k + 1) by omega] at this
        exact this hk

theorem Geometry.Accepted.total_pos (h : geo.Accepted soc) {strength : Nat}
    (hle : geo.eccStrengthDs.toNat ≤ strength) :
    0 < geo.eccStepDs.toNat * 8 + strength * geo.galoisField := by
  have hfield : 0 < geo.galoisField := by
    rw [Geometry.galoisField]
    split_ifs <;> decide
  have hpos := h.2.2
  have := Nat.le_mul_of_pos_right strength hfield
  omega

/-- The layout of a chip that meets the requirements. -/
theorem mxsNandGetEccStrength_accepted (h : geo.Accepted soc) :
    ∃ g, mxsNandGetEccStrength geo soc = some (0, g) ∧
      g.chunkDataChunkSize = geo.eccStepDs.toNat ∧ g.galoisField = geo.galoisField ∧
      if geo.eccStepDs.toNat < geo.oobsize then
        g.eccForMeta = false ∧ IsLeast {s | geo.Tried soc s ∧ geo.StartsInData s} g.eccStrength ∨
        g.eccForMeta = true ∧ g.eccStrength = geo.eccStrengthDs.toNat ∧
          ∀ s, geo.Tried soc s → ¬geo.StartsInData s
      else g.eccForMeta = false ∧
        g.eccStrength = geo.eccStrengthDs.toNat + geo.eccStrengthDs.toNat % 2 := by
  have hinfo : ¬(¬(0 < geo.eccStrengthDs.toNat ∧ 0 < geo.eccStepDs.toNat) ∧
      ¬1024 < geo.oobsize) := by
    have := h.2.1
    omega
  have hfield : (if 1024 = geo.eccStepDs.toNat then
      { chunkDataChunkSize := geo.eccStepDs.toNat, galoisField := 14 }
      else { chunkDataChunkSize := geo.eccStepDs.toNat } : Globals) =
        { chunkDataChunkSize := geo.eccStepDs.toNat, galoisField := geo.galoisField } := by
    rw [Geometry.galoisField]
    by_cases hstep : geo.eccStepDs.toNat = 1024
    · rw [if_pos hstep, if_pos hstep.symm]
    · rw [if_neg hstep, if_neg (Ne.symm hstep)]
  rw [mxsNandGetEccStrength]
  dsimp only
  rw [if_neg (Nat.not_lt.mpr h.1), if_neg hinfo, hfield]
  by_cases hoob : geo.eccStepDs.toNat < geo.oobsize
  swap
  · simp only [if_neg hoob]
    exact ⟨_, rfl, rfl, rfl, rfl, rfl⟩
  simp only [if_pos hoob, if_true]
  obtain ⟨g, hloop, hchunk, hgalois, hmeta, ⟨i, hi⟩, hbefore, hat⟩ := @strengthLoop_spec soc geo
    { chunkDataChunkSize := geo.eccStepDs.toNat, galoisField := geo.galoisField,
      largeOobFlag := true, eccStrength := geo.eccStrengthDs.toNat } rfl rfl
    (h.total_pos (Nat.le_refl _))
  rw [hloop, Option.map_some]
  dsimp only at hchunk hgalois hmeta hi hbefore
  by_cases hlarge : soc.MXS_NAND_MAX_ECC_STRENGTH < g.eccStrength
  · rw [if_pos hlarge]
    refine ⟨_, rfl, hchunk, hgalois, .inr ⟨rfl, rfl, ?_⟩⟩
    rintro s ⟨hle, k, rfl⟩
    exact hbefore k (by omega)
  · rw [if_neg hlarge]
    refine ⟨g, rfl, hchunk, hgalois, .inl ⟨hmeta, ⟨⟨by omega, i, hi⟩, hat (by omega)⟩, ?_⟩⟩
    rintro s ⟨⟨_, k, rfl⟩, hstarts⟩
    by_contra hlt
    exact hbefore k (by omega) hstarts

theorem mxsNandGetEccStrength_not_accepted (h : ¬geo.Accepted soc) (g : Globals) :
    mxsNandGetEccStrength geo soc ≠ some (0, g) := by
  rw [mxsNandGetEccStrength]
  dsimp only
  by_cases hstrength : soc.MXS_NAND_MAX_ECC_STRENGTH < geo.eccStrengthDs.toNat
  · rw [if_pos hstrength]
    exact fun heq => absurd (Prod.mk.inj (Option.some.inj heq)).1 (by decide)
  rw [if_neg hstrength]
  by_cases hinfo : ¬(0 < geo.eccStrengthDs.toNat ∧ 0 < geo.eccStepDs.toNat) ∧ ¬1024 < geo.oobsize
  · rw [if_pos hinfo]
    exact fun heq => absurd (Prod.mk.inj (Option.some.inj heq)).1 (by decide)
  rw [if_neg hinfo]
  -- the step and the strength are zero, and the loop divides by zero
  rw [Geometry.Accepted] at h
  have hzero : geo.eccStepDs.toNat = 0 ∧ geo.eccStrengthDs.toNat = 0 := by omega
  have hoob : 0 < geo.oobsize := by omega
  rw [hzero.1, hzero.2, if_neg (by decide : ¬1024 = 0), if_pos hoob, if_pos rfl, strengthLoop,
    if_neg (Nat.not_lt_zero _), mxsNandBbmInDataChunk]
  dsimp only
  rw [if_pos (by decide)]
  exact (Option.some_ne_none (0, g)).symm

/-! ## The main result -/

/-- Where the driver accepts a chip the mark is protected exactly when it fits. -/
theorem blockMark_iff (soc : Soc) (geo : Geometry) :
    (∀ g, mxsNandGetEccStrength geo soc = some (0, g) → MarkProtected geo g) ↔
      (geo.Accepted soc → geo.MarkFits soc) := by
  by_cases hacc : geo.Accepted soc
  swap
  · exact iff_of_true (fun g hg => absurd hg (mxsNandGetEccStrength_not_accepted hacc g))
      (fun h => absurd h hacc)
  obtain ⟨g, hg, hchunk, hgalois, hchoice⟩ := mxsNandGetEccStrength_accepted hacc
  have hleft : (∀ g', mxsNandGetEccStrength geo soc = some (0, g') → MarkProtected geo g') ↔
      MarkProtected geo g := by
    refine ⟨fun h => h g hg, fun h g' hg' => ?_⟩
    obtain rfl := (Prod.mk.inj (Option.some.inj (hg.symm.trans hg'))).2
    exact h
  have hlayout : g.bchLayout = geo.layout
      (80 + if g.eccForMeta then g.eccStrength * geo.galoisField else 0) g.eccStrength := by
    rw [Globals.bchLayout, Geometry.layout, mxsNandEccSizeInBits, hchunk, hgalois]
    rfl
  rw [hleft, Geometry.MarkFits, forall_prop_of_true hacc]
  split_ifs at hchoice ⊢ with hoob
  · obtain ⟨hmeta, hleast⟩ | ⟨hmeta, hstrength, hnone⟩ := hchoice
    · rw [hmeta] at hlayout
      have hle : geo.eccStrengthDs.toNat ≤ g.eccStrength := by
        obtain ⟨i, hi⟩ := hleast.1.1.2
        omega
      rw [markProtected_iff (by rw [hlayout]; exact hacc.total_pos hle), hlayout]
      refine and_congr_right fun _ => ⟨fun h => ⟨fun s hs => ?_, fun hnone => ?_⟩, fun h => ?_⟩
      · rw [hs.unique hleast]
        exact h
      · exact absurd hleast.1.2 (hnone _ hleast.1.1)
      · exact h.1 _ hleast
    · rw [hmeta, hstrength] at hlayout
      rw [markProtected_iff (by rw [hlayout]; exact hacc.total_pos (Nat.le_refl _)), hlayout]
      refine and_congr_right fun _ => ⟨fun h => ⟨fun s hs => ?_, fun _ => h⟩, fun h => h.2 hnone⟩
      exact absurd hs.1.2 (hnone s hs.1.1)
  · rw [hchoice.1, hchoice.2] at hlayout
    rw [markProtected_iff (by rw [hlayout]; exact hacc.total_pos (Nat.le_add_right _ _)), hlayout]
    rfl

/-- A chip with a page of 16384 bytes and an OOB area of 512 that requires 10 bits for 512
bytes. -/
def ecc10Chip : Geometry where
  writesize := 16384
  oobsize := 512
  eccStrengthDs := 10
  eccStepDs := 512
  writesize_lt := by decide

/-- The mark of this chip starts in the ECC bits of a chunk. -/
theorem ecc10Chip_not_protected : ¬∀ g, mxsNandGetEccStrength ecc10Chip .other = some (0, g) →
    MarkProtected ecc10Chip g := by
  intro h
  have hprotected := h { chunkDataChunkSize := 512, eccStrength := 10 } rfl
  rw [markProtected_iff (by decide)] at hprotected
  exact absurd hprotected.2.2.1 (by decide)

end

end UBoot.Nand
