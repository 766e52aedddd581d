import Mathlib.Logic.Function.Basic
import UBoot.Verification.ByteBits

/-!
# The block mark of a NAND page

The choice of the ECC layout and the swap of the block mark in the i.MX driver
(`drivers/mtd/nand/mxs_nand.c`). In a page the BCH engine puts the metadata first, then
the chunks, each with its data and the ECC bits for it.
-/

namespace UBoot.Nand

open Verification

def MXS_NAND_METADATA_SIZE : Nat := 10

/-- The families with their own `MXS_NAND_MAX_ECC_STRENGTH`. -/
inductive Soc
  | mx6sxOrMx7
  | other

def Soc.MXS_NAND_MAX_ECC_STRENGTH : Soc → Nat
  | .mx6sxOrMx7 => 62
  | .other => 40

/-- The sizes of a page and what the chip requires of the ECC. The number of bits in a page
is counted in a `uint32_t`. -/
structure Geometry where
  writesize : Nat
  oobsize : Nat
  eccStrengthDs : UInt16
  eccStepDs : UInt16
  writesize_lt : writesize < 536870912

/-- The global variables of the driver. -/
structure Globals where
  chunkDataChunkSize : Nat := 512
  galoisField : Nat := 13
  bbmChunk : Nat := 0
  eccStrength : Nat := 0
  largeOobFlag : Bool := false
  eccForMeta : Bool := false
  deriving DecidableEq

/-- `uint32_t` subtraction. -/
def sub32 (a b : Nat) : Nat := (a + 4294967296 - b % 4294967296) % 4294967296

section

variable (geo : Geometry)

/-- `mxs_nand_bbm_in_data_chunk`: nothing when it divides by zero, else the chunk when the
mark is in its data. -/
def mxsNandBbmInDataChunk (g : Globals) : Option (Option Nat) :=
  let total := g.galoisField * g.eccStrength + g.chunkDataChunkSize * 8
  if total = 0 then none
  else
    let i := sub32 (geo.writesize * 8) (MXS_NAND_METADATA_SIZE * 8) / total
    let j := sub32 (geo.writesize * 8) (MXS_NAND_METADATA_SIZE * 8) % total
    some (if j < g.chunkDataChunkSize * 8 then some (i + 1) else none)

/-- The loop over the strengths in `mxs_nand_get_ecc_strength`. -/
def strengthLoop (soc : Soc) (g : Globals) : Option Globals :=
  if soc.MXS_NAND_MAX_ECC_STRENGTH < g.eccStrength then some g
  else
    match mxsNandBbmInDataChunk geo g with
    | none => none
    | some (some chunk) => some { g with bbmChunk := chunk }
    | some none => strengthLoop soc { g with eccStrength := g.eccStrength + 2 }
termination_by soc.MXS_NAND_MAX_ECC_STRENGTH + 1 - g.eccStrength

def EINVAL : Int := 22

/-- `mxs_nand_get_ecc_strength` with the variables as they are at the start: nothing when it
divides by zero. -/
def mxsNandGetEccStrength (soc : Soc) : Option (Int × Globals) :=
  let g : Globals := {}
  let strengthDs := geo.eccStrengthDs.toNat
  let stepDs := geo.eccStepDs.toNat
  if soc.MXS_NAND_MAX_ECC_STRENGTH < strengthDs then some (-EINVAL, g)
  else if ¬(0 < strengthDs ∧ 0 < stepDs) ∧ ¬1024 < geo.oobsize then some (-EINVAL, g)
  else
    let g := { g with chunkDataChunkSize := stepDs }
    let g := if 1024 = stepDs then { g with galoisField := 14 } else g
    let g := if stepDs < geo.oobsize then { g with largeOobFlag := true } else g
    if g.largeOobFlag then
      (strengthLoop geo soc { g with eccStrength := strengthDs }).map fun g =>
        if soc.MXS_NAND_MAX_ECC_STRENGTH < g.eccStrength then
          let g := { g with eccStrength := strengthDs, eccForMeta := true }
          let chunk := sub32 (sub32 (geo.writesize * 8) (MXS_NAND_METADATA_SIZE * 8))
            (g.galoisField * g.eccStrength) /
              (g.galoisField * g.eccStrength + g.chunkDataChunkSize * 8)
          (0, { g with bbmChunk := chunk + 1 })
        else (0, g)
    else some (0, { g with eccStrength := strengthDs + strengthDs % 2 })

end

/-! ## The mark in the data -/

section

variable (g : Globals)

def mxsNandEccSizeInBits : Nat := g.eccStrength * g.galoisField

def mxsNandGetMarkOffset (pageDataSize : Nat) : Nat :=
  let chunkDataSizeInBits := g.chunkDataChunkSize * 8
  let chunkEccSizeInBits := mxsNandEccSizeInBits g
  let chunkTotalSizeInBits := chunkDataSizeInBits + chunkEccSizeInBits
  let blockMarkBitOffset := pageDataSize * 8
  let blockMarkBitOffset :=
    if g.eccForMeta then sub32 blockMarkBitOffset (MXS_NAND_METADATA_SIZE * 8 + chunkEccSizeInBits)
    else sub32 blockMarkBitOffset (MXS_NAND_METADATA_SIZE * 8)
  let blockMarkChunkNumber := blockMarkBitOffset / chunkTotalSizeInBits
  let blockMarkChunkBitOffset :=
    sub32 blockMarkBitOffset (blockMarkChunkNumber * chunkTotalSizeInBits)
  if chunkDataSizeInBits < blockMarkChunkBitOffset then 1
  else sub32 blockMarkBitOffset (blockMarkChunkNumber * chunkEccSizeInBits)

def mxsNandMarkByteOffset (writesize : Nat) : Nat := mxsNandGetMarkOffset g writesize >>> 3

def mxsNandMarkBitOffset (writesize : Nat) : Nat := mxsNandGetMarkOffset g writesize % 8

end

/-- The swap at a bit of the data buffer, given as its byte and the bit in it. -/
def swapAt (bufOffset bitOffset : Nat) (dataBuf oobBuf : Ptr) : Ptr × Ptr :=
  let src := intOfByte (dataBuf bufOffset) >>> bitOffset
  let src := src ||| intOfByte (dataBuf (bufOffset + 1)) <<< (8 - bitOffset)
  let dst := intOfByte (oobBuf 0)
  let oobBuf := Function.update oobBuf 0 (byteOfInt src)
  let dataBuf := Function.update dataBuf bufOffset
    (byteOfInt (intOfByte (dataBuf bufOffset) &&& ~~~(0xff#32 <<< bitOffset)))
  let dataBuf := Function.update dataBuf (bufOffset + 1)
    (byteOfInt (intOfByte (dataBuf (bufOffset + 1)) &&& (0xff#32 <<< bitOffset)))
  let dataBuf := Function.update dataBuf bufOffset
    (byteOfInt (intOfByte (dataBuf bufOffset) ||| dst <<< bitOffset))
  let dataBuf := Function.update dataBuf (bufOffset + 1)
    (byteOfInt (intOfByte (dataBuf (bufOffset + 1)) ||| dst >>> (8 - bitOffset)))
  (dataBuf, oobBuf)

def mxsNandSwapBlockMark (g : Globals) (writesize : Nat) (dataBuf oobBuf : Ptr) : Ptr × Ptr :=
  swapAt (mxsNandMarkByteOffset g writesize) (mxsNandMarkBitOffset g writesize) dataBuf oobBuf

/-! ## The page -/

/-- How the BCH engine arranges a page: the bits of the metadata with ECC bits of their own
or without, of the data of a chunk, and of the ECC of a chunk. -/
structure BchLayout where
  metaBits : Nat
  dataBits : Nat
  eccBits : Nat

def Globals.bchLayout (g : Globals) : BchLayout where
  metaBits := MXS_NAND_METADATA_SIZE * 8 + if g.eccForMeta then mxsNandEccSizeInBits g else 0
  dataBits := g.chunkDataChunkSize * 8
  eccBits := mxsNandEccSizeInBits g

/-- The bits of a page that the engine writes. The ECC bits are what it computes. -/
def BchLayout.page (l : BchLayout) (ecc : Nat → Bool) (dataBuf oobBuf : Ptr) (p : Nat) : Bool :=
  if p < MXS_NAND_METADATA_SIZE * 8 then oobBuf.bit p
  else if p < l.metaBits then ecc p
  else
    let k := (p - l.metaBits) / (l.dataBits + l.eccBits)
    let r := (p - l.metaBits) % (l.dataBits + l.eccBits)
    if r < l.dataBits then dataBuf.bit (k * l.dataBits + r) else ecc p

structure Buffers where
  dataBuf : Ptr
  oobBuf : Ptr

/-- `mxs_nand_ecc_write_page`: the bits of the page that is written. -/
def mxsNandEccWritePage (geo : Geometry) (g : Globals) (encode : Ptr → Ptr → Nat → Bool)
    (info : Buffers) (buf oobPoi : Ptr) : Nat → Bool :=
  let dataBuf := info.dataBuf.write 0 geo.writesize buf
  let oobBuf := info.oobBuf.write 0 geo.oobsize oobPoi
  let (dataBuf, oobBuf) := mxsNandSwapBlockMark g geo.writesize dataBuf oobBuf
  g.bchLayout.page (encode dataBuf oobBuf) dataBuf oobBuf

/-! ## The swap -/

theorem getLsbD_255 (t : Nat) : (0xff#32).getLsbD t = decide (t < 8) := by
  by_cases ht : t < 32
  · revert t
    decide
  · rw [BitVec.getLsbD_of_ge _ _ (by omega), decide_eq_false (by omega)]

section

variable {b o : Nat} (data oob : Ptr)

theorem swapAt_fst_byte : (swapAt b o data oob).1 b = byteOfInt
    (intOfByte (byteOfInt (intOfByte (data b) &&& ~~~(0xff#32 <<< o))) |||
      intOfByte (oob 0) <<< o) := by
  have hne : b ≠ b + 1 := by omega
  simp only [swapAt, Function.update_self, Function.update_of_ne hne]

theorem swapAt_fst_next : (swapAt b o data oob).1 (b + 1) = byteOfInt
    (intOfByte (byteOfInt (intOfByte (data (b + 1)) &&& (0xff#32 <<< o))) |||
      intOfByte (oob 0) >>> (8 - o)) := by
  have hne : b + 1 ≠ b := by omega
  simp only [swapAt, Function.update_self, Function.update_of_ne hne]

theorem swapAt_fst_of_ne {i : Nat} (hb : i ≠ b) (hnext : i ≠ b + 1) :
    (swapAt b o data oob).1 i = data i := by
  simp only [swapAt, Function.update_of_ne hb, Function.update_of_ne hnext]

theorem swapAt_snd_of_ne {i : Nat} (hi : i ≠ 0) : (swapAt b o data oob).2 i = oob i :=
  Function.update_of_ne hi _ _

/-- The data after a swap: the mark in the place of eight bits, all others as before. -/
theorem bit_swapAt_fst (ho : o < 8) (j : Nat) : (swapAt b o data oob).1.bit j =
    if 8 * b + o ≤ j ∧ j < 8 * b + o + 8 then oob.bit (j - (8 * b + o)) else data.bit j := by
  obtain ⟨i, t, ht, rfl⟩ : ∃ i t, t < 8 ∧ j = 8 * i + t :=
    ⟨j / 8, j % 8, Nat.mod_lt j (by decide), (Nat.div_add_mod j 8).symm⟩
  rw [Ptr.bit_add _ _ ht, Ptr.bit_add _ _ ht]
  by_cases hb : i = b
  · subst hb
    rw [swapAt_fst_byte, getLsbD_byteOfInt _ ht, BitVec.getLsbD_or, getLsbD_intOfByte,
      getLsbD_byteOfInt _ ht, BitVec.getLsbD_and, getLsbD_intOfByte, BitVec.getLsbD_not,
      BitVec.getLsbD_shiftLeft, BitVec.getLsbD_shiftLeft, getLsbD_255, getLsbD_intOfByte]
    by_cases hot : o ≤ t
    · rw [if_pos (by omega), show 8 * i + t - (8 * i + o) = t - o by omega,
        oob.bit_of_lt (by omega)]
      simp [show t < 32 by omega, show ¬t < o by omega, show t - o < 8 by omega]
    · rw [if_neg (by omega)]
      simp [show t < 32 by omega, show t < o by omega]
  by_cases hnext : i = b + 1
  · subst hnext
    rw [swapAt_fst_next, getLsbD_byteOfInt _ ht, BitVec.getLsbD_or, getLsbD_intOfByte,
      getLsbD_byteOfInt _ ht, BitVec.getLsbD_and, getLsbD_intOfByte, BitVec.getLsbD_shiftLeft,
      getLsbD_255, BitVec.getLsbD_ushiftRight, getLsbD_intOfByte]
    by_cases hot : o ≤ t
    · rw [if_neg (by omega), BitVec.getLsbD_of_ge _ (8 - o + t) (by omega)]
      simp [show t < 32 by omega, show ¬t < o by omega, show t - o < 8 by omega]
    · rw [if_pos (by omega), show 8 * (b + 1) + t - (8 * b + o) = 8 - o + t by omega,
        oob.bit_of_lt (by omega)]
      simp [show t < o by omega]
  · rw [swapAt_fst_of_ne _ _ hb hnext, if_neg (by omega)]

/-- The mark after a swap: the eight bits of the data. -/
theorem bit_swapAt_snd (ho : o < 8) {t : Nat} (ht : t < 8) :
    (swapAt b o data oob).2.bit t = data.bit (8 * b + o + t) := by
  have hsrc : (swapAt b o data oob).2 0 = byteOfInt (intOfByte (data b) >>> o |||
      intOfByte (data (b + 1)) <<< (8 - o)) := by
    simp only [swapAt, Function.update_self]
  rw [Ptr.bit_of_lt _ ht, hsrc, getLsbD_byteOfInt _ ht, BitVec.getLsbD_or, BitVec.getLsbD_ushiftRight,
    getLsbD_intOfByte, BitVec.getLsbD_shiftLeft, getLsbD_intOfByte]
  by_cases hot : o + t < 8
  · rw [Nat.add_assoc, data.bit_add b hot]
    simp [show t < 8 - o by omega]
  · rw [show 8 * b + o + t = 8 * (b + 1) + (t - (8 - o)) by omega,
      data.bit_add (b + 1) (by omega), BitVec.getLsbD_of_ge _ (o + t) (by omega)]
    simp [show t < 32 by omega, show ¬t < 8 - o by omega]

/-- A second swap undoes the first. -/
theorem swapAt_swapAt (ho : o < 8) : swapAt b o (swapAt b o data oob).1 (swapAt b o data oob).2 =
    (data, oob) := by
  refine Prod.ext (Ptr.ext_bit fun j => ?_) (Ptr.ext_bit fun j => ?_)
  · rw [bit_swapAt_fst _ _ ho]
    split_ifs with hj
    · rw [bit_swapAt_snd _ _ ho (by omega), Nat.add_sub_of_le hj.1]
    · rw [bit_swapAt_fst _ _ ho, if_neg hj]
  · by_cases hj : j < 8
    · rw [bit_swapAt_snd _ _ ho hj, bit_swapAt_fst _ _ ho, if_pos (by omega),
        Nat.add_sub_cancel_left]
    · have hne : j / 8 ≠ 0 := by omega
      rw [Ptr.bit, swapAt_snd_of_ne _ _ hne, swapAt_snd_of_ne _ _ hne]
      rfl

end

end UBoot.Nand
