import Mathlib.Algebra.Order.Field.Rat
import Mathlib.Data.List.ProdSigma
import Mathlib.Tactic.Linarith
import UBoot.Verification.FirstBest

/-!
# The pixel clock of the LCD interfaces

`mxs_set_lcdclk` and `enable_pll_video` (`arch/arm/cpu/armv7/mx6/clock.c`). The registers
hold what is written to them; whether the PLL locks in time is a parameter.
-/

namespace UBoot.Mx6

open Verification

def MXC_HCLK : UInt32 := 24000000

def BM_ANADIG_PLL_VIDEO_TEST_DIV_SELECT : UInt32 := 0x00180000
def BM_ANADIG_PLL_VIDEO_BYPASS : UInt32 := 0x00010000
def BM_ANADIG_PLL_VIDEO_ENABLE : UInt32 := 0x00002000
def BM_ANADIG_PLL_VIDEO_POWERDOWN : UInt32 := 0x00001000
def BM_ANADIG_PLL_VIDEO_DIV_SELECT : UInt32 := 0x0000007F
def BM_ANADIG_PLL_VIDEO_NUM_A : UInt32 := 0x3FFFFFFF
def BM_ANADIG_PLL_VIDEO_DENOM_B : UInt32 := 0x3FFFFFFF

/-- The registers of `imx_ccm` that are used. -/
structure Ccm where
  cbcmr : UInt32
  cscmr1 : UInt32
  cscdr2 : UInt32
  analogPllVideo : UInt32
  analogPllVideoNum : UInt32
  analogPllVideoDenom : UInt32

/-- The two interfaces, by their base address. -/
inductive Lcdif
  | lcdif1
  | lcdif2

/-- A field of a register: its mask and its offset. -/
structure Field where
  mask : UInt32
  offset : UInt32

/-- A field with the mask `0x7 << offset`. -/
def threeBits (offset : UInt32) : Field := ⟨0x7 <<< offset, offset⟩

/-- `MXC_CCM_CSCDR2_LCDIF1_CLK_SEL` and its sibling. -/
def Lcdif.clkSel : Lcdif → Field
  | .lcdif1 => threeBits 9
  | .lcdif2 => threeBits 0

/-- `MXC_CCM_CSCDR2_LCDIF1_PRED_SEL` and its sibling. -/
def Lcdif.predSel : Lcdif → Field
  | .lcdif1 => threeBits 15
  | .lcdif2 => threeBits 6

/-- `MXC_CCM_CSCDR2_LCDIF1_PRE_DIV` and its sibling. -/
def Lcdif.preDiv : Lcdif → Field
  | .lcdif1 => threeBits 12
  | .lcdif2 => threeBits 3

/-- `MXC_CCM_CBCMR_LCDIF1_PODF` and `MXC_CCM_CSCMR1_LCDIF2_PODF`. -/
def Lcdif.podf : Lcdif → Field
  | .lcdif1 => threeBits 23
  | .lcdif2 => threeBits 20

def Field.get (f : Field) (reg : UInt32) : UInt32 := (reg &&& f.mask) >>> f.offset

def Field.set (f : Field) (reg v : UInt32) : UInt32 := (reg &&& ~~~f.mask) ||| (v <<< f.offset)

/-! ## The code -/

/-- `enable_pll_video`, and whether the PLL has locked. -/
def enablePllVideo (locks : Bool) (c : Ccm) (pllDiv pllNum pllDenom testDiv : UInt32) :
    Ccm × Bool :=
  let video := c.analogPllVideo &&& ~~~(BM_ANADIG_PLL_VIDEO_POWERDOWN |||
    BM_ANADIG_PLL_VIDEO_BYPASS ||| BM_ANADIG_PLL_VIDEO_DIV_SELECT |||
    BM_ANADIG_PLL_VIDEO_TEST_DIV_SELECT)
  let select : UInt32 := if testDiv = 1 then 0x1 else if testDiv = 2 then 0x0 else 0x2
  let c := { c with
    analogPllVideo := video ||| ((pllDiv <<< 0 &&& BM_ANADIG_PLL_VIDEO_DIV_SELECT) |||
      (select <<< 19 &&& BM_ANADIG_PLL_VIDEO_TEST_DIV_SELECT))
    analogPllVideoNum := pllNum <<< 0 &&& BM_ANADIG_PLL_VIDEO_NUM_A
    analogPllVideoDenom := pllDenom <<< 0 &&& BM_ANADIG_PLL_VIDEO_DENOM_B }
  if locks then
    ({ c with analogPllVideo := c.analogPllVideo ||| BM_ANADIG_PLL_VIDEO_ENABLE }, true)
  else (c, false)

def hck : UInt32 := MXC_HCLK / 1000

def vcoMin : UInt32 := hck * 27

def vcoMax : UInt32 := hck * 54

/-- The first loop of `mxs_set_lcdclk`: `post_div`, and the frequency in front of it. -/
def postDivLoop (temp freq : UInt32) : Option (UInt32 × UInt32) :=
  (([1, 2] : List UInt32).find? fun i => temp * ((1 : UInt32) <<< i) > vcoMin).map
    fun i => (i, freq * ((1 : UInt32) <<< i))

/-- The pairs of `i` and `j`, in the order of the loops. -/
def dividerPairs : List (UInt32 × UInt32) :=
  ([1, 2, 3, 4, 5, 6, 7, 8] : List UInt32).product [1, 2, 3, 4, 5, 6, 7, 8]

/-- The variables of the search. -/
structure Best where
  best : UInt32
  pred : UInt32
  postd : UInt32
  deriving DecidableEq

def bestRound (freq : UInt32) (b : Best) (d : UInt32 × UInt32) : Best :=
  let temp := freq * d.1 * d.2
  if temp > vcoMax ∨ temp < vcoMin then b
  else if b.best = 0 ∨ temp < b.best then ⟨temp, d.1, d.2⟩ else b

def bestLoop (freq : UInt32) : Best := dividerPairs.foldl (bestRound freq) ⟨0, 1, 1⟩

/-- The part of `mxs_set_lcdclk` that chooses: `post_div` and what the search has found. -/
def chooseDividers (freq : UInt32) : Option (UInt32 × Best) := do
  let temp := freq * 8 * 8
  let (postDiv, freq) ← if temp < vcoMin then postDivLoop temp freq else some (0, freq)
  let b := bestLoop freq
  if b.best = 0 then none else some (postDiv, b)

/-- How `mxs_set_lcdclk` ends. -/
inductive Report
  | notFromPreMux
  | fail
  | timeout
  | set
  deriving DecidableEq

def mxsSetLcdclk (locks : Bool) (c : Ccm) (base : Lcdif) (freq : UInt32) : Report × Ccm :=
  if base.clkSel.get c.cscdr2 ≠ 0 then (.notFromPreMux, c)
  else
    match chooseDividers freq with
    | none => (.fail, c)
    | some (postDiv, b) =>
      let pllDiv := b.best / hck
      let pllDenom : UInt32 := 1000000
      let pllNum := (b.best - hck * pllDiv) * pllDenom / hck
      match enablePllVideo locks c pllDiv pllNum pllDenom postDiv with
      | (c, false) => (.timeout, c)
      | (c, true) =>
        let reg := base.predSel.set c.cscdr2 0x2
        let c := { c with cscdr2 := base.preDiv.set reg (b.pred - 1) }
        (.set, match base with
          | .lcdif1 => { c with cbcmr := base.podf.set c.cbcmr (b.postd - 1) }
          | .lcdif2 => { c with cscmr1 := base.podf.set c.cscmr1 (b.postd - 1) })

/-! ## What the registers mean -/

def Ccm.pllOutput (c : Ccm) : ℚ :=
  24000 * ((Field.mk BM_ANADIG_PLL_VIDEO_DIV_SELECT 0).get c.analogPllVideo).toNat +
    24000 * (c.analogPllVideoNum.toNat / c.analogPllVideoDenom.toNat)

def Ccm.testDivider (c : Ccm) : Nat :=
  let select := (Field.mk BM_ANADIG_PLL_VIDEO_TEST_DIV_SELECT 19).get c.analogPllVideo
  if select = 0 then 4 else if select = 1 then 2 else 1

def Ccm.preDivider (c : Ccm) (base : Lcdif) : Nat := (base.preDiv.get c.cscdr2).toNat + 1

def Ccm.postDivider (c : Ccm) (base : Lcdif) : Nat :=
  (base.podf.get (match base with | .lcdif1 => c.cbcmr | .lcdif2 => c.cscmr1)).toNat + 1

def Ccm.pixelClock (c : Ccm) (base : Lcdif) : ℚ :=
  c.pllOutput / (c.testDivider * c.preDivider base * c.postDivider base : Nat)

/-! ## Fields -/

theorem and_or_and (x y m : UInt32) : (x ||| y) &&& m = x &&& m ||| y &&& m :=
  UInt32.toBitVec_inj.mp BitVec.and_or_distrib_right

/-- Bits that are not cleared for a field do not show in it. -/
theorem and_and_eq_zero {k m : UInt32} (h : k &&& m = 0) (x : UInt32) : x &&& k &&& m = 0 := by
  rw [UInt32.and_assoc, h, UInt32.and_zero]

theorem Field.get_set (f : Field) (reg v : UInt32) :
    f.get (f.set reg v) = (v <<< f.offset &&& f.mask) >>> f.offset := by
  rw [Field.get, Field.set, and_or_and, and_and_eq_zero UInt32.not_and_self, UInt32.zero_or]

theorem mem_dividerPairs {d : UInt32 × UInt32} (hd : d ∈ dividerPairs) :
    d.1 ∈ ([1, 2, 3, 4, 5, 6, 7, 8] : List UInt32) ∧
      d.2 ∈ ([1, 2, 3, 4, 5, 6, 7, 8] : List UInt32) :=
  List.mem_product.mp hd

theorem preDivider_set (base : Lcdif) (reg : UInt32) {d : UInt32 × UInt32}
    (hd : d ∈ dividerPairs) :
    (base.preDiv.get (base.preDiv.set reg (d.1 - 1))).toNat + 1 = d.1.toNat := by
  rw [Field.get_set]
  have hall : ([1, 2, 3, 4, 5, 6, 7, 8] : List UInt32).all (fun n =>
      (((n - 1) <<< base.preDiv.offset &&& base.preDiv.mask) >>> base.preDiv.offset).toNat + 1 ==
        n.toNat) = true := by
    cases base <;> decide
  exact beq_iff_eq.mp (List.all_eq_true.mp hall d.1 (mem_dividerPairs hd).1)

theorem postDivider_set (base : Lcdif) (reg : UInt32) {d : UInt32 × UInt32}
    (hd : d ∈ dividerPairs) :
    (base.podf.get (base.podf.set reg (d.2 - 1))).toNat + 1 = d.2.toNat := by
  rw [Field.get_set]
  have hall : ([1, 2, 3, 4, 5, 6, 7, 8] : List UInt32).all (fun n =>
      (((n - 1) <<< base.podf.offset &&& base.podf.mask) >>> base.podf.offset).toNat + 1 ==
        n.toNat) = true := by
    cases base <;> decide
  exact beq_iff_eq.mp (List.all_eq_true.mp hall d.2 (mem_dividerPairs hd).2)

/-- A field that is not wider than `n` bits from the lowest on. -/
theorem toNat_and_low (x m : UInt32) (n : Nat) (hm : m.toNat = 2 ^ n - 1) :
    (x &&& m).toNat = x.toNat % 2 ^ n := by
  rw [UInt32.toNat_and, hm, Nat.and_two_pow_sub_one_eq_mod]

section

variable (c : Ccm) {pllDiv pllNum pllDenom testDiv : UInt32}

theorem enablePllVideo_analogPllVideo :
    (enablePllVideo true c pllDiv pllNum pllDenom testDiv).1.analogPllVideo =
      c.analogPllVideo &&& ~~~(BM_ANADIG_PLL_VIDEO_POWERDOWN ||| BM_ANADIG_PLL_VIDEO_BYPASS |||
        BM_ANADIG_PLL_VIDEO_DIV_SELECT ||| BM_ANADIG_PLL_VIDEO_TEST_DIV_SELECT) |||
      ((pllDiv <<< 0 &&& BM_ANADIG_PLL_VIDEO_DIV_SELECT) |||
        ((if testDiv = 1 then (0x1 : UInt32) else if testDiv = 2 then 0x0 else 0x2) <<< 19 &&&
          BM_ANADIG_PLL_VIDEO_TEST_DIV_SELECT)) |||
      BM_ANADIG_PLL_VIDEO_ENABLE := rfl

theorem pllOutput_enablePllVideo (hdiv : pllDiv.toNat < 128) (hnum : pllNum.toNat < 2 ^ 30)
    (hdenom : pllDenom.toNat < 2 ^ 30) :
    (enablePllVideo true c pllDiv pllNum pllDenom testDiv).1.pllOutput =
      24000 * pllDiv.toNat + 24000 * (pllNum.toNat / pllDenom.toNat) := by
  have hfield : ((Field.mk BM_ANADIG_PLL_VIDEO_DIV_SELECT 0).get
      (enablePllVideo true c pllDiv pllNum pllDenom testDiv).1.analogPllVideo).toNat =
        pllDiv.toNat := by
    rw [enablePllVideo_analogPllVideo, Field.get]
    dsimp only
    rw [and_or_and, and_or_and, and_or_and, and_and_eq_zero (by decide),
      and_and_eq_zero (by decide : BM_ANADIG_PLL_VIDEO_TEST_DIV_SELECT &&& _ = 0),
      UInt32.or_zero, UInt32.zero_or, (by decide : BM_ANADIG_PLL_VIDEO_ENABLE &&& _ = 0),
      UInt32.or_zero, UInt32.shiftRight_zero, UInt32.and_assoc, UInt32.and_self,
      UInt32.shiftLeft_zero, toNat_and_low _ _ 7 (by decide)]
    exact Nat.mod_eq_of_lt hdiv
  have hnum' : (enablePllVideo true c pllDiv pllNum pllDenom testDiv).1.analogPllVideoNum =
      pllNum <<< 0 &&& BM_ANADIG_PLL_VIDEO_NUM_A := rfl
  have hdenom' : (enablePllVideo true c pllDiv pllNum pllDenom testDiv).1.analogPllVideoDenom =
      pllDenom <<< 0 &&& BM_ANADIG_PLL_VIDEO_DENOM_B := rfl
  rw [Ccm.pllOutput, hfield, hnum', hdenom', UInt32.shiftLeft_zero, UInt32.shiftLeft_zero, toNat_and_low _ _ 30 (by decide),
    toNat_and_low _ _ 30 (by decide), Nat.mod_eq_of_lt hnum, Nat.mod_eq_of_lt hdenom]

theorem testDivider_enablePllVideo (h : testDiv = 0 ∨ testDiv = 1 ∨ testDiv = 2) :
    (enablePllVideo true c pllDiv pllNum pllDenom testDiv).1.testDivider = 2 ^ testDiv.toNat := by
  rw [Ccm.testDivider, enablePllVideo_analogPllVideo, Field.get]
  dsimp only
  rw [and_or_and, and_or_and, and_or_and, and_and_eq_zero (by decide),
    and_and_eq_zero (by decide : BM_ANADIG_PLL_VIDEO_DIV_SELECT &&& _ = 0), UInt32.zero_or,
    UInt32.zero_or, (by decide : BM_ANADIG_PLL_VIDEO_ENABLE &&& _ = 0), UInt32.or_zero]
  obtain rfl | rfl | rfl := h <;> decide

end

end UBoot.Mx6
