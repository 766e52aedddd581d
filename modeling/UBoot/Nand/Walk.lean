import UBoot.Nand.Basic
import Mathlib.Algebra.Order.Group.Nat

/-!
# The pieces of an access that skips bad blocks

`check_skip_len` measures the region that an access of a given length covers. It
counts the good bytes in 32 bits, and only a count that never wraps reaches the
length: every count behind the first block has the same residue modulo the block.
-/

namespace UBoot.Nand

open Verification

/-- The bytes up to the end of the block. -/
def NandInfo.blockRest (nand : NandInfo) (offset : Nat) : Nat :=
  nand.erasesize - offset % nand.erasesize

/-- The pieces at which an access of `left` bytes at `offset` ought to happen, and
the end of the region that it needs. -/
inductive Walk (nand : NandInfo) : Nat → Nat → List Access → Nat → Prop
  | done (offset : Nat) : Walk nand offset 0 [] offset
  | skip {offset left stop : Nat} {pieces : List Access} : 0 < left →
      nand.bad (blockStart nand offset) = true →
      Walk nand (offset + nand.blockRest offset) left pieces stop →
      Walk nand offset left pieces stop
  | piece {offset left stop : Nat} {pieces : List Access} : 0 < left →
      nand.bad (blockStart nand offset) = false →
      Walk nand (offset + min left (nand.blockRest offset))
        (left - min left (nand.blockRest offset)) pieces stop →
      Walk nand offset left ((offset, min left (nand.blockRest offset)) :: pieces) stop

/-- No byte of the region lies in a bad block. -/
def NoBad (nand : NandInfo) (offset stop : Nat) : Prop :=
  ∀ q, offset ≤ q → q < stop → nand.bad (blockStart nand q) = false

section

variable {nand : NandInfo}

theorem erasesize_pos (nand : NandInfo) : 0 < nand.erasesize := by
  obtain ⟨k, -, hk⟩ := nand.erasesize_pow
  rw [hk]
  exact Nat.two_pow_pos k

theorem erasesize_dvd (nand : NandInfo) : nand.erasesize ∣ 2 ^ 32 := by
  obtain ⟨k, hk, he⟩ := nand.erasesize_pow
  rw [he]
  exact Nat.pow_dvd_pow 2 hk.le

theorem erasesize_lt (nand : NandInfo) : nand.erasesize < 2 ^ 32 := by
  obtain ⟨k, hk, he⟩ := nand.erasesize_pow
  rw [he]
  exact Nat.pow_lt_pow_right (by decide) hk

theorem blockRest_pos (nand : NandInfo) (offset : Nat) : 0 < nand.blockRest offset := by
  have h := Nat.mod_lt offset (erasesize_pos nand)
  unfold NandInfo.blockRest
  omega

theorem blockRest_le (nand : NandInfo) (offset : Nat) :
    nand.blockRest offset ≤ nand.erasesize :=
  Nat.sub_le _ _

theorem add_blockRest (nand : NandInfo) (offset : Nat) :
    offset + nand.blockRest offset = nand.erasesize * (offset / nand.erasesize + 1) := by
  have h := Nat.mod_lt offset (erasesize_pos nand)
  have hdiv := Nat.div_add_mod offset nand.erasesize
  unfold NandInfo.blockRest
  rw [Nat.mul_add_one]
  omega

theorem add_blockRest_mod (nand : NandInfo) (offset : Nat) :
    (offset + nand.blockRest offset) % nand.erasesize = 0 := by
  rw [add_blockRest, Nat.mul_mod_right]

/-- The rest of a block that starts inside the device lies inside it. -/
theorem add_blockRest_le_size {offset : Nat} (h : offset < nand.size) :
    offset + nand.blockRest offset ≤ nand.size := by
  obtain ⟨blocks, hsize⟩ := nand.size_dvd
  rw [add_blockRest, hsize]
  rw [hsize] at h
  exact Nat.mul_le_mul_left _ (Nat.div_lt_of_lt_mul h)

/-- The bytes up to the end of a block have the same block. -/
theorem blockStart_eq {offset q : Nat} (hle : offset ≤ q)
    (hlt : q < offset + nand.blockRest offset) : blockStart nand q = blockStart nand offset := by
  obtain ⟨d, rfl⟩ := Nat.exists_eq_add_of_le hle
  have hmod : (offset + d) % nand.erasesize = offset % nand.erasesize + d := by
    have hd : offset % nand.erasesize + d < nand.erasesize := by
      unfold NandInfo.blockRest at hlt
      omega
    rw [Nat.add_mod, Nat.mod_eq_of_lt (show d < nand.erasesize by omega), Nat.mod_eq_of_lt hd]
  have hoff := Nat.mod_le offset nand.erasesize
  unfold blockStart
  omega

theorem noBad_block {offset stop : Nat} (hgood : nand.bad (blockStart nand offset) = false)
    (hstop : stop ≤ offset + nand.blockRest offset) : NoBad nand offset stop := by
  intro q hle hlt
  rw [blockStart_eq hle (by omega)]
  exact hgood

theorem Walk.le {offset left stop : Nat} {pieces : List Access}
    (h : Walk nand offset left pieces stop) : offset + left ≤ stop := by
  induction h with
  | done offset => exact le_rfl
  | skip _ _ _ ih => omega
  | piece _ _ _ ih => omega

theorem Walk.unique {offset left stop stop' : Nat} {pieces pieces' : List Access}
    (h : Walk nand offset left pieces stop) (h' : Walk nand offset left pieces' stop') :
    pieces = pieces' ∧ stop = stop' := by
  induction h generalizing pieces' stop' with
  | done offset =>
    cases h' with
    | done => exact ⟨rfl, rfl⟩
    | skip hpos => exact absurd hpos (Nat.lt_irrefl 0)
    | piece hpos => exact absurd hpos (Nat.lt_irrefl 0)
  | skip hpos hbad _ ih =>
    cases h' with
    | done => exact absurd hpos (Nat.lt_irrefl 0)
    | skip _ _ hwalk => exact ih hwalk
    | piece _ hgood _ =>
      rw [hgood] at hbad
      cases hbad
  | piece hpos hgood _ ih =>
    cases h' with
    | done => exact absurd hpos (Nat.lt_irrefl 0)
    | skip _ hbad _ =>
      rw [hgood] at hbad
      cases hbad
    | piece _ _ hwalk =>
      obtain ⟨rfl, rfl⟩ := ih hwalk
      exact ⟨rfl, rfl⟩

/-- Counts with the residue of a count that wraps never reach the length. -/
theorem checkSkipLen_ne_fits {length : UInt32} {residue : Nat}
    (hres : ∀ v < 2 ^ 32, v % nand.erasesize = residue → v < length.toNat) :
    ∀ (fuel offset : Nat) (lenExclBad : UInt32) (ret : Bool) (used : UInt32),
      offset % nand.erasesize = 0 → lenExclBad.toNat % nand.erasesize = residue →
      ∀ needSkip used',
        checkSkipLen nand length fuel offset lenExclBad ret used ≠ some (.fits needSkip, used') := by
  intro fuel
  induction fuel with
  | zero => intro _ _ _ _ _ _ _ _ h; cases h
  | succ fuel ih =>
    intro offset lenExclBad ret used halign hmod needSkip used' h
    have hlt : lenExclBad < length := hres _ lenExclBad.toNat_lt hmod
    have hrest : nand.erasesize - offset % nand.erasesize = nand.erasesize := by omega
    have halign' : (offset + nand.erasesize) % nand.erasesize = 0 := by simp [halign]
    unfold checkSkipLen at h
    rw [if_pos hlt] at h
    dsimp only at h
    rw [hrest] at h
    split_ifs at h with hsize hbad
    · cases h
    · exact ih _ _ _ _ halign' hmod _ _ h
    · refine ih _ _ _ _ halign' ?_ _ _ h
      rw [UInt32.toNat_add, UInt32.toNat_ofNat', Nat.mod_eq_of_lt (erasesize_lt nand),
        Nat.mod_mod_of_dvd _ (erasesize_dvd nand), Nat.add_mod_right]
      exact hmod

theorem checkSkipLen_mono {length : UInt32} {result : SkipLen × UInt32} {fuel fuel' : Nat}
    (hle : fuel ≤ fuel') : ∀ {offset : Nat} {lenExclBad : UInt32} {ret : Bool} {used : UInt32},
      checkSkipLen nand length fuel offset lenExclBad ret used = some result →
      checkSkipLen nand length fuel' offset lenExclBad ret used = some result := by
  induction fuel generalizing fuel' with
  | zero => intro _ _ _ _ h; cases h
  | succ fuel ih =>
    intro offset lenExclBad ret used h
    obtain ⟨fuel', rfl⟩ := Nat.exists_eq_add_of_le' (Nat.lt_of_lt_of_le (Nat.succ_pos fuel) hle)
    have hle' : fuel ≤ fuel' := by omega
    unfold checkSkipLen at h ⊢
    dsimp only at h ⊢
    split_ifs at h ⊢
    · exact h
    · exact ih hle' h
    · exact ih hle' h
    · exact h
    · exact h

theorem ofNat_toNat_sub {a b : UInt32} (h : b ≤ a) : UInt32.ofNat (a.toNat - b.toNat) = a - b := by
  rw [← UInt32.toNat_sub_of_le _ _ h, UInt32.ofNat_toNat]

/-- A count whose block wraps is the greatest one of its residue. -/
theorem residue_lt {lenExclBad length : UInt32}
    (hwrap : 2 ^ 32 ≤ lenExclBad.toNat + nand.erasesize) (hlt : lenExclBad < length) :
    ∀ v < 2 ^ 32, v % nand.erasesize = lenExclBad.toNat % nand.erasesize → v < length.toNat := by
  intro v hv hmod
  by_contra hge
  have hlt' : lenExclBad.toNat < length.toNat := hlt
  have hdvd : nand.erasesize ∣ v - lenExclBad.toNat :=
    Nat.dvd_of_mod_eq_zero (Nat.sub_mod_eq_zero_of_mod_eq hmod)
  have hle := Nat.le_of_dvd (by omega) hdvd
  omega

/-- The count went past the length: the excess is not used. -/
theorem checkSkipLen_over {length lenExclBad used used' : UInt32} {fuel offset : Nat}
    {ret needSkip : Bool} (hgt : length < lenExclBad)
    (h : checkSkipLen nand length fuel offset lenExclBad ret used = some (.fits needSkip, used')) :
    ret = needSkip ∧ used - (lenExclBad - length) = used' := by
  cases fuel with
  | zero => cases h
  | succ fuel =>
    unfold checkSkipLen at h
    rw [if_neg (UInt32.lt_asymm hgt), if_pos hgt] at h
    simpa using h

/-- What `check_skip_len` finds is the region of a walk. -/
def Covers (nand : NandInfo) (offset left : Nat) (ret : Bool) (used : UInt32) (needSkip : Bool)
    (used' : UInt32) : Prop :=
  ∃ pieces stop, Walk nand offset left pieces stop ∧
    used' = used + UInt32.ofNat (stop - offset) ∧ (0 < left → stop ≤ nand.size) ∧
    (needSkip = false ↔ ret = false ∧ NoBad nand offset stop)

theorem covers_done (offset : Nat) (ret : Bool) (used : UInt32) :
    Covers nand offset 0 ret used ret used := by
  refine ⟨[], offset, .done offset, by simp, fun h => absurd h (Nat.lt_irrefl 0), ?_⟩
  refine ⟨fun hret => ⟨hret, fun q hle hlt => ?_⟩, fun hret => hret.1⟩
  omega

theorem covers_skip {offset left : Nat} {ret needSkip : Bool} {used used' : UInt32}
    (hpos : 0 < left) (hbad : nand.bad (blockStart nand offset) = true)
    (h : Covers nand (offset + nand.blockRest offset) left true
      (used + UInt32.ofNat (nand.blockRest offset)) needSkip used') :
    Covers nand offset left ret used needSkip used' := by
  obtain ⟨pieces, stop, hwalk, hused, hstop, hskip⟩ := h
  have hend := hwalk.le
  refine ⟨pieces, stop, .skip hpos hbad hwalk, ?_, hstop, ?_⟩
  · rw [hused, UInt32.add_assoc, ← UInt32.ofNat_add]
    congr 2
    omega
  · rw [hskip]
    constructor
    · rintro ⟨hfalse, -⟩
      cases hfalse
    · rintro ⟨-, hno⟩
      rw [hno offset le_rfl (by omega)] at hbad
      cases hbad

/-- A good block is used up to its end. -/
theorem covers_block {offset left : Nat} {ret needSkip : Bool} {used used' : UInt32}
    (hgood : nand.bad (blockStart nand offset) = false) (hsize : offset < nand.size)
    (hle : nand.blockRest offset ≤ left)
    (h : Covers nand (offset + nand.blockRest offset) (left - nand.blockRest offset) ret
      (used + UInt32.ofNat (nand.blockRest offset)) needSkip used') :
    Covers nand offset left ret used needSkip used' := by
  obtain ⟨pieces, stop, hwalk, hused, hstop, hskip⟩ := h
  have hend := hwalk.le
  have hpos := blockRest_pos nand offset
  have hmin : min left (nand.blockRest offset) = nand.blockRest offset := Nat.min_eq_right hle
  refine ⟨(offset, min left (nand.blockRest offset)) :: pieces, stop, ?_, ?_, ?_, ?_⟩
  · refine .piece (by omega) hgood ?_
    rw [hmin]
    exact hwalk
  · rw [hused, UInt32.add_assoc, ← UInt32.ofNat_add]
    congr 2
    omega
  · intro _
    by_cases hlast : 0 < left - nand.blockRest offset
    · exact hstop hlast
    · rw [Nat.eq_zero_of_not_pos hlast] at hwalk
      cases hwalk with
      | done => exact add_blockRest_le_size hsize
      | skip hfalse => omega
      | piece hfalse => omega
  · rw [hskip]
    refine and_congr_right fun _ => ⟨fun hno q hle hlt => ?_, fun hno q hle hlt => ?_⟩
    · by_cases hq : q < offset + nand.blockRest offset
      · exact noBad_block hgood le_rfl q hle hq
      · exact hno q (by omega) hlt
    · exact hno q (by omega) hlt

/-- The access ends inside a good block. -/
theorem covers_last {offset left : Nat} {ret : Bool} {used : UInt32} (hpos : 0 < left)
    (hgood : nand.bad (blockStart nand offset) = false) (hsize : offset < nand.size)
    (hlt : left < nand.blockRest offset) :
    Covers nand offset left ret used ret (used + UInt32.ofNat left) := by
  have hmin : min left (nand.blockRest offset) = left := Nat.min_eq_left hlt.le
  have hinside := add_blockRest_le_size hsize
  refine ⟨[(offset, min left (nand.blockRest offset))], offset + left, ?_, ?_, ?_, ?_⟩
  · refine .piece hpos hgood ?_
    rw [hmin, Nat.sub_self]
    exact .done _
  · rw [Nat.add_sub_cancel_left]
  · intro _
    omega
  · exact ⟨fun hret => ⟨hret, noBad_block hgood (by omega)⟩, fun hret => hret.1⟩

/-- An access that fits covers the region of its walk. -/
theorem checkSkipLen_fits {length : UInt32} {needSkip : Bool} {used' : UInt32} :
    ∀ {fuel offset : Nat} {lenExclBad : UInt32} {ret : Bool} {used : UInt32},
      checkSkipLen nand length fuel offset lenExclBad ret used = some (.fits needSkip, used') →
      lenExclBad ≤ length → (offset % nand.erasesize = 0 ∨ lenExclBad = 0) →
      Covers nand offset (length.toNat - lenExclBad.toNat) ret used needSkip used' := by
  intro fuel
  induction fuel with
  | zero => intro _ _ _ _ h; cases h
  | succ fuel ih =>
    intro offset lenExclBad ret used h hle halign
    unfold checkSkipLen at h
    have hrest : nand.erasesize - offset % nand.erasesize = nand.blockRest offset := rfl
    simp only [hrest] at h
    by_cases hlt : lenExclBad < length
    · have hpos : 0 < length.toNat - lenExclBad.toNat := Nat.sub_pos_of_lt hlt
      rw [if_pos hlt] at h
      split_ifs at h with hsize hbad
      · cases h
      · exact covers_skip hpos hbad (ih h hle (.inl (add_blockRest_mod nand offset)))
      · rw [Bool.not_eq_true] at hbad
        have hsize' := Nat.lt_of_not_le hsize
        by_cases hwrap : lenExclBad.toNat + nand.blockRest offset < 2 ^ 32
        · have hsum : (lenExclBad + UInt32.ofNat (nand.blockRest offset)).toNat =
              lenExclBad.toNat + nand.blockRest offset := by
            rw [UInt32.toNat_add, UInt32.toNat_ofNat']
            omega
          by_cases hover : lenExclBad.toNat + nand.blockRest offset ≤ length.toNat
          · refine covers_block hbad hsize' (by omega) ?_
            rw [Nat.sub_sub, ← hsum]
            refine ih h ?_ (.inl (add_blockRest_mod nand offset))
            rw [UInt32.le_iff_toNat_le, hsum]
            exact hover
          · have hgt : length < lenExclBad + UInt32.ofNat (nand.blockRest offset) := by
              rw [UInt32.lt_iff_toNat_lt, hsum]
              omega
            obtain ⟨rfl, rfl⟩ := checkSkipLen_over hgt h
            have hused : used + UInt32.ofNat (nand.blockRest offset) -
                (lenExclBad + UInt32.ofNat (nand.blockRest offset) - length) =
                used + UInt32.ofNat (length.toNat - lenExclBad.toNat) := by
              rw [ofNat_toNat_sub hle]
              grind
            rw [hused]
            exact covers_last hpos hbad hsize' (by omega)
        · -- the count wraps, which only an aligned block can cause
          have hsmall := erasesize_lt nand
          have hrestle := blockRest_le nand offset
          have haligned : offset % nand.erasesize = 0 := by
            refine halign.resolve_right fun hzero => hwrap ?_
            rw [hzero, UInt32.toNat_zero]
            omega
          have hfull : nand.blockRest offset = nand.erasesize := by
            unfold NandInfo.blockRest
            omega
          refine absurd h (checkSkipLen_ne_fits (residue_lt (by omega) hlt) _ _ _ _ _
            (add_blockRest_mod nand offset) ?_ _ _)
          rw [hfull, UInt32.toNat_add, UInt32.toNat_ofNat', Nat.mod_eq_of_lt hsmall,
            Nat.mod_mod_of_dvd _ (erasesize_dvd nand), Nat.add_mod_right]
    · have heq : lenExclBad = length := UInt32.le_antisymm hle (UInt32.not_lt.mp hlt)
      subst heq
      simp only [UInt32.lt_irrefl, gt_iff_lt, if_false, Option.some.injEq, Prod.mk.injEq,
        SkipLen.fits.injEq] at h
      obtain ⟨rfl, rfl⟩ := h
      rw [Nat.sub_self]
      exact covers_done offset ret used

end

end UBoot.Nand
