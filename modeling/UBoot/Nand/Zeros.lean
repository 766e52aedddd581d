import UBoot.Nand.Changes

/-!
# Zeros can always be written

Programming only clears bits, so that on a chip that reports no error a write of zeros
succeeds wherever it stays in the device, also where nothing was erased.
-/

namespace UBoot.Nand

open Verification

section

variable {nand : NandInfo} {flags : Flags}

def zeros : Ptr := fun _ => 0

/-- A chip that reports no error. -/
def neverFails : Nat → Bool := fun _ => false

/-- A region whose walk ends in the device fits. -/
theorem exists_checkSkipLen {length : UInt32} (hsize : nand.size < 2 ^ 32)
    {offset left stop : Nat} {pieces : List Access} (hwalk : Walk nand offset left pieces stop) :
    ∀ {fuel : Nat} {lenExclBad : UInt32} {ret : Bool} {used : UInt32},
      length.toNat = lenExclBad.toNat + left → lenExclBad.toNat ≤ offset → stop ≤ nand.size →
      nand.size < fuel + offset →
      ∃ needSkip used', checkSkipLen nand length fuel offset lenExclBad ret used =
        some (.fits needSkip, used') := by
  induction hwalk with
  | done offset =>
    intro fuel lenExclBad ret used hleft _ hstop hfuel
    obtain ⟨fuel, rfl⟩ := Nat.exists_eq_succ_of_ne_zero (show fuel ≠ 0 by omega)
    obtain rfl : lenExclBad = length := UInt32.toNat_inj.mp hleft.symm
    rw [checkSkipLen, if_neg (UInt32.lt_irrefl _), if_neg (UInt32.lt_irrefl _)]
    exact ⟨_, _, rfl⟩
  | @skip offset left stop pieces hpos hbad hwalk ih =>
    intro fuel lenExclBad ret used hleft hexcl hstop hfuel
    have hle := hwalk.le
    have hrest := blockRest_pos nand offset
    have hlt : lenExclBad < length := UInt32.lt_iff_toNat_lt.mpr (by omega)
    obtain ⟨fuel, rfl⟩ := Nat.exists_eq_succ_of_ne_zero (show fuel ≠ 0 by omega)
    rw [checkSkipLen, if_pos hlt, if_neg (by omega)]
    dsimp only
    rw [if_pos hbad]
    exact ih hleft (by omega) hstop (by omega)
  | @piece offset left stop pieces hpos hgood hwalk ih =>
    intro fuel lenExclBad ret used hleft hexcl hstop hfuel
    have hle := hwalk.le
    have hrest := blockRest_pos nand offset
    have hlt : lenExclBad < length := UInt32.lt_iff_toNat_lt.mpr (by omega)
    have hoff : offset < nand.size := by omega
    have hend := add_blockRest_le_size hoff
    have hsum : (lenExclBad + UInt32.ofNat (nand.blockRest offset)).toNat =
        lenExclBad.toNat + nand.blockRest offset := by
      rw [UInt32.toNat_add, UInt32.toNat_ofNat']
      omega
    obtain ⟨fuel, rfl⟩ := Nat.exists_eq_succ_of_ne_zero (show fuel ≠ 0 by omega)
    rw [checkSkipLen, if_pos hlt, if_neg (by omega)]
    dsimp only
    have hrest' : nand.erasesize - offset % nand.erasesize = nand.blockRest offset := rfl
    rw [if_neg (by rw [hgood]; decide), hrest']
    by_cases hblock : nand.blockRest offset ≤ left
    · rw [Nat.min_eq_right hblock] at ih
      exact ih (by rw [hsum]; omega) (by rw [hsum]; omega) hstop (by omega)
    · -- the access ends inside the block
      obtain ⟨fuel, rfl⟩ := Nat.exists_eq_succ_of_ne_zero (show fuel ≠ 0 by omega)
      have hover : lenExclBad + UInt32.ofNat (nand.blockRest offset) > length := by
        rw [gt_iff_lt, UInt32.lt_iff_toNat_lt, hsum]
        omega
      rw [checkSkipLen, if_neg (UInt32.lt_asymm hover), if_pos hover]
      exact ⟨_, _, rfl⟩

/-- Zeros are read back. -/
theorem nandVerify_zeros {flash : Flash} {stop : Nat} (hstop : stop ≤ nand.size)
    (hsize : nand.size < 2 ^ 32) :
    ∀ {fuel : Nat} {verofs : UInt32} {log : List Access}, verofs.toNat ≤ stop →
      stop < fuel + verofs.toNat → (∀ q, verofs.toNat ≤ q → q < stop → flash q = 0) →
      ∃ log', nandVerify nand flash stop fuel verofs zeros log = some (true, log') := by
  intro fuel
  induction fuel with
  | zero =>
    intro verofs log hle hfuel _
    omega
  | succ fuel ih =>
    intro verofs log hle hfuel hzero
    unfold nandVerify
    by_cases hlt : verofs.toNat < stop
    · have hpos := nand.writesize_pos
      rw [if_pos hlt, Nat.mod_eq_of_lt (show stop - verofs.toNat < 2 ^ 32 by omega)]
      dsimp only
      generalize hn : min nand.writesize (stop - verofs.toNat) = n
      have hnext : (verofs + UInt32.ofNat n).toNat = verofs.toNat + n := by
        rw [UInt32.toNat_add, UInt32.toNat_ofNat']
        omega
      have hread : nandRead nand flash verofs.toNat n = some (zeros.bytes n) := by
        rw [nandRead, if_neg (by omega), Option.some.injEq]
        apply Ptr.bytes_congr
        intro i hi
        exact hzero _ (Nat.le_add_right _ _) (by omega)
      rw [hread]
      dsimp only
      rw [if_pos rfl]
      exact ih (by omega) (by omega) fun q hge hlt => hzero q (by omega) hlt
    · rw [if_neg hlt]
      exact ⟨_, rfl⟩

theorem writeAndVerify_zeros {fuel offset len : Nat} (hin : offset + len ≤ nand.size)
    (hsize : nand.size < 2 ^ 32) (hfuel : nand.size < fuel + offset) (flash : Flash)
    (log : List Access) :
    ∃ flash' log', writeAndVerify nand neverFails flags fuel flash offset len zeros log =
      some (true, flash', log') := by
  have hwrite : nandWrite nand neverFails flash offset len zeros = some fun q =>
      if offset ≤ q ∧ q < offset + len then flash q &&& zeros (q - offset) else flash q := by
    rw [nandWrite, if_neg]
    rintro (hgt | hfail)
    · omega
    · exact Bool.noConfusion hfail
  rw [writeAndVerify, hwrite]
  dsimp only
  split_ifs
  · have hoff : (UInt32.ofNat offset).toNat = offset := by
      rw [UInt32.toNat_ofNat']
      omega
    obtain ⟨log', hver⟩ := @nandVerify_zeros nand
      (fun q => if offset ≤ q ∧ q < offset + len then flash q &&& zeros (q - offset) else flash q)
      _ hin hsize fuel (UInt32.ofNat offset) ((offset, len) :: log) (by omega) (by omega)
      fun q hge hlt => by
        rw [hoff] at hge
        rw [if_pos ⟨hge, hlt⟩]
        exact UInt8.and_zero
    rw [hver]
    exact ⟨_, _, rfl⟩
  · exact ⟨_, _, rfl⟩

theorem writeLoop_zeros (hsize : nand.size < 2 ^ 32) {actual : UInt32} {offset left stop : Nat}
    {pieces : List Access} (hwalk : Walk nand offset left pieces stop) :
    ∀ {fuel : Nat} {leftToWrite : UInt32} {flash : Flash} {log : List Access},
      leftToWrite.toNat = left → stop ≤ nand.size → nand.size + 1 < fuel + offset →
      ∃ result, writeLoop nand neverFails flags actual fuel offset leftToWrite zeros flash log =
        some result ∧ result.error = none := by
  induction hwalk with
  | done offset =>
    intro fuel leftToWrite flash log hleft hstop hfuel
    obtain ⟨fuel, rfl⟩ := Nat.exists_eq_succ_of_ne_zero (show fuel ≠ 0 by omega)
    unfold writeLoop
    rw [if_pos (UInt32.toNat_inj.mp hleft)]
    exact ⟨_, rfl, rfl⟩
  | @skip offset left stop pieces hpos hbad hwalk ih =>
    intro fuel leftToWrite flash log hleft hstop hfuel
    have hle := hwalk.le
    have hrest := blockRest_pos nand offset
    have hagree : Agree nand offset stop := agree_of_le (by omega)
    obtain ⟨fuel, rfl⟩ := Nat.exists_eq_succ_of_ne_zero (show fuel ≠ 0 by omega)
    unfold writeLoop
    rw [if_neg (ne_zero_of_toNat hleft hpos)]
    dsimp only
    rw [if_pos ((hagree offset le_rfl (by omega)).trans hbad)]
    exact ih hleft hstop (by rw [NandInfo.blockRest] at *; omega)
  | @piece offset left stop pieces hpos hgood hwalk ih =>
    intro fuel leftToWrite flash log hleft hstop hfuel
    have hle := hwalk.le
    have hrest := blockRest_pos nand offset
    have hagree : Agree nand offset stop := agree_of_le (by omega)
    have htest := hagree.not_bad (by omega) hgood
    have hrest' : nand.erasesize - offset % nand.erasesize = nand.blockRest offset := rfl
    have hlen := (truncated_spec nand flags zeros (min left (nand.blockRest offset))).1
    have hnext : (leftToWrite - UInt32.ofNat (min left (nand.blockRest offset))).toNat =
        left - min left (nand.blockRest offset) :=
      toNat_sub_ofNat hleft (Nat.min_le_left _ _)
    obtain ⟨fuel, rfl⟩ := Nat.exists_eq_succ_of_ne_zero (show fuel ≠ 0 by omega)
    obtain ⟨flash', log', hwrite⟩ := @writeAndVerify_zeros nand flags fuel _ _
      (Nat.le_trans (Nat.add_le_add_left hlen offset) (by omega)) hsize (by omega) flash log
    unfold writeLoop
    rw [if_neg (ne_zero_of_toNat hleft hpos)]
    dsimp only
    rw [if_neg htest, hleft, hrest', hwrite]
    exact ih hnext hstop (by omega)

/-- A write of zeros that stays in the device succeeds. -/
theorem nandWriteSkipBad_zeros (hsize : nand.size < 2 ^ 32) {fuel offset : Nat} {length : UInt32}
    (halign : offset % nand.writesize = 0) (hfuel : nand.size + 1 < fuel)
    (hstays : Stays nand offset length.toNat) (flash : Flash) :
    ∃ written, nandWriteSkipBad nand neverFails flags fuel offset length (nand.size - offset)
      zeros flash = some written ∧ written.error = none := by
  obtain ⟨pieces, stop, hwalk, hstop⟩ := hstays
  have hle := hwalk.le
  obtain ⟨needSkip, used, hcheck⟩ := @exists_checkSkipLen nand length hsize _ _ _ _ hwalk
    fuel 0 false 0 (by rw [UInt32.toNat_zero, Nat.zero_add]) (Nat.zero_le _) hstop (by omega)
  obtain ⟨pieces', stop', hwalk', hused, -, -⟩ := checkSkipLen_fits hcheck
    (UInt32.le_iff_toNat_le.mpr (Nat.zero_le _)) (.inr rfl)
  rw [UInt32.toNat_zero, Nat.sub_zero] at hwalk'
  obtain ⟨rfl, rfl⟩ := hwalk.unique hwalk'
  have hlim : ¬used.toNat > nand.size - offset := by
    rw [hused, UInt32.zero_add, UInt32.toNat_ofNat']
    omega
  rw [nandWriteSkipBad, if_neg (not_not.mpr halign), hcheck]
  dsimp only
  rw [if_neg hlim]
  split_ifs
  · obtain ⟨flash', log', hwrite⟩ := @writeAndVerify_zeros nand flags fuel offset
      length.toNat (by omega) hsize (by omega) flash []
    rw [hwrite]
    exact ⟨_, rfl, rfl⟩
  · exact writeLoop_zeros hsize hwalk rfl hstop (by omega)

end

end UBoot.Nand
