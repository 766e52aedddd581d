import UBoot.Env.Fw.FlashSound

/-!
# When a write of the environment is sound

Devices other than a NAND flash are erased and written up to the end of the range, whatever
the environment needs. So the range has to end where the environment does.
-/

namespace UBoot.Env.Fw

open Verification

/-- A system without bad blocks in which nothing fails. -/
def ideal : System := ⟨fun _ => 0, fun _ _ => false, fun _ _ => false, fun _ => false⟩

section

variable {type : MtdType} {dev : EnvDev} {flash : Flash} {fresh buf : Ptr} {count offset : Nat}
  {data : Buffer}

theorem flashBadBlock_ideal (type : MtdType) (start : Nat) : flashBadBlock ideal type start = 0 :=
  ite_self _

theorem goodBlock_ideal (type : MtdType) (dev : EnvDev) (b : Nat) : GoodBlock ideal type dev b :=
  flashBadBlock_ideal type _

theorem renewBlock_ideal {length processed start : Nat}
    (hsize : type = .absent ∨ start + length ≤ flash.size) :
    ∃ flash' done, renewBlock ideal type data length processed start flash = some (flash', done) ∧
      .write start processed length ∈ done := by
  have hwrite : ∀ {flash₁ : Flash}, flash₁.size = flash.size →
      ∃ flash', flash₁.write ideal type start length (data.bytes.add processed) = some flash' := by
    intro flash₁ hsame
    rw [Flash.write, if_neg (by simp [ideal]), hsame]
    by_cases habsent : type = .absent
    · rw [if_pos habsent]
      exact ⟨_, rfl⟩
    · rw [if_neg habsent, if_neg (by simpa [habsent] using hsize)]
      split_ifs <;> exact ⟨_, rfl⟩
  rw [renewBlock]
  by_cases herase : type ≠ .absent ∧ type ≠ .dataFlash
  · have hfits : ¬(flash.size < start + length ∨ ideal.eraseFails start length = true) := by
      simpa [herase.1, ideal] using hsize
    rw [if_pos herase, Flash.erase, if_neg hfits]
    obtain ⟨flash', hflash⟩ :=
      @hwrite { flash with bytes := flash.bytes.write start length fun _ => 255 } rfl
    refine ⟨flash', [.erase start length, .write start processed length], ?_, by simp⟩
    exact Option.bind_eq_some_iff.mpr ⟨_, rfl, Option.bind_eq_some_iff.mpr ⟨_, hflash, rfl⟩⟩
  · rw [if_neg herase]
    obtain ⟨flash', hflash⟩ := @hwrite flash rfl
    refine ⟨flash', [.write start processed length], ?_, by simp⟩
    exact Option.bind_eq_some_iff.mpr ⟨_, hflash, rfl⟩

/-- Everything is written in one piece. -/
theorem writeLoop_ideal_single {blocklen erasesize top total fuel start : Nat}
    (htotal : 0 < total) (hle : total ≤ erasesize) (htop : start + erasesize ≤ top)
    (hsize : type = .absent ∨ start + erasesize ≤ flash.size) :
    ∃ flash' done, renewBlock ideal type data erasesize 0 start flash = some (flash', done) ∧
      .write start 0 erasesize ∈ done ∧
      writeLoop ideal type data blocklen erasesize top total (fuel + 2) 0 start flash [] =
        some ⟨erasesize, flash', done, data⟩ := by
  obtain ⟨flash', done, hrenew, hdone⟩ := @renewBlock_ideal type flash data erasesize 0 start hsize
  refine ⟨flash', done, hrenew, hdone, ?_⟩
  rw [writeLoop, if_pos htotal]
  dsimp only
  rw [flashBadBlock_ideal, if_neg (lt_irrefl _), if_neg (by omega), if_neg (by simp), hrenew]
  dsimp only
  rw [Nat.zero_add, writeLoop, if_neg (by omega)]
  rfl

theorem writeLoop_ideal_blocks (hpos : 0 < dev.eraseSize) {first top need fuel k : Nat}
    {events : List FlashEvent} (hk : k ≤ need) (hfuel : need < fuel + k)
    (htop : (first + need) * dev.eraseSize ≤ top) (hsize : top ≤ flash.size) :
    ∃ r, writeLoop ideal .nandFlash data dev.eraseSize dev.eraseSize top (need * dev.eraseSize) fuel
        (k * dev.eraseSize) ((first + k) * dev.eraseSize) flash events = some r ∧ 0 ≤ r.ret ∧
      (∀ e ∈ events, e ∈ r.events) ∧ (k < need → .write ((first + k) * dev.eraseSize)
        (k * dev.eraseSize) dev.eraseSize ∈ r.events) := by
  induction fuel generalizing k flash events with
  | zero => omega
  | succ fuel ih =>
    rw [writeLoop]
    obtain rfl | hlt := hk.eq_or_lt
    · rw [if_neg (lt_irrefl _)]
      exact ⟨_, rfl, Int.natCast_nonneg _, fun e he => he, fun h => absurd h (lt_irrefl k)⟩
    · have hadd : (first + k) * dev.eraseSize + dev.eraseSize =
          (first + (k + 1)) * dev.eraseSize := by
        rw [← Nat.succ_mul, Nat.succ_eq_add_one, Nat.add_assoc]
      have hblock : (first + (k + 1)) * dev.eraseSize ≤ top :=
        (Nat.mul_le_mul_right _ (by omega)).trans htop
      have hmore : k * dev.eraseSize < need * dev.eraseSize :=
        Nat.mul_lt_mul_of_pos_right hlt hpos
      obtain ⟨flash', done, hrenew, hdone⟩ :=
        @renewBlock_ideal .nandFlash flash data dev.eraseSize (k * dev.eraseSize)
          ((first + k) * dev.eraseSize) (.inr (by omega))
      obtain ⟨-, hflash, -⟩ := renewBlock_spec (by decide) hrenew
      obtain ⟨r, hr, hret, hevents, -⟩ := @ih flash' (k + 1) (events ++ done) hlt (by omega)
        (by rw [hflash]; exact hsize)
      rw [if_pos hmore]
      dsimp only
      rw [flashBadBlock_ideal, if_neg (lt_irrefl _), if_neg (by omega), if_neg (by simp), hrenew]
      dsimp only
      rw [hadd, ← Nat.succ_mul]
      exact ⟨r, hr, hret, fun e he => hevents e (List.mem_append_left _ he),
        fun _ => hevents _ (List.mem_append_right _ hdone)⟩

theorem flashWriteBuf_of_loop (hpos : 0 < dev.eraseSize) (htype : type ≠ .absent) {r : Written}
    (hdata : DataOf ideal type dev flash fresh buf count offset data)
    (hloop : mtdLoop ideal type dev flash count offset data = some r) :
    flashWriteBuf ideal type dev flash fresh buf count offset = some r := by
  have hseek : offset - offset / dev.eraseSize * dev.eraseSize = offset % dev.eraseSize :=
    Nat.mod_eq_sub_div_mul.symm
  rw [flashWriteBuf, if_neg htype, if_neg hpos.ne']
  dsimp only
  rw [eraseLen_eq, hseek, ← neededBlocks]
  rw [DataOf] at hdata
  split_ifs at hdata with hmore
  · obtain ⟨out, hread, rfl⟩ := hdata
    rw [if_pos hmore, preserve, if_neg (by simp [ideal]), hread]
    simp only [bind, Option.bind_some, ne_eq, not_true_eq_false, if_false]
    exact hloop
  · rw [if_neg hmore]
    rw [hdata] at hloop
    exact hloop

theorem end_of_needed (hneed : 0 < neededBlocks dev count offset)
    (hle : neededBlocks dev count offset ≤ rangeBlocks dev offset) :
    offset / dev.eraseSize + rangeBlocks dev offset =
      dev.devoff / dev.eraseSize + dev.envSectors := by
  rw [rangeBlocks] at hle ⊢
  omega

theorem passable_ideal {size top first need : Nat} (htop : (first + need) * dev.eraseSize ≤ top)
    (hsize : top ≤ size) : Passable ideal dev size top first 0 need where
  answers _ _ _ := le_rfl
  inside _ := htop
  size _ _ hlt _ := (Nat.mul_le_mul_right _ (by omega)).trans (htop.trans hsize)

/-- A write on a NAND flash whose blocks are good, from before the sectors on. -/
theorem not_flashRight_nand (hneed : 0 < neededBlocks dev count offset)
    (hle : neededBlocks dev count offset ≤ rangeBlocks dev offset)
    (hbefore : offset / dev.eraseSize < dev.devoff / dev.eraseSize) :
    ¬FlashRight .nandFlash dev count offset := by
  intro h
  have hpos : 0 < dev.eraseSize := by
    apply Nat.pos_of_ne_zero
    intro hzero
    simp [neededBlocks, hzero] at hneed
  have hend := end_of_needed hneed hle
  generalize htop : (dev.devoff / dev.eraseSize + dev.envSectors) * dev.eraseSize = top at *
  have hfits : (offset / dev.eraseSize + neededBlocks dev count offset) * dev.eraseSize ≤ top := by
    rw [← htop]
    exact Nat.mul_le_mul_right _ (by omega)
  have hsteps : neededBlocks dev count offset ≤ top :=
    (Nat.le_add_left _ _).trans ((Nat.le_mul_of_pos_right _ hpos).trans hfits)
  have hdata : ∃ data, DataOf ideal .nandFlash dev ⟨fun _ => 0, top⟩ (fun _ => 0) (fun _ => 0)
      count offset data := by
    have hdiv : offset / dev.eraseSize * dev.eraseSize / dev.eraseSize = offset / dev.eraseSize :=
      Nat.mul_div_cancel _ hpos
    obtain ⟨out, hread, -⟩ := @flashReadBuf_blocks ideal dev ⟨fun _ => 0, top⟩ hpos
      (neededBlocks dev count offset) (neededBlocks dev count offset)
      (rangeBlocks dev offset * dev.eraseSize) (neededBlocks dev count offset * dev.eraseSize)
      (offset / dev.eraseSize * dev.eraseSize) (fun _ => 0)
      (by rw [hdiv, htop]; exact passable_ideal hfits le_rfl)
      (goodCount_of_all (goodBlock_ideal _ dev) _) (fun _ _ _ _ => rfl)
      (by rw [Nat.mul_mod_left, Nat.zero_add]) (Nat.mul_le_mul_right _ hle) fun _ => 0
    by_cases hmore : count < neededBlocks dev count offset * dev.eraseSize
    · exact ⟨_, by rw [DataOf, if_pos hmore]; exact ⟨out, hread, rfl⟩⟩
    · exact ⟨_, by rw [DataOf, if_neg hmore]⟩
  obtain ⟨data, hdata⟩ := hdata
  obtain ⟨r, hr, hret, -, hevent⟩ := @writeLoop_ideal_blocks dev ⟨fun _ => 0, top⟩ data hpos
    (offset / dev.eraseSize) top (neededBlocks dev count offset) (top + 2) 0 [] (Nat.zero_le _)
    (by omega) hfits le_rfl
  have hloop : mtdLoop ideal .nandFlash dev ⟨fun _ => 0, top⟩ count offset data = some r := by
    rw [mtdLoop, if_pos rfl, htop]
    rw [Nat.zero_mul] at hr
    exact hr
  have hsound := h ideal ⟨fun _ => 0, top⟩ (fun _ => 0) (fun _ => 0) r
    (flashWriteBuf_of_loop hpos (by decide) hdata hloop) hret
  obtain ⟨hin, -⟩ := hsound.written _ _ _ (hevent hneed)
  rw [InSectors, if_neg (by decide), Nat.add_zero] at hin
  exact absurd (Nat.le_of_mul_le_mul_right hin.1 hpos) (by omega)

/-- A write in one piece, from before the sectors on or into a range that is too long: what
is behind the environment comes from behind the buffer or from fresh memory. -/
theorem not_flashRight_linear (htype : type ≠ .nandFlash) (habsent : type ≠ .absent)
    (hneed : 0 < neededBlocks dev count offset)
    (hle : neededBlocks dev count offset ≤ rangeBlocks dev offset)
    (hwrong : ¬(dev.devoff / dev.eraseSize ≤ offset / dev.eraseSize ∧
      rangeBlocks dev offset = neededBlocks dev count offset)) :
    ¬FlashRight type dev count offset := by
  intro h
  have hpos : 0 < dev.eraseSize := by
    apply Nat.pos_of_ne_zero
    intro hzero
    simp [neededBlocks, hzero] at hneed
  have hend : offset / dev.eraseSize * dev.eraseSize + rangeBlocks dev offset * dev.eraseSize =
      (dev.devoff / dev.eraseSize + dev.envSectors) * dev.eraseSize := by
    rw [← Nat.add_mul, end_of_needed hneed hle]
  have hwt := Nat.mul_le_mul_right dev.eraseSize hle
  have htotal := writeTotal_cases hpos count offset
  generalize htop : (dev.devoff / dev.eraseSize + dev.envSectors) * dev.eraseSize = top at *
  let flash : Flash := ⟨fun _ => 0, top⟩
  have hdata : ∃ data, DataOf ideal type dev flash (fun _ => 1) (fun _ => 0) count offset data ∧
      (rangeBlocks dev offset * dev.eraseSize ≤ data.len →
        neededBlocks dev count offset * dev.eraseSize < rangeBlocks dev offset * dev.eraseSize →
        data.bytes (neededBlocks dev count offset * dev.eraseSize) = 1) := by
    by_cases hmore : count < neededBlocks dev count offset * dev.eraseSize
    · refine ⟨_, by
        rw [DataOf, if_pos hmore]
        exact ⟨_, flashReadBuf_linear htype hpos hwt (fun _ => (by omega : _ ≤ top)) _, rfl⟩,
        fun _ _ => ?_⟩
      dsimp only
      rw [Ptr.write, if_neg (by omega), Ptr.write, if_neg (by omega)]
    · exact ⟨⟨fun _ => 0, count⟩, by rw [DataOf, if_neg hmore],
        fun hlen hlt => absurd hlen (by dsimp only; omega)⟩
  obtain ⟨data, hdata, hbyte⟩ := hdata
  obtain ⟨flash', done, hrenew, hdone, hloop⟩ :=
    @writeLoop_ideal_single type flash data dev.eraseSize (rangeBlocks dev offset * dev.eraseSize)
      top (neededBlocks dev count offset * dev.eraseSize) top
      (offset / dev.eraseSize * dev.eraseSize) (Nat.mul_pos hneed hpos) hwt hend.le
      (.inr hend.le)
  have hmtd : mtdLoop ideal type dev flash count offset data =
      some ⟨(rangeBlocks dev offset * dev.eraseSize : Nat), flash', done, data⟩ := by
    rw [mtdLoop, if_neg htype, htop]
    exact hloop
  have hsound := h ideal flash (fun _ => 1) (fun _ => 0) _
    (flashWriteBuf_of_loop hpos habsent hdata hmtd) (Int.natCast_nonneg _)
  obtain ⟨hin, hlen⟩ := hsound.written _ _ _ hdone
  have hlen' : rangeBlocks dev offset * dev.eraseSize ≤ data.len := by
    rwa [Nat.zero_add] at hlen
  rw [InSectors, if_neg habsent] at hin
  have hsectors := Nat.le_of_mul_le_mul_right hin.1 hpos
  have hne : rangeBlocks dev offset ≠ neededBlocks dev count offset :=
    fun heq => hwrong ⟨hsectors, heq⟩
  have hlong : neededBlocks dev count offset * dev.eraseSize <
      rangeBlocks dev offset * dev.eraseSize :=
    Nat.mul_lt_mul_of_pos_right (by omega) hpos
  -- the first byte behind the blocks of the environment
  obtain ⟨-, hflash, -⟩ := renewBlock_spec habsent hrenew
  have hkept := hsound.kept (offset / dev.eraseSize * dev.eraseSize +
    neededBlocks dev count offset * dev.eraseSize) (show _ < top by omega)
    (goodBlock_linear htype _) (by
      rintro k hk ⟨hp, -, hplace⟩
      rw [goodPlace_linear htype hp] at hplace
      omega)
  have hnew : flash'.bytes (offset / dev.eraseSize * dev.eraseSize +
      neededBlocks dev count offset * dev.eraseSize) = 1 := by
    rw [hflash]
    dsimp only
    rw [Ptr.write, if_pos (by omega), Nat.add_sub_cancel_left, Ptr.add_zero,
      hbyte hlen' hlong]
  rw [hnew] at hkept
  exact absurd hkept (show (1 : UInt8) ≠ 0 by decide)

/-- A file whose erase size is 0 cannot be read back. -/
theorem not_flashRight_absent (h : FlashRight .absent dev count offset) : dev.eraseSize ≠ 0 := by
  intro hzero
  have hread : ∀ flash, flashReadBuf ideal .absent dev flash count (fun _ => 0) count offset =
      none := by
    intro flash
    rw [flashReadBuf, if_pos hzero]
  have hrun : ∃ r, flashWriteBuf ideal .absent dev ⟨fun _ => 0, 0⟩ (fun _ => 0) (fun _ => 0) count
      offset = some r ∧ 0 ≤ r.ret := by
    rw [flashWriteBuf, if_pos rfl]
    obtain rfl | hcount := Nat.eq_zero_or_pos count
    · exact ⟨_, rfl, le_rfl⟩
    · obtain ⟨flash', done, -, -, hloop⟩ := @writeLoop_ideal_single .absent ⟨fun _ => 0, 0⟩
        ⟨fun _ => 0, count⟩ count count (offset + count) count (offset + count) offset hcount le_rfl
        le_rfl (.inl rfl)
      exact ⟨_, hloop, Int.natCast_nonneg _⟩
  obtain ⟨r, hr, hret⟩ := hrun
  obtain ⟨data, hdata, -⟩ := (h _ _ _ _ r hr hret).readBack fun _ => 0
  rw [hread] at hdata
  cases hdata

theorem fitting_linear (htype : type ≠ .nandFlash) (habsent : type ≠ .absent) :
    Fitting type dev count offset ↔ neededBlocks dev count offset = 0 ∨
      rangeBlocks dev offset < neededBlocks dev count offset ∨
        (dev.devoff / dev.eraseSize ≤ offset / dev.eraseSize ∧
          rangeBlocks dev offset = neededBlocks dev count offset) := by
  cases type with
  | absent => exact absurd rfl habsent
  | nandFlash => exact absurd rfl htype
  | norFlash => exact Iff.rfl
  | dataFlash => exact Iff.rfl
  | ubiVolume => exact Iff.rfl

/-- A write that succeeds is sound exactly if the device is a file with an erase size, or
nothing is written or the range is too short, or the offset is not before the sectors and, on a
device other than a NAND flash, the sectors end with the last block of the environment. -/
theorem flashRight_iff (type : MtdType) (dev : EnvDev) (count offset : Nat) :
    FlashRight type dev count offset ↔ Fitting type dev count offset := by
  obtain rfl | habsent := eq_or_ne type .absent
  · exact ⟨not_flashRight_absent, fun hsize _ _ _ _ _ h hret =>
      sound_absent (Nat.pos_of_ne_zero hsize) h hret⟩
  obtain rfl | htype := eq_or_ne type .nandFlash
  · constructor
    · intro h
      rw [Fitting]
      by_contra hnot
      rw [not_or, not_or, not_lt, not_le] at hnot
      exact not_flashRight_nand (Nat.pos_of_ne_zero hnot.1) hnot.2.1 hnot.2.2 h
    · intro hfit sys flash fresh buf r h hret
      obtain ⟨hpos, data, -, hloop⟩ := flashWriteBuf_mtd (by decide) h hret
      obtain ⟨last, hcount, hpass, -⟩ := mtdLoop_nand hpos hloop hret
      have hle := hpass.needed_le hpos hcount
      refine sound_nand (fun hneed => ?_) h hret
      obtain hzero | hshort | hsectors := hfit
      · exact absurd hzero hneed
      · omega
      · exact hsectors
  · rw [fitting_linear htype habsent]
    constructor
    · intro h
      by_contra hnot
      rw [not_or, not_or, not_lt] at hnot
      exact not_flashRight_linear htype habsent (Nat.pos_of_ne_zero hnot.1) hnot.2.1 hnot.2.2 h
    · intro hfit sys flash fresh buf r h hret
      obtain hzero | hneed := Nat.eq_zero_or_pos (neededBlocks dev count offset)
      · obtain ⟨hpos, data, -, hloop⟩ := flashWriteBuf_mtd habsent h hret
        have hcount : count = 0 := by
          have htotal := (writeTotal_cases hpos count offset).1
          rw [hzero, Nat.zero_mul] at htotal
          omega
        subst hcount
        rw [mtdLoop, hzero, Nat.zero_mul, writeLoop, if_neg (lt_irrefl 0)] at hloop
        cases hloop
        exact sound_nothing htype hpos _ _
      · exact sound_linear htype habsent (hfit.resolve_left hneed.ne') hneed h hret

end

/-- Eight bytes are written from a buffer of four, when the range has one sector more than the
environment needs. -/
theorem range_too_long : ¬∀ (type : MtdType) (dev : EnvDev) (count offset : Nat),
    FlashRight type dev count offset := by
  intro h
  have hsound := h .norFlash ⟨0, 4, 2⟩ 4 0 ideal ⟨fun _ => 0, 8⟩ (fun _ => 0) (fun _ => 0) _ rfl
    (by decide)
  obtain ⟨-, hlen⟩ := hsound.written 0 0 8 (by decide)
  revert hlen
  decide

end UBoot.Env.Fw
