import UBoot.Fastboot.Repeat
import UBoot.Nand.Zeros

/-!
# When the ranges are right

A download of zeros can always be written, so that a call with one shows every erase
and every write that is reached, and ends with success if no write is refused.
-/

namespace UBoot.Fastboot.Ptn

open Verification UBoot.Nand

section

variable {run : RunCommand} {nand : NandInfo} {g : Gadget} {ptn : PtEntry} {buffer : Ptr}

/-! ### What a confined call says about its commands -/

theorem exists_last_piece {offset left stop : Nat} {pieces : List Access}
    (h : Walk nand offset left pieces stop) (hpos : 0 < left) :
    ∃ p ∈ pieces, p.1 < stop ∧ p.1 + p.2 = stop := by
  induction h with
  | done offset => exact absurd hpos (Nat.lt_irrefl 0)
  | skip _ _ _ ih => exact ih hpos
  | @piece offset left stop pieces _ _ hwalk ih =>
    have hrest := blockRest_pos nand offset
    by_cases hmore : 0 < left - min left (nand.blockRest offset)
    · obtain ⟨p, hp, hp'⟩ := ih hmore
      exact ⟨p, List.mem_cons_of_mem _ hp, hp'⟩
    · have hstop := hwalk.eq_of_zero (Nat.eq_zero_of_not_pos hmore)
      exact ⟨_, List.mem_cons_self, by dsimp only; omega, hstop.symm⟩

/-- A write that programs only in front of `high` ends there. -/
theorem endsBy_of_programs (hsize : nand.size < 2 ^ 32) {offset len high : Nat}
    (hlow : offset ≤ high) (h : ∀ a, Programs nand offset len a → a < high) :
    EndsBy nand offset len high := by
  intro pieces stop hwalk hstop
  refine ⟨?_, Nat.lt_of_le_of_lt hstop hsize⟩
  obtain hzero | hpos := Nat.eq_zero_or_pos len
  · rwa [hwalk.eq_of_zero hzero]
  · obtain ⟨p, hp, hlt, hend⟩ := exists_last_piece hwalk hpos
    have := h (stop - 1) ⟨pieces, stop, hwalk, hstop, p, hp, by omega, by omega⟩
    omega

theorem eraseRight_of_touches (h : Repeatable nand g ptn) {k : Nat}
    (hk : k < (repeatMax ptn).toNat)
    (hin : ∀ a, Command.Touches nand a (.erase (ptn.start + UInt32.ofNat k * ptn.length)
      (ptn.length * repeatMax ptn)) → a < slot ptn (repeatMax ptn).toNat) :
    EraseRight nand ptn k := by
  refine or_iff_not_imp_left.mpr fun hne => or_iff_not_imp_left.mpr fun hdevice a hge hlt => ?_
  by_contra hgood
  have hpos := h.length_pos
  have hle := @slot_mono ptn _ _ (Nat.succ_le_of_lt hk)
  rw [slot_add] at hdevice hlt
  rw [Nat.succ_eq_add_one, slot_succ] at hle
  refine absurd (hin a ⟨?_, ?_⟩) (Nat.not_lt_of_le hge)
  · rw [Refused, toNat_base h hk, toNat_eraseLength h hne]
    have := Nat.le_mul_of_pos_left ptn.length.toNat (Nat.lt_of_le_of_lt (Nat.zero_le k) hk)
    omega
  · rw [toNat_base h hk, toNat_eraseLength h hne]
    exact ⟨by omega, hlt, by simpa using hgood⟩

/-! ### The log of a call -/

theorem writeNormal_grows (round base : UInt32) (s : Progress) :
    s.log <+: (writeNormal run g ptn round base s).log := by
  rw [writeNormal]
  split_ifs
  · exact (List.prefix_append _ _).trans (List.prefix_append _ _)
  · exact (List.prefix_append _ _).trans (List.prefix_append _ _)
  · exact List.prefix_append _ _

theorem ifCommand_grows (s : Progress) (c : Command) (p : Bool) :
    s.log <+: (if p then s.command run c else s).log := by
  split_ifs
  · exact List.prefix_append _ _
  · exact List.prefix_rfl

/-- No placement flag is set. -/
def NormalMode (ptn : PtEntry) : Prop :=
  ¬ptn.has WRITE_NEXT_GOOD_BLOCK ∧ ¬ptn.has WRITE_CONTIGUOUS_BLOCK

/-- The commands of repetition `k`. -/
def eraseOf (ptn : PtEntry) (k : Nat) : Command :=
  .erase (ptn.start + UInt32.ofNat k * ptn.length) (ptn.length * repeatMax ptn)

def writeOf (g : Gadget) (ptn : PtEntry) (k : Nat) : Command :=
  .write (writeType g ptn) 0 (ptn.start + UInt32.ofNat k * ptn.length) (writeLength g ptn)

/-- A repetition issues its commands, and another one follows if its write succeeds. -/
theorem writeRounds_succ (hmode : NormalMode ptn) {fuel left k : Nat} {s r : Progress}
    (h : writeRounds run nand g ptn fuel (left + 1) (UInt32.ofNat k) s = some r) :
    ∃ s' flash, s.log <+: s'.log ∧ .command (eraseOf ptn k) ∈ s'.log ∧
      .command (writeOf g ptn k) ∈ s'.log ∧ s'.ret = (run (writeOf g ptn k) flash).1 ∧
      if s'.ret ≠ 0 then r = s'
      else writeRounds run nand g ptn fuel left (UInt32.ofNat (k + 1)) s' = some r := by
  have hboth : ¬(ptn.has WRITE_NEXT_GOOD_BLOCK ∧ ptn.has WRITE_CONTIGUOUS_BLOCK) :=
    fun hand => hmode.1 hand.1
  have hnext : UInt32.ofNat k + 1 = UInt32.ofNat (k + 1) := (UInt32.ofNat_add k 1).symm
  rw [writeRounds] at h
  simp only [writeCopy, if_neg hboth, if_neg hmode.1, if_neg hmode.2, Option.bind_eq_bind,
    Option.bind_some, hnext] at h
  generalize hunlock : (if g.lockUnlock then s.command run (.unlock
    (ptn.start + UInt32.ofNat k * ptn.length) (ptn.length * repeatMax ptn)) else s) = s₁ at h
  generalize hwrite : writeNormal run g ptn (UInt32.ofNat k)
    (ptn.start + UInt32.ofNat k * ptn.length) (s₁.command run (.erase
      (ptn.start + UInt32.ofNat k * ptn.length) (ptn.length * repeatMax ptn))) = s₂ at h
  obtain ⟨hret, -, hmem⟩ := @writeNormal_spec run g ptn (UInt32.ofNat k)
    (ptn.start + UInt32.ofNat k * ptn.length) (s₁.command run (.erase
      (ptn.start + UInt32.ofNat k * ptn.length) (ptn.length * repeatMax ptn)))
  have hgrow := @writeNormal_grows run g ptn (UInt32.ofNat k)
    (ptn.start + UInt32.ofNat k * ptn.length) (s₁.command run (.erase
      (ptn.start + UInt32.ofNat k * ptn.length) (ptn.length * repeatMax ptn)))
  rw [hwrite] at hret hmem hgrow
  have hfirst : s.log <+: s₁.log := hunlock ▸ ifCommand_grows s _ g.lockUnlock
  have hlock := @ifCommand_grows run s₂ (.lock (ptn.start + UInt32.ofNat k * ptn.length)
    (ptn.length * repeatMax ptn)) g.lockUnlock
  have hsame := @ret_ifCommand run s₂ (.lock (ptn.start + UInt32.ofNat k * ptn.length)
    (ptn.length * repeatMax ptn)) g.lockUnlock
  generalize (if g.lockUnlock then s₂.command run (.lock
    (ptn.start + UInt32.ofNat k * ptn.length) (ptn.length * repeatMax ptn)) else s₂) = s₃
    at h hlock hsame
  refine ⟨s₃, _, (hfirst.trans (List.prefix_append _ _)).trans (hgrow.trans hlock), ?_, ?_,
    hsame.trans hret, ?_⟩
  · exact hlock.subset (hgrow.subset (List.mem_append_right _ (List.mem_singleton_self _)))
  · exact hlock.subset ((hmem _).mpr (.inr rfl))
  · split_ifs at h ⊢ with hfail
    · exact (Option.some.inj h).symm
    · exact h

theorem writeRounds_grows (hmode : NormalMode ptn) {fuel left k : Nat} {s r : Progress}
    (h : writeRounds run nand g ptn fuel left (UInt32.ofNat k) s = some r) : s.log <+: r.log := by
  induction left generalizing k s with
  | zero => rw [Option.some.inj h]
  | succ left ih =>
    obtain ⟨s', flash, hgrow, -, -, -, hrest⟩ := writeRounds_succ hmode h
    split_ifs at hrest
    · rwa [hrest]
    · exact hgrow.trans (ih hrest)

/-- The commands of every repetition that is reached are in the log, and the call succeeds
if every write does. -/
theorem writeRounds_reaches (hmode : NormalMode ptn) {Stay : Nat → Prop}
    (hok : ∀ k flash, k < (repeatMax ptn).toNat → Stay k → (run (writeOf g ptn k) flash).1 = 0)
    {fuel left i : Nat} (hi : i + left = (repeatMax ptn).toNat) {s r : Progress}
    (h : writeRounds run nand g ptn fuel left (UInt32.ofNat i) s = some r) :
    (∀ k, i ≤ k → k < (repeatMax ptn).toNat → (∀ j < k, Stay j) →
      .command (eraseOf ptn k) ∈ r.log ∧ .command (writeOf g ptn k) ∈ r.log) ∧
    ((∀ j < (repeatMax ptn).toNat, Stay j) → (left = 0 → s.ret = 0) → r.ret = 0) := by
  induction left generalizing i s with
  | zero =>
    obtain rfl := Option.some.inj h
    exact ⟨fun k hge hlt => by omega, fun _ hret => hret rfl⟩
  | succ left ih =>
    obtain ⟨s', flash, -, herase, hwrite, hret, hrest⟩ := writeRounds_succ hmode h
    have hlog : s'.log <+: r.log := by
      split_ifs at hrest
      · rw [hrest]
      · exact writeRounds_grows hmode hrest
    have hgo : Stay i → writeRounds run nand g ptn fuel left (UInt32.ofNat (i + 1)) s' =
        some r ∧ s'.ret = 0 := by
      intro hstay
      have hzero := hret.trans (hok i flash (by omega) hstay)
      rw [if_neg (not_not.mpr hzero)] at hrest
      exact ⟨hrest, hzero⟩
    refine ⟨fun k hge hlt hstay => ?_, fun hall _ => ?_⟩
    · obtain rfl | hne := Nat.eq_or_lt_of_le hge
      · exact ⟨hlog.subset herase, hlog.subset hwrite⟩
      · exact (ih (by omega) (hgo (hstay i hne)).1).1 k hne hlt hstay
    · obtain ⟨hnext, hzero⟩ := hgo (hall i (by omega))
      exact (ih (by omega) hnext).2 hall fun _ => hzero

/-! ### Necessity -/

/-- The call does what it ought to do, whatever is downloaded, and whatever fails. -/
def Right (nand : NandInfo) (g : Gadget) (ptn : PtEntry) : Prop :=
  ∀ (progFails : Nat → Bool) (buffer : Ptr) (flash : Flash) (fuel : Nat), nand.size + 1 < fuel →
    ∃ r, writeToPtn (doNand nand progFails buffer fuel) nand g ptn fuel flash = some r ∧
      Repeats nand g ptn buffer flash r

/-- A write of zeros that stays in the device succeeds. -/
theorem doNand_zeros (hsize : nand.size < 2 ^ 32) {fuel : Nat} (hfuel : nand.size + 1 < fuel)
    {type : WriteType} {src off len : UInt32} (halign : nand.erasesize ∣ off.toNat)
    (hoff : off.toNat < nand.size) (hstays : Stays nand off.toNat len.toNat) (flash : Flash) :
    (doNand nand neverFails zeros fuel (.write type src off len) flash).1 = 0 := by
  have hpage : off.toNat % nand.writesize = 0 :=
    Nat.mod_eq_zero_of_dvd (nand.writesize_dvd.trans halign)
  obtain ⟨written, hwrite, hok⟩ := @nandWriteSkipBad_zeros nand type.flags hsize _ _ _
    hpage hfuel hstays flash
  obtain ⟨pieces, stop, hwalk, hstop⟩ := hstays
  have hle := hwalk.le
  have hzeros : zeros.add src.toNat = zeros := rfl
  rw [doNand, if_neg (by rw [Refused]; omega), hzeros, hwrite]
  exact if_pos hok

theorem rangesRight_normal (h : Repeatable nand g ptn) (hmode : NormalMode ptn)
    (hsize : nand.size < 2 ^ 32) (hright : Right nand g ptn) :
    RoundsRight nand ptn (NormalStays nand g ptn) (NormalRight nand g ptn) := by
  have hfuel : nand.size + 1 < nand.size + 2 := Nat.lt_succ_self _
  obtain ⟨r, hr, hrepeats⟩ := hright neverFails zeros zeros _ hfuel
  have hpos := h.length_pos
  have hdevice := h.device
  have hslot : ∀ k < (repeatMax ptn).toNat, slot ptn k < nand.size := by
    intro k hk
    have hle := @slot_mono ptn _ _ (Nat.succ_le_of_lt hk)
    rw [Nat.succ_eq_add_one, slot_succ] at hle
    omega
  have hok : ∀ k flash, k < (repeatMax ptn).toNat → NormalStays nand g ptn k →
      (doNand nand neverFails zeros (nand.size + 2) (writeOf g ptn k) flash).1 = 0 := by
    intro k flash hk hstay
    refine doNand_zeros hsize hfuel ?_ ?_ ?_ flash
    all_goals rw [toNat_base h hk]
    · exact slot_dvd h k
    · exact hslot k hk
    · exact hstay
  obtain ⟨hreach, hdone⟩ := writeRounds_reaches hmode hok (Nat.zero_add _) hr
  have hpositive := @repeatMax_pos ptn
  refine ⟨fun _ hzero => ?_, fun k hk hstay => ?_⟩
  · have hslots := h.device
    have hmul := Nat.mul_pos hpos hpositive
    rw [slot, Nat.mul_comm] at hslots
    have htoNat := congrArg UInt32.toNat hzero
    rw [UInt32.toNat_mul, Nat.mod_eq_of_lt (by omega), UInt32.toNat_zero] at htoNat
    omega
  · obtain ⟨herase, hwrite⟩ := hreach k (Nat.zero_le k) hk hstay
    refine ⟨eraseRight_of_touches h hk fun a ha => (hrepeats.confined _ herase a ha).2, ?_,
      fun hall => ?_⟩
    · refine endsBy_of_programs hsize (slot_mono hk.le) fun a ha => ?_
      refine (hrepeats.confined _ hwrite a ?_).2
      rw [writeOf, Command.Touches, toNat_base h hk]
      exact ha
    · obtain ⟨place, pieces, stop, -, hplace, hwalk, hstop, -⟩ := hrepeats.copied
        (hdone hall fun h0 => absurd h0 (Nat.ne_of_gt hpositive)) k hk
      obtain rfl := hplace.resolve_left hmode.2
      have hlength : copyLength g ptn = writeLength g ptn := if_neg (not_or.mpr hmode)
      rw [hlength] at hwalk
      intro pieces' stop' hwalk' hsize'
      obtain ⟨-, rfl⟩ := hwalk'.unique hwalk
      exact ⟨hstop, Nat.lt_of_le_of_lt hsize' hsize⟩

theorem SearchEnd.unique {c c' : Nat} (h : SearchEnd nand g ptn c)
    (hpos : 0 < ptn.length.toNat / nand.erasesize) (h' : SearchEnd nand g ptn c') : c = c' := by
  rw [SearchEnd] at h h'
  split_ifs at h h' with hshort
  all_goals first
    | rw [h, h']
    | skip
  obtain ⟨hle, hpair, hbefore⟩ | ⟨hnone, hlast⟩ := h <;>
    obtain ⟨hle', hpair', hbefore'⟩ | ⟨hnone', hlast'⟩ := h'
  · obtain hlt | rfl | hlt := Nat.lt_trichotomy c c'
    · exact absurd hpair (hbefore' c hle hlt)
    · rfl
    · exact absurd hpair' (hbefore c' hle' hlt)
  · exact absurd hpair (hnone' c hle)
  · exact absurd hpair' (hnone c' hle')
  · rw [hlast hpos, hlast' hpos]

theorem placeRight_of_right (h : Repeatable nand g ptn) (hmode : ContiguousMode g ptn)
    (hsize : nand.size < 2 ^ 32) (hright : Right nand g ptn) : PlaceRight nand g ptn := by
  have hone : (repeatMax ptn).toNat = 1 := by rw [repeatMax_of_contiguous hmode.contiguous]; rfl
  have hdevice := h.device
  rw [hone, slot, Nat.one_mul] at hdevice
  have hstop : ptn.start.toNat + ptn.length.toNat < 2 ^ 32 := by omega
  have hn : ptn.length.toNat / nand.erasesize * nand.erasesize = ptn.length.toNat :=
    Nat.div_mul_cancel h.length_dvd
  have hblocks : 0 < ptn.length.toNat / nand.erasesize := by
    refine Nat.pos_of_ne_zero fun h0 => ?_
    have := h.length_pos
    rw [h0] at hn
    omega
  have hfuel : ptn.length.toNat / nand.erasesize < nand.size + 2 := by
    have := Nat.div_le_self ptn.length.toNat nand.erasesize
    omega
  have hscan := scanEnd_le (fun i => decide (Good nand ptn i)) (decide (Short nand g))
    (ptn.length.toNat / nand.erasesize) 0 false
  rw [PlaceRight, if_neg (Nat.ne_of_lt hstop)]
  intro c hc henough
  obtain rfl := hc.unique hblocks (searchEnd_scanEnd h)
  have hle := Nat.mul_le_mul_right nand.erasesize hscan
  rw [Nat.zero_add, hn] at hle
  have haddr := @toNat_blockAddr nand ptn _ (show ptn.start.toNat +
    scanEnd (fun i => decide (Good nand ptn i)) (decide (Short nand g))
      (ptn.length.toNat / nand.erasesize) 0 false * nand.erasesize < 2 ^ 32 by omega)
  obtain ⟨r, hr, hwritten⟩ := writeToPtn_contiguous hmode
    (doNand nand neverFails zeros (nand.size + 2)) zeros
    (findOkStart_start h.toPlaceable hstop hn hfuel)
  obtain ⟨r', hr', hrepeats⟩ := hright neverFails zeros zeros (nand.size + 2) (Nat.lt_succ_self _)
  obtain rfl := Option.some.inj (hr.symm.trans hr')
  obtain ⟨type, src, hmem⟩ := (hwritten _ _).mpr
    ⟨(enoughSpace_blockAddr h.toPlaceable hstop hle).mpr henough, rfl, rfl⟩
  rw [← hone, ← haddr]
  refine endsBy_of_programs hsize ?_ fun a ha => (hrepeats.confined _ hmem a ha).2
  rw [haddr, hone, slot, Nat.one_mul]
  omega

/-- The commands of a call stay in the copies, and each copy holds the download after success,
if the erases and the writes that are reached end in the copies. On a chip below 4 GiB this
is needed too, unless the next good block is asked for. -/
theorem writeToPtn_repeats_iff (h : Repeatable nand g ptn) :
    (RangesRight nand g ptn → Right nand g ptn) ∧
      (nand.size < 2 ^ 32 → (ptn.has WRITE_NEXT_GOOD_BLOCK → ptn.has WRITE_CONTIGUOUS_BLOCK) →
        Right nand g ptn → RangesRight nand g ptn) := by
  constructor
  · intro hranges progFails buffer flash fuel hfuel
    refine repeats_of_rangesRight h hranges runs_doNand ?_ flash
    have hdiv := Nat.div_le_self ptn.length.toNat nand.erasesize
    have hdevice := h.device
    have hslot := @slot_mono ptn _ _ (Nat.succ_le_of_lt (@repeatMax_pos ptn))
    rw [Nat.succ_eq_add_one, slot_succ] at hslot
    omega
  · intro hsize himp hright
    rw [RangesRight]
    by_cases hcont : ptn.has WRITE_CONTIGUOUS_BLOCK
    · by_cases hnext : ptn.has WRITE_NEXT_GOOD_BLOCK
      · rw [if_pos ⟨hnext, hcont⟩]
        trivial
      · rw [if_neg fun hand => hnext hand.1, if_neg hnext, if_pos hcont]
        refine or_iff_not_imp_left.mpr fun hblock => or_iff_not_imp_left.mpr fun hdevice => ?_
        exact placeRight_of_right h ⟨hcont, hnext, hblock, not_not.mp hdevice⟩ hsize hright
    · have hnext : ¬ptn.has WRITE_NEXT_GOOD_BLOCK := fun hn => hcont (himp hn)
      rw [if_neg fun hand => hnext hand.1, if_neg hnext, if_neg hcont]
      exact rangesRight_normal h ⟨hnext, hcont⟩ hsize hright

end

/-! ### Two copies -/

theorem one_dvd_two : 1 ∣ 2 := ⟨2, rfl⟩

theorem two_eq_pow : ∃ k, k < 32 ∧ 2 = 2 ^ k := ⟨1, by decide, rfl⟩

theorem two_dvd_sixteen : 2 ∣ 16 := ⟨8, rfl⟩

/-- A chip of eight blocks of two bytes, of which one is bad. -/
def eightBlocks (bad : Nat) : NandInfo where
  size := 16
  erasesize := 2
  writesize := 1
  bad := fun addr => addr = bad
  writesize_pos := Nat.one_pos
  writesize_dvd := one_dvd_two
  erasesize_pow := two_eq_pow
  size_dvd := two_dvd_sixteen

def threeBytes : Gadget where
  nandBlockSize := 1
  nandCurrDevice := 0
  downloadBytes := 3
  downloadBytesUnpadded := 3
  lockUnlock := false
  trimffs := false

/-- A partition of three blocks, and a copy behind it. -/
def twice : PtEntry := ⟨0, 6, 2⟩

theorem twice_repeatable (bad : Nat) : Repeatable (eightBlocks bad) threeBytes twice where
  start_dvd := ⟨0, rfl⟩
  length_dvd := ⟨3, rfl⟩
  inside := by decide
  nonempty := by decide
  fits := by decide
  unpadded_le := by decide
  padded := fun _ => one_dvd _
  slots := by decide
  device := (by decide : slot twice (repeatMax twice).toNat ≤ 16)

/-- The second block is bad, so that the first copy needs three of them. The second erase
would go beyond the device. -/
theorem twice_rangesRight : RangesRight (eightBlocks 2) threeBytes twice := by
  have hfirst : Walk (eightBlocks 2) 0 3 [(0, 2), (4, 1)] 5 :=
    .piece (by decide) rfl (.skip (by decide) rfl (.piece (by decide) rfl (.done 5)))
  have hsecond : Walk (eightBlocks 2) 6 3 [(6, 2), (8, 1)] 9 :=
    .piece (by decide) rfl (.piece (by decide) rfl (.done 9))
  rw [RangesRight, if_neg (by decide), if_neg (by decide), if_neg (by decide)]
  refine ⟨fun _ => by decide, fun k hk _ => ?_⟩
  have hlt : k < 2 := hk
  obtain rfl | rfl : k = 0 ∨ k = 1 := by omega
  · refine ⟨eraseRight_zero, fun _ _ hwalk _ => ?_, fun _ _ _ hwalk _ => ?_⟩
    · obtain ⟨-, rfl⟩ := hwalk.unique hfirst
      decide
    · obtain ⟨-, rfl⟩ := hwalk.unique hfirst
      decide
  · refine ⟨.inr (.inl (by decide)), fun _ _ hwalk _ => ?_, fun _ _ _ hwalk _ => ?_⟩
    · obtain ⟨-, rfl⟩ := hwalk.unique hsecond
      decide
    · obtain ⟨-, rfl⟩ := hwalk.unique hsecond
      decide

theorem writeToPtn_repeats_twice :
    Right (eightBlocks 2) threeBytes twice ∧ RangesRight (eightBlocks 2) threeBytes twice := by
  have hright := (writeToPtn_repeats_iff (twice_repeatable 2)).1 twice_rangesRight
  exact ⟨hright, (writeToPtn_repeats_iff (twice_repeatable 2)).2 (by decide)
    (fun hnext => absurd hnext (by decide)) hright⟩

/-- A partition of two blocks, and a copy behind it. -/
def twiceShort : PtEntry := ⟨0, 4, 2⟩

theorem twiceShort_repeatable : Repeatable (eightBlocks 16) threeBytes twiceShort where
  start_dvd := ⟨0, rfl⟩
  length_dvd := ⟨2, rfl⟩
  inside := by decide
  nonempty := by decide
  fits := by decide
  unpadded_le := by decide
  padded := fun _ => one_dvd _
  slots := by decide
  device := by decide

/-- The erase for the second copy goes on behind it. -/
theorem second_erase_outside :
    ¬∀ (nand : NandInfo) (g : Gadget) (ptn : PtEntry), Repeatable nand g ptn →
      Right nand g ptn := by
  intro claim
  have hrounds := rangesRight_normal twiceShort_repeatable ⟨by decide, by decide⟩ (by decide)
    (claim _ _ _ twiceShort_repeatable)
  have hfirst : Walk (eightBlocks 16) 0 3 [(0, 2), (2, 1)] 3 :=
    .piece (by decide) rfl (.piece (by decide) rfl (.done 3))
  have hstay : ∀ j < 1, NormalStays (eightBlocks 16) threeBytes twiceShort j := by
    intro j hj
    obtain rfl := Nat.lt_one_iff.mp hj
    exact ⟨_, _, hfirst, by decide⟩
  obtain hzero | hsize | hbad := (hrounds.2 1 (by decide) hstay).1
  · exact absurd hzero (by decide)
  · exact absurd hsize (by decide)
  · exact Bool.noConfusion (hbad 8 (by decide) (by decide))

end UBoot.Fastboot.Ptn
