import UBoot.Nand.Erase
import UBoot.Nand.SkipBad

/-!
# What a write and an erase change

A write that skips bad blocks changes only the pieces of its walk, whether it succeeds
or not, and stores the buffer there when it succeeds. An erase without options sets
the good blocks of its range.
-/

namespace UBoot.Nand

open Verification

section

variable (nand : NandInfo) (offset len : Nat)

/-- The write ends inside the device, so that it is not refused. -/
def Stays : Prop := ∃ pieces stop, Walk nand offset len pieces stop ∧ stop ≤ nand.size

/-- An address that the write programs. -/
def Programs (a : Nat) : Prop :=
  ∃ pieces stop, Walk nand offset len pieces stop ∧ stop ≤ nand.size ∧
    ∃ p ∈ pieces, p.1 ≤ a ∧ a < p.1 + p.2

/-- The write does not go beyond `high`, unless it is refused. It ends below 4 GiB, as
`nand_verify` needs it. -/
def EndsBy (high : Nat) : Prop :=
  ∀ pieces stop, Walk nand offset len pieces stop → stop ≤ nand.size →
    stop ≤ high ∧ stop < 2 ^ 32

end

section

variable {nand : NandInfo} {progFails : Nat → Bool} {flags : Flags}

/-! ### Walks -/

theorem Walk.inside {offset left stop : Nat} {pieces : List Access}
    (h : Walk nand offset left pieces stop) :
    ∀ p ∈ pieces, offset ≤ p.1 ∧ p.1 + p.2 ≤ stop := by
  induction h with
  | done offset => exact fun p hp => absurd hp List.not_mem_nil
  | skip _ _ _ ih => exact fun p hp => ⟨by have := (ih p hp).1; omega, (ih p hp).2⟩
  | piece _ _ hwalk ih =>
    intro p hp
    obtain rfl | hp := List.mem_cons.mp hp
    · exact ⟨le_rfl, Nat.le_trans (Nat.le_add_right _ _) hwalk.le⟩
    · exact ⟨Nat.le_trans (Nat.le_add_right _ _) (ih p hp).1, (ih p hp).2⟩

/-- Without a bad block every byte of the region lies in a piece. -/
theorem Walk.exists_piece {offset left stop q : Nat} {pieces : List Access}
    (h : Walk nand offset left pieces stop) (hno : NoBad nand offset stop) (hge : offset ≤ q)
    (hlt : q < offset + left) : ∃ p ∈ pieces, p.1 ≤ q ∧ q < p.1 + p.2 := by
  induction h with
  | done offset => omega
  | skip hpos hbad hwalk _ =>
    have hle := hwalk.le
    rw [hno _ le_rfl (by omega)] at hbad
    exact Bool.noConfusion hbad
  | @piece offset left stop pieces _ _ _ ih =>
    by_cases hin : q < offset + min left (nand.blockRest offset)
    · exact ⟨_, List.mem_cons_self, hge, hin⟩
    · obtain ⟨p, hp, hp'⟩ := ih (fun q hge hlt => hno q (by omega) hlt) (by omega) (by omega)
      exact ⟨p, List.mem_cons_of_mem _ hp, hp'⟩

/-- A region without bad blocks in front of a walk. -/
theorem Walk.cons_noBad {offset a b stop : Nat} {pieces : List Access}
    (hno : NoBad nand offset (offset + a)) (h : Walk nand (offset + a) b pieces stop) :
    ∃ pieces', Walk nand offset (a + b) pieces' stop ∧
      ∀ flash, gather flash pieces' = (flash.add offset).bytes a ++ gather flash pieces := by
  induction a using Nat.strong_induction_on generalizing offset with
  | _ a ih =>
    obtain rfl | hpos := Nat.eq_zero_or_pos a
    · exact ⟨pieces, by rwa [Nat.zero_add], fun flash => rfl⟩
    · have hgood := hno offset le_rfl (by omega)
      have hrest := blockRest_pos nand offset
      by_cases hle : nand.blockRest offset ≤ a
      · -- the block is used up to its end
        have hmin : min (a + b) (nand.blockRest offset) = nand.blockRest offset := by omega
        have hback : offset + nand.blockRest offset + (a - nand.blockRest offset) =
            offset + a := by omega
        obtain ⟨pieces', hwalk, hgather⟩ := @ih (a - nand.blockRest offset) (by omega)
          (offset + nand.blockRest offset) (fun q hge hlt => hno q (by omega) (by omega)) (by rwa [hback])
        refine ⟨(offset, min (a + b) (nand.blockRest offset)) :: pieces',
          .piece (by omega) hgood ?_, fun flash => ?_⟩
        · rw [hmin, show a + b - nand.blockRest offset = a - nand.blockRest offset + b by omega]
          exact hwalk
        · rw [gather_cons, hgather, hmin, ← List.append_assoc, ← Ptr.add_add, ← Ptr.bytes_add,
            Nat.add_sub_cancel' hle]
      · -- the walk goes on in the same block
        have hsame : blockStart nand (offset + a) = blockStart nand offset :=
          blockStart_eq (Nat.le_add_right _ _) (by omega)
        have hrest' : nand.blockRest (offset + a) = nand.blockRest offset - a := by
          have h₁ := add_blockRest nand offset
          have h₂ := add_blockRest nand (offset + a)
          have hdiv : (offset + a) / nand.erasesize = offset / nand.erasesize := by
            have hd := Nat.div_add_mod offset nand.erasesize
            refine Nat.div_eq_of_lt_le ?_ ?_
            · rw [Nat.mul_comm]
              omega
            · rw [Nat.mul_comm, ← h₁]
              omega
          rw [hdiv] at h₂
          omega
        cases h with
        | done =>
          have hmin : min (a + 0) (nand.blockRest offset) = a := by omega
          refine ⟨[(offset, min (a + 0) (nand.blockRest offset))],
            .piece (by omega) hgood ?_, fun flash => by rw [hmin]; rfl⟩
          rw [hmin, Nat.add_zero, Nat.sub_self]
          exact .done _
        | skip _ hbad =>
          rw [hsame, hgood] at hbad
          exact Bool.noConfusion hbad
        | @piece _ _ _ pieces hb _ hwalk =>
          rw [hrest'] at hwalk
          have hmin : min (a + b) (nand.blockRest offset) =
              a + min b (nand.blockRest offset - a) := by omega
          refine ⟨(offset, min (a + b) (nand.blockRest offset)) :: pieces,
            .piece (by omega) hgood ?_, fun flash => ?_⟩
          · rw [hmin, ← Nat.add_assoc,
              show a + b - (a + min b (nand.blockRest offset - a)) =
                b - min b (nand.blockRest offset - a) by omega]
            exact hwalk
          · rw [gather_cons, gather_cons, hmin, hrest', ← List.append_assoc, ← Ptr.add_add,
              ← Ptr.bytes_add]

/-- Without a bad block a walk is one run of bytes. -/
theorem exists_walk_of_noBad {offset len : Nat} (hno : NoBad nand offset (offset + len)) :
    ∃ pieces, Walk nand offset len pieces (offset + len) := by
  obtain ⟨pieces, hwalk, -⟩ := Walk.cons_noBad hno (.done _)
  exact ⟨pieces, hwalk⟩

theorem Erased.mono {flash : Flash} {low low' high high' : Nat}
    (h : Erased nand flash low high) (hlow : low ≤ low') (hhigh : high' ≤ high) :
    Erased nand flash low' high' :=
  fun q hge hlt hgood => h q (Nat.le_trans hlow hge) (Nat.lt_of_lt_of_le hlt hhigh) hgood

/-- Below 4 GiB the test of a block finds its mark. -/
theorem agree_of_le {offset stop : Nat} (h : stop ≤ 2 ^ 32) : Agree nand offset stop := by
  intro q _ hlt
  rw [blockStart32, blockStart, Nat.mod_eq_of_lt (by omega)]

/-! ### Writes -/

theorem nandWrite_frame {flash flash' : Flash} {offset len q : Nat} {buf : Ptr}
    (h : nandWrite nand progFails flash offset len buf = some flash')
    (hq : q < offset ∨ offset + len ≤ q) : flash' q = flash q := by
  unfold nandWrite at h
  split_ifs at h
  rw [← Option.some.inj h]
  exact if_neg (by omega)

theorem writeAndVerify_frame {fuel offset len q : Nat} {flash flash' : Flash} {buf : Ptr}
    {log log' : List Access} {ok : Bool}
    (h : writeAndVerify nand progFails flags fuel flash offset len buf log =
      some (ok, flash', log'))
    (hq : q < offset ∨ offset + len ≤ q) : flash' q = flash q := by
  unfold writeAndVerify at h
  split at h
  · cases h
    rfl
  · rename_i flash₁ hwrite
    have hframe := nandWrite_frame hwrite hq
    split_ifs at h
    · obtain ⟨⟨ok', log₁⟩, -, hres⟩ := Option.map_eq_some_iff.mp h
      cases hres
      exact hframe
    · cases h
      exact hframe

/-- No byte of the pieces. -/
def Apart (pieces : List Access) (q : Nat) : Prop := ∀ p ∈ pieces, q < p.1 ∨ p.1 + p.2 ≤ q

theorem writeLoop_frame {actual : UInt32} {offset left stop : Nat} {pieces : List Access}
    (hwalk : Walk nand offset left pieces stop) :
    ∀ {fuel : Nat} {leftToWrite : UInt32} {buf : Ptr} {flash : Flash} {log : List Access}
      {result : WriteResult}, leftToWrite.toNat = left → Agree nand offset stop →
      writeLoop nand progFails flags actual fuel offset leftToWrite buf flash log = some result →
      ∀ q, Apart pieces q → result.flash q = flash q := by
  induction hwalk with
  | done offset =>
    intro fuel leftToWrite buf flash log result hleft _ h q _
    cases fuel with
    | zero => cases h
    | succ fuel =>
      unfold writeLoop at h
      rw [if_pos (UInt32.toNat_inj.mp hleft)] at h
      rw [← Option.some.inj h]
  | @skip offset left stop pieces hpos hbad hwalk ih =>
    intro fuel leftToWrite buf flash log result hleft hagree h q hq
    have hle := hwalk.le
    cases fuel with
    | zero => cases h
    | succ fuel =>
      unfold writeLoop at h
      rw [if_neg (ne_zero_of_toNat hleft hpos)] at h
      dsimp only at h
      rw [if_pos ((hagree offset le_rfl (by omega)).trans hbad)] at h
      exact ih hleft (hagree.mono (Nat.le_add_right _ _)) h q hq
  | @piece offset left stop pieces hpos hgood hwalk ih =>
    intro fuel leftToWrite buf flash log result hleft hagree h q hq
    have hle := hwalk.le
    cases fuel with
    | zero => cases h
    | succ fuel =>
      have htest := hagree.not_bad (by omega) hgood
      have hrest : nand.erasesize - offset % nand.erasesize = nand.blockRest offset := rfl
      have hlen := (truncated_spec nand flags buf (min left (nand.blockRest offset))).1
      have hhead := hq _ List.mem_cons_self
      have htail : Apart pieces q := fun p hp => hq p (List.mem_cons_of_mem _ hp)
      unfold writeLoop at h
      rw [if_neg (ne_zero_of_toNat hleft hpos)] at h
      dsimp only at h
      rw [if_neg htest, hleft, hrest] at h
      split at h
      · cases h
      · rename_i flash₁ log₁ hwrite
        cases h
        exact writeAndVerify_frame hwrite (by omega)
      · rename_i flash₁ log₁ hwrite
        have hnext : (leftToWrite - UInt32.ofNat (min left (nand.blockRest offset))).toNat =
            left - min left (nand.blockRest offset) :=
          toNat_sub_ofNat hleft (Nat.min_le_left _ _)
        rw [ih hnext (hagree.mono (Nat.le_add_right _ _)) h q htail]
        exact writeAndVerify_frame hwrite (by omega)

/-- What a write that stays in the device changes and stores. -/
theorem nandWriteSkipBad_changes {fuel offset lim stop : Nat} {length : UInt32} {buf : Ptr}
    {flash : Flash} {written : WriteResult} {pieces : List Access}
    (hwalk : Walk nand offset length.toNat pieces stop) (hstop : stop ≤ 2 ^ 32)
    (h : nandWriteSkipBad nand progFails flags fuel offset length lim buf flash = some written) :
    (∀ q, Apart pieces q → written.flash q = flash q) ∧
      (written.error = none → Erased nand flash offset stop →
        gather written.flash pieces = buf.bytes length.toNat) := by
  have hagree : Agree nand offset stop := agree_of_le hstop
  have hle := hwalk.le
  unfold nandWriteSkipBad at h
  split_ifs at h
  · cases h
    exact ⟨fun _ _ => rfl, fun hok => (nomatch hok)⟩
  · split at h
    · cases h
    · cases h
      exact ⟨fun _ _ => rfl, fun hok => (nomatch hok)⟩
    · rename_i needSkip used hcheck
      split_ifs at h with hlim hfast
      · cases h
        exact ⟨fun _ _ => rfl, fun hok => (nomatch hok)⟩
      · -- no bad block, and the whole buffer at once
        obtain ⟨pieces', stop', hwalk', -, -, hskip⟩ := checkSkipLen_fits hcheck
          (UInt32.le_iff_toNat_le.mpr (Nat.zero_le _)) (.inr rfl)
        rw [UInt32.toNat_zero, Nat.sub_zero] at hwalk'
        obtain ⟨rfl, rfl⟩ := hwalk.unique hwalk'
        obtain ⟨rfl, -⟩ : needSkip = false ∧ flags.dropFfs = false := by simpa using hfast
        have hno := (hskip.mp rfl).2
        have hdata : ∀ flash : Flash, gather flash pieces = (flash.add offset).bytes length.toNat :=
          fun flash => hwalk.gather_eq flash hno
        obtain ⟨⟨ok, flash₁, log₁⟩, hwrite, rfl⟩ := Option.map_eq_some_iff.mp h
        refine ⟨fun q hq => writeAndVerify_frame hwrite ?_, fun hok herased => ?_⟩
        · by_contra hin
          rw [not_or, not_lt, not_le] at hin
          obtain ⟨p, hp, hge, hlt⟩ := hwalk.exists_piece hno hin.1 hin.2
          exact absurd (hq p hp) (by omega)
        · cases ok with
          | false => exact nomatch hok
          | true =>
            obtain ⟨-, rfl, -⟩ := writeAndVerify_spec hwrite fun q hge hlt =>
              herased q hge (by omega) (hno q hge (by omega))
            rw [hdata, Ptr.bytes_write_self]
      · exact ⟨writeLoop_frame hwalk rfl hagree h,
          fun hok herased => (writeLoop_spec hwalk rfl hagree herased h hok).2.2.1⟩

/-- A write that does not stay in the device is refused. -/
theorem nandWriteSkipBad_outside {fuel offset lim : Nat} {length : UInt32} {buf : Ptr}
    {flash : Flash} {written : WriteResult} (hout : ¬Stays nand offset length.toNat)
    (hsize : offset ≤ nand.size)
    (h : nandWriteSkipBad nand progFails flags fuel offset length lim buf flash = some written) :
    written.error ≠ none ∧ written.flash = flash := by
  unfold nandWriteSkipBad at h
  split_ifs at h
  · cases h
    exact ⟨nofun, rfl⟩
  · split at h
    · cases h
    · cases h
      exact ⟨nofun, rfl⟩
    · rename_i needSkip used hcheck
      obtain ⟨pieces, stop, hwalk, -, hstop, -⟩ := checkSkipLen_fits hcheck
        (UInt32.le_iff_toNat_le.mpr (Nat.zero_le _)) (.inr rfl)
      rw [UInt32.toNat_zero, Nat.sub_zero] at hwalk hstop
      refine absurd ⟨pieces, stop, hwalk, ?_⟩ hout
      obtain hzero | hpos := Nat.eq_zero_or_pos length.toNat
      · rwa [hwalk.eq_of_zero hzero]
      · exact hstop hpos

/-! ### Erases -/

/-- The options of `nand erase`. -/
def EraseOptions.plain (offset length : Nat) : EraseOptions where
  length := length
  offset := offset
  jffs2 := false
  scrub := false
  spread := false
  lim := 0

/-- The blocks that `nand erase` erases on a chip whose good blocks can be erased: the
good ones of the range. -/
theorem mem_nandEraseOpts_plain {chip : Chip} {offset length : Nat}
    (hchip : ∀ a, chip.eraseFails a = false) (hoffset : nand.erasesize ∣ offset)
    (hlength : nand.erasesize ∣ length) (hlt : length < 2 ^ 32) (hsize : offset + length ≤ nand.size) (q : Nat) :
    .erase (blockStart nand q) true ∈ (nandEraseOpts nand chip (.plain offset length)).2 ↔
      offset ≤ q ∧ q < offset + length ∧ nand.bad (blockStart nand q) = false := by
  have hpos := erasesize_pos nand
  obtain ⟨n, rfl⟩ := hlength
  have hblocks : (EraseOptions.plain offset (nand.erasesize * n)).blocks nand = n := by
    rw [EraseOptions.blocks, EraseOptions.plain, Nat.add_sub_assoc hpos, Nat.mul_add_div hpos,
      Nat.div_eq_of_lt (Nat.sub_lt hpos Nat.one_pos), Nat.add_zero]
  have hn : n < 2 ^ 32 := Nat.lt_of_le_of_lt (Nat.le_mul_of_pos_left n hpos) hlt
  have haddr : ∀ k, (EraseOptions.plain offset (nand.erasesize * n)).address nand k =
      offset + k * nand.erasesize := fun k => rfl
  have hstops : ∀ k ≤ n, ¬Stops nand (.plain offset (nand.erasesize * n)) k := by
    rintro k hk (⟨hlim, -⟩ | ⟨-, hgt⟩)
    · exact hlim rfl
    · have := Nat.mul_le_mul_right nand.erasesize hk
      rw [haddr] at hgt
      rw [Nat.mul_comm nand.erasesize n] at hsize
      omega
  obtain ⟨last, -, hevents, hvisited, hend⟩ := @eraseLoop_ends nand chip
    (.plain offset (nand.erasesize * n)) n 0 offset 0 counted_zero.symm (by rw [haddr]; omega)
  have hlast : last = n := by
    have hle : last ≤ n := by
      by_contra hgt
      exact absurd (hvisited n (Nat.zero_le n) (Nat.lt_of_not_le hgt)).1 (Nat.lt_irrefl n)
    obtain ⟨-, hfull⟩ | ⟨-, -, hstop⟩ := hend
    · exact Nat.le_antisymm hle hfull
    · exact absurd hstop (hstops last hle)
  subst hlast
  have hrun : nandEraseOpts nand chip (.plain offset (nand.erasesize * last)) =
      eraseLoop nand chip (.plain offset (nand.erasesize * last)) last 0 offset := by
    rw [nandEraseOpts, hblocks, Nat.mod_eq_of_lt hn]
    exact if_neg (not_not.mpr (Nat.mod_eq_zero_of_dvd hoffset))
  have hin : blockStart nand q ≤ q ∧ q < blockStart nand q + nand.erasesize := by
    have hmod := Nat.mod_lt q hpos
    have hle := Nat.mod_le q nand.erasesize
    unfold blockStart
    omega
  rw [hrun, hevents]
  constructor
  · rintro ⟨j, -, hj, husable, hmem⟩
    obtain ⟨heq, -⟩ := mem_eraseBlock_true.mp hmem
    have hj' := Nat.mul_le_mul_right nand.erasesize hj
    rw [haddr] at heq
    rw [Nat.succ_mul, Nat.mul_comm last] at hj'
    refine ⟨by omega, by omega, ?_⟩
    rw [heq]
    exact husable.resolve_left Bool.noConfusion
  · rintro ⟨hge, hlt', hgood⟩
    obtain ⟨m, rfl⟩ := hoffset
    obtain ⟨j, hj⟩ : ∃ j, blockStart nand q = nand.erasesize * m + j * nand.erasesize := by
      refine ⟨q / nand.erasesize - m, ?_⟩
      have hdiv := Nat.div_add_mod q nand.erasesize
      have hm : m ≤ q / nand.erasesize := (Nat.le_div_iff_mul_le hpos).mpr (by rwa [Nat.mul_comm])
      rw [Nat.mul_comm _ nand.erasesize, ← Nat.mul_add, Nat.add_sub_cancel' hm]
      unfold blockStart
      omega
    have hlast : j < last := by
      have : j * nand.erasesize < last * nand.erasesize := by
        rw [Nat.mul_comm last]
        omega
      exact Nat.lt_of_mul_lt_mul_right this
    refine ⟨j, Nat.zero_le j, hlast, .inr (by rw [haddr, ← hj]; exact hgood),
      mem_eraseBlock_true.mpr ⟨by rw [haddr, hj], ?_⟩⟩
    have hend := Nat.mul_le_mul_right nand.erasesize hlast
    rw [Nat.succ_mul, Nat.mul_comm last] at hend
    rw [haddr, ← hj, mtdErase, if_neg (by omega), hgood, hchip]
    rfl

end

end UBoot.Nand
