import Mathlib.Algebra.Order.Group.Nat
import Mathlib.Data.Nat.Count
import UBoot.Nand.Walk

/-!
# Erasing blocks

`nand_erase_opts` of `drivers/mtd/nand/nand_util.c`, with the checks that
`mtd_block_isbad`, `mtd_erase` and `nand_erase_nand` make for one block. The loop
counts blocks in an `unsigned long` of 32 bits. It goes on after an erase that
fails, and its result does not tell of it. What is printed is left out, and so is
the bad-block table, which a scrub throws away at the end.
-/

namespace UBoot.Nand

/-- `nand_erase_options_t` -/
structure EraseOptions where
  length : Nat
  offset : Nat
  jffs2 : Bool
  scrub : Bool
  spread : Bool
  lim : Nat

/-- What the chip does: the room for a cleanmarker, and the addresses at which an
erase or a write to the spare area fails. -/
structure Chip where
  oobavail : Nat
  eraseFails : Nat → Bool
  oobFails : Nat → Bool

/-- A call of `mtd_erase` or of `mtd_write_oob`, and whether it succeeds. -/
inductive EraseEvent
  | erase (addr : Nat) (ok : Bool)
  | cleanmarker (addr : Nat) (ok : Bool)
  deriving DecidableEq

section

variable (nand : NandInfo) (chip : Chip) (opts : EraseOptions)

/-- `mtd_block_isbad` -/
def mtdBlockIsbad (addr : Nat) : Int :=
  if addr > nand.size then -22 else if nand.bad addr then 1 else 0

/-- `mtd_erase` of one block -/
def mtdErase (addr : Nat) : Int :=
  if addr > nand.size ∨ nand.erasesize > nand.size - addr then -22
  else if (!opts.scrub && nand.bad addr) || chip.eraseFails addr then -5
  else 0

/-- The end of a round, for a block that is to be erased. -/
def eraseBlock (addr : Nat) : List EraseEvent :=
  if mtdErase nand chip opts addr ≠ 0 then [.erase addr false]
  else if opts.jffs2 ∧ chip.oobavail ≥ 8 then
    [.erase addr true, .cleanmarker addr (!chip.oobFails addr)]
  else [.erase addr true]

/-- The loop of `nand_erase_opts`. -/
def eraseLoop (eraseLength erasedLength addr : Nat) : Int × List EraseEvent :=
  if erasedLength < eraseLength then
    if opts.lim ≠ 0 ∧ addr ≥ opts.offset + opts.lim then (-27, [])
    else if ¬opts.scrub ∧ mtdBlockIsbad nand addr > 0 then
      eraseLoop eraseLength (if opts.spread then erasedLength else erasedLength + 1)
        (addr + nand.erasesize)
    else if ¬opts.scrub ∧ mtdBlockIsbad nand addr < 0 then (-1, [])
    else
      (eraseLoop eraseLength (erasedLength + 1) (addr + nand.erasesize)).map id
        (eraseBlock nand chip opts addr ++ ·)
  else (0, [])
termination_by eraseLength - erasedLength + (nand.size + nand.erasesize - addr)
decreasing_by
  · have := erasesize_pos nand
    have : addr ≤ nand.size := by
      by_contra hlarge
      simp_all [mtdBlockIsbad]
    split_ifs <;> omega
  · omega

/-- `erase_length`, before it is stored in 32 bits. -/
def EraseOptions.blocks : Nat := (opts.length + nand.erasesize - 1) / nand.erasesize

/-- `nand_erase_opts` -/
def nandEraseOpts : Int × List EraseEvent :=
  if opts.offset % nand.erasesize ≠ 0 then (-1, [])
  else eraseLoop nand chip opts (opts.blocks nand % 2 ^ 32) 0 opts.offset

/-! ### What is to be erased -/

/-- The address of a block, counted from the offset. -/
def EraseOptions.address (k : Nat) : Nat := opts.offset + k * nand.erasesize

/-- Bad blocks are not erased, except that a scrub takes no block for a bad one. -/
def Usable (k : Nat) : Prop := opts.scrub ∨ nand.bad (opts.address nand k) = false

instance : DecidablePred (Usable nand opts) := fun _ => inferInstanceAs (Decidable (_ ∨ _))

/-- The blocks before block `k` that count as a part of the length. -/
def counted (k : Nat) : Nat := if opts.spread then Nat.count (Usable nand opts) k else k

/-- The blocks that are to be erased: those of the range, or as many as the range
has from the offset on, if they may spread. -/
def Target (k : Nat) : Prop := Usable nand opts k ∧ counted nand opts k < opts.blocks nand

/-- The block is behind the limit or behind the device, so that its mark cannot be read. -/
def Stops (k : Nat) : Prop :=
  (opts.lim ≠ 0 ∧ opts.offset + opts.lim ≤ opts.address nand k) ∨
    (¬opts.scrub ∧ nand.size < opts.address nand k)

/-- The range needs a block that cannot be reached. -/
def Stopped : Prop := ∃ k, counted nand opts k < opts.blocks nand ∧ Stops nand opts k

/-- What the result and the calls of an erase ought to be. -/
structure EraseSound (result : Int × List EraseEvent) : Prop where
  complete : result.1 = 0 → ∀ k, Target nand opts k →
    .erase (opts.address nand k) true ∈ result.2
  inside : ∀ addr ok, .erase addr ok ∈ result.2 → ∃ k, addr = opts.address nand k ∧
    Target nand opts k ∧ (opts.lim = 0 ∨ addr < opts.offset + opts.lim)

end

section

variable {nand : NandInfo} {chip : Chip} {opts : EraseOptions}

theorem address_succ (k : Nat) :
    opts.address nand (k + 1) = opts.address nand k + nand.erasesize := by
  rw [EraseOptions.address, EraseOptions.address, Nat.succ_mul, Nat.add_assoc]

theorem counted_succ_of_usable {k : Nat} (h : Usable nand opts k) :
    counted nand opts (k + 1) = counted nand opts k + 1 := by
  rw [counted, counted, Nat.count_succ, if_pos h]
  split_ifs <;> rfl

theorem counted_succ_of_bad {k : Nat} (h : ¬Usable nand opts k) :
    counted nand opts (k + 1) =
      if opts.spread then counted nand opts k else counted nand opts k + 1 := by
  rw [counted, counted, Nat.count_succ, if_neg h]
  split_ifs <;> rfl

theorem counted_mono {j k : Nat} (h : j ≤ k) : counted nand opts j ≤ counted nand opts k := by
  rw [counted, counted]
  split_ifs
  · exact Nat.count_monotone _ h
  · exact h

theorem counted_zero : counted nand opts 0 = 0 := by
  rw [counted, Nat.count_zero, ite_self]

/-- The mark of a block that is reached tells whether it is usable. -/
theorem isbad_pos_iff {k : Nat} (h : ¬Stops nand opts k) :
    (¬opts.scrub ∧ mtdBlockIsbad nand (opts.address nand k) > 0) ↔ ¬Usable nand opts k := by
  rw [Usable, not_or, Bool.not_eq_false]
  refine and_congr_right fun hscrub => ?_
  have hinside : ¬opts.address nand k > nand.size := fun hgt => h (.inr ⟨hscrub, hgt⟩)
  rw [mtdBlockIsbad, if_neg hinside]
  split_ifs with hbad
  · exact iff_of_true (by decide) hbad
  · exact iff_of_false (by decide) hbad

/-- The mark of a block behind the device cannot be read. -/
theorem isbad_neg_iff {addr : Nat} : mtdBlockIsbad nand addr < 0 ↔ nand.size < addr := by
  rw [mtdBlockIsbad]
  split_ifs with hgt hbad
  · exact iff_of_true (by decide) hgt
  · exact iff_of_false (by decide) hgt
  · exact iff_of_false (by decide) hgt

/-- What the loop does from block `k` on: it visits blocks up to some block, where
either the length is reached or the loop stops. -/
def Ends (nand : NandInfo) (chip : Chip) (opts : EraseOptions) (n k : Nat)
    (result : Int × List EraseEvent) : Prop :=
  ∃ last, k ≤ last ∧
    (∀ e, e ∈ result.2 ↔ ∃ j, k ≤ j ∧ j < last ∧ Usable nand opts j ∧
      e ∈ eraseBlock nand chip opts (opts.address nand j)) ∧
    (∀ j, k ≤ j → j < last → counted nand opts j < n ∧ ¬Stops nand opts j) ∧
    (result.1 = 0 ∧ n ≤ counted nand opts last ∨
      result.1 ≠ 0 ∧ counted nand opts last < n ∧ Stops nand opts last)

/-- A block in front of the others. -/
theorem Ends.cons {n k : Nat} {result : Int × List EraseEvent} (hk : counted nand opts k < n)
    (hgo : ¬Stops nand opts k) (h : Ends nand chip opts n (k + 1) result) :
    Ends nand chip opts n k (result.1,
      (if Usable nand opts k then eraseBlock nand chip opts (opts.address nand k) else []) ++
        result.2) := by
  obtain ⟨last, hle, hevents, hvisited, hend⟩ := h
  refine ⟨last, Nat.le_of_succ_le hle, fun e => ?_, fun j hj hlast => ?_, hend⟩
  · simp only [List.mem_append, hevents e]
    constructor
    · rintro (hmem | ⟨j, hj, hrest⟩)
      · split_ifs at hmem with hu
        · exact ⟨k, le_rfl, hle, hu, hmem⟩
        · exact absurd hmem List.not_mem_nil
      · exact ⟨j, Nat.le_of_succ_le hj, hrest⟩
    · rintro ⟨j, hj, hlast, hu, hmem⟩
      obtain rfl | hlt := Nat.eq_or_lt_of_le hj
      · exact .inl (by rwa [if_pos hu])
      · exact .inr ⟨j, hlt, hlast, hu, hmem⟩
  · obtain rfl | hlt := Nat.eq_or_lt_of_le hj
    · exact ⟨hk, hgo⟩
    · exact hvisited j hlt hlast

/-- The loop ends at once. -/
theorem Ends.nil {n k : Nat} {ret : Int} (h : ret = 0 ∧ n ≤ counted nand opts k ∨
    ret ≠ 0 ∧ counted nand opts k < n ∧ Stops nand opts k) :
    Ends nand chip opts n k (ret, []) := by
  refine ⟨k, le_rfl, fun e => ⟨fun hmem => absurd hmem List.not_mem_nil, ?_⟩, ?_, h⟩
  · rintro ⟨j, h1, h2, -⟩
    exact absurd h1 (Nat.not_le_of_lt h2)
  · intro j h1 h2
    exact absurd h1 (Nat.not_le_of_lt h2)

/-- One round at a time, by the recursion of the loop. -/
theorem eraseLoop_ends {n erased addr : Nat} {k : Nat} (herased : erased = counted nand opts k)
    (haddr : addr = opts.address nand k) :
    Ends nand chip opts n k (eraseLoop nand chip opts n erased addr) := by
  fun_induction eraseLoop nand chip opts n erased addr generalizing k with
  | case1 erased addr hlt hlim =>
    subst herased haddr
    exact Ends.nil (.inr ⟨by decide, hlt, .inl hlim⟩)
  | case2 erased addr hlt hlim hbad ih =>
    subst herased haddr
    have hgo : ¬Stops nand opts k := by
      rintro (hstop | ⟨-, hstop⟩)
      · exact hlim hstop
      · exact absurd (isbad_neg_iff.mpr hstop) (Int.not_lt.mpr hbad.2.le)
    have hskip := (isbad_pos_iff hgo).mp hbad
    have hrest := Ends.cons hlt hgo (ih (counted_succ_of_bad hskip).symm (address_succ k).symm)
    rwa [if_neg hskip] at hrest
  | case3 erased addr hlt hlim hbad hoff =>
    subst herased haddr
    exact Ends.nil (.inr ⟨by decide, hlt, .inr ⟨hoff.1, isbad_neg_iff.mp hoff.2⟩⟩)
  | case4 erased addr hlt hlim hbad hoff ih =>
    subst herased haddr
    have hgo : ¬Stops nand opts k := by
      rintro (hstop | ⟨hscrub, hstop⟩)
      · exact hlim hstop
      · exact hoff ⟨hscrub, isbad_neg_iff.mpr hstop⟩
    have husable : Usable nand opts k := by
      by_contra hskip
      exact hbad ((isbad_pos_iff hgo).mpr hskip)
    have hrest := Ends.cons hlt hgo (ih (counted_succ_of_usable husable).symm
      (address_succ k).symm)
    rwa [if_pos husable] at hrest
  | case5 erased addr hlt =>
    subst herased haddr
    exact Ends.nil (.inl ⟨rfl, Nat.le_of_not_lt hlt⟩)

theorem mem_eraseBlock_true {addr a : Nat} :
    .erase a true ∈ eraseBlock nand chip opts addr ↔
      a = addr ∧ mtdErase nand chip opts addr = 0 := by
  rw [eraseBlock]
  split_ifs with hfail hmark
  · simp [hfail]
  · simp [not_not.mp hfail]
  · simp [not_not.mp hfail]

theorem mem_eraseBlock {addr a : Nat} {ok : Bool}
    (h : .erase a ok ∈ eraseBlock nand chip opts addr) : a = addr := by
  rw [eraseBlock] at h
  split_ifs at h
  all_goals simp at h
  all_goals exact h.1

variable (chip) in
/-- The result of an erase tells the truth exactly if it stops at a block that it
cannot reach, or if no block that it has to erase fails. -/
theorem nandEraseOpts_sound_iff (haligned : opts.offset % nand.erasesize = 0)
    (hblocks : opts.blocks nand < 2 ^ 32) :
    EraseSound nand opts (nandEraseOpts nand chip opts) ↔
      Stopped nand opts ∨
        ∀ k, Target nand opts k → mtdErase nand chip opts (opts.address nand k) = 0 := by
  have hstart : opts.offset = opts.address nand 0 := by
    rw [EraseOptions.address, Nat.zero_mul, Nat.add_zero]
  have hrun : Ends nand chip opts (opts.blocks nand) 0
      (eraseLoop nand chip opts (opts.blocks nand) 0 opts.offset) :=
    eraseLoop_ends counted_zero.symm hstart
  obtain ⟨last, -, hevents, hvisited, hend⟩ := hrun
  rw [nandEraseOpts, if_neg (not_not.mpr haligned), Nat.mod_eq_of_lt hblocks]
  -- A block before the end of the length has been visited.
  have hreached : opts.blocks nand ≤ counted nand opts last →
      ∀ k, counted nand opts k < opts.blocks nand → k < last := by
    intro hfull k hk
    by_contra hle
    have := @counted_mono nand opts _ _ (Nat.le_of_not_lt hle)
    omega
  constructor
  · intro hsound
    obtain ⟨hzero, hfull⟩ | ⟨-, hlt, hstop⟩ := hend
    · refine .inr fun k hk => ?_
      obtain ⟨j, -, -, -, hmem⟩ := (hevents _).mp (hsound.complete hzero k hk)
      obtain ⟨haddr, hok⟩ := mem_eraseBlock_true.mp hmem
      rw [haddr]
      exact hok
    · exact .inl ⟨last, hlt, hstop⟩
  · intro hcond
    refine ⟨fun hzero k hk => ?_, fun addr ok hmem => ?_⟩
    · have hfull : opts.blocks nand ≤ counted nand opts last := by
        obtain ⟨-, hfull⟩ | ⟨hne, -, -⟩ := hend
        · exact hfull
        · exact absurd hzero hne
      have hlast := hreached hfull k hk.2
      obtain ⟨j, hj, hstop⟩ | herases := hcond
      · exact absurd hstop (hvisited j (Nat.zero_le j) (hreached hfull j hj)).2
      · exact (hevents _).mpr ⟨k, Nat.zero_le k, hlast, hk.1,
          mem_eraseBlock_true.mpr ⟨rfl, herases k hk⟩⟩
    · obtain ⟨j, hj, hlast, husable, hmem'⟩ := (hevents _).mp hmem
      obtain ⟨hlt, hgo⟩ := hvisited j hj hlast
      refine ⟨j, mem_eraseBlock hmem', ⟨husable, hlt⟩, ?_⟩
      rw [mem_eraseBlock hmem']
      by_contra hlim
      rw [not_or, not_lt] at hlim
      exact hgo (.inl hlim)

end

/-! ### A block that cannot be erased -/

def goodBlocks : NandInfo where
  size := 8
  erasesize := 4
  writesize := 1
  bad := fun _ => false
  writesize_pos := Nat.one_pos
  writesize_dvd := by decide
  erasesize_pow := four_eq_pow
  size_dvd := four_dvd_eight

/-- The first block is to be erased. -/
def oneBlock : EraseOptions where
  length := 4
  offset := 0
  jffs2 := false
  scrub := false
  spread := false
  lim := 0

/-- A chip of four blocks, the second of which is bad. -/
def secondBad : NandInfo where
  size := 16
  erasesize := 4
  writesize := 1
  bad := fun addr => addr = 4
  writesize_pos := Nat.one_pos
  writesize_dvd := by decide
  erasesize_pow := four_eq_pow
  size_dvd := ⟨4, rfl⟩

/-- Two blocks are to be erased, wherever they are. -/
def twoSpread : EraseOptions := { oneBlock with length := 8, spread := true }

theorem nandEraseOpts_sound_spread :
    EraseSound secondBad twoSpread
      (nandEraseOpts secondBad ⟨0, fun addr => addr = 4, fun _ => false⟩ twoSpread) := by
  refine (nandEraseOpts_sound_iff _ (by decide) (by decide)).mpr (.inr fun k hk => ?_)
  have hlt : k < 3 := by
    by_contra hge
    have hcount := Nat.count_monotone (Usable secondBad twoSpread) (Nat.le_of_not_lt hge)
    exact absurd hk.2 (Nat.not_lt_of_le hcount)
  obtain rfl | rfl | rfl : k = 0 ∨ k = 1 ∨ k = 2 := by omega
  · rfl
  · exact absurd hk.1 (by decide)
  · rfl

/-- The erase fails, and the result is 0. -/
theorem failed_erase_reported :
    ¬∀ (nand : NandInfo) (chip : Chip) (opts : EraseOptions),
      opts.offset % nand.erasesize = 0 → opts.length % nand.erasesize = 0 →
        EraseSound nand opts (nandEraseOpts nand chip opts) := by
  intro claim
  have hsound := claim goodBlocks ⟨0, fun _ => true, fun _ => false⟩ oneBlock rfl rfl
  have hrun : nandEraseOpts goodBlocks ⟨0, fun _ => true, fun _ => false⟩ oneBlock =
      (0, [.erase 0 false]) := by
    rw [nandEraseOpts, if_neg (by decide), eraseLoop, if_pos (by decide), if_neg (by decide),
      if_neg (by decide), if_neg (by decide), eraseLoop, if_neg (by decide)]
    rfl
  rw [hrun] at hsound
  exact absurd (hsound.complete rfl 0 ⟨.inr rfl, by decide⟩) (by decide)

end UBoot.Nand
