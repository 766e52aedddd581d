import Mathlib.Algebra.Order.Group.Nat
import Mathlib.Tactic.IntervalCases
import UBoot.Fastboot.WriteToPtn
import UBoot.Nand.Walk

/-!
# The search for a contiguous block

The loop of `write_to_ptn` tests `ok_start - off`, where the two are the wrong way
round: behind a bad block the difference is the size of a block, and behind a good
one it wraps. So the search ends at the second of two adjacent good blocks, and
for a download of at most one block also at a bad one.
-/

namespace UBoot.Fastboot.Ptn

open Verification UBoot.Nand

section

variable (nand : NandInfo) (g : Gadget) (ptn : PtEntry)

/-- What the partition and the download are known to be. -/
structure Placeable : Prop where
  start_dvd : nand.erasesize ∣ ptn.start.toNat
  length_dvd : nand.erasesize ∣ ptn.length.toNat
  inside : ptn.start.toNat + ptn.length.toNat ≤ 2 ^ 32
  nonempty : 0 < g.downloadBytes.toNat
  fits : g.downloadBytes.toNat ≤ ptn.length.toNat

/-- A block of the partition, counted from its start, is good. -/
def Good (i : Nat) : Prop := nand.bad (ptn.start.toNat + i * nand.erasesize) = false

instance : DecidablePred (Good nand ptn) := fun _ => inferInstanceAs (Decidable (_ = _))

/-- The download can be written at the offset. -/
structure Fits (off : Nat) : Prop where
  start_le : ptn.start.toNat ≤ off
  le_stop : off + g.downloadBytes.toNat ≤ ptn.start.toNat + ptn.length.toNat
  good : NoBad nand off (off + g.downloadBytes.toNat)

/-- There is enough contiguous space in the partition. -/
def HasSpace : Prop := ∃ off, nand.erasesize ∣ off ∧ Fits nand g ptn off

/-- Two adjacent good blocks of the partition. -/
def Adjacent (i : Nat) : Prop :=
  Good nand ptn i ∧ Good nand ptn (i + 1) ∧ (i + 1) * nand.erasesize < ptn.length.toNat

/-- The block at which the search ends, if `seen` tells that the block before block
`i` is good and the search goes on, and `short` that a block has room for the download. -/
def scanEnd (good : Nat → Bool) (short : Bool) : Nat → Nat → Bool → Nat
  | 0, i, seen => if seen then i - 1 else i
  | left + 1, i, seen =>
    if good i then
      if seen then i - 1 else scanEnd good short left (i + 1) true
    else if short then i + 1
    else scanEnd good short left (i + 1) false

end

section

variable {nand : NandInfo} {g : Gadget} {ptn : PtEntry}

def blockAddr (nand : NandInfo) (ptn : PtEntry) (i : Nat) : UInt32 :=
  UInt32.ofNat (ptn.start.toNat + i * nand.erasesize)

theorem toNat_blockAddr {i : Nat} (h : ptn.start.toNat + i * nand.erasesize < 2 ^ 32) :
    (blockAddr nand ptn i).toNat = ptn.start.toNat + i * nand.erasesize := by
  rw [blockAddr, UInt32.toNat_ofNat', Nat.mod_eq_of_lt h]

theorem blockAddr_succ (i : Nat) :
    blockAddr nand ptn i + UInt32.ofNat nand.erasesize = blockAddr nand ptn (i + 1) := by
  rw [blockAddr, blockAddr, Nat.succ_mul, ← UInt32.ofNat_add, Nat.add_assoc]

theorem blockAddr_zero : blockAddr nand ptn 0 = ptn.start := by
  rw [blockAddr, Nat.zero_mul, Nat.add_zero, UInt32.ofNat_toNat]

/-- A block has room for the download. -/
def Short (nand : NandInfo) (g : Gadget) : Prop := g.downloadBytes.toNat ≤ nand.erasesize

instance : Decidable (Short nand g) := inferInstanceAs (Decidable (_ ≤ _))

theorem toNat_ofNat_erasesize (nand : NandInfo) :
    (UInt32.ofNat nand.erasesize).toNat = nand.erasesize := by
  rw [UInt32.toNat_ofNat', Nat.mod_eq_of_lt (erasesize_lt nand)]

/-- A multiple of the block size below 4 GiB is at least a block below it. -/
theorem add_erasesize_le {len : Nat} (hdvd : nand.erasesize ∣ len) (hlt : len < 2 ^ 32) :
    len + nand.erasesize ≤ 2 ^ 32 := by
  obtain ⟨blocks, hblocks⟩ := erasesize_dvd nand
  obtain ⟨k, rfl⟩ := hdvd
  rw [hblocks] at hlt ⊢
  rw [← Nat.mul_succ]
  exact Nat.mul_le_mul_left _ (Nat.lt_of_mul_lt_mul_left hlt)

theorem sub_ge_of_bad (i : Nat) :
    blockAddr nand ptn (i + 1) - blockAddr nand ptn i ≥ g.downloadBytes ↔ Short nand g := by
  rw [← blockAddr_succ, add_sub_cancel_left, ge_iff_le, UInt32.le_iff_toNat_le,
    toNat_ofNat_erasesize]
  rfl

/-- Behind a good block the difference wraps. -/
theorem sub_ge_of_seen (h : Placeable nand g ptn) (i : Nat) :
    blockAddr nand ptn i - blockAddr nand ptn (i + 1) ≥ g.downloadBytes := by
  have hblock := add_erasesize_le h.length_dvd ptn.length.toNat_lt
  have hfits := h.fits
  have hpos := erasesize_pos nand
  have hneg : 0 - UInt32.ofNat nand.erasesize = UInt32.ofNat (2 ^ 32 - nand.erasesize) := by
    apply UInt32.toNat_inj.mp
    rw [UInt32.toNat_sub, toNat_ofNat_erasesize, UInt32.toNat_ofNat']
    rfl
  rw [← blockAddr_succ, ← sub_sub, sub_self, hneg, ge_iff_le, UInt32.le_iff_toNat_le,
    UInt32.toNat_ofNat', Nat.mod_eq_of_lt (by omega)]
  omega

theorem not_sub_ge (h : Placeable nand g ptn) (i : Nat) :
    ¬blockAddr nand ptn i - blockAddr nand ptn i ≥ g.downloadBytes := by
  have hpos := h.nonempty
  rw [sub_self, ge_iff_le, UInt32.le_iff_toNat_le, not_le]
  exact hpos

/-- The loop of the source, block by block. -/
theorem findOkStart_scan (h : Placeable nand g ptn)
    (hstop : ptn.start.toNat + ptn.length.toNat < 2 ^ 32) {left i fuel : Nat} {seen : Bool}
    (hleft : (i + left) * nand.erasesize = ptn.length.toNat) (hfuel : left < fuel)
    (hseen : seen → 0 < i) :
    findOkStart nand g ptn fuel (blockAddr nand ptn i)
        (blockAddr nand ptn (if seen then i - 1 else i)) =
      some (blockAddr nand ptn
        (scanEnd (fun i => decide (Good nand ptn i)) (decide (Short nand g)) left i seen)) := by
  have hend : (ptn.start + ptn.length).toNat = ptn.start.toNat + ptn.length.toNat := by
    rw [UInt32.toNat_add, Nat.mod_eq_of_lt hstop]
  induction left generalizing i fuel seen with
  | zero =>
    obtain ⟨fuel, rfl⟩ := Nat.exists_eq_succ_of_ne_zero (Nat.ne_of_gt hfuel)
    rw [Nat.add_zero] at hleft
    have hoff : ¬blockAddr nand ptn i < ptn.start + ptn.length := by
      rw [UInt32.lt_iff_toNat_lt, hend, toNat_blockAddr (by rwa [hleft]), hleft]
      exact Nat.lt_irrefl _
    rw [findOkStart, if_neg hoff]
    rfl
  | succ left ih =>
    obtain ⟨fuel, rfl⟩ := Nat.exists_eq_succ_of_ne_zero (Nat.ne_zero_of_lt hfuel)
    have hlt : i * nand.erasesize < ptn.length.toNat := by
      rw [← hleft]
      exact Nat.mul_lt_mul_of_pos_right (by omega) (erasesize_pos nand)
    have haddr : (blockAddr nand ptn i).toNat = ptn.start.toNat + i * nand.erasesize :=
      toNat_blockAddr (by omega)
    have hoff : blockAddr nand ptn i < ptn.start + ptn.length := by
      rw [UInt32.lt_iff_toNat_lt, hend, haddr]
      omega
    have hnext : (i + 1 + left) * nand.erasesize = ptn.length.toNat := by
      rw [← hleft]
      congr 1
      omega
    rw [findOkStart, if_pos hoff, haddr, scanEnd, blockAddr_succ]
    by_cases hgood : Good nand ptn i
    · have hbad : ¬nand.bad (ptn.start.toNat + i * nand.erasesize) = true := by
        rw [hgood]
        decide
      rw [if_pos (decide_eq_true hgood)]
      simp only [if_neg hbad]
      cases seen with
      | true =>
        have hlast : i - 1 + 1 = i := Nat.sub_add_cancel (hseen rfl)
        have hge := sub_ge_of_seen h (i - 1)
        rw [hlast] at hge
        exact if_pos hge
      | false =>
        have hrest := @ih (i + 1) fuel true hnext (Nat.lt_of_succ_lt_succ hfuel)
          fun _ => Nat.succ_pos i
        exact (if_neg (not_sub_ge h i)).trans hrest
    · have hbad : nand.bad (ptn.start.toNat + i * nand.erasesize) = true := by
        simpa [Good] using hgood
      have hno : ¬decide (Good nand ptn i) = true := fun hd => hgood (of_decide_eq_true hd)
      rw [if_neg hno]
      simp only [if_pos hbad, sub_ge_of_bad]
      by_cases hshort : Short nand g
      · rw [if_pos hshort, if_pos (decide_eq_true hshort)]
      · have hlong : ¬decide (Short nand g) = true := fun hd => hshort (of_decide_eq_true hd)
        rw [if_neg hshort, if_neg hlong]
        exact @ih (i + 1) fuel false hnext (Nat.lt_of_succ_lt_succ hfuel) Bool.noConfusion

/-! ### Where the search ends -/

/-- For a download of at most one block. -/
theorem scanEnd_short (good : Nat → Bool) (n : Nat) :
    scanEnd good true (n + 1) 0 false =
      if good 0 then if n = 0 ∨ good 1 then 0 else 2 else 1 := by
  cases n with
  | zero => cases h : good 0 <;> simp [scanEnd, h]
  | succ n => cases h : good 0 <;> cases h1 : good 1 <;> simp [scanEnd, h, h1]

/-- Two adjacent good ones of `n` blocks. -/
def Pair (good : Nat → Bool) (n j : Nat) : Prop :=
  good j = true ∧ good (j + 1) = true ∧ j + 1 < n

/-- The search for a longer download: it ends at the first pair, or at the last blocks. -/
def EndsAt (good : Nat → Bool) (n first last : Nat) : Prop :=
  (first ≤ last ∧ Pair good n last ∧ ∀ j, first ≤ j → j < last → ¬Pair good n j) ∨
    ((∀ j, first ≤ j → ¬Pair good n j) ∧ (0 < n → last = if good (n - 1) then n - 1 else n))

/-- Blocks that begin no pair can be left out. -/
theorem EndsAt.of_le {good : Nat → Bool} {n first first' last : Nat}
    (h : EndsAt good n first last) (hle : first' ≤ first)
    (hno : ∀ j, first' ≤ j → j < first → ¬Pair good n j) : EndsAt good n first' last := by
  obtain ⟨hfirst, hpair, hbefore⟩ | ⟨hnone, hlast⟩ := h
  · refine .inl ⟨Nat.le_trans hle hfirst, hpair, fun j hj hlt => ?_⟩
    obtain hlow | hhigh := Nat.lt_or_ge j first
    · exact hno j hj hlow
    · exact hbefore j hhigh hlt
  · refine .inr ⟨fun j hj => ?_, hlast⟩
    obtain hlow | hhigh := Nat.lt_or_ge j first
    · exact hno j hj hlow
    · exact hnone j hhigh

theorem scanEnd_long (good : Nat → Bool) {n left i : Nat} {seen : Bool} (hleft : i + left = n)
    (hpos : 0 < i → good (i - 1) = seen) (hzero : i = 0 → seen = false) :
    EndsAt good n (if seen then i - 1 else i) (scanEnd good false left i seen) := by
  induction left generalizing i seen with
  | zero =>
    refine .inr ⟨fun j hj hpair => ?_, fun hn => ?_⟩
    · have := hpair.2.2
      split_ifs at hj <;> omega
    · rw [← hleft, Nat.add_zero, hpos (by omega)]
      rfl
  | succ left ih =>
    rw [scanEnd]
    cases hgood : good i with
    | true =>
      rw [if_pos rfl]
      cases seen with
      | true =>
        have hi : 0 < i := Nat.pos_of_ne_zero fun h => Bool.noConfusion (hzero h)
        have hlast : i - 1 + 1 = i := Nat.sub_add_cancel hi
        rw [if_pos rfl, if_pos rfl]
        refine .inl ⟨le_rfl, ⟨hpos hi, ?_, ?_⟩,
          fun j hj hlt => absurd hj (Nat.not_le_of_lt hlt)⟩
        · rw [hlast, hgood]
        · omega
      | false =>
        have hrest := @ih (i + 1) true (by omega) (fun _ => hgood) Nat.noConfusion
        exact hrest
    | false =>
      have hrest := @ih (i + 1) false (by omega) (fun _ => hgood) fun _ => rfl
      rw [if_neg Bool.false_ne_true] at hrest ⊢
      refine hrest.of_le (by split_ifs <;> omega) fun j hj hlt hpair => ?_
      obtain rfl | rfl : j = i ∨ j + 1 = i := by split_ifs at hj <;> omega
      · rw [hpair.1] at hgood
        exact Bool.noConfusion hgood
      · rw [hpair.2.1] at hgood
        exact Bool.noConfusion hgood

/-! ### What is written -/

/-- A write to the flash has been commanded. -/
def Written (r : Progress) (off len : UInt32) : Prop :=
  ∃ type src, .command (.write type src off len) ∈ r.log

theorem written_start (ret : Int) (flash : Flash) (off len : UInt32) :
    ¬Written ⟨ret, flash, []⟩ off len := by
  rintro ⟨type, src, hmem⟩
  exact List.not_mem_nil hmem

theorem written_command (run : RunCommand) (c : Command) (s : Progress) (off len : UInt32) :
    Written (s.command run c) off len ↔
      Written s off len ∨ ∃ type src, c = .write type src off len := by
  simp only [Written, Progress.command, List.mem_append, List.mem_singleton, Event.command.injEq,
    exists_or, eq_comm]

theorem written_write (run : RunCommand) (c : Command) (s : Progress) (off len : UInt32) :
    Written (s.write run c) off len ↔
      Written s off len ∨ ∃ type src, c = .write type src off len :=
  written_command run c s off len

theorem written_save (offset size : UInt32) (s : Progress) (off len : UInt32) :
    Written (s.save offset size) off len ↔ Written s off len := by
  simp [Written, Progress.save]

/-- What is written and whether lack of space is reported, as it ought to be. -/
structure Placed (nand : NandInfo) (g : Gadget) (ptn : PtEntry) (r : Progress) : Prop where
  sound : ∀ off len, Written r off len → len = g.downloadBytes ∧ Fits nand g ptn off.toNat
  reported : (∀ off len, ¬Written r off len) ↔ ¬HasSpace nand g ptn

/-- The partition is written to a contiguous block of the only device. -/
structure ContiguousMode (g : Gadget) (ptn : PtEntry) : Prop where
  contiguous : ptn.has WRITE_CONTIGUOUS_BLOCK
  notNext : ¬ptn.has WRITE_NEXT_GOOD_BLOCK
  blockSize : g.nandBlockSize ≠ 0
  device : g.nandCurrDevice = 0

theorem repeatMax_of_contiguous (h : ptn.has WRITE_CONTIGUOUS_BLOCK) : repeatMax ptn = 1 := by
  rw [repeatMax, if_pos h, ite_self]

/-- The run of the function, from the place that the search finds. -/
theorem writeToPtn_contiguous (hmode : ContiguousMode g ptn) (run : RunCommand) (flash : Flash)
    {fuel : Nat} {okStart : UInt32}
    (hfind : findOkStart nand g ptn fuel ptn.start ptn.start = some okStart) :
    ∃ r, writeToPtn run nand g ptn fuel flash = some r ∧
      ∀ off len, Written r off len ↔
        enoughSpace g ptn okStart ∧ off = okStart ∧ len = g.downloadBytes := by
  have hboth : ¬(ptn.has WRITE_NEXT_GOOD_BLOCK ∧ ptn.has WRITE_CONTIGUOUS_BLOCK) :=
    fun h => hmode.notNext h.1
  have hready : ¬(g.nandBlockSize = 0 ∨ g.nandCurrDevice ≠ 0) :=
    not_or.mpr ⟨hmode.blockSize, not_not.mpr hmode.device⟩
  simp only [writeToPtn, repeatMax_of_contiguous hmode.contiguous, UInt32.toNat_one, writeRounds,
    writeCopy, if_neg hboth, if_neg hmode.notNext, if_pos hmode.contiguous, writeContiguous,
    if_neg hready, hfind, Option.bind_eq_bind, Option.bind_some]
  by_cases henough : enoughSpace g ptn okStart
  · simp only [if_pos henough, Option.bind_some, ite_self]
    refine ⟨_, rfl, fun off len => ?_⟩
    split_ifs <;>
      simp [written_command, written_write, written_save, written_start, henough, eq_comm]
  · simp only [if_neg henough, Option.bind_some, ite_self]
    refine ⟨_, rfl, fun off len => ?_⟩
    split_ifs <;> simp [written_command, written_start, henough]

/-- The outcome depends on the place that the search finds. -/
theorem placed_iff (hmode : ContiguousMode g ptn) (run : RunCommand) (flash : Flash) {fuel : Nat}
    {okStart : UInt32}
    (hfind : findOkStart nand g ptn fuel ptn.start ptn.start = some okStart)
    (hdvd : nand.erasesize ∣ okStart.toNat) :
    (∃ r, writeToPtn run nand g ptn fuel flash = some r ∧ Placed nand g ptn r) ↔
      if enoughSpace g ptn okStart then Fits nand g ptn okStart.toNat
      else ¬HasSpace nand g ptn := by
  obtain ⟨r, hr, hwritten⟩ := writeToPtn_contiguous hmode run flash hfind
  have hresult : (∃ r, writeToPtn run nand g ptn fuel flash = some r ∧ Placed nand g ptn r) ↔
      Placed nand g ptn r := by
    rw [hr]
    exact ⟨fun ⟨_, h, hp⟩ => Option.some.inj h ▸ hp, fun hp => ⟨r, rfl, hp⟩⟩
  rw [hresult]
  split_ifs with henough
  · constructor
    · intro hplaced
      exact (hplaced.sound okStart _ ((hwritten _ _).mpr ⟨henough, rfl, rfl⟩)).2
    · intro hfits
      refine ⟨fun off len hw => ?_, iff_of_false (fun hno => ?_) (not_not.mpr ⟨_, hdvd, hfits⟩)⟩
      · obtain ⟨-, rfl, hlen⟩ := (hwritten off len).mp hw
        exact ⟨hlen, hfits⟩
      · exact hno okStart _ ((hwritten _ _).mpr ⟨henough, rfl, rfl⟩)
  · have hno : ∀ off len, ¬Written r off len := fun off len hw =>
      henough ((hwritten off len).mp hw).1
    constructor
    · intro hplaced
      exact hplaced.reported.mp hno
    · intro hspace
      exact ⟨fun off len hw => absurd hw (hno off len), iff_of_true hno hspace⟩

/-- The sum of the test for enough space may wrap. -/
theorem enoughSpace_blockAddr (h : Placeable nand g ptn)
    (hstop : ptn.start.toNat + ptn.length.toNat < 2 ^ 32) {c : Nat}
    (hc : c * nand.erasesize ≤ ptn.length.toNat) :
    enoughSpace g ptn (blockAddr nand ptn c) ↔
      c * nand.erasesize + g.downloadBytes.toNat ≤ ptn.length.toNat ∨
        2 ^ 32 ≤ ptn.start.toNat + c * nand.erasesize + g.downloadBytes.toNat := by
  have hd := h.fits
  have haddr : (blockAddr nand ptn c).toNat = ptn.start.toNat + c * nand.erasesize :=
    toNat_blockAddr (by omega)
  rw [enoughSpace, UInt32.le_iff_toNat_le, UInt32.toNat_add, UInt32.toNat_add, haddr]
  omega

/-- A place of the partition that a block has. -/
theorem fits_blockAddr_iff {c : Nat} :
    Fits nand g ptn (ptn.start.toNat + c * nand.erasesize) ↔
      c * nand.erasesize + g.downloadBytes.toNat ≤ ptn.length.toNat ∧
        NoBad nand (ptn.start.toNat + c * nand.erasesize)
          (ptn.start.toNat + c * nand.erasesize + g.downloadBytes.toNat) :=
  ⟨fun h => ⟨by have := h.le_stop; omega, h.good⟩, fun h => ⟨by omega, by omega, h.2⟩⟩

/-- The condition for a search that ends at block `c`. -/
theorem placed_at_iff (hmode : ContiguousMode g ptn) (h : Placeable nand g ptn)
    (hstop : ptn.start.toNat + ptn.length.toNat < 2 ^ 32) (run : RunCommand) (flash : Flash)
    {fuel c : Nat} (hc : c * nand.erasesize ≤ ptn.length.toNat)
    (hfind : findOkStart nand g ptn fuel ptn.start ptn.start = some (blockAddr nand ptn c)) :
    (∃ r, writeToPtn run nand g ptn fuel flash = some r ∧ Placed nand g ptn r) ↔
      if c * nand.erasesize + g.downloadBytes.toNat ≤ ptn.length.toNat then
        NoBad nand (ptn.start.toNat + c * nand.erasesize)
          (ptn.start.toNat + c * nand.erasesize + g.downloadBytes.toNat)
      else ptn.start.toNat + c * nand.erasesize + g.downloadBytes.toNat < 2 ^ 32 ∧
        ¬HasSpace nand g ptn := by
  have haddr : (blockAddr nand ptn c).toNat = ptn.start.toNat + c * nand.erasesize :=
    toNat_blockAddr (by omega)
  have hdvd : nand.erasesize ∣ (blockAddr nand ptn c).toNat := by
    rw [haddr]
    exact Nat.dvd_add h.start_dvd (Nat.dvd_mul_left _ _)
  rw [placed_iff hmode run flash hfind hdvd, haddr]
  simp only [enoughSpace_blockAddr h hstop hc, fits_blockAddr_iff]
  split_ifs with h1 h2 h3
  · exact and_iff_right h2
  · exact iff_of_false (fun hf => h2 hf.1) fun hf => absurd hf.1 (by omega)
  · omega
  · exact (and_iff_right (by omega)).symm

/-! ### Enough space -/

theorem blockStart_blockAddr (h : Placeable nand g ptn) (j : Nat) :
    blockStart nand (ptn.start.toNat + j * nand.erasesize) =
      ptn.start.toNat + j * nand.erasesize := by
  rw [blockStart, Nat.add_mul_mod_self_right, Nat.mod_eq_zero_of_dvd h.start_dvd, Nat.sub_zero]

theorem hasSpace_iff (h : Placeable nand g ptn) :
    HasSpace nand g ptn ↔ ∃ j, j * nand.erasesize + g.downloadBytes.toNat ≤ ptn.length.toNat ∧
      NoBad nand (ptn.start.toNat + j * nand.erasesize)
        (ptn.start.toNat + j * nand.erasesize + g.downloadBytes.toNat) := by
  constructor
  · rintro ⟨off, hdvd, hfits⟩
    obtain ⟨j, hj⟩ := (Nat.dvd_sub hdvd h.start_dvd : nand.erasesize ∣ off - ptn.start.toNat)
    have hoff : off = ptn.start.toNat + j * nand.erasesize := by
      have := hfits.start_le
      rw [Nat.mul_comm, ← hj]
      omega
    subst hoff
    exact ⟨j, fits_blockAddr_iff.mp hfits⟩
  · rintro ⟨j, hj⟩
    exact ⟨_, Nat.dvd_add h.start_dvd (Nat.dvd_mul_left _ _), fits_blockAddr_iff.mpr hj⟩

theorem good_of_noBad (h : Placeable nand g ptn) {i j stop : Nat} (hij : i ≤ j)
    (hno : NoBad nand (ptn.start.toNat + i * nand.erasesize) stop)
    (hj : ptn.start.toNat + j * nand.erasesize < stop) : Good nand ptn j := by
  have hgood := hno (ptn.start.toNat + j * nand.erasesize)
    (Nat.add_le_add_left (Nat.mul_le_mul_right _ hij) _) hj
  rwa [blockStart_blockAddr h] at hgood

/-- A download of at most one block needs one good block. -/
theorem noBad_iff_of_short (h : Placeable nand g ptn) (hshort : Short nand g) (j : Nat) :
    NoBad nand (ptn.start.toNat + j * nand.erasesize)
      (ptn.start.toNat + j * nand.erasesize + g.downloadBytes.toNat) ↔ Good nand ptn j := by
  have hpos := h.nonempty
  refine ⟨fun hno => good_of_noBad h le_rfl hno (by omega), fun hgood => ?_⟩
  refine noBad_block (by rwa [blockStart_blockAddr h]) ?_
  have hrest : nand.blockRest (ptn.start.toNat + j * nand.erasesize) = nand.erasesize := by
    rw [NandInfo.blockRest, Nat.add_mul_mod_self_right, Nat.mod_eq_zero_of_dvd h.start_dvd,
      Nat.sub_zero]
  rw [hrest]
  exact Nat.add_le_add_left hshort _

/-- A longer download needs two adjacent good blocks. -/
theorem adjacent_of_noBad (h : Placeable nand g ptn) (hlong : ¬Short nand g) {j : Nat}
    (hle : j * nand.erasesize + g.downloadBytes.toNat ≤ ptn.length.toNat)
    (hno : NoBad nand (ptn.start.toNat + j * nand.erasesize)
      (ptn.start.toNat + j * nand.erasesize + g.downloadBytes.toNat)) : Adjacent nand ptn j := by
  rw [Short, not_le] at hlong
  have hnext : (j + 1) * nand.erasesize = j * nand.erasesize + nand.erasesize := Nat.succ_mul _ _
  have hpos := h.nonempty
  exact ⟨good_of_noBad h le_rfl hno (by omega),
    good_of_noBad h (Nat.le_succ j) hno (by rw [hnext]; omega), by omega⟩

/-- For a download of at most one block, where the partition has more than one. -/
theorem hasSpace_of_good (h : Placeable nand g ptn) (hshort : Short nand g) {j : Nat}
    (hj : (j + 1) * nand.erasesize ≤ ptn.length.toNat) (hgood : Good nand ptn j) :
    HasSpace nand g ptn := by
  refine (hasSpace_iff h).mpr ⟨j, ?_, (noBad_iff_of_short h hshort j).mpr hgood⟩
  rw [Nat.succ_mul] at hj
  rw [Short] at hshort
  omega

variable (nand g ptn) in
/-- The pattern of bad blocks for which the search does what it is for. -/
def SearchRight : Prop :=
  if ptn.start.toNat + ptn.length.toNat = 2 ^ 32 then
    if g.downloadBytes = ptn.length then NoBad nand ptn.start.toNat (2 ^ 32)
    else ¬HasSpace nand g ptn
  else if Short nand g then
    if ptn.length.toNat = nand.erasesize then
      Good nand ptn 0 ∨
        ptn.start.toNat + ptn.length.toNat + g.downloadBytes.toNat < 2 ^ 32
    else Good nand ptn 1 ∨
      Good nand ptn 0 ∧ 2 * nand.erasesize < ptn.length.toNat ∧ Good nand ptn 2
  else
    (∀ i, Adjacent nand ptn i → (∀ j < i, ¬Adjacent nand ptn j) →
      if i * nand.erasesize + g.downloadBytes.toNat ≤ ptn.length.toNat then
        NoBad nand (ptn.start.toNat + i * nand.erasesize)
          (ptn.start.toNat + i * nand.erasesize + g.downloadBytes.toNat)
      else ptn.start.toNat + i * nand.erasesize + g.downloadBytes.toNat < 2 ^ 32) ∧
    ((∀ i, ¬Adjacent nand ptn i) →
      ptn.start.toNat + ptn.length.toNat + g.downloadBytes.toNat <
        2 ^ 32 + if Good nand ptn (ptn.length.toNat / nand.erasesize - 1)
          then nand.erasesize else 0)

theorem findOkStart_start (h : Placeable nand g ptn)
    (hstop : ptn.start.toNat + ptn.length.toNat < 2 ^ 32) {n fuel : Nat}
    (hn : n * nand.erasesize = ptn.length.toNat) (hfuel : n < fuel) :
    findOkStart nand g ptn fuel ptn.start ptn.start = some (blockAddr nand ptn
      (scanEnd (fun i => decide (Good nand ptn i)) (decide (Short nand g)) n 0 false)) := by
  have hscan := @findOkStart_scan nand g ptn h hstop n 0 fuel false (by rwa [Nat.zero_add]) hfuel
    Bool.noConfusion
  rwa [if_neg Bool.false_ne_true, blockAddr_zero] at hscan

theorem placed_of_short (hmode : ContiguousMode g ptn) (h : Placeable nand g ptn)
    (hstop : ptn.start.toNat + ptn.length.toNat < 2 ^ 32) (hshort : Short nand g)
    (run : RunCommand) (flash : Flash) {n fuel : Nat}
    (hn : (n + 1) * nand.erasesize = ptn.length.toNat) (hfuel : n + 1 < fuel) :
    (∃ r, writeToPtn run nand g ptn fuel flash = some r ∧ Placed nand g ptn r) ↔
      if n = 0 then Good nand ptn 0 ∨
        ptn.start.toNat + ptn.length.toNat + g.downloadBytes.toNat < 2 ^ 32
      else Good nand ptn 1 ∨ Good nand ptn 0 ∧ 1 < n ∧ Good nand ptn 2 := by
  have hfind := findOkStart_start h hstop hn hfuel
  have he := erasesize_pos nand
  have hd := h.nonempty
  have hshort' : g.downloadBytes.toNat ≤ nand.erasesize := hshort
  rw [decide_eq_true hshort, scanEnd_short] at hfind
  simp only [decide_eq_true_eq] at hfind
  by_cases h0 : Good nand ptn 0
  · rw [if_pos h0] at hfind
    by_cases h1 : n = 0 ∨ Good nand ptn 1
    · rw [if_pos h1] at hfind
      rw [placed_at_iff hmode h hstop run flash (by omega) hfind, if_pos (by
        rw [Nat.succ_mul] at hn
        omega), noBad_iff_of_short h hshort]
      split_ifs with hn0
      · exact iff_of_true h0 (.inl h0)
      · exact iff_of_true h0 (.inl (h1.resolve_left hn0))
    · rw [if_neg h1] at hfind
      rw [not_or] at h1
      have htwo : 2 * nand.erasesize ≤ ptn.length.toNat := by
        rw [← hn]
        exact Nat.mul_le_mul_right _ (by omega)
      rw [placed_at_iff hmode h hstop run flash htwo hfind, noBad_iff_of_short h hshort,
        if_neg h1.1]
      by_cases hthree : 1 < n
      · have hlen : 3 * nand.erasesize ≤ ptn.length.toNat := by
          rw [← hn]
          exact Nat.mul_le_mul_right _ (by omega)
        rw [if_pos (by omega)]
        exact ⟨fun h2 => .inr ⟨h0, hthree, h2⟩, fun hor => (hor.resolve_left h1.2).2.2⟩
      · obtain rfl : n = 1 := by omega
        rw [if_neg (by omega)]
        exact iff_of_false
          (fun hand => hand.2 (hasSpace_of_good h hshort (by omega) h0))
          fun hor => hthree (hor.resolve_left h1.2).2.1
  · rw [if_neg h0] at hfind
    have hone : 1 * nand.erasesize ≤ ptn.length.toNat := by
      rw [← hn]
      exact Nat.mul_le_mul_right _ (by omega)
    rw [placed_at_iff hmode h hstop run flash hone hfind, noBad_iff_of_short h hshort]
    by_cases hn0 : n = 0
    · subst hn0
      have hspace : ¬HasSpace nand g ptn := by
        rw [hasSpace_iff h]
        rintro ⟨j, hle, hno⟩
        obtain rfl | hj := Nat.eq_zero_or_pos j
        · exact h0 ((noBad_iff_of_short h hshort 0).mp hno)
        · have := Nat.le_mul_of_pos_left nand.erasesize hj
          omega
      rw [if_neg (by omega), if_pos rfl, or_iff_right h0, and_iff_left hspace]
      omega
    · have hlen : 2 * nand.erasesize ≤ ptn.length.toNat := by
        rw [← hn]
        exact Nat.mul_le_mul_right _ (by omega)
      rw [if_pos (by omega), if_neg hn0]
      exact ⟨.inl, fun hor => hor.resolve_right fun hand => h0 hand.1⟩

/-- Two adjacent blocks of a partition of `n` blocks. -/
theorem pair_iff_adjacent {n j : Nat} (hn : n * nand.erasesize = ptn.length.toNat) :
    Pair (fun i => decide (Good nand ptn i)) n j ↔ Adjacent nand ptn j := by
  rw [Pair, Adjacent, ← hn, Nat.mul_lt_mul_right (erasesize_pos nand), decide_eq_true_eq,
    decide_eq_true_eq]

theorem placed_of_long (hmode : ContiguousMode g ptn) (h : Placeable nand g ptn)
    (hstop : ptn.start.toNat + ptn.length.toNat < 2 ^ 32) (hlong : ¬Short nand g)
    (run : RunCommand) (flash : Flash) {n fuel : Nat}
    (hn : n * nand.erasesize = ptn.length.toNat) (hfuel : n < fuel) :
    (∃ r, writeToPtn run nand g ptn fuel flash = some r ∧ Placed nand g ptn r) ↔
      (∀ i, Adjacent nand ptn i → (∀ j < i, ¬Adjacent nand ptn j) →
        if i * nand.erasesize + g.downloadBytes.toNat ≤ ptn.length.toNat then
          NoBad nand (ptn.start.toNat + i * nand.erasesize)
            (ptn.start.toNat + i * nand.erasesize + g.downloadBytes.toNat)
        else ptn.start.toNat + i * nand.erasesize + g.downloadBytes.toNat < 2 ^ 32) ∧
      ((∀ i, ¬Adjacent nand ptn i) →
        ptn.start.toNat + ptn.length.toNat + g.downloadBytes.toNat <
          2 ^ 32 + if Good nand ptn (n - 1) then nand.erasesize else 0) := by
  have hfind := findOkStart_start h hstop hn hfuel
  have hends := @scanEnd_long (fun i => decide (Good nand ptn i)) n n 0 false (Nat.zero_add n)
    (fun h0 => absurd h0 (Nat.lt_irrefl 0)) fun _ => rfl
  have hspace : HasSpace nand g ptn → ∃ i, Adjacent nand ptn i ∧
      i * nand.erasesize + g.downloadBytes.toNat ≤ ptn.length.toNat := by
    intro hs
    obtain ⟨j, hle, hno⟩ := (hasSpace_iff h).mp hs
    exact ⟨j, adjacent_of_noBad h hlong hle hno, hle⟩
  rw [decide_eq_false hlong] at hfind
  rw [if_neg Bool.false_ne_true] at hends
  obtain ⟨-, hpair, hbefore⟩ | ⟨hnone, hlast⟩ := hends
  · generalize scanEnd (fun i => decide (Good nand ptn i)) false n 0 false = c at *
    have hadj : Adjacent nand ptn c := (pair_iff_adjacent hn).mp hpair
    have hfirst : ∀ j < c, ¬Adjacent nand ptn j := fun j hj hj' =>
      hbefore j (Nat.zero_le j) hj ((pair_iff_adjacent hn).mpr hj')
    have hc : c * nand.erasesize ≤ ptn.length.toNat :=
      Nat.le_trans (Nat.mul_le_mul_right _ (Nat.le_succ c)) hadj.2.2.le
    have honly : ∀ i, Adjacent nand ptn i → (∀ j < i, ¬Adjacent nand ptn j) → i = c := by
      intro i hi hbefore'
      obtain hlt | heq | hgt := Nat.lt_trichotomy i c
      · exact absurd hi (hfirst i hlt)
      · exact heq
      · exact absurd hadj (hbefore' c hgt)
    have hnospace : ¬c * nand.erasesize + g.downloadBytes.toNat ≤ ptn.length.toNat →
        ¬HasSpace nand g ptn := by
      intro hover hs
      obtain ⟨i, hi, hle⟩ := hspace hs
      have hci : c ≤ i := Nat.le_of_not_lt fun hlt => hfirst i hlt hi
      have := Nat.mul_le_mul_right nand.erasesize hci
      omega
    rw [placed_at_iff hmode h hstop run flash hc hfind]
    constructor
    · refine fun hright => ⟨fun i hi hbefore' => ?_, fun hno => absurd hadj (hno c)⟩
      obtain rfl := honly i hi hbefore'
      split_ifs at hright ⊢ with hle
      · exact hright
      · exact hright.1
    · rintro ⟨hright, -⟩
      have hat := hright c hadj hfirst
      split_ifs at hat ⊢ with hle
      · exact hat
      · exact ⟨hat, hnospace hle⟩
  · have hno : ∀ i, ¬Adjacent nand ptn i := fun i hi =>
      hnone i (Nat.zero_le i) ((pair_iff_adjacent hn).mpr hi)
    have hnospace : ¬HasSpace nand g ptn := fun hs => (hspace hs).elim fun i hi => hno i hi.1
    have hnonempty := h.nonempty
    have hfits := h.fits
    have hpos : 0 < n := Nat.pos_of_ne_zero fun h0 => by
      rw [h0] at hn
      omega
    have hprev : (n - 1) * nand.erasesize + nand.erasesize = ptn.length.toNat := by
      rw [← hn, ← Nat.succ_mul, Nat.succ_eq_add_one, Nat.sub_add_cancel hpos]
    rw [Short, not_le] at hlong
    rw [hlast hpos] at hfind
    rw [and_iff_right fun i hi => absurd hi (hno i)]
    simp only [decide_eq_true_eq] at hfind
    by_cases hgood : Good nand ptn (n - 1)
    · rw [if_pos hgood] at hfind
      rw [placed_at_iff hmode h hstop run flash (by omega) hfind, if_neg (by omega),
        and_iff_left hnospace, if_pos hgood]
      exact ⟨fun hlt _ => by omega, fun hlt => by
        have := hlt hno
        omega⟩
    · rw [if_neg hgood] at hfind
      rw [placed_at_iff hmode h hstop run flash hn.le hfind, if_neg (by omega),
        and_iff_left hnospace, if_neg hgood]
      exact ⟨fun hlt _ => by omega, fun hlt => by
        have := hlt hno
        omega⟩

theorem end_wrap (hstop : ptn.start.toNat + ptn.length.toNat = 2 ^ 32) :
    ptn.start + ptn.length = 0 := by
  apply UInt32.toNat_inj.mp
  rw [UInt32.toNat_add, hstop]
  rfl

/-- A partition that ends at 4 GiB is not searched. -/
theorem findOkStart_wrap (hstop : ptn.start.toNat + ptn.length.toNat = 2 ^ 32) {fuel : Nat}
    (hfuel : 0 < fuel) : findOkStart nand g ptn fuel ptn.start ptn.start = some ptn.start := by
  obtain ⟨fuel, rfl⟩ := Nat.exists_eq_succ_of_ne_zero (Nat.ne_of_gt hfuel)
  have hoff : ¬ptn.start < 0 := by
    rw [UInt32.lt_iff_toNat_lt]
    exact Nat.not_lt_zero _
  rw [findOkStart, end_wrap hstop, if_neg hoff]

theorem enoughSpace_wrap (h : Placeable nand g ptn)
    (hstop : ptn.start.toNat + ptn.length.toNat = 2 ^ 32) :
    enoughSpace g ptn ptn.start ↔ g.downloadBytes = ptn.length := by
  have hnonempty := h.nonempty
  have hfits := h.fits
  have hstart := ptn.start.toNat_lt
  rw [enoughSpace, end_wrap hstop, UInt32.le_iff_toNat_le, UInt32.toNat_add, UInt32.toNat_zero,
    ← UInt32.toNat_inj]
  omega

theorem placed_of_wrap (hmode : ContiguousMode g ptn) (h : Placeable nand g ptn)
    (hstop : ptn.start.toNat + ptn.length.toNat = 2 ^ 32) (run : RunCommand) (flash : Flash)
    {fuel : Nat} (hfuel : 0 < fuel) :
    (∃ r, writeToPtn run nand g ptn fuel flash = some r ∧ Placed nand g ptn r) ↔
      if g.downloadBytes = ptn.length then NoBad nand ptn.start.toNat (2 ^ 32)
      else ¬HasSpace nand g ptn := by
  rw [placed_iff hmode run flash (findOkStart_wrap hstop hfuel) h.start_dvd]
  simp only [enoughSpace_wrap h hstop]
  split_ifs with hall
  · have hlen : ptn.start.toNat + g.downloadBytes.toNat = 2 ^ 32 := by rw [hall, hstop]
    rw [← hlen]
    exact ⟨fun hf => hf.good, fun hno => ⟨le_rfl, by omega, hno⟩⟩
  · rfl

/-- The search finds a contiguous block, and tells when there is none, exactly for
the patterns of bad blocks that let it: where a wrong place does not matter. -/
theorem writeToPtn_placed_iff (hmode : ContiguousMode g ptn) (h : Placeable nand g ptn)
    (run : RunCommand) (flash : Flash) {fuel : Nat}
    (hfuel : ptn.length.toNat / nand.erasesize < fuel) :
    (∃ r, writeToPtn run nand g ptn fuel flash = some r ∧ Placed nand g ptn r) ↔
      SearchRight nand g ptn := by
  have he := erasesize_pos nand
  have hn : ptn.length.toNat / nand.erasesize * nand.erasesize = ptn.length.toNat :=
    Nat.div_mul_cancel h.length_dvd
  rw [SearchRight]
  by_cases hwrap : ptn.start.toNat + ptn.length.toNat = 2 ^ 32
  · rw [if_pos hwrap]
    exact placed_of_wrap hmode h hwrap run flash (Nat.lt_of_le_of_lt (Nat.zero_le _) hfuel)
  · have hstop : ptn.start.toNat + ptn.length.toNat < 2 ^ 32 := Nat.lt_of_le_of_ne h.inside hwrap
    rw [if_neg hwrap]
    by_cases hshort : Short nand g
    · have hnonempty := h.nonempty
      have hfits := h.fits
      obtain ⟨n, hsucc⟩ : ∃ n, ptn.length.toNat / nand.erasesize = n + 1 :=
        Nat.exists_eq_succ_of_ne_zero fun h0 => by
          rw [h0] at hn
          omega
      rw [hsucc] at hn hfuel
      have hzero : n = 0 ↔ ptn.length.toNat = nand.erasesize := by
        rw [← hn, Nat.succ_mul, Nat.add_eq_right, Nat.mul_eq_zero, or_iff_left he.ne']
      have htwo : 1 < n ↔ 2 * nand.erasesize < ptn.length.toNat := by
        rw [← hn, Nat.mul_lt_mul_right he]
        omega
      rw [if_pos hshort, placed_of_short hmode h hstop hshort run flash hn hfuel]
      simp only [hzero, htwo]
    · rw [if_neg hshort]
      exact placed_of_long hmode h hstop hshort run flash hn hfuel

end

/-! ### A bad block behind the first one -/

/-- A chip of four blocks of two bytes, of which one is bad. -/
def fourBlocks (bad : Nat) : NandInfo where
  size := 8
  erasesize := 2
  writesize := 1
  bad := fun addr => addr = bad
  writesize_pos := Nat.one_pos
  writesize_dvd := by decide
  erasesize_pow := ⟨1, by decide, rfl⟩
  size_dvd := by decide

/-- A download of five bytes for a partition with the whole chip. -/
def fiveBytes : Gadget where
  nandBlockSize := 1
  nandCurrDevice := 0
  downloadBytes := 5
  downloadBytesUnpadded := 5
  lockUnlock := false
  trimffs := false

def wholeChip : PtEntry := ⟨0, 8, WRITE_CONTIGUOUS_BLOCK⟩

theorem wholeChip_mode : ContiguousMode fiveBytes wholeChip :=
  ⟨by decide, by decide, by decide, rfl⟩

theorem wholeChip_placeable (bad : Nat) : Placeable (fourBlocks bad) fiveBytes wholeChip :=
  ⟨⟨0, rfl⟩, ⟨4, rfl⟩, by decide, by decide, by decide⟩

/-- Commands that succeed and change nothing. -/
def runNothing : RunCommand := fun _ flash => (0, flash)

/-- Three good blocks are in front of the bad one. -/
theorem searchRight_last : SearchRight (fourBlocks 6) fiveBytes wholeChip := by
  have hadj : Adjacent (fourBlocks 6) wholeChip 0 := ⟨rfl, rfl, by decide⟩
  rw [SearchRight, if_neg (by decide), if_neg (by decide)]
  refine ⟨fun i _ hbefore => ?_, fun hno => absurd hadj (hno 0)⟩
  obtain rfl : i = 0 := Nat.eq_zero_of_not_pos fun hpos => hbefore 0 hpos hadj
  rw [if_pos (by decide)]
  intro q _ hq
  have hlt : q < 5 := hq
  interval_cases q <;> rfl

theorem writeToPtn_placed_last :
    ∃ r, writeToPtn runNothing (fourBlocks 6) fiveBytes wholeChip 5 (fun _ => 0) = some r ∧
      Placed (fourBlocks 6) fiveBytes wholeChip r :=
  (writeToPtn_placed_iff wholeChip_mode (wholeChip_placeable 6) runNothing (fun _ => 0)
    (by decide)).mpr searchRight_last

/-- The third block is bad, and the download is written over it. -/
theorem written_over_bad_block :
    ¬∀ (nand : NandInfo) (g : Gadget) (ptn : PtEntry) (run : RunCommand) (flash : Flash)
        (fuel : Nat), ContiguousMode g ptn → Placeable nand g ptn →
        ptn.length.toNat / nand.erasesize < fuel →
      ∃ r, writeToPtn run nand g ptn fuel flash = some r ∧ Placed nand g ptn r := by
  intro claim
  obtain ⟨r, hr, hplaced⟩ := claim (fourBlocks 4) fiveBytes wholeChip runNothing (fun _ => 0) 5
    wholeChip_mode (wholeChip_placeable 4) (by decide)
  have hfind : findOkStart (fourBlocks 4) fiveBytes wholeChip 5 0 0 = some 0 := by decide
  obtain ⟨r', hr', hwritten⟩ := writeToPtn_contiguous wholeChip_mode runNothing (fun _ => 0) hfind
  obtain rfl := Option.some.inj (hr.symm.trans hr')
  have hfits := (hplaced.sound 0 5 ((hwritten 0 5).mpr ⟨by decide, rfl, rfl⟩)).2
  exact Bool.noConfusion (hfits.good 4 (by decide) (by decide))

end UBoot.Fastboot.Ptn
