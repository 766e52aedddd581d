import UBoot.Fastboot.Contiguous
import UBoot.Fastboot.NandCommand

/-!
# The ranges of the commands

A partition may be followed by copies of itself, and `write_to_ptn` repeats the
erase and the write for each of them. Every erase has the length of all copies
together, so that the second one already goes beyond the last copy, and every
write skips the bad blocks that it meets, beyond the copy too. What a copy holds
does not suffer from the erases: a repetition starts behind the earlier copies.
-/

namespace UBoot.Fastboot.Ptn

open Verification UBoot.Nand

section

variable (nand : NandInfo) (g : Gadget) (ptn : PtEntry)

/-- Where a copy starts. -/
def slot (k : Nat) : Nat := ptn.start.toNat + k * ptn.length.toNat

/-- What the partition and the download are known to be. -/
structure Repeatable : Prop extends Placeable nand g ptn where
  unpadded_le : g.downloadBytesUnpadded.toNat ≤ g.downloadBytes.toNat
  padded : g.nandBlockSize ≠ 0 → g.nandBlockSize.toNat ∣ g.downloadBytes.toNat
  slots : slot ptn (repeatMax ptn).toNat ≤ 2 ^ 32
  device : slot ptn (repeatMax ptn).toNat ≤ nand.size

/-- The bytes that are written for a copy. -/
def copyLength : UInt32 :=
  if ptn.has WRITE_NEXT_GOOD_BLOCK ∨ ptn.has WRITE_CONTIGUOUS_BLOCK then g.downloadBytes
  else writeLength g ptn

/-- A copy holds the download in its good blocks. Only the search for a contiguous
block may put it behind the start of the copy. -/
def Copied (buffer : Ptr) (flash : Flash) (k : Nat) : Prop :=
  ∃ place pieces stop, slot ptn k ≤ place ∧
    (ptn.has WRITE_CONTIGUOUS_BLOCK ∨ place = slot ptn k) ∧
    Walk nand place (copyLength g ptn).toNat pieces stop ∧ stop ≤ slot ptn (k + 1) ∧
    gather flash pieces = buffer.bytes (copyLength g ptn).toNat

/-- Every command erases and programs only in the copies. -/
def Confined (r : Progress) : Prop :=
  ∀ c, .command c ∈ r.log → ∀ a, c.Touches nand a →
    ptn.start.toNat ≤ a ∧ a < slot ptn (repeatMax ptn).toNat

/-- What a call ought to do. -/
structure Repeats (buffer : Ptr) (flash : Flash) (r : Progress) : Prop where
  confined : Confined nand ptn r
  kept : ∀ a, ¬(ptn.start.toNat ≤ a ∧ a < slot ptn (repeatMax ptn).toNat) → r.flash a = flash a
  copied : r.ret = 0 → ∀ k < (repeatMax ptn).toNat, Copied nand g ptn buffer r.flash k

/-- The erase of copy `k` is empty or refused, or all blocks behind the copies that it covers
are bad. -/
def EraseRight (k : Nat) : Prop :=
  ptn.length * repeatMax ptn = 0 ∨ nand.size < slot ptn (k + (repeatMax ptn).toNat) ∨
    ∀ a, slot ptn (repeatMax ptn).toNat ≤ a → a < slot ptn (k + (repeatMax ptn).toNat) →
      nand.bad (blockStart nand a) = true

/-- The repetitions are right if those that are reached are: repetition `k` is reached if
what is written for the copies before it stays in the device. If all of them are, the
erases are not empty. -/
def RoundsRight (Stay Right : Nat → Prop) : Prop :=
  ((∀ j < (repeatMax ptn).toNat, Stay j) → ptn.length * repeatMax ptn ≠ 0) ∧
    ∀ k < (repeatMax ptn).toNat, (∀ j < k, Stay j) → EraseRight nand ptn k ∧ Right k

/-- The normal write of copy `k` stays in the device. -/
def NormalStays (k : Nat) : Prop := Stays nand (slot ptn k) (writeLength g ptn).toNat

/-- The normal write of copy `k` ends in the copies, and in its own one if no copy is
refused. -/
def NormalRight (k : Nat) : Prop :=
  EndsBy nand (slot ptn k) (writeLength g ptn).toNat (slot ptn (repeatMax ptn).toNat) ∧
    ((∀ j < (repeatMax ptn).toNat, NormalStays nand g ptn j) →
      EndsBy nand (slot ptn k) (writeLength g ptn).toNat (slot ptn (k + 1)))

/-- Where a block of a copy goes, if it is good. -/
def chunkAt (k i : Nat) : Nat := slot ptn k + i * g.nandBlockSize.toNat

/-- The number of blocks of a copy. -/
def chunks : Nat := (g.downloadBytes / g.nandBlockSize).toNat

def ChunksStay (k : Nat) : Prop :=
  ∀ i < chunks g, Stays nand (chunkAt g ptn k i) g.nandBlockSize.toNat

/-- The blocks of copy `k` end in the copies. If no copy is refused, they end in their own
one, and all but the last are written where they belong, so that no other one follows them
to the next good block. -/
def ChunksRight (k : Nat) : Prop :=
  ∀ i < chunks g, (∀ j < i, Stays nand (chunkAt g ptn k j) g.nandBlockSize.toNat) →
    EndsBy nand (chunkAt g ptn k i) g.nandBlockSize.toNat (slot ptn (repeatMax ptn).toNat) ∧
      ((∀ j < (repeatMax ptn).toNat, ChunksStay nand g ptn j) →
        EndsBy nand (chunkAt g ptn k i) g.nandBlockSize.toNat (slot ptn (k + 1)) ∧
          (i + 1 < chunks g → NoBad nand (chunkAt g ptn k i) (chunkAt g ptn k (i + 1))))

def SearchEnd (c : Nat) : Prop :=
  if Short nand g then
    c = if Good nand ptn 0 then
      if ptn.length.toNat / nand.erasesize = 1 ∨ Good nand ptn 1 then 0 else 2 else 1
  else EndsAt (fun i => decide (Good nand ptn i)) (ptn.length.toNat / nand.erasesize) 0 c

/-- What is written at the place that the search finds, if there seems to be enough space
behind it, ends in the partition. -/
def PlaceRight : Prop :=
  if ptn.start.toNat + ptn.length.toNat = 2 ^ 32 then
    g.downloadBytes = ptn.length →
      EndsBy nand ptn.start.toNat g.downloadBytes.toNat (slot ptn 1)
  else ∀ c, SearchEnd nand g ptn c →
    c * nand.erasesize + g.downloadBytes.toNat ≤ ptn.length.toNat ∨
        2 ^ 32 ≤ ptn.start.toNat + c * nand.erasesize + g.downloadBytes.toNat →
      EndsBy nand (ptn.start.toNat + c * nand.erasesize) g.downloadBytes.toNat (slot ptn 1)

/-- The partitions and bad blocks for which a call does what it ought to do. -/
def RangesRight : Prop :=
  if ptn.has WRITE_NEXT_GOOD_BLOCK ∧ ptn.has WRITE_CONTIGUOUS_BLOCK then True
  else if ptn.has WRITE_NEXT_GOOD_BLOCK then
    g.nandBlockSize = 0 ∨
      RoundsRight nand ptn (ChunksStay nand g ptn) (ChunksRight nand g ptn)
  else if ptn.has WRITE_CONTIGUOUS_BLOCK then
    g.nandBlockSize = 0 ∨ g.nandCurrDevice ≠ 0 ∨ PlaceRight nand g ptn
  else RoundsRight nand ptn (NormalStays nand g ptn) (NormalRight nand g ptn)

end

section

variable {run : RunCommand} {nand : NandInfo} {g : Gadget} {ptn : PtEntry} {buffer : Ptr}

theorem slot_zero : slot ptn 0 = ptn.start.toNat := by
  rw [slot, Nat.zero_mul, Nat.add_zero]

theorem slot_succ (k : Nat) : slot ptn (k + 1) = slot ptn k + ptn.length.toNat := by
  rw [slot, slot, Nat.succ_mul, Nat.add_assoc]

theorem slot_mono {j k : Nat} (h : j ≤ k) : slot ptn j ≤ slot ptn k :=
  Nat.add_le_add_left (Nat.mul_le_mul_right _ h) _

theorem slot_start_le (k : Nat) : ptn.start.toNat ≤ slot ptn k := Nat.le_add_right _ _

theorem slot_dvd (h : Repeatable nand g ptn) (k : Nat) : nand.erasesize ∣ slot ptn k :=
  Nat.dvd_add h.start_dvd (h.length_dvd.mul_left k)

theorem Repeatable.length_pos (h : Repeatable nand g ptn) : 0 < ptn.length.toNat :=
  Nat.lt_of_lt_of_le h.nonempty h.fits

/-- The start of a copy as the code computes it. -/
theorem toNat_base (h : Repeatable nand g ptn) {k : Nat} (hk : k < (repeatMax ptn).toNat) :
    (ptn.start + UInt32.ofNat k * ptn.length).toNat = slot ptn k := by
  have hk32 : k < 2 ^ 32 := Nat.lt_trans hk (repeatMax ptn).toNat_lt
  have hlt : slot ptn k < 2 ^ 32 := by
    have hle := Nat.le_trans (slot_mono (Nat.succ_le_of_lt hk)) h.slots
    have hpos := h.length_pos
    rw [slot_succ] at hle
    omega
  rw [slot] at hlt ⊢
  rw [UInt32.toNat_add, UInt32.toNat_mul, UInt32.toNat_ofNat', Nat.mod_eq_of_lt hk32,
    Nat.mod_eq_of_lt (a := k * _) (by omega), Nat.mod_eq_of_lt hlt]

/-- The length of an erase is that of all copies, unless these fill 4 GiB. -/
theorem toNat_eraseLength (h : Repeatable nand g ptn) (hne : ptn.length * repeatMax ptn ≠ 0) :
    (ptn.length * repeatMax ptn).toNat = (repeatMax ptn).toNat * ptn.length.toNat := by
  have hslots := h.slots
  have hne' : (ptn.length * repeatMax ptn).toNat ≠ 0 := fun h0 => hne (UInt32.toNat_inj.mp h0)
  rw [slot] at hslots
  rw [UInt32.toNat_mul, Nat.mul_comm] at hne' ⊢
  refine Nat.mod_eq_of_lt (Nat.lt_of_le_of_ne (by omega) fun heq => hne' ?_)
  rw [heq, Nat.mod_self]

theorem mem_log_command {c c' : Command} {s : Progress} :
    .command c ∈ (s.command run c').log ↔ .command c ∈ s.log ∨ c = c' := by
  simp [Progress.command]

theorem mem_log_write {c c' : Command} {s : Progress} :
    .command c ∈ (s.write run c').log ↔ .command c ∈ s.log ∨ c = c' := by
  simp [Progress.write]

theorem mem_log_save {c : Command} {offset size : UInt32} {s : Progress} :
    .command c ∈ (s.save offset size).log ↔ .command c ∈ s.log := by
  simp [Progress.save]

/-- A command erases and programs only in a part of the flash. -/
def Command.Inside (nand : NandInfo) (low high : Nat) (c : Command) : Prop :=
  ∀ a, c.Touches nand a → low ≤ a ∧ a < high

theorem Command.Inside.mono {low low' high high' : Nat} {c : Command}
    (h : c.Inside nand low high) (hlow : low' ≤ low) (hhigh : high ≤ high') :
    c.Inside nand low' high' :=
  fun a ha => ⟨Nat.le_trans hlow (h a ha).1, Nat.lt_of_lt_of_le (h a ha).2 hhigh⟩

/-- A write programs only behind its start, and in front of where it may end. -/
theorem inside_of_endsBy {type : WriteType} {src off len : UInt32} {high : Nat}
    (h : EndsBy nand off.toNat len.toNat high) :
    Command.Inside nand off.toNat high (.write type src off len) := by
  rintro a ⟨pieces, stop, hwalk, hsize, p, hp, hge, hlt⟩
  have hin := hwalk.inside p hp
  have hend := (h pieces stop hwalk hsize).1
  exact ⟨by omega, by omega⟩

theorem slot_add (k m : Nat) : slot ptn (k + m) = slot ptn k + m * ptn.length.toNat := by
  rw [slot, slot, Nat.add_mul, Nat.add_assoc]

/-! ### One repetition -/

/-- An earlier copy survives what happens behind it. -/
theorem Copied.congr {flash flash' : Flash} {k : Nat} (h : Copied nand g ptn buffer flash k)
    (hsame : ∀ a < slot ptn (k + 1), flash' a = flash a) :
    Copied nand g ptn buffer flash' k := by
  obtain ⟨place, pieces, stop, hlow, hplace, hwalk, hhigh, hdata⟩ := h
  refine ⟨place, pieces, stop, hlow, hplace, hwalk, hhigh, ?_⟩
  rw [← hdata]
  apply List.flatMap_congr
  intro p hp
  apply Ptr.bytes_congr
  intro i hi
  have hin := hwalk.inside p hp
  exact hsame _ (by omega)

/-- An erase that is right stays in the copies. -/
theorem erase_inside (h : Repeatable nand g ptn) {k : Nat} (hk : k < (repeatMax ptn).toNat)
    (hright : EraseRight nand ptn k) :
    Command.Inside nand (slot ptn k) (slot ptn (repeatMax ptn).toNat)
      (.erase (ptn.start + UInt32.ofNat k * ptn.length) (ptn.length * repeatMax ptn)) := by
  rintro a ⟨hrefused, hge, hlt, hgood⟩
  rw [toNat_base h hk] at hge hlt
  by_cases hzero : ptn.length * repeatMax ptn = 0
  · rw [hzero, UInt32.toNat_zero] at hlt
    omega
  · rw [Refused, not_or, toNat_base h hk, toNat_eraseLength h hzero] at hrefused
    rw [toNat_eraseLength h hzero] at hlt
    obtain hsize | hbad := hright.resolve_left hzero
    · rw [slot_add] at hsize
      omega
    · refine ⟨hge, Nat.lt_of_not_le fun hle => ?_⟩
      rw [hbad a hle (by rwa [slot_add])] at hgood
      exact Bool.noConfusion hgood

/-- The commands so far stay in the copies, what is outside of them is kept, and the first
`k` copies have been accepted. If every copy is, they are complete, and the others erased. -/
structure RoundInv (nand : NandInfo) (g : Gadget) (ptn : PtEntry) (buffer : Ptr) (flash : Flash)
    (Stay : Nat → Prop) (k : Nat) (s : Progress) : Prop where
  first : k = 0 → s.ret = 1
  confined : Confined nand ptn s
  kept : ∀ a, ¬(ptn.start.toNat ≤ a ∧ a < slot ptn (repeatMax ptn).toNat) → s.flash a = flash a
  stay : ∀ j < k, Stay j
  copied : (∀ j < (repeatMax ptn).toNat, Stay j) → ∀ j < k, Copied nand g ptn buffer s.flash j
  erased : (∀ j < (repeatMax ptn).toNat, Stay j) → 0 < k →
    Erased nand s.flash (slot ptn k) (slot ptn (repeatMax ptn).toNat)

section

variable {flash : Flash} {Stay : Nat → Prop} {k : Nat} {s : Progress}

/-- What happens from the start of copy `k` on keeps the invariant. -/
theorem RoundInv.step {s' : Progress} (hs : RoundInv nand g ptn buffer flash Stay k s)
    (hret : s'.ret = s.ret)
    (hlog : ∀ c, .command c ∈ s'.log →
      .command c ∈ s.log ∨ c.Inside nand (slot ptn k) (slot ptn (repeatMax ptn).toNat))
    (hframe : ∀ a, ¬(slot ptn k ≤ a ∧ a < slot ptn (repeatMax ptn).toNat) →
      s'.flash a = s.flash a)
    (herased : (∀ j < (repeatMax ptn).toNat, Stay j) → 0 < k →
      Erased nand s'.flash (slot ptn k) (slot ptn (repeatMax ptn).toNat)) :
    RoundInv nand g ptn buffer flash Stay k s' where
  first h0 := hret.trans (hs.first h0)
  confined c hmem := by
    obtain hold | hin := hlog c hmem
    · exact hs.confined c hold
    · exact hin.mono (slot_start_le k) le_rfl
  kept a ha := by
    have hstart := @slot_start_le ptn k
    rw [hframe a fun hin => ha ⟨by omega, hin.2⟩, hs.kept a ha]
  stay := hs.stay
  copied hall j hj := by
    refine (hs.copied hall j hj).congr fun a ha => hframe a fun hin => ?_
    exact absurd (Nat.lt_of_lt_of_le ha (slot_mono (Nat.succ_le_of_lt hj))) (by omega)
  erased := herased

/-- Locking and unlocking changes no byte. -/
theorem RoundInv.ifCommand {c : Command} (hs : RoundInv nand g ptn buffer flash Stay k s)
    (p : Bool) (hc : ∀ flash, (run c flash).2 = flash) (htouches : ∀ a, ¬c.Touches nand a) :
    RoundInv nand g ptn buffer flash Stay k (if p then s.command run c else s) := by
  split_ifs
  · refine hs.step rfl (fun c' hmem => ?_) (fun a _ => congrFun (hc s.flash) a)
      fun hall hpos => ?_
    · obtain hold | rfl := mem_log_command.mp hmem
      · exact .inl hold
      · exact .inr fun a ha => absurd ha (htouches a)
    · have hsame : (s.command run c).flash = s.flash := hc s.flash
      rw [hsame]
      exact hs.erased hall hpos
  · exact hs

/-- The erase keeps the invariant, and the copies from `k` on are erased behind it. -/
theorem RoundInv.erase (hs : RoundInv nand g ptn buffer flash Stay k s)
    (h : Repeatable nand g ptn) (hrun : Runs nand buffer run) (hk : k < (repeatMax ptn).toNat)
    (hright : EraseRight nand ptn k)
    (hne : (∀ j < (repeatMax ptn).toNat, Stay j) → ptn.length * repeatMax ptn ≠ 0) :
    let s' := s.command run
      (.erase (ptn.start + UInt32.ofNat k * ptn.length) (ptn.length * repeatMax ptn))
    RoundInv nand g ptn buffer flash Stay k s' ∧
      ((∀ j < (repeatMax ptn).toNat, Stay j) →
        Erased nand s'.flash (slot ptn k) (slot ptn (repeatMax ptn).toNat)) := by
  intro s'
  have hin := erase_inside h hk hright
  have hoff : nand.erasesize ∣ (ptn.start + UInt32.ofNat k * ptn.length).toNat := by
    rw [toNat_base h hk]
    exact slot_dvd h k
  have hlen : nand.erasesize ∣ (ptn.length * repeatMax ptn).toNat := by
    rw [UInt32.toNat_mul]
    exact (Nat.dvd_mod_iff (erasesize_dvd nand)).mpr (h.length_dvd.mul_right _)
  have herased : (∀ j < (repeatMax ptn).toNat, Stay j) →
      Erased nand s'.flash (slot ptn k) (slot ptn (repeatMax ptn).toNat) := by
    intro hall q hge hlt hgood
    by_cases htouch : Command.Touches nand q
      (.erase (ptn.start + UInt32.ofNat k * ptn.length) (ptn.length * repeatMax ptn))
    · exact hrun.erase _ _ _ _ hoff hlen htouch
    · -- only a later erase can be refused, and the blocks are erased already
      refine (hrun.erase_frame _ _ _ _ hoff hlen htouch).trans
        (hs.erased hall (Nat.pos_of_ne_zero ?_) q hge hlt hgood)
      rintro rfl
      have hdevice := h.device
      have hslot := @slot_add ptn 0 (repeatMax ptn).toNat
      rw [Nat.zero_add] at hslot
      refine htouch ⟨?_, ?_⟩
      · rw [Refused, toNat_base h hk, toNat_eraseLength h (hne hall)]
        have := @slot_succ ptn 0
        have := h.length_pos
        have := Nat.le_mul_of_pos_left ptn.length.toNat hk
        omega
      · rw [toNat_base h hk, toNat_eraseLength h (hne hall)]
        exact ⟨hge, by omega, hgood⟩
  refine ⟨hs.step rfl (fun c hmem => ?_) (fun a ha => ?_) fun hall _ => herased hall, herased⟩
  · obtain hold | rfl := mem_log_command.mp hmem
    · exact .inl hold
    · exact .inr hin
  · exact hrun.erase_frame _ _ _ _ hoff hlen fun htouch => ha (hin a htouch)

/-- What the writes of copy `k` do from `s` on. -/
structure Copies (nand : NandInfo) (g : Gadget) (ptn : PtEntry) (buffer : Ptr)
    (Stay : Nat → Prop) (k : Nat) (s s' : Progress) : Prop where
  log : ∀ c, .command c ∈ s'.log →
    .command c ∈ s.log ∨ c.Inside nand (slot ptn k) (slot ptn (repeatMax ptn).toNat)
  frame : ∀ a, ¬(slot ptn k ≤ a ∧ a < slot ptn (repeatMax ptn).toNat) → s'.flash a = s.flash a
  done : s'.ret = 0 → Stay k ∧ ((∀ j < (repeatMax ptn).toNat, Stay j) →
    Copied nand g ptn buffer s'.flash k ∧ ∀ a, slot ptn (k + 1) ≤ a → s'.flash a = s.flash a)

/-- The writes of repetition `k` do what they ought to, on an erased copy. -/
def CopyRight (run : RunCommand) (nand : NandInfo) (g : Gadget) (ptn : PtEntry) (buffer : Ptr)
    (Stay : Nat → Prop) (fuel k : Nat) : Prop :=
  ∀ s, (k = 0 → s.ret = 1) →
    ((∀ j < (repeatMax ptn).toNat, Stay j) →
      Erased nand s.flash (slot ptn k) (slot ptn (repeatMax ptn).toNat)) →
    ∃ s', writeCopy run nand g ptn fuel (UInt32.ofNat k)
        (ptn.start + UInt32.ofNat k * ptn.length) s = some s' ∧
      Copies nand g ptn buffer Stay k s s'

/-- The writes of repetition `k` complete its copy. -/
theorem RoundInv.writeCopy {fuel : Nat} (hk : k < (repeatMax ptn).toNat)
    (hcopy : CopyRight run nand g ptn buffer Stay fuel k)
    (hs : RoundInv nand g ptn buffer flash Stay k s)
    (herased : (∀ j < (repeatMax ptn).toNat, Stay j) →
      Erased nand s.flash (slot ptn k) (slot ptn (repeatMax ptn).toNat)) :
    ∃ s', writeCopy run nand g ptn fuel (UInt32.ofNat k)
        (ptn.start + UInt32.ofNat k * ptn.length) s = some s' ∧ Confined nand ptn s' ∧
      (∀ a, ¬(ptn.start.toNat ≤ a ∧ a < slot ptn (repeatMax ptn).toNat) →
        s'.flash a = flash a) ∧
      (s'.ret = 0 → RoundInv nand g ptn buffer flash Stay (k + 1) s') := by
  obtain ⟨s', heq, hlog, hframe, hdone⟩ := hcopy s hs.first herased
  have hconfined : Confined nand ptn s' := by
    intro c hmem
    obtain hold | hin := hlog c hmem
    · exact hs.confined c hold
    · exact hin.mono (slot_start_le k) le_rfl
  have hkept : ∀ a, ¬(ptn.start.toNat ≤ a ∧ a < slot ptn (repeatMax ptn).toNat) →
      s'.flash a = flash a := by
    intro a ha
    have hstart := @slot_start_le ptn k
    rw [hframe a fun hin => ha ⟨by omega, hin.2⟩, hs.kept a ha]
  refine ⟨s', heq, hconfined, hkept, fun hret => ⟨Nat.noConfusion, hconfined, hkept,
    fun j hj => ?_, fun hall j hj => ?_, fun hall _ q hge hlt hgood => ?_⟩⟩
  · obtain hlt | rfl := Nat.lt_succ_iff_lt_or_eq.mp hj
    · exact hs.stay j hlt
    · exact (hdone hret).1
  · obtain hlt | rfl := Nat.lt_succ_iff_lt_or_eq.mp hj
    · refine (hs.copied hall j hlt).congr fun a ha => hframe a fun hin => ?_
      exact absurd (Nat.lt_of_lt_of_le ha (slot_mono (Nat.succ_le_of_lt hlt))) (by omega)
    · exact ((hdone hret).2 hall).1
  · rw [((hdone hret).2 hall).2 q hge]
    exact herased hall q (Nat.le_trans (slot_mono (Nat.le_succ k)) hge) hlt hgood

theorem ret_ifCommand (s : Progress) (c : Command) (p : Bool) :
    (if p then s.command run c else s).ret = s.ret := by
  split_ifs <;> rfl

/-- A repetition that fails is the last one. -/
theorem repeats_of_failed (hconfined : Confined nand ptn s)
    (hkept : ∀ a, ¬(ptn.start.toNat ≤ a ∧ a < slot ptn (repeatMax ptn).toNat) →
      s.flash a = flash a) (hret : s.ret ≠ 0) {c : Command} (p : Bool)
    (hc : ∀ flash, (run c flash).2 = flash) (htouches : ∀ a, ¬c.Touches nand a) :
    Repeats nand g ptn buffer flash (if p then s.command run c else s) where
  confined c' hmem a ha := by
    split_ifs at hmem
    · obtain hold | rfl := mem_log_command.mp hmem
      · exact hconfined c' hold a ha
      · exact absurd ha (htouches a)
    · exact hconfined c' hmem a ha
  kept a ha := by
    split_ifs
    · exact (congrFun (hc s.flash) a).trans (hkept a ha)
    · exact hkept a ha
  copied h0 := by
    rw [ret_ifCommand] at h0
    exact absurd h0 hret

/-- The repetitions keep the invariant. -/
theorem writeRounds_repeats (h : Repeatable nand g ptn) (hrun : Runs nand buffer run)
    {Right : Nat → Prop} (hright : RoundsRight nand ptn Stay Right) {fuel : Nat}
    (hcopy : ∀ k < (repeatMax ptn).toNat, Right k → CopyRight run nand g ptn buffer Stay fuel k)
    {left : Nat} (hk : k + left = (repeatMax ptn).toNat)
    (hs : RoundInv nand g ptn buffer flash Stay k s) :
    ∃ r, writeRounds run nand g ptn fuel left (UInt32.ofNat k) s = some r ∧
      Repeats nand g ptn buffer flash r := by
  induction left generalizing k s with
  | zero =>
    obtain rfl : k = (repeatMax ptn).toNat := by omega
    exact ⟨s, rfl, hs.confined, hs.kept, fun _ => hs.copied hs.stay⟩
  | succ left ih =>
    have hlt : k < (repeatMax ptn).toNat := by omega
    obtain ⟨herase, hwrite⟩ := hright.2 k hlt hs.stay
    have hunlock := hs.ifCommand
      (c := .unlock (ptn.start + UInt32.ofNat k * ptn.length) (ptn.length * repeatMax ptn))
      g.lockUnlock (hrun.unlock _ _) fun _ ha => ha
    obtain ⟨hinv, herased⟩ := hunlock.erase h hrun hlt herase hright.1
    obtain ⟨s', heq, hconfined, hkept, hdone⟩ := hinv.writeCopy hlt (hcopy k hlt hwrite) herased
    rw [writeRounds]
    simp only [heq, Option.bind_eq_bind, Option.bind_some, ret_ifCommand]
    by_cases hret : s'.ret = 0
    · have hnext : UInt32.ofNat k + 1 = UInt32.ofNat (k + 1) := (UInt32.ofNat_add k 1).symm
      rw [if_neg (not_not.mpr hret), hnext]
      exact ih (by omega) ((hdone hret).ifCommand g.lockUnlock (hrun.lock _ _) fun _ ha => ha)
    · rw [if_pos hret]
      exact ⟨_, rfl, repeats_of_failed hconfined hkept hret g.lockUnlock (hrun.lock _ _)
        fun _ ha => ha⟩

theorem writeToPtn_repeats (h : Repeatable nand g ptn) (hrun : Runs nand buffer run)
    {Right : Nat → Prop} (hright : RoundsRight nand ptn Stay Right) {fuel : Nat}
    (hcopy : ∀ k < (repeatMax ptn).toNat, Right k → CopyRight run nand g ptn buffer Stay fuel k)
    (flash : Flash) :
    ∃ r, writeToPtn run nand g ptn fuel flash = some r ∧ Repeats nand g ptn buffer flash r :=
  writeRounds_repeats h hrun hright hcopy (Nat.zero_add _)
    ⟨fun _ => rfl, fun _ hmem => absurd hmem List.not_mem_nil, fun _ _ => rfl,
      fun _ hj => absurd hj (Nat.not_lt_zero _), fun _ _ hj => absurd hj (Nat.not_lt_zero _),
      fun _ hpos => absurd hpos (Nat.lt_irrefl 0)⟩

end

/-! ### The writes of a repetition -/

theorem writeNormal_spec (round base : UInt32) (s : Progress) :
    let c := Command.write (writeType g ptn) 0 base (writeLength g ptn)
    (writeNormal run g ptn round base s).ret = (run c s.flash).1 ∧
      (writeNormal run g ptn round base s).flash = (run c s.flash).2 ∧
      ∀ c', .command c' ∈ (writeNormal run g ptn round base s).log ↔
        .command c' ∈ s.log ∨ c' = c := by
  intro c
  rw [writeNormal]
  split_ifs
  · exact ⟨rfl, rfl, fun c' => mem_log_save.trans mem_log_write⟩
  · exact ⟨rfl, rfl, fun c' => mem_log_save.trans mem_log_write⟩
  · exact ⟨rfl, rfl, fun c' => mem_log_write⟩

theorem Runs.write_outside (hrun : Runs nand buffer run) {type : WriteType}
    {src off len : UInt32} {high : Nat} (hends : EndsBy nand off.toNat len.toNat high)
    (flash : Flash) {a : Nat} (ha : ¬(off.toNat ≤ a ∧ a < high)) :
    (run (.write type src off len) flash).2 a = flash a :=
  hrun.write_frame _ _ _ _ _ _ _ hends fun htouch => ha (inside_of_endsBy hends a htouch)

theorem copyRight_normal (h : Repeatable nand g ptn) (hrun : Runs nand buffer run)
    (hnext : ¬ptn.has WRITE_NEXT_GOOD_BLOCK) (hcont : ¬ptn.has WRITE_CONTIGUOUS_BLOCK)
    {fuel k : Nat} (hk : k < (repeatMax ptn).toNat) (hright : NormalRight nand g ptn k) :
    CopyRight run nand g ptn buffer (NormalStays nand g ptn) fuel k := by
  intro s _ herased
  have hboth : ¬(ptn.has WRITE_NEXT_GOOD_BLOCK ∧ ptn.has WRITE_CONTIGUOUS_BLOCK) :=
    fun hand => hnext hand.1
  have hlength : copyLength g ptn = writeLength g ptn := if_neg (not_or.mpr ⟨hnext, hcont⟩)
  obtain ⟨hends, hown⟩ := hright
  rw [← toNat_base h hk] at hends
  obtain ⟨hret, hflash, hlog⟩ := @writeNormal_spec run g ptn (UInt32.ofNat k)
    (ptn.start + UInt32.ofNat k * ptn.length) s
  refine ⟨_, by rw [writeCopy, if_neg hboth, if_neg hnext, if_neg hcont],
    fun c hmem => ?_, fun a ha => ?_, fun hzero => ?_⟩
  · obtain hold | rfl := (hlog c).mp hmem
    · exact .inl hold
    · exact .inr ((inside_of_endsBy hends).mono (toNat_base h hk).ge le_rfl)
  · rw [hflash]
    exact hrun.write_outside hends s.flash (by rwa [toNat_base h hk])
  · obtain ⟨pieces, stop, hwalk, hsize, hdata⟩ := hrun.write _ _ _ _ _ _ hends (hret ▸ hzero)
    rw [toNat_base h hk] at hwalk hdata
    refine ⟨⟨pieces, stop, hwalk, hsize⟩, fun hall => ⟨?_, fun a ha => ?_⟩⟩
    · have hstop := (hown hall pieces stop hwalk hsize).1
      refine ⟨slot ptn k, pieces, stop, le_rfl, .inr rfl, by rwa [hlength], hstop, ?_⟩
      rw [hflash, hlength, hdata ((herased hall).mono le_rfl (Nat.le_trans hstop (slot_mono hk))),
        UInt32.toNat_zero, Ptr.add_zero]
    · rw [hflash]
      have hcopy : EndsBy nand (ptn.start + UInt32.ofNat k * ptn.length).toNat
          (writeLength g ptn).toNat (slot ptn (k + 1)) := by
        rw [toNat_base h hk]
        exact hown hall
      exact hrun.write_outside hcopy s.flash (by omega)

/-- The write of one block of a copy. -/
def chunk (g : Gadget) (ptn : PtEntry) (k i : Nat) : Command :=
  .write (writeType g ptn) (UInt32.ofNat i * g.nandBlockSize)
    (ptn.start + UInt32.ofNat k * ptn.length + UInt32.ofNat (i * g.nandBlockSize.toNat))
    g.nandBlockSize

theorem chunk_addresses (h : Repeatable nand g ptn) {k i : Nat}
    (hk : k < (repeatMax ptn).toNat) (hblock : g.nandBlockSize ≠ 0)
    (hchunk : i * g.nandBlockSize.toNat + g.nandBlockSize.toNat ≤ g.downloadBytes.toNat) :
    (UInt32.ofNat (i * g.nandBlockSize.toNat)).toNat = i * g.nandBlockSize.toNat ∧
      (UInt32.ofNat i * g.nandBlockSize).toNat = i * g.nandBlockSize.toNat ∧
      (ptn.start + UInt32.ofNat k * ptn.length +
        UInt32.ofNat (i * g.nandBlockSize.toNat)).toNat = chunkAt g ptn k i := by
  have hbs : 0 < g.nandBlockSize.toNat :=
    Nat.pos_of_ne_zero fun h0 => hblock (UInt32.toNat_inj.mp h0)
  have hfits := h.fits
  have hslots := Nat.le_trans (slot_mono (Nat.succ_le_of_lt hk)) h.slots
  rw [slot_succ] at hslots
  have hoffset : (UInt32.ofNat (i * g.nandBlockSize.toNat)).toNat = i * g.nandBlockSize.toNat := by
    rw [UInt32.toNat_ofNat']
    exact Nat.mod_eq_of_lt (by omega)
  refine ⟨hoffset, ?_, ?_⟩
  · rw [← hoffset, UInt32.ofNat_mul, UInt32.ofNat_toNat]
  · rw [UInt32.toNat_add, toNat_base h hk, hoffset]
    exact Nat.mod_eq_of_lt (by omega)

theorem chunkAt_succ (k i : Nat) :
    chunkAt g ptn k (i + 1) = chunkAt g ptn k i + g.nandBlockSize.toNat := by
  rw [chunkAt, chunkAt, Nat.succ_mul, Nat.add_assoc]

theorem chunks_mul (h : Repeatable nand g ptn) (hblock : g.nandBlockSize ≠ 0) :
    chunks g * g.nandBlockSize.toNat = g.downloadBytes.toNat := by
  rw [chunks, UInt32.toNat_div, Nat.div_mul_cancel (h.padded hblock)]

theorem chunk_le (h : Repeatable nand g ptn) (hblock : g.nandBlockSize ≠ 0) {i : Nat}
    (hi : i < chunks g) :
    i * g.nandBlockSize.toNat + g.nandBlockSize.toNat ≤ g.downloadBytes.toNat := by
  rw [← chunks_mul h hblock, ← Nat.succ_mul]
  exact Nat.mul_le_mul_right _ hi

theorem chunk_spec (h : Repeatable nand g ptn) (hrun : Runs nand buffer run) {k i high : Nat}
    (hk : k < (repeatMax ptn).toNat) (hblock : g.nandBlockSize ≠ 0) (hi : i < chunks g)
    (hends : EndsBy nand (chunkAt g ptn k i) g.nandBlockSize.toNat high) (s : Progress) :
    (chunk g ptn k i).Inside nand (chunkAt g ptn k i) high ∧
      (∀ a, ¬(chunkAt g ptn k i ≤ a ∧ a < high) →
        (s.write run (chunk g ptn k i)).flash a = s.flash a) ∧
      ((s.write run (chunk g ptn k i)).ret = 0 →
        ∃ pieces stop, Walk nand (chunkAt g ptn k i) g.nandBlockSize.toNat pieces stop ∧
          stop ≤ nand.size ∧ (Erased nand s.flash (chunkAt g ptn k i) stop →
            gather (s.write run (chunk g ptn k i)).flash pieces =
              (buffer.add (i * g.nandBlockSize.toNat)).bytes g.nandBlockSize.toNat)) := by
  obtain ⟨-, hsrc, hoff⟩ := chunk_addresses h hk hblock (chunk_le h hblock hi)
  rw [← hoff] at hends ⊢
  refine ⟨inside_of_endsBy hends, fun a ha => hrun.write_outside hends s.flash ha, fun hok => ?_⟩
  have hwrite := hrun.write _ _ _ _ _ _ hends hok
  rwa [hsrc] at hwrite

/-- The loop over the blocks of copy `k` began in `s₀` and has written the first `i` of them.
The last one may have gone to another place than its own. -/
structure ChunkInv (nand : NandInfo) (g : Gadget) (ptn : PtEntry) (buffer : Ptr) (k : Nat)
    (s₀ : Progress) (i : Nat) (s : Progress) : Prop where
  log : ∀ c, .command c ∈ s.log →
    .command c ∈ s₀.log ∨ c.Inside nand (slot ptn k) (slot ptn (repeatMax ptn).toNat)
  frame : ∀ a, ¬(slot ptn k ≤ a ∧ a < slot ptn (repeatMax ptn).toNat) → s.flash a = s₀.flash a
  stays : ∀ j < i, Stays nand (chunkAt g ptn k j) g.nandBlockSize.toNat
  above : (∀ j < (repeatMax ptn).toNat, ChunksStay nand g ptn j) →
    ∀ a, slot ptn (k + 1) ≤ a → s.flash a = s₀.flash a
  before : i < chunks g → (∀ j < (repeatMax ptn).toNat, ChunksStay nand g ptn j) →
    Erased nand s.flash (chunkAt g ptn k i) (slot ptn (repeatMax ptn).toNat) ∧
      NoBad nand (slot ptn k) (chunkAt g ptn k i) ∧
      (s.flash.add (slot ptn k)).bytes (i * g.nandBlockSize.toNat) =
        buffer.bytes (i * g.nandBlockSize.toNat)
  done : i = chunks g → (∀ j < (repeatMax ptn).toNat, ChunksStay nand g ptn j) →
    Copied nand g ptn buffer s.flash k

theorem ChunkInv.step (h : Repeatable nand g ptn) (hrun : Runs nand buffer run)
    (hcopy : copyLength g ptn = g.downloadBytes) {k i : Nat} (hk : k < (repeatMax ptn).toNat)
    (hblock : g.nandBlockSize ≠ 0) (hright : ChunksRight nand g ptn k) (hi : i < chunks g)
    {s₀ s : Progress} (hs : ChunkInv nand g ptn buffer k s₀ i s)
    (hret : (s.write run (chunk g ptn k i)).ret = 0) :
    ChunkInv nand g ptn buffer k s₀ (i + 1) (s.write run (chunk g ptn k i)) := by
  obtain ⟨hends, hown⟩ := hright i hi hs.stays
  obtain ⟨hin, hframe, hok⟩ := chunk_spec h hrun hk hblock hi hends s
  obtain ⟨pieces, stop, hwalk, hsize, hdata⟩ := hok hret
  have hlow : slot ptn k ≤ chunkAt g ptn k i := Nat.le_add_right _ _
  have hkept : ∀ a < chunkAt g ptn k i,
      (s.write run (chunk g ptn k i)).flash a = s.flash a := fun a ha => hframe a (by omega)
  have hold : (∀ j < (repeatMax ptn).toNat, ChunksStay nand g ptn j) →
      ((s.write run (chunk g ptn k i)).flash.add (slot ptn k)).bytes
        (i * g.nandBlockSize.toNat) = buffer.bytes (i * g.nandBlockSize.toNat) := by
    intro hall
    rw [← (hs.before hi hall).2.2]
    apply Ptr.bytes_congr
    intro j hj
    exact hkept _ (Nat.add_lt_add_left hj _)
  refine ⟨fun c hmem => ?_, fun a ha => ?_, fun j hj => ?_, fun hall a ha => ?_,
    fun hmore hall => ?_, fun hlast hall => ?_⟩
  · obtain hold | rfl := mem_log_write.mp hmem
    · exact hs.log c hold
    · exact .inr (hin.mono hlow le_rfl)
  · rw [hframe a (by omega), hs.frame a ha]
  · obtain hlt | rfl := Nat.lt_succ_iff_lt_or_eq.mp hj
    · exact hs.stays j hlt
    · exact ⟨pieces, stop, hwalk, hsize⟩
  · obtain ⟨-, hframe', -⟩ := chunk_spec h hrun hk hblock hi (hown hall).1 s
    rw [hframe' a (by omega), hs.above hall a ha]
  · -- another block follows, so that this one is in its place
    obtain ⟨herased, hno, -⟩ := hs.before hi hall
    have hgood := (hown hall).2 hmore
    rw [chunkAt_succ] at hgood
    obtain ⟨pieces', hwalk'⟩ := exists_walk_of_noBad hgood
    obtain ⟨rfl, rfl⟩ := hwalk.unique hwalk'
    have hstop := (hends _ _ hwalk hsize).1
    obtain ⟨-, hframe', -⟩ := chunk_spec h hrun hk hblock hi
      (fun _ _ hw hs => ⟨(hw.unique hwalk).2.le, (hends _ _ hw hs).2⟩) s
    refine ⟨fun q hge hlt hq => ?_, fun q hge hlt => ?_, ?_⟩
    · rw [chunkAt_succ] at hge
      rw [hframe' q (by omega)]
      exact herased q (by omega) hlt hq
    · rw [chunkAt_succ] at hlt
      by_cases hq : q < chunkAt g ptn k i
      · exact hno q hge hq
      · exact hgood q (Nat.le_of_not_lt hq) hlt
    · have hpiece := hdata (herased.mono le_rfl hstop)
      rw [hwalk.gather_eq _ hgood] at hpiece
      rw [Nat.succ_mul, Ptr.bytes_add, buffer.bytes_add, hold hall, ← hpiece, Ptr.add_add]
      rfl
  · obtain ⟨herased, hno, -⟩ := hs.before hi hall
    have hstop := (hends _ _ hwalk hsize).1
    obtain ⟨pieces', hwalk', hgather⟩ := Walk.cons_noBad hno hwalk
    have hlen : i * g.nandBlockSize.toNat + g.nandBlockSize.toNat = g.downloadBytes.toNat := by
      rw [← Nat.succ_mul, Nat.succ_eq_add_one, hlast, chunks_mul h hblock]
    rw [hlen] at hwalk'
    refine ⟨slot ptn k, pieces', stop, le_rfl, .inr rfl, by rwa [hcopy],
      ((hown hall).1 _ _ hwalk hsize).1, ?_⟩
    rw [hgather, hold hall, hdata (herased.mono le_rfl hstop), hcopy, ← hlen, Ptr.bytes_add]

/-- The loop over the blocks completes a copy unless a write fails. -/
theorem writeBlocks_right (h : Repeatable nand g ptn) (hrun : Runs nand buffer run)
    (hcopy : copyLength g ptn = g.downloadBytes) {k : Nat} (hk : k < (repeatMax ptn).toNat)
    (hblock : g.nandBlockSize ≠ 0) (hright : ChunksRight nand g ptn k) {s₀ : Progress}
    {left i : Nat} (hleft : i + left = chunks g) {s : Progress}
    (hs : ChunkInv nand g ptn buffer k s₀ i s) :
    Copies nand g ptn buffer (ChunksStay nand g ptn) k s₀
      (writeBlocks run g ptn (ptn.start + UInt32.ofNat k * ptn.length) left (UInt32.ofNat i)
        (UInt32.ofNat (i * g.nandBlockSize.toNat)) s) := by
  induction left generalizing i s with
  | zero =>
    obtain rfl : i = chunks g := hleft
    exact ⟨hs.log, hs.frame, fun _ => ⟨hs.stays, fun hall => ⟨hs.done rfl hall, hs.above hall⟩⟩⟩
  | succ left ih =>
    have hi : i < chunks g := by omega
    have hroom : ¬UInt32.ofNat (i * g.nandBlockSize.toNat) ≥ ptn.length := by
      have hbs : g.nandBlockSize.toNat ≠ 0 := fun h0 => hblock (UInt32.toNat_inj.mp h0)
      have hfits := h.fits
      have hchunk := chunk_le h hblock hi
      rw [ge_iff_le, UInt32.le_iff_toNat_le, (chunk_addresses h hk hblock hchunk).1]
      omega
    have hnext : UInt32.ofNat i + 1 = UInt32.ofNat (i + 1) := (UInt32.ofNat_add i 1).symm
    have hoffset : UInt32.ofNat (i * g.nandBlockSize.toNat) + g.nandBlockSize =
        UInt32.ofNat ((i + 1) * g.nandBlockSize.toNat) := by
      rw [Nat.succ_mul, UInt32.ofNat_add, UInt32.ofNat_toNat]
    have hround : writeBlocks run g ptn (ptn.start + UInt32.ofNat k * ptn.length) (left + 1)
        (UInt32.ofNat i) (UInt32.ofNat (i * g.nandBlockSize.toNat)) s =
        if (s.write run (chunk g ptn k i)).ret ≠ 0 then s.write run (chunk g ptn k i)
        else writeBlocks run g ptn (ptn.start + UInt32.ofNat k * ptn.length) left
          (UInt32.ofNat (i + 1)) (UInt32.ofNat ((i + 1) * g.nandBlockSize.toNat))
          (s.write run (chunk g ptn k i)) := by
      rw [writeBlocks, if_neg hroom, ← hnext, ← hoffset]
      rfl
    rw [hround]
    by_cases hret : (s.write run (chunk g ptn k i)).ret = 0
    · rw [if_neg (not_not.mpr hret)]
      exact ih (by omega) (hs.step h hrun hcopy hk hblock hright hi hret)
    · have hlow : slot ptn k ≤ chunkAt g ptn k i := Nat.le_add_right _ _
      obtain ⟨hin, hframe, -⟩ := chunk_spec h hrun hk hblock hi (hright i hi hs.stays).1 s
      rw [if_pos hret]
      refine ⟨fun c hmem => ?_, fun a ha => ?_, fun h0 => absurd h0 hret⟩
      · obtain hold | rfl := mem_log_write.mp hmem
        · exact hs.log c hold
        · exact .inr (hin.mono hlow le_rfl)
      · rw [hframe a (by omega), hs.frame a ha]

theorem copyRight_next (h : Repeatable nand g ptn) (hrun : Runs nand buffer run)
    (hnext : ptn.has WRITE_NEXT_GOOD_BLOCK) (hcont : ¬ptn.has WRITE_CONTIGUOUS_BLOCK)
    (hblock : g.nandBlockSize ≠ 0) {fuel k : Nat} (hk : k < (repeatMax ptn).toNat)
    (hright : ChunksRight nand g ptn k) :
    CopyRight run nand g ptn buffer (ChunksStay nand g ptn) fuel k := by
  intro s _ herased
  have hboth : ¬(ptn.has WRITE_NEXT_GOOD_BLOCK ∧ ptn.has WRITE_CONTIGUOUS_BLOCK) :=
    fun hand => hcont hand.2
  have hstart : chunkAt g ptn k 0 = slot ptn k := by rw [chunkAt, Nat.zero_mul, Nat.add_zero]
  have hsome : chunks g ≠ 0 := by
    intro h0
    have hmul := chunks_mul h hblock
    have hpos := h.nonempty
    rw [h0, Nat.zero_mul] at hmul
    exact Nat.ne_of_lt hpos hmul
  have hs : ChunkInv nand g ptn buffer k s 0 s := by
    refine ⟨fun _ => .inl, fun _ _ => rfl, fun _ hj => absurd hj (Nat.not_lt_zero _),
      fun _ _ _ => rfl, fun _ hall => ⟨by rw [hstart]; exact herased hall, ?_, ?_⟩,
      fun h0 => absurd h0.symm hsome⟩
    · rw [hstart]
      exact fun q hge hlt => absurd hge (Nat.not_le_of_lt hlt)
    · rw [Nat.zero_mul]
      rfl
  have hcopies := writeBlocks_right h hrun (if_pos (.inl hnext)) hk hblock hright
    (Nat.zero_add (chunks g)) hs
  rw [Nat.zero_mul] at hcopies
  exact ⟨_, by rw [writeCopy, if_neg hboth, if_pos hnext, if_neg hblock]; rfl, hcopies⟩

/-- The search ends in the partition, or right behind it. -/
theorem scanEnd_le (good : Nat → Bool) (short : Bool) (left i : Nat) (seen : Bool) :
    scanEnd good short left i seen ≤ i + left := by
  induction left generalizing i seen with
  | zero =>
    rw [scanEnd]
    split_ifs <;> omega
  | succ left ih =>
    have h1 := ih (i + 1) true
    have h2 := ih (i + 1) false
    rw [scanEnd]
    split_ifs <;> omega

theorem searchEnd_scanEnd (h : Repeatable nand g ptn) :
    SearchEnd nand g ptn (scanEnd (fun i => decide (Good nand ptn i)) (decide (Short nand g))
      (ptn.length.toNat / nand.erasesize) 0 false) := by
  have hn : ptn.length.toNat / nand.erasesize * nand.erasesize = ptn.length.toNat :=
    Nat.div_mul_cancel h.length_dvd
  obtain ⟨m, hm⟩ : ∃ m, ptn.length.toNat / nand.erasesize = m + 1 :=
    Nat.exists_eq_succ_of_ne_zero fun h0 => by
      have := h.length_pos
      rw [h0] at hn
      omega
  rw [SearchEnd]
  by_cases hshort : Short nand g
  · rw [if_pos hshort, decide_eq_true hshort, hm, scanEnd_short]
    simp only [decide_eq_true_eq, Nat.add_eq_right]
  · rw [if_neg hshort, decide_eq_false hshort]
    exact scanEnd_long _ (Nat.zero_add _) (fun h0 => absurd h0 (Nat.lt_irrefl 0)) fun _ => rfl

/-- What is written at the place that the search finds ends in the partition. -/
theorem okStart_right (h : Repeatable nand g ptn) (hright : PlaceRight nand g ptn) {fuel : Nat}
    (hfuel : ptn.length.toNat / nand.erasesize < fuel) :
    ∃ okStart, findOkStart nand g ptn fuel ptn.start ptn.start = some okStart ∧
      (enoughSpace g ptn okStart → ptn.start.toNat ≤ okStart.toNat ∧
        EndsBy nand okStart.toNat g.downloadBytes.toNat (slot ptn 1)) := by
  rw [PlaceRight] at hright
  by_cases hwrap : ptn.start.toNat + ptn.length.toNat = 2 ^ 32
  · rw [if_pos hwrap] at hright
    exact ⟨ptn.start, findOkStart_wrap hwrap (Nat.lt_of_le_of_lt (Nat.zero_le _) hfuel),
      fun henough => ⟨le_rfl, hright ((enoughSpace_wrap h.toPlaceable hwrap).mp henough)⟩⟩
  · rw [if_neg hwrap] at hright
    have hstop : ptn.start.toNat + ptn.length.toNat < 2 ^ 32 := Nat.lt_of_le_of_ne h.inside hwrap
    have hn : ptn.length.toNat / nand.erasesize * nand.erasesize = ptn.length.toNat :=
      Nat.div_mul_cancel h.length_dvd
    refine ⟨_, findOkStart_start h.toPlaceable hstop hn hfuel, fun henough => ?_⟩
    have hscan := scanEnd_le (fun i => decide (Good nand ptn i)) (decide (Short nand g))
      (ptn.length.toNat / nand.erasesize) 0 false
    have hc := Nat.mul_le_mul_right nand.erasesize hscan
    rw [Nat.zero_add, hn] at hc
    rw [enoughSpace_blockAddr h.toPlaceable hstop hc] at henough
    rw [toNat_blockAddr (by omega)]
    exact ⟨Nat.le_add_right _ _, hright _ (searchEnd_scanEnd h) henough⟩

/-- Only one copy is written, at the place that the search finds. -/
theorem copyRight_contiguous (h : Repeatable nand g ptn) (hrun : Runs nand buffer run)
    (hnext : ¬ptn.has WRITE_NEXT_GOOD_BLOCK) (hcont : ptn.has WRITE_CONTIGUOUS_BLOCK)
    (hright : g.nandBlockSize = 0 ∨ g.nandCurrDevice ≠ 0 ∨ PlaceRight nand g ptn) {fuel : Nat}
    (hfuel : ptn.length.toNat / nand.erasesize < fuel) :
    CopyRight run nand g ptn buffer (fun _ => True) fuel 0 := by
  intro s hfirst herased
  have hboth : ¬(ptn.has WRITE_NEXT_GOOD_BLOCK ∧ ptn.has WRITE_CONTIGUOUS_BLOCK) :=
    fun hand => hnext hand.1
  have hone : (repeatMax ptn).toNat = 1 := by rw [repeatMax_of_contiguous hcont]; rfl
  have hnothing : Copies nand g ptn buffer (fun _ => True) 0 s s := by
    refine ⟨fun _ => .inl, fun _ _ => rfl, fun hret => ?_⟩
    rw [hfirst rfl] at hret
    exact absurd hret (by decide)
  rw [writeCopy, if_neg hboth, if_neg hnext, if_pos hcont, writeContiguous]
  by_cases hready : g.nandBlockSize = 0 ∨ g.nandCurrDevice ≠ 0
  · rw [if_pos hready]
    exact ⟨s, rfl, hnothing⟩
  · rw [not_or] at hready
    obtain ⟨okStart, hfind, hplace⟩ :=
      okStart_right h ((hright.resolve_left hready.1).resolve_left hready.2) hfuel
    rw [if_neg (not_or.mpr hready), hfind]
    simp only [Option.bind_eq_bind, Option.bind_some]
    by_cases henough : enoughSpace g ptn okStart
    · obtain ⟨hlow, hends⟩ := hplace henough
      rw [if_pos henough]
      generalize hs' : s.write run (.write (writeType g ptn) 0 okStart g.downloadBytes) = s'
      have hcopies : Copies nand g ptn buffer (fun _ => True) 0 s s' := by
        subst hs'
        rw [← slot_zero] at hlow
        refine ⟨fun c hmem => ?_, fun a ha => ?_, fun hret => ⟨trivial, fun hall => ⟨?_, ?_⟩⟩⟩
        · obtain hold | rfl := mem_log_write.mp hmem
          · exact .inl hold
          · exact .inr ((inside_of_endsBy hends).mono hlow (by rw [hone]))
        · rw [hone] at ha
          exact hrun.write_outside hends s.flash (by omega)
        · obtain ⟨pieces, stop, hwalk, hsize, hdata⟩ := hrun.write _ _ _ _ _ _ hends hret
          have hstop := (hends pieces stop hwalk hsize).1
          have hlength : copyLength g ptn = g.downloadBytes := if_pos (.inr hcont)
          refine ⟨okStart.toNat, pieces, stop, hlow, .inl hcont, by rwa [hlength], hstop, ?_⟩
          rw [hlength]
          refine (hdata ((herased hall).mono hlow (by rwa [hone]))).trans ?_
          rw [UInt32.toNat_zero, Ptr.add_zero]
        · exact fun a ha => hrun.write_outside hends s.flash fun hin =>
            absurd hin.2 (Nat.not_lt_of_le ha)
      refine ⟨_, rfl, ?_⟩
      split_ifs
      · exact ⟨fun c hmem => hcopies.log c (mem_log_save.mp hmem), hcopies.frame, hcopies.done⟩
      · exact ⟨fun c hmem => hcopies.log c (mem_log_save.mp hmem), hcopies.frame, hcopies.done⟩
    · rw [if_neg henough]
      exact ⟨s, rfl, hnothing⟩

theorem repeatMax_pos : 0 < (repeatMax ptn).toNat := by
  rw [repeatMax]
  split_ifs with hmask hcont
  · decide
  · exact Nat.pos_of_ne_zero fun h0 => hmask (UInt32.toNat_inj.mp h0)
  · decide

/-- The first erase is as long as the copies, at most. -/
theorem eraseRight_zero : EraseRight nand ptn 0 := by
  refine .inr (.inr fun a hge hlt => absurd hge (Nat.not_le_of_lt ?_))
  rwa [Nat.zero_add] at hlt

/-- A call that writes nothing ends behind the first erase, and reports it. -/
theorem repeats_of_noWrite (h : Repeatable nand g ptn) (hrun : Runs nand buffer run) {fuel : Nat}
    (hnone : ∀ s, writeCopy run nand g ptn fuel (UInt32.ofNat 0)
      (ptn.start + UInt32.ofNat 0 * ptn.length) s = some s) (flash : Flash) :
    ∃ r, writeToPtn run nand g ptn fuel flash = some r ∧ Repeats nand g ptn buffer flash r := by
  have hpos := @repeatMax_pos ptn
  have hright : RoundsRight nand ptn (fun _ => False) (· = 0) := by
    refine ⟨fun hall => (hall 0 hpos).elim, fun k _ hstay => ?_⟩
    obtain rfl : k = 0 := Nat.eq_zero_of_not_pos fun hk => hstay 0 hk
    exact ⟨eraseRight_zero, rfl⟩
  refine writeToPtn_repeats h hrun hright (fun k _ hk => ?_) flash
  subst hk
  intro s hfirst _
  refine ⟨s, hnone s, fun _ => .inl, fun _ _ => rfl, fun hret => ?_⟩
  rw [hfirst rfl] at hret
  exact absurd hret (by decide)

theorem repeats_of_rangesRight (h : Repeatable nand g ptn) (hright : RangesRight nand g ptn)
    (hrun : Runs nand buffer run) {fuel : Nat}
    (hfuel : ptn.length.toNat / nand.erasesize < fuel) (flash : Flash) :
    ∃ r, writeToPtn run nand g ptn fuel flash = some r ∧ Repeats nand g ptn buffer flash r := by
  rw [RangesRight] at hright
  by_cases hnext : ptn.has WRITE_NEXT_GOOD_BLOCK <;>
    by_cases hcont : ptn.has WRITE_CONTIGUOUS_BLOCK
  · exact repeats_of_noWrite h hrun (fun s => by rw [writeCopy, if_pos ⟨hnext, hcont⟩]) flash
  · have hboth : ¬(ptn.has WRITE_NEXT_GOOD_BLOCK ∧ ptn.has WRITE_CONTIGUOUS_BLOCK) :=
      fun hand => hcont hand.2
    rw [if_neg hboth, if_pos hnext] at hright
    by_cases hblock : g.nandBlockSize = 0
    · exact repeats_of_noWrite h hrun
        (fun s => by rw [writeCopy, if_neg hboth, if_pos hnext, if_pos hblock]) flash
    · exact writeToPtn_repeats h hrun (hright.resolve_left hblock)
        (fun k hk hk' => copyRight_next h hrun hnext hcont hblock hk hk') flash
  · have hboth : ¬(ptn.has WRITE_NEXT_GOOD_BLOCK ∧ ptn.has WRITE_CONTIGUOUS_BLOCK) :=
      fun hand => hnext hand.1
    have hone : (repeatMax ptn).toNat = 1 := by rw [repeatMax_of_contiguous hcont]; rfl
    rw [if_neg hboth, if_neg hnext, if_pos hcont] at hright
    have hrounds : RoundsRight nand ptn (fun _ => True) (· = 0) := by
      refine ⟨fun _ => ?_, fun k hk _ => ?_⟩
      · rw [repeatMax_of_contiguous hcont, UInt32.mul_one]
        exact fun h0 => Nat.ne_of_gt h.length_pos (congrArg UInt32.toNat h0)
      · obtain rfl : k = 0 := by omega
        exact ⟨eraseRight_zero, rfl⟩
    refine writeToPtn_repeats h hrun hrounds (fun k _ hk => ?_) flash
    subst hk
    exact copyRight_contiguous h hrun hnext hcont hright hfuel
  · have hboth : ¬(ptn.has WRITE_NEXT_GOOD_BLOCK ∧ ptn.has WRITE_CONTIGUOUS_BLOCK) :=
      fun hand => hnext hand.1
    rw [if_neg hboth, if_neg hnext, if_neg hcont] at hright
    exact writeToPtn_repeats h hrun hright
      (fun k hk hk' => copyRight_normal h hrun hnext hcont hk hk') flash

end

end UBoot.Fastboot.Ptn
