import Mathlib.Logic.Relation
import UBoot.Ext4.Replay

/-!
# Does the scan of the journal end?

The loop of `ext4fs_check_journal_state` takes each record for what its block type
says and goes on behind it. It never looks at `s_maxlen`, and it stays where it is at a
block of an unknown type that carries the expected sequence number.
-/

namespace UBoot.Ext4

open Verification Relation

/-- The length of the journal, in `struct journal_superblock_t`. -/
def sMaxlen (jsb : Ptr) : UInt32 := be32At jsb 16

section

variable (fs : Fs) (pass : Pass)

/-- The variables before the loop. -/
def scanStart (v : Volume) : Scan :=
  let jsb := journalSuperblock fs v
  let jsb := setBe32 jsb 36 (sFeatureCompat jsb ||| 1)
  ⟨v, jsb, (sFirst jsb).toNat, false, false, 0⟩

/-- The code comes to the loop. -/
def Scanned (v : Volume) : Prop :=
  needsRecovery v.sb = true ∧ sStart (journalSuperblock fs v) ≠ 0

/-- The block that a round looks at. -/
def record (s : Scan) : Ptr := blockAt fs s.vol (fs.journalBlk s.i)

/-- A round of the loop after which there is another one. -/
def Goes (s s' : Scan) : Prop := scanRound fs pass s = .next s'

/-- The loop gets to this round. -/
def Reached (v : Volume) (s : Scan) : Prop := ReflTransGen (Goes fs pass) (scanStart fs v) s

/-- The blocks of the journal file that `recover_transaction` copies from. -/
def recoverReads (p : Ptr) (revoked : List Ptr) : Nat → Nat → Nat → List Nat
  | 0, _, _ => []
  | fuel + 1, ofs, i =>
    let next := ofs + 8
    if next > fs.blksz then []
    else
      let flags := be32At p (ofs + 4)
      let next := if flags &&& 2 = 0 then next + 16 else next
      let reads := if checkBlknrForRevoke revoked (be32At p ofs) (hSequence p) then [] else [i + 1]
      if flags &&& 8 = 0 then reads ++ recoverReads p revoked fuel next (i + 1) else reads

def roundReads (s : Scan) : List Nat :=
  let jdb := record fs s
  if hSequence jdb = sSequence s.jsb ∧ hBlocktype jdb = 2 ∧ pass = .recover ∧ s.dbFound then
    let desc := blockAt fs s.vol (fs.journalBlk s.currDesc)
    s.i :: s.currDesc :: recoverReads fs desc s.vol.revoked fs.blksz 12 s.currDesc
  else [s.i]

/-- The loop ends, and it reads no block at or beyond `s_maxlen`. -/
def ScanRight (v : Volume) : Prop :=
  Scanned fs v →
    (∃ fuel, scanLoop fs pass fuel (scanStart fs v) ≠ none) ∧
      ∀ s, Reached fs pass v s → ∀ i ∈ roundReads fs pass s,
        i < (sMaxlen (journalSuperblock fs v)).toNat

/-! ## The condition -/

/-- How many blocks a record takes: a descriptor block comes before the blocks of its
tags. -/
def recordLength (jdb : Ptr) : Nat :=
  if hBlocktype jdb = 1 then skipTags fs jdb fs.blksz 12 0 + 1 else 1

def KnownType (jdb : Ptr) : Prop := hBlocktype jdb = 1 ∨ hBlocktype jdb = 2 ∨ hBlocktype jdb = 5

/-- The log stops here: another sequence number, or a descriptor block within a
transaction. -/
def LogStops (s : Scan) : Prop :=
  hSequence (record fs s) ≠ sSequence s.jsb ∨ (hBlocktype (record fs s) = 1 ∧ s.running = true)

/-- The log stops here, or goes on with a record of a known type that has another block of
the journal behind it. -/
def RecordFine (maxlen : Nat) (s : Scan) : Prop :=
  LogStops fs s ∨
    (KnownType (record fs s) ∧ s.i + recordLength fs (record fs s) < maxlen)

/-- The journal has its first block, and all the records that the loop gets to are fine. -/
def LogFine (v : Volume) : Prop :=
  Scanned fs v →
    (sFirst (journalSuperblock fs v)).toNat < (sMaxlen (journalSuperblock fs v)).toNat ∧
      ∀ s, Reached fs pass v s →
        RecordFine fs (sMaxlen (journalSuperblock fs v)).toNat s

end

/-! ## One round -/

section

variable {fs : Fs} {pass : Pass} {s s' : Scan}

theorem skipTags_add (p : Ptr) (fuel ofs i : Nat) :
    skipTags fs p fuel ofs i = i + skipTags fs p fuel ofs 0 := by
  induction fuel generalizing ofs i with
  | zero => rfl
  | succ fuel ih =>
    unfold skipTags
    dsimp only
    split_ifs
    · rfl
    · rw [ih _ (i + 1), ih _ (0 + 1)]
      omega
    · rw [ih _ (i + 1), ih _ (0 + 1)]
      omega
    · rfl

/-- What is copied lies among the blocks of the tags. -/
theorem mem_recoverReads {p : Ptr} {revoked : List Ptr} {fuel ofs i k : Nat}
    (h : k ∈ recoverReads fs p revoked fuel ofs i) : k ≤ skipTags fs p fuel ofs i := by
  induction fuel generalizing ofs i with
  | zero => cases h
  | succ fuel ih =>
    unfold recoverReads at h
    unfold skipTags
    dsimp only at h ⊢
    by_cases hend : ofs + 8 > fs.blksz
    · rw [if_pos hend] at h
      cases h
    rw [if_neg hend] at h ⊢
    have hread : ∀ l : List Nat, (l = [] ∨ l = [i + 1]) → k ∈ l → k = i + 1 := by
      rintro l (rfl | rfl) hk
      · cases hk
      · exact List.mem_singleton.mp hk
    have hone : (if checkBlknrForRevoke revoked (be32At p ofs) (hSequence p) = true then []
        else [i + 1]) = [] ∨ (if checkBlknrForRevoke revoked (be32At p ofs) (hSequence p) = true
        then [] else [i + 1]) = [i + 1] := by
      split_ifs
      · exact .inl rfl
      · exact .inr rfl
    by_cases hlast : be32At p (ofs + 4) &&& 8 = 0
    · rw [if_pos hlast] at h ⊢
      obtain h | h := List.mem_append.mp h
      · rw [hread _ hone h, skipTags_add]
        omega
      · exact ih h
    · rw [if_neg hlast] at h ⊢
      exact (hread _ hone h).le

/-- A transaction whose descriptor block was found is still open, and the blocks of the
tags lie before the next record. -/
structure ScanInv (fs : Fs) (s : Scan) : Prop where
  running : s.dbFound = true ↔ s.running = true
  tags : s.dbFound = true → s.currDesc +
    skipTags fs (blockAt fs s.vol (fs.journalBlk s.currDesc)) fs.blksz 12 0 < s.i

theorem scanInv_start (v : Volume) : ScanInv fs (scanStart fs v) :=
  ⟨Iff.rfl, fun h => absurd h Bool.false_ne_true⟩

theorem scanRound_stops (h : LogStops fs s) :
    scanRound fs pass s = .done s ∨ scanRound fs pass s = .fail := by
  rw [scanRound]
  by_cases hseq : hSequence (record fs s) = sSequence s.jsb
  · obtain hne | ⟨hdesc, hrun⟩ := h
    · exact absurd hseq hne
    · right
      rw [← record, if_neg (not_not_intro hseq), if_pos hdesc, if_pos hrun]
  · left
    rw [← record, if_pos hseq]

/-- A block of an unknown type is looked at again. -/
theorem scanRound_unknown (hseq : hSequence (record fs s) = sSequence s.jsb)
    (h : ¬KnownType (record fs s)) : scanRound fs pass s = .next s := by
  rw [KnownType, not_or, not_or] at h
  rw [scanRound, ← record, if_neg (not_not_intro hseq), if_neg h.1, if_neg h.2.1, if_neg h.2.2]

/-- The loop goes on behind a record of a known type. -/
theorem scanRound_known (hinv : ScanInv fs s) (hstop : ¬LogStops fs s)
    (h : KnownType (record fs s)) : ∃ s', scanRound fs pass s = .next s' ∧
      s'.i = s.i + recordLength fs (record fs s) ∧ ScanInv fs s' := by
  rw [LogStops, not_or, not_not] at hstop
  obtain ⟨hseq, hrun⟩ := hstop
  rw [scanRound, ← record, if_neg (not_not_intro hseq), recordLength]
  obtain h | h | h := h
  · have hclosed : ¬s.running = true := fun hopen => hrun ⟨h, hopen⟩
    rw [if_pos h, if_neg hclosed, if_pos h]
    refine ⟨_, rfl, ?_, ⟨Iff.intro (fun _ => rfl) fun _ => rfl, fun _ => ?_⟩⟩
    · rw [skipTags_add, Nat.add_assoc]
    · dsimp only
      rw [skipTags_add _ _ _ s.i]
      exact Nat.lt_succ_self _
  · have hdesc : hBlocktype (record fs s) ≠ 1 := by
      rw [h]
      decide
    have hopen : s.running = true ∨ s.dbFound = false := by
      cases hfound : s.dbFound with
      | true => exact .inl (hinv.running.mp hfound)
      | false => exact .inr rfl
    rw [if_neg hdesc, if_pos h, if_neg hdesc]
    dsimp only
    rw [if_pos hopen]
    exact ⟨_, rfl, rfl, ⟨Iff.rfl, fun hfound => absurd hfound Bool.false_ne_true⟩⟩
  · have hdesc : hBlocktype (record fs s) ≠ 1 := by
      rw [h]
      decide
    have hcommit : hBlocktype (record fs s) ≠ 2 := by
      rw [h]
      decide
    rw [if_neg hdesc, if_neg hcommit, if_pos h, if_neg hdesc]
    -- a block that is noted as a revoke block leaves the device as it is
    cases pass with
    | scan =>
      exact ⟨_, rfl, rfl, ⟨hinv.running, fun hfound => (hinv.tags hfound).trans_le (by
        dsimp only
        omega)⟩⟩
    | recover =>
      exact ⟨_, rfl, rfl, ⟨hinv.running, fun hfound => (hinv.tags hfound).trans_le (by
        dsimp only
        omega)⟩⟩

theorem not_logStops_of_goes (h : Goes fs pass s s') : ¬LogStops fs s := by
  intro hstop
  rw [Goes] at h
  obtain hdone | hfail := @scanRound_stops fs pass s hstop
  · rw [hdone] at h
    cases h
  · rw [hfail] at h
    cases h

/-- A round keeps the invariant, and moves on unless the type is unknown. -/
theorem goes_cases (hinv : ScanInv fs s) (h : Goes fs pass s s') :
    (¬KnownType (record fs s) ∧ s' = s) ∨
      (s'.i = s.i + recordLength fs (record fs s) ∧ ScanInv fs s') := by
  have hstop := not_logStops_of_goes h
  rw [Goes] at h
  by_cases hknown : KnownType (record fs s)
  · obtain ⟨next, hnext, hi, hinv'⟩ := @scanRound_known fs pass s hinv hstop hknown
    rw [hnext, Round.next.injEq] at h
    subst h
    exact .inr ⟨hi, hinv'⟩
  · have hseq : hSequence (record fs s) = sSequence s.jsb := not_not.mp (not_or.mp hstop).1
    rw [scanRound_unknown hseq hknown, Round.next.injEq] at h
    exact .inl ⟨hknown, h.symm⟩

/-- After a fine record that is not the last one, the loop is farther on in the journal. -/
theorem goes_of_fine {maxlen : Nat} (hinv : ScanInv fs s) (hfine : RecordFine fs maxlen s)
    (h : Goes fs pass s s') : s.i < s'.i ∧ s'.i < maxlen := by
  obtain ⟨hknown, hroom⟩ := hfine.resolve_left (not_logStops_of_goes h)
  obtain ⟨hunknown, -⟩ | ⟨hi, -⟩ := goes_cases hinv h
  · exact absurd hknown hunknown
  · have hpos : 0 < recordLength fs (record fs s) := by
      rw [recordLength]
      split_ifs <;> omega
    omega

/-! ## Runs -/

theorem scanStart_i (fs : Fs) (v : Volume) :
    (scanStart fs v).i = (sFirst (journalSuperblock fs v)).toNat := by
  rw [scanStart, sFirst, sFirst, be32At_setBe32_of_ne _ _ (by decide)]

theorem reached_inv {v : Volume} (h : Reached fs pass v s) : ScanInv fs s := by
  induction h with
  | refl => exact scanInv_start v
  | tail _ hgoes ih =>
    obtain ⟨-, rfl⟩ | ⟨-, hinv⟩ := goes_cases ih hgoes
    · exact ih
    · exact hinv

/-- In a fine log the loop stays within the journal. -/
theorem reached_lt {v : Volume} {maxlen : Nat}
    (hfirst : (sFirst (journalSuperblock fs v)).toNat < maxlen)
    (hfine : ∀ s, Reached fs pass v s → RecordFine fs maxlen s) (h : Reached fs pass v s) :
    s.i < maxlen := by
  induction h with
  | refl => exact scanStart_i fs v ▸ hfirst
  | tail hreached hgoes _ => exact (goes_of_fine (reached_inv hreached) (hfine _ hreached) hgoes).2

/-- The loop ends: the position grows with each round and stays below the end. -/
theorem scanLoop_ends {v : Volume} {maxlen : Nat}
    (hfirst : (sFirst (journalSuperblock fs v)).toNat < maxlen)
    (hfine : ∀ s, Reached fs pass v s → RecordFine fs maxlen s) (fuel : Nat)
    (h : Reached fs pass v s) (hfuel : maxlen ≤ s.i + fuel) : scanLoop fs pass fuel s ≠ none := by
  induction fuel generalizing s with
  | zero =>
    have := reached_lt hfirst hfine h
    omega
  | succ fuel ih =>
    rw [scanLoop]
    cases hround : scanRound fs pass s with
    | next s' =>
      have hlt := (goes_of_fine (reached_inv h) (hfine s h) hround).1
      exact ih (h.tail hround) (by omega)
    | done s' => exact Option.some_ne_none _
    | fail => exact Option.some_ne_none _

/-- A loop that ends is left from each of its rounds. -/
theorem scanLoop_of_reached {v : Volume} (h : Reached fs pass v s)
    (hends : ∃ fuel, scanLoop fs pass fuel (scanStart fs v) ≠ none) :
    ∃ fuel, scanLoop fs pass fuel s ≠ none := by
  induction h with
  | refl => exact hends
  | tail _ hgoes ih =>
    obtain ⟨fuel, hfuel⟩ := ih
    cases fuel with
    | zero => exact absurd rfl hfuel
    | succ fuel =>
      rw [scanLoop, hgoes] at hfuel
      exact ⟨fuel, hfuel⟩

theorem scanLoop_stuck (h : Goes fs pass s s) (fuel : Nat) : scanLoop fs pass fuel s = none := by
  induction fuel with
  | zero => rfl
  | succ fuel ih =>
    rw [scanLoop, h]
    exact ih

/-- The replay reads behind the descriptor block, and not behind the commit block. -/
theorem roundReads_le (hinv : ScanInv fs s) {i : Nat} (h : i ∈ roundReads fs pass s) :
    i ≤ s.i := by
  rw [roundReads] at h
  split_ifs at h with hcommit
  · obtain rfl | h := List.mem_cons.mp h
    · exact le_rfl
    have htags := hinv.tags hcommit.2.2.2
    obtain rfl | h := List.mem_cons.mp h
    · omega
    · have := mem_recoverReads h
      rw [skipTags_add] at this
      omega
  · rw [List.mem_singleton.mp h]

theorem mem_roundReads (s : Scan) : s.i ∈ roundReads fs pass s := by
  rw [roundReads]
  split_ifs <;> exact List.mem_cons_self

end

/-- The scan ends within the journal, in both passes, exactly when the journal has its
first block and every record that it gets to ends the log, or is of a known type and is
not the last thing in the journal. -/
theorem scanRight_iff (fs : Fs) (pass : Pass) (v : Volume) :
    ScanRight fs pass v ↔ LogFine fs pass v := by
  refine imp_congr_right fun _ => ⟨fun ⟨hends, hreads⟩ => ?_, fun ⟨hfirst, hfine⟩ => ?_⟩
  · refine ⟨?_, fun s hs => ?_⟩
    · rw [← scanStart_i]
      exact hreads _ .refl _ (mem_roundReads _)
    by_cases hstop : LogStops fs s
    · exact .inl hstop
    have hseq : hSequence (record fs s) = sSequence s.jsb := not_not.mp (not_or.mp hstop).1
    by_cases hknown : KnownType (record fs s)
    · obtain ⟨s', hround, hi, -⟩ := @scanRound_known fs pass s (reached_inv hs) hstop hknown
      have hnext := hreads s' (hs.tail hround) _ (mem_roundReads s')
      exact .inr ⟨hknown, by omega⟩
    · -- the loop stays at this block
      obtain ⟨fuel, hfuel⟩ := scanLoop_of_reached hs hends
      exact absurd (scanLoop_stuck (scanRound_unknown hseq hknown) fuel) hfuel
  · refine ⟨⟨_, scanLoop_ends hfirst hfine _ .refl (Nat.le_add_left _ _)⟩, fun s hs i hi => ?_⟩
    exact (roundReads_le (reached_inv hs) hi).trans_lt (reached_lt hfirst hfine hs)

/-- A volume whose journal, in the blocks from 10 on, starts with a block of type 7 that
has the expected sequence number. -/
def unknownFs : Fs := ⟨1024, 64 * 1024, (10 + ·)⟩

def unknownVolume : Volume where
  disk := Function.uncurry (fun block offset => ([
      ((10, 19), 8), ((10, 23), 1), ((10, 27), 1), ((10, 31), 1),
      ((11, 0), 0xc0), ((11, 1), 0x3b), ((11, 2), 0x39), ((11, 3), 0x98),
      ((11, 7), 7), ((11, 11), 1)].lookup (block, offset)).getD 0) ∘
    fun q => (q / 1024, q % 1024)
  sb := fun q => if q = 96 then 4 else 0
  revoked := []
  writes := []

theorem scan_unknown_type : ¬ScanRight unknownFs .scan unknownVolume := by
  intro h
  obtain ⟨⟨fuel, hfuel⟩, -⟩ := h ⟨by decide, by decide⟩
  exact hfuel (scanLoop_stuck (scanRound_unknown (by decide) (by unfold KnownType; decide)) fuel)

end UBoot.Ext4
