import UBoot.Ext4.Replay
import Mathlib.Data.List.TakeWhile

/-!
# The journal round trip

`ext4fs_update_journal` followed by the `SCAN` and `RECOVER` passes writes the logged
contents back to the logged blocks, and nothing else but the two superblocks.
-/

namespace UBoot.Ext4

open Verification

section

variable {fs : Fs} {v w : Volume} {entries : List Entry}

theorem header_fields (hblksz : 1024 ≤ fs.blksz) {p : Ptr} {blocktype sequence : UInt32}
    {rest : List UInt8} (h : SameBlock fs p (Ptr.ofList (journalHeader blocktype sequence ++ rest))) :
    hBlocktype p = blocktype ∧ hSequence p = sequence := by
  constructor
  · refine (be32At_congr h (by omega)).trans (be32At_eq ?_)
    rw [journalHeader, List.append_assoc, List.append_assoc]
    exact Ptr.bytes_ofList_append _ _ _ (length_beBytes 4 _) (length_beBytes 4 _)
  · refine (be32At_congr h (by omega)).trans (be32At_eq ?_)
    rw [journalHeader, List.append_assoc]
    exact Ptr.bytes_ofList_append _ _ _ (by simp) (length_beBytes 4 _)

theorem length_tagBytes (tags : List (UInt32 × UInt32)) :
    (tags.flatMap tagBytes).length = 8 * tags.length := by
  induction tags with
  | nil => rfl
  | cons tag tags ih =>
    rw [List.flatMap_cons, List.length_append, ih, List.length_cons, tagBytes]
    simp
    omega

theorem length_journalTags (hne : entries ≠ []) : (journalTags entries).length = entries.length := by
  rw [journalTags, List.getLast?_eq_some_getLast hne, List.length_append, List.length_dropLast,
    List.length_map]
  have hpos := List.length_pos_of_ne_nil hne
  simp
  omega

theorem Journaled.tagged (h : Journaled fs v w entries) (hblksz : 1024 ≤ fs.blksz)
    (hne : entries ≠ []) (hlen : entries.length ≤ maxJournalEntries) :
    Tagged (blockAt fs w (fs.journalBlk 1)) 12 entries := by
  unfold maxJournalEntries at hlen
  apply tagged_of_bytes hne
  have hheader : ∀ t s, (journalHeader t s).length = 12 := by simp [journalHeader]
  have hmid : ((journalTags entries).flatMap tagBytes).length = 8 * entries.length := by
    rw [length_tagBytes, length_journalTags hne]
  have hbytes := Ptr.bytes_ofList_append
    (journalHeader 1 (sSequence (journalSuperblock fs v))) _ [] (hheader _ _) hmid
  rw [List.append_nil] at hbytes
  refine (Ptr.bytes_congr fun i hi => ?_).trans hbytes
  exact h.desc (12 + i) (by omega)

def passVolume (fs : Fs) (pass : Pass) (w : Volume) (entries : List Entry) : Volume :=
  if pass = .recover then replay fs w 1 entries else w

/-- The loop finds the transaction and stops behind it. -/
theorem scanLoop_transaction (h : Journaled fs v w entries) (hblksz : 1024 ≤ fs.blksz)
    (hne : entries ≠ []) (hlen : entries.length ≤ maxJournalEntries) (hrev : w.revoked = [])
    (pass : Pass) {jsb : Ptr} (hseq : sSequence jsb = sSequence (journalSuperblock fs v))
    (hbehind : hSequence (blockAt fs (passVolume fs pass w entries)
      (fs.journalBlk (entries.length + 3))) ≠ sSequence (journalSuperblock fs v) + 1)
    {fuel : Nat} (hfuel : 3 ≤ fuel) :
    scanLoop fs pass fuel ⟨w, jsb, 1, false, false, 0⟩ = some (some ⟨passVolume fs pass w entries,
      setSequence jsb (sSequence jsb + 1), entries.length + 3, false, false, 1⟩) := by
  obtain ⟨fuel, rfl⟩ := Nat.exists_eq_add_of_le' hfuel
  have htagged := h.tagged hblksz hne hlen
  unfold maxJournalEntries at hlen
  obtain ⟨htype₁, hseq₁⟩ := header_fields hblksz h.desc
  have hskip : skipTags fs (blockAt fs w (fs.journalBlk 1)) fs.blksz 12 1 = 1 + entries.length :=
    skipTags_tagged htagged (by omega) (by omega) 1
  -- the descriptor block
  have hround₁ : scanRound fs pass ⟨w, jsb, 1, false, false, 0⟩ =
      .next ⟨w, jsb, entries.length + 2, true, true, 1⟩ := by
    unfold scanRound
    dsimp only
    rw [hseq₁, hseq, if_neg (not_not.mpr rfl), htype₁, if_pos rfl, hskip,
      show 1 + entries.length + 1 = entries.length + 2 by omega]
    rfl
  -- the commit block
  have hcommit := h.commit
  rw [← List.append_nil (journalHeader 2 _)] at hcommit
  obtain ⟨htype₂, hseq₂⟩ := header_fields hblksz hcommit
  have hrecover : recoverTransaction fs w 1 = replay fs w 1 entries := by
    exact recoverTags_tagged htagged (by omega) (by omega) 1 hrev
  have hround₂ : scanRound fs pass ⟨w, jsb, entries.length + 2, true, true, 1⟩ =
      .next ⟨passVolume fs pass w entries, setSequence jsb (sSequence jsb + 1),
        entries.length + 3, false, false, 1⟩ := by
    unfold scanRound passVolume
    dsimp only
    rw [hseq₂, hseq, if_neg (not_not.mpr rfl), htype₂, if_neg (by decide), if_pos rfl, hrecover]
    cases pass <;> rfl
  -- the block behind them
  have hround₃ : ∀ s : Scan, s.vol = passVolume fs pass w entries → s.i = entries.length + 3 →
      s.jsb = setSequence jsb (sSequence jsb + 1) → scanRound fs pass s = .done s := by
    intro s hvol hi hjsb
    unfold scanRound
    dsimp only
    rw [hvol, hi, hjsb, if_pos]
    rw [setSequence, sSequence, be32At_setBe32, hseq]
    exact hbehind
  rw [scanLoop, hround₁]
  dsimp only
  rw [scanLoop, hround₂]
  dsimp only
  rw [scanLoop, hround₃ _ rfl rfl rfl]

/-! ## The replayed blocks -/

/-- A position of the device is in a block. -/
def InBlock (fs : Fs) (b q : Nat) : Prop := b * fs.blksz ≤ q ∧ q < (b + 1) * fs.blksz

theorem disk_putBlock_of_notInBlock {b q : Nat} (h : ¬ InBlock fs b q) (v : Volume) (buf : Ptr) :
    (putBlock fs v b buf).disk q = v.disk q := by
  unfold InBlock at h
  rw [Nat.add_one_mul] at h
  unfold putBlock putExt4
  split_ifs
  · rfl
  · exact if_neg (by omega)

theorem inBlock_self {b i : Nat} (hi : i < fs.blksz) : InBlock fs b (b * fs.blksz + i) := by
  unfold InBlock
  rw [Nat.add_one_mul]
  omega

theorem inBlock_unique {b b' q : Nat} (h : InBlock fs b q) (h' : InBlock fs b' q) : b = b' := by
  have hpos : 0 < fs.blksz := by
    by_contra h0
    rw [InBlock, Nat.le_zero.mp (Nat.le_of_not_gt h0)] at h
    omega
  have hdiv : ∀ {c}, InBlock fs c q → q / fs.blksz = c := fun hc =>
    Nat.div_eq_of_lt_le hc.1 hc.2
  exact (hdiv h).symm.trans (hdiv h')

/-- What one entry makes of the device. -/
def entryWrite (fs : Fs) (e : Entry) : Nat × List UInt8 :=
  (e.1.toNat * fs.blksz, e.2.bytes fs.blksz)

theorem disk_replay_of_notInBlock {q : Nat} (h : ∀ e ∈ entries, ¬ InBlock fs e.1.toNat q)
    (w : Volume) (i : Nat) : (replay fs w i entries).disk q = w.disk q := by
  induction entries generalizing w i with
  | nil => rfl
  | cons e entries ih =>
    obtain ⟨he, hentries⟩ := List.forall_mem_cons.mp h
    exact (ih hentries _ _).trans (disk_putBlock_of_notInBlock he w _)

/-- The blocks of a list of entries are on the device and none of them is one of the
first `n` blocks of the journal. -/
def Replayable (fs : Fs) (n : Nat) (entries : List Entry) : Prop :=
  ∀ e ∈ entries, (e.1.toNat + 1) * fs.blksz ≤ fs.size ∧ ∀ k < n, e.1.toNat ≠ fs.journalBlk k

/-- Each entry is written from its block of the journal. -/
theorem replay_writes {n i : Nat} (hheld : Held fs w (i + 1) entries)
    (h : Replayable fs n entries) (hroom : i + 1 + entries.length ≤ n) :
    (replay fs w i entries).writes = w.writes ++ entries.map (entryWrite fs) := by
  induction entries generalizing w i with
  | nil => exact (List.append_nil _).symm
  | cons e entries ih =>
    rw [List.length_cons] at hroom
    obtain ⟨⟨hdev, hjournal⟩, hentries⟩ := List.forall_mem_cons.mp h
    have hstep : Held fs (putBlock fs w e.1.toNat (blockAt fs w (fs.journalBlk (i + 1))))
        (i + 1 + 1) entries :=
      held_putBlock hheld.2 (fun k hk => (hjournal _ (by omega)).symm) _
    rw [replay, ih hstep hentries (by omega), putBlock_eq hdev, List.map_cons, entryWrite]
    dsimp only
    rw [Ptr.bytes_congr hheld.1, List.append_assoc, List.singleton_append]

theorem replay_blocks {n i : Nat} (hheld : Held fs w (i + 1) entries)
    (h : Replayable fs n entries) (hroom : i + 1 + entries.length ≤ n)
    (hnodup : (entries.map Prod.fst).Nodup) {e : Entry} (he : e ∈ entries) :
    SameBlock fs (blockAt fs (replay fs w i entries) e.1.toNat) e.2 := by
  induction entries generalizing w i with
  | nil => exact absurd he List.not_mem_nil
  | cons e' entries ih =>
    rw [List.length_cons] at hroom
    obtain ⟨⟨hdev, hjournal⟩, hentries⟩ := List.forall_mem_cons.mp h
    rw [List.map_cons, List.nodup_cons] at hnodup
    rcases List.mem_cons.mp he with rfl | he
    · intro j hj
      have hout : ∀ e' ∈ entries, ¬ InBlock fs e'.1.toNat (e.1.toNat * fs.blksz + j) := by
        intro e' he' hin
        have hne : e.1.toNat ≠ e'.1.toNat := fun heq =>
          hnodup.1 (UInt32.toNat_inj.mp heq ▸ List.mem_map_of_mem he')
        exact hne (inBlock_unique (inBlock_self hj) hin)
      have hkeep := disk_replay_of_notInBlock hout
        (putBlock fs w e.1.toNat (blockAt fs w (fs.journalBlk (i + 1)))) (i + 1)
      exact hkeep.trans ((blockAt_putBlock_self hdev w _ j hj).trans (hheld.1 j hj))
    · exact ih (held_putBlock hheld.2 (fun k hk => (hjournal _ (by omega)).symm) _) hentries
        (by omega) hnodup.2 he

/-! ## The passes -/

theorem needsRecovery_congr {p q : Ptr} (h : ∀ i < superblockSize, p i = q i) :
    needsRecovery p = needsRecovery q := by
  have hbytes : (p.add 96).bytes 4 = (q.add 96).bytes 4 :=
    Ptr.bytes_congr fun i hi => h (96 + i) (by unfold superblockSize; omega)
  rw [needsRecovery, needsRecovery, le32At, le32At, hbytes]

theorem checkJournalState_transaction (h : Journaled fs v w entries)
    (room : Room fs v entries.length) (inUse : InUse fs v) (hne : entries ≠ [])
    (hlen : entries.length ≤ maxJournalEntries) (hrev : w.revoked = [])
    (hsb : w.sb = w.disk.add superblockSize) (pass : Pass)
    (hbehind : SameBlock fs (blockAt fs (passVolume fs pass w entries)
      (fs.journalBlk (entries.length + 3))) (blockAt fs w (fs.journalBlk (entries.length + 3)))) :
    ∃ jsb, ∀ fuel ≥ 3, checkJournalState fs pass fuel w =
      some (some (finishPass fs pass (passVolume fs pass w entries) jsb)) := by
  have hblksz := room.blksz
  have hflag : needsRecovery w.sb = true := by
    rw [hsb, ← inUse.flagged]
    refine needsRecovery_congr fun i hi => h.low (superblockSize + i) (by omega)
  have hstart : sStart (journalSuperblock fs w) ≠ 0 := by
    rw [sStart, be32At_congr h.super (by omega)]
    exact inUse.started
  obtain ⟨jsb, hjsb⟩ : ∃ jsb, setBe32 (journalSuperblock fs w) 36
    (sFeatureCompat (journalSuperblock fs w) ||| 1) = jsb := ⟨_, rfl⟩
  have hfirst : sFirst jsb = 1 := by
    rw [← hjsb, sFirst, be32At_setBe32_of_ne _ _ (by omega), be32At_congr h.super (by omega)]
    exact room.first
  have hseq : sSequence jsb = sSequence (journalSuperblock fs v) := by
    rw [← hjsb, sSequence, be32At_setBe32_of_ne _ _ (by omega)]
    exact be32At_congr h.super (by omega)
  have hnext : hSequence (blockAt fs (passVolume fs pass w entries)
      (fs.journalBlk (entries.length + 3))) ≠ sSequence (journalSuperblock fs v) + 1 := by
    rw [hSequence, be32At_congr (hbehind.trans h.behind) (by omega)]
    exact room.behind
  refine ⟨setSequence jsb (sSequence jsb + 1), fun fuel hfuel => ?_⟩
  have hloop := scanLoop_transaction h hblksz hne hlen hrev pass hseq hnext hfuel
  unfold checkJournalState
  dsimp only
  rw [hflag, if_neg (by simpa using hstart), hjsb, hfirst]
  change (scanLoop fs pass fuel ⟨w, jsb, 1, false, false, 0⟩).map _ = _
  rw [hloop]
  rfl

def InSuperblock (q : Nat) : Prop := superblockSize ≤ q ∧ q < 2 * superblockSize

/-- The end of a `RECOVER` pass writes the two superblocks. -/
theorem finishPass_recover (hsize : 2 * superblockSize ≤ fs.size)
    (hdev : (fs.journalBlk 0 + 1) * fs.blksz ≤ fs.size) (v : Volume) (jsb : Ptr) :
    ∃ sb jsb' : Ptr,
      (finishPass fs .recover v jsb).writes = v.writes ++
        [(superblockSize, sb.bytes superblockSize),
          (fs.journalBlk 0 * fs.blksz, jsb'.bytes fs.blksz)] ∧
      ∀ q, ¬ InSuperblock q → ¬ InBlock fs (fs.journalBlk 0) q →
        (finishPass fs .recover v jsb).disk q = v.disk q := by
  unfold finishPass
  rw [if_pos rfl]
  dsimp only
  generalize setLe32 (v.disk.add superblockSize) 96 _ = sb
  generalize setSequence (setBe32 jsb 28 1) _ = jsb'
  have hput : putExt4 fs v superblockSize superblockSize sb = { v with
      disk := v.disk.write superblockSize superblockSize sb,
      writes := v.writes ++ [(superblockSize, sb.bytes superblockSize)] } := by
    rw [putExt4, if_neg (by omega)]
  rw [hput]
  refine ⟨sb, jsb', ?_, fun q hsuper hjournal => ?_⟩
  · rw [putBlock_eq hdev]
    dsimp only
    rw [List.append_assoc, List.singleton_append]
  · rw [disk_putBlock_of_notInBlock hjournal]
    unfold InSuperblock at hsuper
    exact if_neg (by omega)

/-! ## Logged blocks -/

theorem activeEntries_eq {journal : List Entry} (hlen : journal.length ≤ maxJournalEntries)
    (h : ∀ e ∈ journal, e.1 ≠ 0xFFFFFFFF) : activeEntries journal = journal := by
  rw [activeEntries, List.take_of_length_le hlen, List.takeWhile_eq_self_iff]
  exact fun e he => decide_eq_true (h e he)

theorem logJournal_extends {journal journal' : List Entry} {b : UInt32} {buf : Ptr}
    (h : logJournal journal b buf = some journal') : journal <+: journal' := by
  unfold logJournal at h
  split_ifs at h
  · cases h
    exact List.prefix_rfl
  · cases h
    exact List.prefix_append _ _

theorem logAll_extends {calls journal journal' : List Entry}
    (h : logAll journal calls = some journal') : journal <+: journal' := by
  induction calls generalizing journal with
  | nil =>
    cases h
    exact List.prefix_rfl
  | cons call calls ih =>
    obtain ⟨mid, hmid, hrest⟩ := Option.bind_eq_some_iff.mp h
    exact (logJournal_extends hmid).trans (ih hrest)

/-- The entries in use never name a block twice. -/
theorem logAll_nodup {calls journal journal' : List Entry}
    (h : logAll journal calls = some journal') (hne : ∀ e ∈ journal', e.1 ≠ 0xFFFFFFFF)
    (hnodup : (journal.map Prod.fst).Nodup) (hlen : journal.length ≤ maxJournalEntries) :
    (journal'.map Prod.fst).Nodup ∧ journal'.length ≤ maxJournalEntries := by
  induction calls generalizing journal with
  | nil =>
    cases h
    exact ⟨hnodup, hlen⟩
  | cons call calls ih =>
    obtain ⟨mid, hmid, hrest⟩ := Option.bind_eq_some_iff.mp h
    have hactive : activeEntries journal = journal :=
      activeEntries_eq hlen fun e he => hne e ((logAll_extends h).subset he)
    unfold logJournal at hmid
    rw [hactive] at hmid
    split_ifs at hmid with hfound hslot
    · cases hmid
      exact ih hrest hnodup hlen
    · cases hmid
      refine ih hrest ?_ ?_
      · rw [List.map_append, List.nodup_append]
        refine ⟨hnodup, List.nodup_singleton _, ?_⟩
        rintro b hb b' hb' rfl
        obtain ⟨e, he, heq⟩ := List.mem_map.mp hb
        rw [List.mem_singleton.mp hb'] at heq
        exact hfound (List.any_eq_true.mpr ⟨e, he, decide_eq_true heq⟩)
      · rw [List.length_append]
        exact hslot

/-! ## The round trip -/

theorem Held.mount {i : Nat} (h : Held fs w i entries) : Held fs (mount w) i entries := by
  induction entries generalizing i with
  | nil => trivial
  | cons e entries ih => exact ⟨h.1, ih h.2⟩

/-- After `ext4fs_update_journal` the two passes write the logged contents to the logged
blocks, then the superblock and the journal superblock, and nothing else. -/
def Replays (fs : Fs) (v : Volume) (journal : List Entry) : Prop :=
  ∃ final sb jsb, (∀ fuel ≥ 3,
      checkJournal fs fuel (mount (updateJournal fs v journal)) = some (some final)) ∧
    final.writes = journal.map (entryWrite fs) ++
      [(superblockSize, sb), (fs.journalBlk 0 * fs.blksz, jsb)] ∧
    sb.length = superblockSize ∧ jsb.length = fs.blksz ∧
    (∀ e ∈ journal, ∀ i < fs.blksz, ¬ InSuperblock (e.1.toNat * fs.blksz + i) →
      final.disk (e.1.toNat * fs.blksz + i) = e.2 i) ∧
    ∀ q, (∀ e ∈ journal, ¬ InBlock fs e.1.toNat q) → ¬ InSuperblock q →
      ¬ InBlock fs (fs.journalBlk 0) q → final.disk q = (updateJournal fs v journal).disk q

/-- The two passes over a transaction. -/
theorem checkJournal_transaction (h : Journaled fs v w entries)
    (room : Room fs v entries.length) (inUse : InUse fs v) (hne : entries ≠ [])
    (hlen : entries.length ≤ maxJournalEntries) (hrev : w.revoked = [])
    (hsb : w.sb = w.disk.add superblockSize)
    (hblocks : Replayable fs (entries.length + 4) entries) :
    ∃ jsb, ∀ fuel ≥ 3, checkJournal fs fuel w =
      some (some (finishPass fs .recover (replay fs w 1 entries) jsb)) := by
  obtain ⟨_, hscan⟩ :=
    checkJournalState_transaction h room inUse hne hlen hrev hsb .scan fun _ _ => rfl
  -- the block behind the commit block is not one of those that are replayed
  have hkeep : SameBlock fs
      (blockAt fs (passVolume fs .recover w entries) (fs.journalBlk (entries.length + 3)))
      (blockAt fs w (fs.journalBlk (entries.length + 3))) := by
    intro i hi
    refine disk_replay_of_notInBlock (fun e he hin => ?_) w 1
    exact (hblocks e he).2 _ (by omega) (inBlock_unique hin (inBlock_self hi))
  obtain ⟨jsb, hrecover⟩ :=
    checkJournalState_transaction h room inUse hne hlen hrev hsb .recover hkeep
  refine ⟨jsb, fun fuel hfuel => ?_⟩
  rw [checkJournal, hscan fuel hfuel]
  exact hrecover fuel hfuel

/-- What `ext4fs_log_journal` accepted is replayed, when its blocks are on the device and
none of them is a block of the journal. -/
theorem journal_round_trip {calls journal : List Entry} (hlog : logAll [] calls = some journal)
    (hne : journal ≠ []) (room : Room fs v journal.length) (inUse : InUse fs v)
    (hblocks : Replayable fs (journal.length + 4) journal) : Replays fs v journal := by
  have hfree : ∀ e ∈ journal, e.1 ≠ 0xFFFFFFFF := by
    intro e he heq
    have hdev := (hblocks e he).1
    rw [heq] at hdev
    exact absurd room.count (Nat.not_lt.mpr hdev)
  obtain ⟨hnodup, hlen⟩ := logAll_nodup hlog hfree List.nodup_nil (Nat.zero_le _)
  have hwritten := journaled_updateJournal (activeEntries_eq hlen hfree) room
  have h : Journaled fs v (mount (updateJournal fs v journal)) journal :=
    ⟨hwritten.super, hwritten.desc, hwritten.held.mount, hwritten.commit, hwritten.behind,
      hwritten.low⟩
  obtain ⟨jsb, hcheck⟩ := checkJournal_transaction h room inUse hne hlen rfl rfl hblocks
  have hheld : Held fs (mount (updateJournal fs v journal)) (1 + 1) journal := h.held
  obtain ⟨sb, jsb', hwrites, hdisk⟩ := finishPass_recover room.size (room.onDevice 0 (by omega))
    (replay fs (mount (updateJournal fs v journal)) 1 journal) jsb
  refine ⟨_, sb.bytes superblockSize, jsb'.bytes fs.blksz, hcheck, ?_, Ptr.length_bytes _ _,
    Ptr.length_bytes _ _, ?_, ?_⟩
  · rw [hwrites, replay_writes hheld hblocks (by omega)]
    rfl
  · intro e he i hi hsuper
    have hjournal : ¬ InBlock fs (fs.journalBlk 0) (e.1.toNat * fs.blksz + i) := fun hin =>
      (hblocks e he).2 0 (by omega) (inBlock_unique (inBlock_self hi) hin)
    rw [hdisk _ hsuper hjournal]
    exact replay_blocks hheld hblocks (by omega) hnodup he i hi
  · intro q hout hsuper hjournal
    rw [hdisk q hsuper hjournal]
    exact disk_replay_of_notInBlock hout _ _

end

/-- A volume of 64 blocks whose journal is in its blocks 10, 11, … -/
def smallFs : Fs := ⟨1024, 64 * 1024, (10 + ·)⟩

/-- Its bytes: `s_first`, `s_start` and the flag in the superblock. -/
def smallVolume (started : Bool) : Volume where
  disk := fun q =>
    if q = 10 * 1024 + 23 then 1 else if q = 10 * 1024 + 31 then started.toUInt8
    else if q = 1024 + 96 then 4 else 0
  sb := fun _ => 0
  revoked := []
  writes := []

theorem room_small (started : Bool) : Room smallFs (smallVolume started) 2 where
  blksz := le_rfl
  count := by decide
  size := by decide
  inj := fun _ _ _ _ h => Nat.add_left_cancel h
  onDevice := by
    intro i hi
    change (10 + i + 1) * 1024 ≤ 64 * 1024
    omega
  super := by
    intro i hi
    change 2 * 1024 ≤ (10 + i) * 1024
    omega
  first := by cases started <;> decide
  behind := by cases started <;> decide

theorem inUse_small : InUse smallFs (smallVolume true) := ⟨by decide, by decide⟩

theorem journal_round_trip_small :
    Replays smallFs (smallVolume true) [(20, fun _ => 7), (30, fun _ => 8)] := by
  have hlog : logAll [] [(20, fun _ => 7), (30, fun _ => 8), (20, fun _ => 9)] =
      some [(20, fun _ => 7), (30, fun _ => 8)] := rfl
  refine journal_round_trip hlog (List.cons_ne_nil _ _) (room_small true) inUse_small ?_
  intro e he
  simp only [List.mem_cons, List.not_mem_nil, or_false] at he
  rcases he with rfl | rfl
  · refine ⟨by decide, fun k hk => ?_⟩
    change k < 6 at hk
    change 20 ≠ 10 + k
    omega
  · refine ⟨by decide, fun k hk => ?_⟩
    change k < 6 at hk
    change 30 ≠ 10 + k
    omega

/-- The number of writes of the two passes, and a byte of block 20 after them. -/
def smallReplay (started : Bool) (journal : List Entry) : Option (Option (Nat × UInt8)) :=
  (checkJournal smallFs 3 (mount (updateJournal smallFs (smallVolume started) journal))).map
    (·.map fun final => (final.writes.length, final.disk (20 * 1024)))

theorem smallReplay_of_replays {started : Bool} {journal : List Entry}
    (h : Replays smallFs (smallVolume started) journal) : ∃ b,
      smallReplay started journal = some (some (journal.length + 2, b)) ∧
      ∀ c : UInt8, (20, fun _ => c) ∈ journal → b = c := by
  obtain ⟨final, sb, jsb, hcheck, hwrites, -, -, hblocks, -⟩ := h
  refine ⟨final.disk (20 * 1024), ?_, fun c hc => ?_⟩
  · rw [smallReplay, hcheck 3 le_rfl]
    simp [hwrites]
  · have hpos : (20 : UInt32).toNat * smallFs.blksz + 0 = 20 * 1024 := by decide
    have hbyte := hblocks (20, fun _ => c) hc 0 (by decide)
    rw [hpos] at hbyte
    exact hbyte (by unfold InSuperblock; decide)

/-- A block of the journal that is logged is replayed over the contents of another one, a
block behind the end of the device is not written, and nothing is replayed when the
journal superblock says that the journal is empty. -/
theorem journal_not_replayed :
    (Room smallFs (smallVolume true) 2 ∧ InUse smallFs (smallVolume true) ∧
      logAll [] [(13, fun _ => 7), (20, fun _ => 8)] =
        some [(13, fun _ => 7), (20, fun _ => 8)] ∧
      ¬ Replays smallFs (smallVolume true) [(13, fun _ => 7), (20, fun _ => 8)] ∧
      logAll [] [(64, fun _ => 7), (20, fun _ => 8)] =
        some [(64, fun _ => 7), (20, fun _ => 8)] ∧
      ¬ Replays smallFs (smallVolume true) [(64, fun _ => 7), (20, fun _ => 8)]) ∧
    Room smallFs (smallVolume false) 2 ∧
      logAll [] [(20, fun _ => 7), (30, fun _ => 8)] =
        some [(20, fun _ => 7), (30, fun _ => 8)] ∧
      ¬ Replays smallFs (smallVolume false) [(20, fun _ => 7), (30, fun _ => 8)] := by
  refine ⟨⟨room_small true, inUse_small, rfl, fun h => ?_, rfl, fun h => ?_⟩, room_small false,
    rfl, fun h => ?_⟩
  · obtain ⟨b, hreplay, hb⟩ := smallReplay_of_replays h
    have hrun : smallReplay true [(13, fun _ => 7), (20, fun _ => 8)] = some (some (4, 7)) := by
      decide
    rw [hrun, hb 8 (by simp)] at hreplay
    exact absurd hreplay (by decide)
  · obtain ⟨b, hreplay, -⟩ := smallReplay_of_replays h
    have hrun : smallReplay true [(64, fun _ => 7), (20, fun _ => 8)] = some (some (3, 8)) := by
      decide
    rw [hrun] at hreplay
    exact absurd hreplay (by simp)
  · obtain ⟨b, hreplay, -⟩ := smallReplay_of_replays h
    have hrun : smallReplay false [(20, fun _ => 7), (30, fun _ => 8)] = some (some (2, 0)) := by
      decide
    rw [hrun] at hreplay
    exact absurd hreplay (by simp)

end UBoot.Ext4
