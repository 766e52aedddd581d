import UBoot.Ext4.Journal
import Mathlib.Data.List.Nodup

/-!
# What the journal writes, recovery replays

The tags of the descriptor block are read in the order in which they were laid out,
one data block for each, and the block behind the commit block ends the recovery.
-/

namespace UBoot.Ext4

open Verification

/-! ## Fields -/

section

variable {p q : Ptr} {n : Nat}

theorem be32At_congr (h : ∀ i < n, p i = q i) {offset : Nat} (hoff : offset + 4 ≤ n) :
    be32At p offset = be32At q offset := by
  have hbytes : (p.add offset).bytes 4 = (q.add offset).bytes 4 :=
    Ptr.bytes_congr fun i hi => h (offset + i) (by omega)
  rw [be32At, be32At, hbytes]

theorem be32At_eq {offset : Nat} {x : UInt32} (h : (p.add offset).bytes 4 = beBytes 4 x.toNat) :
    be32At p offset = x := by
  rw [be32At, h, beValue_beBytes, Nat.mod_eq_of_lt (show x.toNat < 256 ^ 4 from x.toNat_lt),
    UInt32.ofNat_toNat]

theorem be32At_setBe32 (p : Ptr) (offset : Nat) (x : UInt32) :
    be32At (setBe32 p offset x) offset = x := by
  apply be32At_eq
  rw [setBe32, Ptr.bytes_write_self]
  have hlen := length_beBytes 4 x.toNat
  conv => lhs; arg 2; rw [← hlen]
  exact Ptr.bytes_ofList _

theorem le32At_setLe32 (p : Ptr) (offset : Nat) (x : UInt32) :
    le32At (setLe32 p offset x) offset = x := by
  have hbytes : ((setLe32 p offset x).add offset).bytes 4 = leBytes 4 x.toNat := by
    rw [setLe32, Ptr.bytes_write_self]
    have hlen := length_leBytes 4 x.toNat
    conv => lhs; arg 2; rw [← hlen]
    exact Ptr.bytes_ofList _
  rw [le32At, hbytes, leValue_leBytes,
    Nat.mod_eq_of_lt (show x.toNat < 256 ^ 4 from x.toNat_lt), UInt32.ofNat_toNat]

theorem be32At_setBe32_of_ne (p : Ptr) {offset offset' : Nat} (x : UInt32)
    (h : offset' + 4 ≤ offset ∨ offset + 4 ≤ offset') :
    be32At (setBe32 p offset x) offset' = be32At p offset' := by
  rw [be32At, setBe32, Ptr.bytes_write_of_disjoint _ _ h, be32At]

end

/-! ## Blocks -/

section

variable {fs : Fs} {v : Volume}

/-- Two buffers hold the same block. -/
def SameBlock (fs : Fs) (p q : Ptr) : Prop := ∀ i < fs.blksz, p i = q i

theorem putBlock_eq {b : Nat} (h : (b + 1) * fs.blksz ≤ fs.size) (v : Volume) (buf : Ptr) :
    putBlock fs v b buf = { v with
      disk := v.disk.write (b * fs.blksz) fs.blksz buf,
      writes := v.writes ++ [(b * fs.blksz, buf.bytes fs.blksz)] } := by
  rw [Nat.add_one_mul] at h
  rw [putBlock, putExt4, if_neg (by omega)]

theorem blockAt_putBlock_self {b : Nat} (h : (b + 1) * fs.blksz ≤ fs.size) (v : Volume)
    (buf : Ptr) : SameBlock fs (blockAt fs (putBlock fs v b buf) b) buf := by
  intro i hi
  rw [putBlock_eq h, blockAt]
  dsimp only
  rw [Ptr.add, Ptr.write, if_pos (by omega), Nat.add_sub_cancel_left]

/-- A block is not changed by a write of another one. -/
theorem blockAt_putBlock_of_ne {b b' : Nat} (hne : b ≠ b') (v : Volume) (buf : Ptr) :
    SameBlock fs (blockAt fs (putBlock fs v b' buf) b) (blockAt fs v b) := by
  intro i hi
  have hdisjoint : b * fs.blksz + fs.blksz ≤ b' * fs.blksz ∨
      b' * fs.blksz + fs.blksz ≤ b * fs.blksz := by
    rcases Nat.lt_or_gt_of_ne hne with hlt | hlt
    · have hle := Nat.mul_le_mul_right fs.blksz (Nat.succ_le_of_lt hlt)
      rw [Nat.succ_mul] at hle
      exact .inl hle
    · have hle := Nat.mul_le_mul_right fs.blksz (Nat.succ_le_of_lt hlt)
      rw [Nat.succ_mul] at hle
      exact .inr hle
  unfold putBlock putExt4 blockAt
  split_ifs
  · rfl
  · dsimp only
    rw [Ptr.add, Ptr.write, if_neg (by omega)]
    rfl

theorem SameBlock.trans {p q r : Ptr} (h : SameBlock fs p q) (h' : SameBlock fs q r) :
    SameBlock fs p r := fun i hi => (h i hi).trans (h' i hi)

theorem putBlock_revoked (v : Volume) (b : Nat) (buf : Ptr) :
    (putBlock fs v b buf).revoked = v.revoked := by
  unfold putBlock putExt4
  split_ifs <;> rfl

theorem putBlock_sb (fs : Fs) (v : Volume) (b : Nat) (buf : Ptr) :
    (putBlock fs v b buf).sb = v.sb := by
  rw [putBlock, putExt4]
  split_ifs <;> rfl

end

/-! ## Tags -/

/-- The tags of the entries are at an offset, the last one marked. -/
def Tagged (p : Ptr) : Nat → List Entry → Prop
  | _, [] => False
  | ofs, [e] => be32At p ofs = e.1 ∧ be32At p (ofs + 4) = 8
  | ofs, e :: e' :: entries =>
    be32At p ofs = e.1 ∧ be32At p (ofs + 4) = 2 ∧ Tagged p (ofs + 8) (e' :: entries)

theorem journalTags_cons (e e' : Entry) (entries : List Entry) :
    journalTags (e :: e' :: entries) = (e.1, 2) :: journalTags (e' :: entries) := by
  simp [journalTags]

theorem tag_at {p : Ptr} {ofs m : Nat} {tag : UInt32 × UInt32} {rest : List UInt8}
    (h : (p.add ofs).bytes (8 + m) = tagBytes tag ++ rest) :
    be32At p ofs = tag.1 ∧ be32At p (ofs + 4) = tag.2 ∧ (p.add (ofs + 8)).bytes m = rest := by
  rw [show 8 + m = 4 + (4 + m) by omega, Ptr.bytes_add, Ptr.bytes_add, Ptr.add_add, Ptr.add_add,
    tagBytes, List.append_assoc] at h
  obtain ⟨hblock, h⟩ := List.append_inj h (by simp)
  obtain ⟨hflags, hrest⟩ := List.append_inj h (by simp)
  exact ⟨be32At_eq hblock, be32At_eq hflags, hrest⟩

/-- The tags that are laid out are found. -/
theorem tagged_of_bytes {p : Ptr} {entries : List Entry} (hne : entries ≠ []) {ofs : Nat}
    (h : (p.add ofs).bytes (8 * entries.length) = (journalTags entries).flatMap tagBytes) :
    Tagged p ofs entries := by
  induction entries generalizing ofs with
  | nil => exact absurd rfl hne
  | cons e entries ih =>
    cases entries with
    | nil =>
      obtain ⟨hblock, hflags, -⟩ := @tag_at p ofs 0 (e.1, 8) [] h
      exact ⟨hblock, hflags⟩
    | cons e' entries =>
      rw [journalTags_cons, List.flatMap_cons, List.length_cons, Nat.mul_add_one,
        Nat.add_comm] at h
      obtain ⟨hblock, hflags, hrest⟩ := tag_at h
      exact ⟨hblock, hflags, ih (List.cons_ne_nil _ _) hrest⟩

/-- The loop over the tags counts one block for each. -/
theorem skipTags_tagged {fs : Fs} {p : Ptr} {entries : List Entry} {ofs fuel : Nat}
    (h : Tagged p ofs entries) (hfits : ofs + 8 * entries.length ≤ fs.blksz)
    (hfuel : entries.length ≤ fuel) (i : Nat) :
    skipTags fs p fuel ofs i = i + entries.length := by
  induction entries generalizing ofs fuel i with
  | nil => exact h.elim
  | cons e entries ih =>
    obtain ⟨fuel, rfl⟩ := Nat.exists_eq_add_of_le' (Nat.lt_of_lt_of_le (Nat.succ_pos _) hfuel)
    rw [List.length_cons] at hfits hfuel
    unfold skipTags
    dsimp only
    rw [if_neg (by omega)]
    cases entries with
    | nil =>
      rw [h.2]
      rfl
    | cons e' entries =>
      obtain ⟨-, hflags, hrest⟩ := h
      rw [hflags, if_pos (by decide), if_neg (by decide), ih hrest (by omega) (by omega)]
      rw [List.length_cons (a := e)]
      omega

/-- The blocks with the given numbers are taken from the journal behind its block `i`. -/
def replay (fs : Fs) (v : Volume) (i : Nat) : List Entry → Volume
  | [] => v
  | e :: entries =>
    replay fs (putBlock fs v e.1.toNat (blockAt fs v (fs.journalBlk (i + 1)))) (i + 1) entries

theorem recoverTags_tagged {fs : Fs} {p : Ptr} {entries : List Entry} {ofs fuel : Nat}
    (h : Tagged p ofs entries) (hfits : ofs + 8 * entries.length ≤ fs.blksz)
    (hfuel : entries.length ≤ fuel) (i : Nat) {v : Volume} (hrev : v.revoked = []) :
    recoverTags fs p fuel ofs i v = replay fs v i entries := by
  induction entries generalizing ofs fuel i v with
  | nil => exact h.elim
  | cons e entries ih =>
    obtain ⟨fuel, rfl⟩ := Nat.exists_eq_add_of_le' (Nat.lt_of_lt_of_le (Nat.succ_pos _) hfuel)
    rw [List.length_cons] at hfits hfuel
    have hcheck : ∀ b seq, checkBlknrForRevoke v.revoked b seq = false := by
      rw [hrev]
      intro _ _
      rfl
    unfold recoverTags
    dsimp only
    rw [if_neg (by omega), hcheck]
    cases entries with
    | nil =>
      obtain ⟨hblock, hflags⟩ := h
      rw [hblock, hflags]
      rfl
    | cons e' entries =>
      obtain ⟨hblock, hflags, hrest⟩ := h
      rw [hblock, hflags, if_pos (by decide), if_neg (by decide), if_neg (by decide),
        ih hrest (by omega) (by omega) _ ((putBlock_revoked v _ _).trans hrev)]
      rfl

/-! ## The transaction on the device -/

/-- A journal with room for `n` blocks: its blocks are distinct, on the device and not
those of the superblock, and the block behind the transaction does not carry the next
sequence number. The count of the blocks of the device has 32 bits. -/
structure Room (fs : Fs) (v : Volume) (n : Nat) : Prop where
  blksz : 1024 ≤ fs.blksz
  count : fs.size < 2 ^ 32 * fs.blksz
  size : 2 * superblockSize ≤ fs.size
  inj : ∀ i ≤ n + 3, ∀ j ≤ n + 3, fs.journalBlk i = fs.journalBlk j → i = j
  onDevice : ∀ i ≤ n + 3, (fs.journalBlk i + 1) * fs.blksz ≤ fs.size
  super : ∀ i ≤ n + 3, 2 * superblockSize ≤ fs.journalBlk i * fs.blksz
  first : sFirst (journalSuperblock fs v) = 1
  behind : hSequence (blockAt fs v (fs.journalBlk (n + 3))) ≠ sSequence (journalSuperblock fs v) + 1

/-- The journal is in use, as a `RECOVER` pass leaves it. -/
structure InUse (fs : Fs) (v : Volume) : Prop where
  started : sStart (journalSuperblock fs v) ≠ 0
  flagged : needsRecovery (v.disk.add superblockSize) = true

/-- The contents of the entries are in the journal from its block `i` on. -/
def Held (fs : Fs) (v : Volume) : Nat → List Entry → Prop
  | _, [] => True
  | i, e :: entries =>
    SameBlock fs (blockAt fs v (fs.journalBlk i)) e.2 ∧ Held fs v (i + 1) entries

section

variable {fs : Fs} {v : Volume} {n : Nat} {entries : List Entry}

theorem blockAt_putEntries {b idx : Nat} (h : ∀ k < entries.length, b ≠ fs.journalBlk (idx + k)) :
    SameBlock fs (blockAt fs (putEntries fs v idx entries) b) (blockAt fs v b) := by
  induction entries generalizing v idx with
  | nil => exact fun _ _ => rfl
  | cons e entries ih =>
    have hrest : ∀ k < entries.length, b ≠ fs.journalBlk (idx + 1 + k) := by
      intro k hk
      rw [Nat.add_assoc, Nat.add_comm 1 k]
      exact h (k + 1) (Nat.succ_lt_succ hk)
    exact (ih hrest).trans (blockAt_putBlock_of_ne (h 0 (Nat.succ_pos _)) v e.2)

theorem held_putEntries (room : Room fs v n) {w : Volume} {idx : Nat}
    (hidx : idx + entries.length ≤ n + 3) : Held fs (putEntries fs w idx entries) idx entries := by
  induction entries generalizing w idx with
  | nil => trivial
  | cons e entries ih =>
    rw [List.length_cons] at hidx
    have hkeep : SameBlock fs
        (blockAt fs (putEntries fs (putBlock fs w (fs.journalBlk idx) e.2) (idx + 1) entries)
          (fs.journalBlk idx))
        (blockAt fs (putBlock fs w (fs.journalBlk idx) e.2) (fs.journalBlk idx)) := by
      refine blockAt_putEntries fun k hk heq => ?_
      have := room.inj idx (by omega) (idx + 1 + k) (by omega) heq
      omega
    exact ⟨hkeep.trans (blockAt_putBlock_self (room.onDevice idx (by omega)) w e.2), ih (by omega)⟩

theorem disk_putBlock_low {b q : Nat} (h : q < b * fs.blksz) (v : Volume) (buf : Ptr) :
    (putBlock fs v b buf).disk q = v.disk q := by
  unfold putBlock putExt4
  split_ifs
  · rfl
  · exact if_neg (by omega)

theorem disk_putEntries_low (room : Room fs v n) {w : Volume} {idx q : Nat}
    (hidx : idx + entries.length ≤ n + 3) (hq : q < 2 * superblockSize) :
    (putEntries fs w idx entries).disk q = w.disk q := by
  induction entries generalizing w idx with
  | nil => rfl
  | cons e entries ih =>
    rw [List.length_cons] at hidx
    have hsuper := room.super idx (by omega)
    exact (ih (by omega)).trans (disk_putBlock_low (by omega) w e.2)

/-- The transaction of the entries, written to the journal of a volume. -/
structure Journaled (fs : Fs) (v w : Volume) (entries : List Entry) : Prop where
  super : SameBlock fs (journalSuperblock fs w) (journalSuperblock fs v)
  desc : SameBlock fs (blockAt fs w (fs.journalBlk 1)) (Ptr.ofList
    (journalHeader 1 (sSequence (journalSuperblock fs v)) ++
      (journalTags entries).flatMap tagBytes))
  held : Held fs w 2 entries
  commit : SameBlock fs (blockAt fs w (fs.journalBlk (entries.length + 2))) (Ptr.ofList
    (journalHeader 2 (sSequence (journalSuperblock fs v))))
  behind : SameBlock fs (blockAt fs w (fs.journalBlk (entries.length + 3)))
    (blockAt fs v (fs.journalBlk (entries.length + 3)))
  low : ∀ q < 2 * superblockSize, w.disk q = v.disk q

theorem held_putBlock {b i : Nat} (h : Held fs v i entries)
    (hne : ∀ k < entries.length, fs.journalBlk (i + k) ≠ b) (buf : Ptr) :
    Held fs (putBlock fs v b buf) i entries := by
  induction entries generalizing i with
  | nil => trivial
  | cons e entries ih =>
    refine ⟨(blockAt_putBlock_of_ne (hne 0 (Nat.succ_pos _)) v buf).trans h.1, ih h.2 ?_⟩
    intro k hk
    rw [Nat.add_assoc, Nat.add_comm 1 k]
    exact hne (k + 1) (Nat.succ_lt_succ hk)

theorem sSequence_congr (hblksz : 1024 ≤ fs.blksz) {p q : Ptr} (h : SameBlock fs p q) :
    sSequence p = sSequence q :=
  be32At_congr h (by omega)

/-- `ext4fs_update_journal` writes the transaction. -/
theorem journaled_updateJournal {journal : List Entry} (hactive : activeEntries journal = entries)
    (room : Room fs v entries.length) : Journaled fs v (updateJournal fs v journal) entries := by
  have hne : ∀ i ≤ entries.length + 3, ∀ j ≤ entries.length + 3, i ≠ j →
      fs.journalBlk i ≠ fs.journalBlk j :=
    fun i hi j hj hij heq => hij (room.inj i hi j hj heq)
  unfold updateJournal
  rw [hactive]
  dsimp only
  rw [Nat.add_comm 2]
  generalize hseq : sSequence (journalSuperblock fs v) = seq
  generalize hv₁ : updateDescriptorBlock fs v entries (fs.journalBlk 1) = v₁
  generalize hv₂ : putEntries fs v₁ 2 entries = v₂
  -- the blocks that are not written by a step
  have h₁ : ∀ i ≤ entries.length + 3, i ≠ 1 →
      SameBlock fs (blockAt fs v₁ (fs.journalBlk i)) (blockAt fs v (fs.journalBlk i)) := by
    intro i hi hi1
    rw [← hv₁]
    exact blockAt_putBlock_of_ne (hne i hi 1 (by omega) hi1) v _
  have h₂ : ∀ i ≤ entries.length + 3, (i < 2 ∨ entries.length + 2 ≤ i) →
      SameBlock fs (blockAt fs v₂ (fs.journalBlk i)) (blockAt fs v₁ (fs.journalBlk i)) := by
    intro i hi hout
    rw [← hv₂]
    exact blockAt_putEntries fun k hk => hne i hi (2 + k) (by omega) (by omega)
  have h₃ : ∀ i ≤ entries.length + 3, i ≠ entries.length + 2 → SameBlock fs
      (blockAt fs (updateCommitBlock fs v₂ (fs.journalBlk (entries.length + 2))) (fs.journalBlk i))
      (blockAt fs v₂ (fs.journalBlk i)) := by
    intro i hi hne'
    exact blockAt_putBlock_of_ne (hne i hi _ (by omega) hne') v₂ _
  have hseq₂ : sSequence (journalSuperblock fs v₂) = seq := by
    rw [← hseq]
    exact sSequence_congr room.blksz ((h₂ 0 (by omega) (by omega)).trans (h₁ 0 (by omega) (by omega)))
  refine ⟨?_, ?_, ?_, ?_, ?_, ?_⟩
  · exact (h₃ 0 (by omega) (by omega)).trans
      ((h₂ 0 (by omega) (by omega)).trans (h₁ 0 (by omega) (by omega)))
  · refine (h₃ 1 (by omega) (by omega)).trans ((h₂ 1 (by omega) (by omega)).trans ?_)
    rw [← hv₁]
    exact blockAt_putBlock_self (room.onDevice 1 (by omega)) v _
  · refine held_putBlock ?_ (fun k hk => hne (2 + k) (by omega) _ (by omega) (by omega)) _
    rw [← hv₂]
    exact held_putEntries room (by omega)
  · unfold updateCommitBlock
    rw [hseq₂, ← hseq]
    exact blockAt_putBlock_self (room.onDevice (entries.length + 2) (by omega)) v₂ _
  · exact (h₃ (entries.length + 3) le_rfl (by omega)).trans
      ((h₂ (entries.length + 3) le_rfl (by omega)).trans
        (h₁ (entries.length + 3) le_rfl (by omega)))
  · intro q hq
    have hsuper := room.super
    have h2 := hsuper (entries.length + 2) (by omega)
    have h1 := hsuper 1 (by omega)
    unfold updateCommitBlock
    rw [disk_putBlock_low (by omega), ← hv₂, disk_putEntries_low room (by omega) hq, ← hv₁]
    exact disk_putBlock_low (by omega) v _

end

end UBoot.Ext4
