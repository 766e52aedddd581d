import UBoot.Ext4.Inodes

/-!
# Which inodes are found again

All functions agree on an inode, unless it is the last one of its group, or its number
is negative as an `int` and `ext4fs_read_inode` gets a negative offset for it.
-/

namespace UBoot.Ext4

open Verification

section

variable {T : InodeLayout} {v : Volume} {gdtable : Ptr} {ino : Nat}

/-! ## Records -/

theorem Consistent.blksz_pos (h : Consistent T v gdtable) : 0 < T.blksz := by
  obtain ⟨k, -, -, hk⟩ := h.blksz
  rw [hk]
  exact Nat.two_pow_pos k

theorem Consistent.desc_dvd (h : Consistent T v gdtable) : 32 ∣ T.blksz := by
  obtain ⟨k, hlow, -, hk⟩ := h.blksz
  rw [hk]
  exact Nat.pow_dvd_pow 2 (show 5 ≤ k by omega)

theorem Consistent.inodesz_pos (h : Consistent T v gdtable) : 0 < T.inodesz :=
  Nat.lt_of_lt_of_le (by decide) h.inodesz_ge

theorem Consistent.perBlock_mul (h : Consistent T v gdtable) :
    inodesPerBlock T * T.inodesz = T.blksz :=
  Nat.div_mul_cancel h.inodesz_dvd

theorem Consistent.perBlock_pos (h : Consistent T v gdtable) : 0 < inodesPerBlock T :=
  Nat.div_pos (Nat.le_of_dvd h.blksz_pos h.inodesz_dvd) h.inodesz_pos

theorem Consistent.perBlock_dvd_pow (h : Consistent T v gdtable) :
    (inodesPerBlock T : Int) ∣ 2 ^ 32 := by
  obtain ⟨k, -, hhigh, hk⟩ := h.blksz
  have hnat : inodesPerBlock T ∣ 2 ^ 32 :=
    (Dvd.intro _ h.perBlock_mul).trans (hk ▸ Nat.pow_dvd_pow 2 (by omega))
  exact_mod_cast hnat

theorem gdtableBlkno_eq (L : Layout) : gdtableBlkno L = firstDataBlock L + 1 := by
  rw [gdtableBlkno, firstDataBlock]
  split_ifs <;> rfl

/-- The descriptor of a group is read from the table on the device. -/
theorem blockgroup_at (h : Consistent T v gdtable) (disk : Ptr) (group k : Nat) :
    blockgroup T disk group k = disk (gdtableBlkno T.toLayout * T.blksz + (32 * group + k)) := by
  obtain ⟨d, hd⟩ := h.desc_dvd
  have hdiv : T.blksz / 32 = d := by rw [hd, Nat.mul_div_cancel_left _ (by decide)]
  have hmul : group / d * T.blksz = 32 * (d * (group / d)) := by
    rw [hd, Nat.mul_comm, Nat.mul_assoc]
  have hsum := Nat.div_add_mod group d
  rw [blockgroup, Ptr.add, hdiv, ← gdtableBlkno_eq, Nat.add_mul, hmul]
  congr 1
  omega

theorem inodeTableId_blockgroup (h : Consistent T v gdtable) {disk : Ptr}
    (hsame : ∀ k < 32 * T.noBlkgrp, disk (gdtableBlkno T.toLayout * T.blksz + k) =
      v.disk (gdtableBlkno T.toLayout * T.blksz + k)) {group : Nat} (hgroup : group < T.noBlkgrp) :
    le32At (blockgroup T disk group) 8 = inodeTableId gdtable group := by
  rw [inodeTableId, le32At, le32At]
  congr 2
  apply Ptr.bytes_congr
  intro i hi
  have hlt : 32 * group + (8 + i) < 32 * T.noBlkgrp := by omega
  change blockgroup T disk group (8 + i) = gdtable (32 * group + 8 + i)
  rw [blockgroup_at h, hsame _ hlt, ← h.loaded _ hlt, Nat.add_assoc]

/-- A number with which `ext4fs_read_inode` gets an offset that is not negative. -/
def Positive (T : InodeLayout) (ino : Nat) : Prop := ino ≤ 2 ^ 31 ∨ inodesPerBlock T ∣ ino - 1

theorem tmod_toInt (h : Consistent T v gdtable) (hlow : 1 ≤ ino) (hhigh : ino < 2 ^ 32) :
    (toInt (ino - 1)).tmod (inodesPerBlock T) = ↑((ino - 1) % inodesPerBlock T) ↔
      Positive T ino := by
  have hpos := h.perBlock_pos
  rw [toInt, Positive]
  split_ifs with hsmall
  · refine ⟨fun _ => .inl (by omega), fun _ => ?_⟩
    rw [← Int.ofNat_tmod]
  · have hneg : ((ino - 1 : Nat) : Int) - 2 ^ 32 < 0 := by omega
    have hdvd : (inodesPerBlock T : Int) ∣ ((ino - 1 : Nat) : Int) - 2 ^ 32 ↔
        inodesPerBlock T ∣ ino - 1 := by
      rw [← Int.natCast_dvd_natCast]
      refine ⟨fun hd => ?_, fun hd => Int.dvd_sub hd h.perBlock_dvd_pow⟩
      have hsum := Int.dvd_add hd h.perBlock_dvd_pow
      rwa [Int.sub_add_cancel] at hsum
    constructor
    · intro heq
      right
      by_contra hno
      have hne : (((ino - 1 : Nat) : Int) - 2 ^ 32).tmod (inodesPerBlock T) ≠ 0 :=
        fun h0 => hno (hdvd.mp (Int.dvd_of_tmod_eq_zero h0))
      have hle := Int.tmod_nonneg (inodesPerBlock T) (Int.neg_nonneg_of_nonpos hneg.le)
      rw [Int.neg_tmod] at hle
      omega
    · rintro (hle | hd)
      · omega
      · rw [Int.tmod_eq_zero_of_dvd (hdvd.mpr hd), Nat.mod_eq_zero_of_dvd hd]
        rfl

theorem ownGroup_lt (hlow : 1 ≤ ino) (hhigh : ino ≤ T.noBlkgrp * T.inodesPerGrp) :
    ownGroup T ino < T.noBlkgrp :=
  Nat.div_lt_of_lt_mul (by rw [Nat.mul_comm]; omega)

/-- The record of `ext4fs_read_inode`, while the table of descriptors is not changed. -/
theorem readPlace_eq_iff (h : Consistent T v gdtable) {disk : Ptr}
    (hsame : ∀ k < 32 * T.noBlkgrp, disk (gdtableBlkno T.toLayout * T.blksz + k) =
      v.disk (gdtableBlkno T.toLayout * T.blksz + k))
    (hlow : 1 ≤ ino) (hhigh : ino ≤ T.noBlkgrp * T.inodesPerGrp) :
    readPlace T disk ino = ownPlace T gdtable ino ↔ Positive T ino := by
  have hmod : ownIndex T ino % inodesPerBlock T = (ino - 1) % inodesPerBlock T :=
    Nat.mod_mod_of_dvd _ h.perBlock_dvd
  have hsz : (T.inodesz : Int) ≠ 0 := by
    have := h.inodesz_pos
    omega
  have hblkno := inodeTableId_blockgroup h hsame (ownGroup_lt hlow hhigh)
  rw [← tmod_toInt h hlow (Nat.lt_of_le_of_lt hhigh h.total), readPlace, ownPlace, Place.mk.injEq,
    hmod, Nat.cast_mul, mul_left_inj' hsz]
  refine and_iff_right ?_
  rw [ownGroup] at hblkno ⊢
  rw [hblkno]
  rfl

/-- The functions that divide first agree on all but the last inode of a group. -/
theorem div_eq_ownGroup (hlow : 1 ≤ ino) :
    ino / T.inodesPerGrp =
      if ino % T.inodesPerGrp = 0 then ownGroup T ino + 1 else ownGroup T ino := by
  obtain ⟨n, rfl⟩ := Nat.exists_eq_add_of_le' hlow
  rw [ownGroup, Nat.add_sub_cancel, Nat.succ_div]
  simp only [Nat.dvd_iff_mod_eq_zero]
  split_ifs <;> rfl

theorem itablePlace_eq_iff (h : Consistent T v gdtable) (hlow : 1 ≤ ino)
    (hhigh : ino ≤ T.noBlkgrp * T.inodesPerGrp) :
    itablePlace T gdtable ino = some (ownPlace T gdtable ino) ↔ ino % T.inodesPerGrp ≠ 0 := by
  have hown := ownGroup_lt hlow hhigh
  have hmod : ownIndex T ino % inodesPerBlock T = (ino - 1) % inodesPerBlock T :=
    Nat.mod_mod_of_dvd _ h.perBlock_dvd
  rw [itablePlace, div_eq_ownGroup hlow]
  dsimp only
  by_cases hlast : ino % T.inodesPerGrp = 0
  · rw [if_pos hlast]
    refine iff_of_false ?_ (not_not.mpr hlast)
    split_ifs with hout
    · exact fun heq => nomatch heq
    · intro heq
      have hblkno := congrArg Place.blkno (Option.some.inj heq)
      have hk : ownIndex T ino / inodesPerBlock T < T.inodesPerGrp / inodesPerBlock T :=
        Nat.div_lt_div_of_lt_of_dvd h.perBlock_dvd (Nat.mod_lt _ h.perGrp_pos)
      exact absurd (h.disjoint _ (Nat.lt_of_not_le hout) _ hown _ hk _ hk hblkno)
        (Nat.succ_ne_self _)
  · rw [if_neg hlast, if_neg (Nat.not_le_of_lt hown), ownPlace, hmod]
    exact iff_of_true rfl hlast

theorem bitPlace_eq (hlow : 1 ≤ ino) (hlast : ino % T.inodesPerGrp ≠ 0) :
    bitPlace T ino = ownBit T ino := by
  have hdiv := @div_eq_ownGroup T ino hlow
  rw [if_neg hlast] at hdiv
  have hsub : ino - ownGroup T ino * T.inodesPerGrp = ownIndex T ino + 1 := by
    have h1 := Nat.div_add_mod (ino - 1) T.inodesPerGrp
    have h2 := Nat.div_add_mod ino T.inodesPerGrp
    rw [hdiv] at h2
    rw [Nat.mul_comm, ownIndex]
    rw [← ownGroup] at h1
    omega
  rw [bitPlace, ownBit, hdiv, hsub]
  split_ifs with hzero
  · rw [BitPlace.mk.injEq]
    exact ⟨rfl, by omega, by omega⟩
  · rw [BitPlace.mk.injEq]
    exact ⟨rfl, by omega, by omega⟩

/-- A record that is written where it belongs is read back. -/
theorem readInode_writeInode (h : Consistent T v gdtable) (hlow : 1 ≤ ino)
    (hhigh : ino ≤ T.noBlkgrp * T.inodesPerGrp) (hlast : ino % T.inodesPerGrp ≠ 0)
    (hpos : Positive T ino) (buf : Ptr) :
    ∃ v', writeInode T v gdtable ino T.inodesz buf = some v' ∧
      readInode T v'.disk ino = buf.bytes inodeStructSize := by
  have hown := ownGroup_lt hlow hhigh
  have hplace := (itablePlace_eq_iff h hlow hhigh).mpr hlast
  have hk : ownIndex T ino / inodesPerBlock T < T.inodesPerGrp / inodesPerBlock T :=
    Nat.div_lt_div_of_lt_of_dvd h.perBlock_dvd (Nat.mod_lt _ h.perGrp_pos)
  have hin : ((ownPlace T gdtable ino).blkno + 1) * T.blksz ≤ T.size := h.inside _ hown _ hk
  have hoff : ownIndex T ino % inodesPerBlock T * T.inodesz + T.inodesz ≤ T.blksz := by
    rw [← Nat.succ_mul, ← h.perBlock_mul]
    exact Nat.mul_le_mul_right _ (Nat.mod_lt _ h.perBlock_pos)
  refine ⟨_, by rw [writeInode, hplace, Option.map_some], ?_⟩
  have hsame : ∀ buf, ∀ k < 32 * T.noBlkgrp,
      (putBlock T.toFs v (ownPlace T gdtable ino).blkno buf).disk
        (gdtableBlkno T.toLayout * T.blksz + k) =
          v.disk (gdtableBlkno T.toLayout * T.blksz + k) := by
    intro buf k hlt
    apply disk_putBlock_low
    have hbehind := h.behind _ hown
    have hle : (inodeTableId gdtable (ownGroup T ino)).toNat * T.blksz ≤
        (ownPlace T gdtable ino).blkno * T.blksz := Nat.mul_le_mul_right _ (Nat.le_add_right _ _)
    omega
  rw [readInode, (readPlace_eq_iff h (hsame _) hlow hhigh).mpr hpos]
  apply Ptr.bytes_congr
  intro i hi
  have hi' : i < T.inodesz := Nat.lt_of_lt_of_le hi h.inodesz_ge
  have haddr : ((ownPlace T gdtable ino).blkno * T.blksz + (ownPlace T gdtable ino).blkoff :
      Int).toNat = (ownPlace T gdtable ino).blkno * T.blksz +
        ownIndex T ino % inodesPerBlock T * T.inodesz := by
    have hoffset : (ownPlace T gdtable ino).blkoff =
        ((ownIndex T ino % inodesPerBlock T * T.inodesz : Nat) : Int) := rfl
    rw [hoffset, ← Int.natCast_mul, ← Int.natCast_add, Int.toNat_natCast]
  have hself := blockAt_putBlock_self hin v ((blockAt T.toFs v (ownPlace T gdtable ino).blkno).write
    (ownPlace T gdtable ino).blkoff.toNat T.inodesz buf)
    (ownIndex T ino % inodesPerBlock T * T.inodesz + i) (by omega)
  rw [haddr]
  refine (congrArg _ (Nat.add_assoc _ _ _)).trans (hself.trans ?_)
  have hoffset : (ownPlace T gdtable ino).blkoff.toNat =
      ownIndex T ino % inodesPerBlock T * T.inodesz := Int.toNat_natCast _
  rw [hoffset, Ptr.write, if_pos ⟨Nat.le_add_right _ _, Nat.add_lt_add_left hi' _⟩,
    Nat.add_sub_cancel_left]

end

/-! ## The bitmaps -/

section

variable {T : InodeLayout} {s s' s₁ : Session} {ino : Nat} {g byte bit : Nat}

/-- What a pass finds: it has looked only at groups without a free inode and at the group
of the inode, whose bitmap is empty now if it was not initialised. -/
structure Found (T : InodeLayout) (s s₁ : Session) (g byte bit : Nat) : Prop where
  group : g < T.noBlkgrp
  bit_lt : bit < 8
  index : 8 * byte + bit < T.inodesPerGrp
  ino : s₁.currInodeNo = 8 * byte + bit + 1 + g * T.inodesPerGrp
  clear : Clear (s.inodeBmaps g) (8 * byte + bit)
  bitmap : ∀ g' < T.noBlkgrp, ∀ i < T.inodesPerGrp,
    Clear (s₁.inodeBmaps g') i ↔ Clear (s.inodeBmaps g') i
  descriptors : ∀ k, ¬(32 * g + 18 ≤ k ∧ k < 32 * g + 20) →
    ¬(32 * g + 28 ≤ k ∧ k < 32 * g + 30) → s₁.gdtable k = s.gdtable k
  blkBmaps : s₁.blkBmaps = s.blkBmaps
  superblock : s₁.vol.sb = s.vol.sb

/-- An empty bitmap takes the place of one that is not initialised. -/
theorem initInodeBmap_spec (hperGrp : T.inodesPerGrp ≤ 8 * T.blksz)
    (hempty : bgFlags s.gdtable g &&& 1 ≠ 0 → ∀ pos < 8 * T.blksz, Clear (s.inodeBmaps g) pos) :
    (initInodeBmap T.toLayout s g).blkBmaps = s.blkBmaps ∧
      (initInodeBmap T.toLayout s g).vol.sb = s.vol.sb ∧
      (∀ k, ¬(32 * g + 18 ≤ k ∧ k < 32 * g + 20) →
        (initInodeBmap T.toLayout s g).gdtable k = s.gdtable k) ∧
      ∀ g', ∀ i < T.inodesPerGrp,
        Clear ((initInodeBmap T.toLayout s g).inodeBmaps g') i ↔ Clear (s.inodeBmaps g') i := by
  rw [initInodeBmap]
  split_ifs with hinit
  · exact ⟨rfl, rfl, fun _ _ => rfl, fun _ _ _ => Iff.rfl⟩
  · refine ⟨rfl, putBlock_sb _ _ _ _, fun k hk => setLe16_of_ne _ _ (by omega), fun g' i hi => ?_⟩
    change Clear (Function.update s.inodeBmaps g (fun _ => 0) g') i ↔ _
    obtain rfl | hne := eq_or_ne g' g
    · rw [Function.update_self]
      exact iff_of_true (clear_zero i) (hempty hinit i (by omega))
    · rw [Function.update_of_ne hne]

theorem initInodeBmap_currInodeNo (L : Layout) (s : Session) (g : Nat) :
    (initInodeBmap L s g).currInodeNo = s.currInodeNo := by
  rw [initInodeBmap]
  split_ifs <;> rfl

theorem findFirstInode_spec (hc : Counted T s) (hperGrp : T.inodesPerGrp ≤ 8 * T.blksz) {n i : Nat}
    (hn : i + n = T.noBlkgrp)
    (h : findFirstInode T.toLayout n i s = (s₁, some (g, byte, bit))) :
    Found T s s₁ g byte bit := by
  induction n generalizing i with
  | zero => exact nomatch (Prod.mk.inj h).2
  | succ n ih =>
    have hi : i < T.noBlkgrp := by omega
    rw [findFirstInode] at h
    by_cases hfree : freeInodes s.gdtable i = 0
    · rw [if_pos hfree] at h
      exact ih (by omega) h
    · rw [if_neg hfree] at h
      obtain ⟨hblk, hsb, hdesc, hbits⟩ := @initInodeBmap_spec T
        { s with gdtable := setItableUnused s.gdtable i (freeInodes s.gdtable i) } i hperGrp
        (fun hinit => hc.empty i hi (by
          rwa [bgFlags, setItableUnused, le16At_setLe16_of_ne _ _ (by omega)] at hinit))
      generalize hs₀ : initInodeBmap T.toLayout
        { s with gdtable := setItableUnused s.gdtable i (freeInodes s.gdtable i) } i = s₀
        at h hblk hsb hdesc hbits
      -- a group with a free inode has a clear bit
      obtain ⟨pos, hpos, hclear⟩ : ∃ pos < T.inodesPerGrp, Clear (s.inodeBmaps i) pos := by
        by_contra hno
        push Not at hno
        rw [← clearCount_eq_zero, ← hc.count i hi] at hno
        exact hfree (UInt16.toNat_inj.mp hno)
      have hclear₀ := (hbits i pos hpos).mpr hclear
      cases hzero : firstZero (s₀.inodeBmaps i) ((T.inodesPerGrp + 7) / 8) 0 with
      | none => exact absurd hclear₀ (firstZero_none hzero pos (Nat.zero_le _) (by omega))
      | some found =>
        obtain ⟨byte', bit'⟩ := found
        simp only [hzero] at h
        obtain ⟨rfl, hfound⟩ := Prod.mk.inj h
        cases hfound
        obtain ⟨hset, hbit, -⟩ := firstZero_spec hzero
        have hle := firstZero_least hzero pos (Nat.zero_le _) hclear₀
        have hindex : 8 * byte + bit < T.inodesPerGrp := by omega
        refine ⟨hi, hbit, hindex, rfl, ?_, fun g' _ j hj => hbits g' j hj,
          fun k hflags hunused => ?_, hblk, hsb⟩
        · exact (hbits g _ hindex).mp ((clear_at hbit).mpr hset)
        · rw [← @setLe16_of_ne s.gdtable (freeInodes s.gdtable g) (32 * g + 28) k
            (by omega)]
          exact hdesc k hflags

theorem inodeBit_eq (hlast : ino % T.inodesPerGrp ≠ 0) :
    inodeBit T.toLayout ino (ino / T.inodesPerGrp) =
      ((ino % T.inodesPerGrp - 1) / 8, (ino % T.inodesPerGrp - 1) % 8) := by
  have hsub : ino - ino / T.inodesPerGrp * T.inodesPerGrp = ino % T.inodesPerGrp := by
    have h := Nat.div_add_mod ino T.inodesPerGrp
    rw [Nat.mul_comm] at h
    omega
  rw [inodeBit, hsub]
  split_ifs with hzero
  · exact Prod.ext (by change _ / 8 - 1 = _; omega) (by change 7 = _; omega)
  · exact Prod.ext (by change _ / 8 = _; omega) (by change _ % 8 - 1 = _; omega)

/-- The later passes take the next inode whose bit is clear. -/
theorem findNextInode_spec (hc : Counted T s) (hperGrp : T.inodesPerGrp ≤ 8 * T.blksz)
    (hpos : 0 < T.inodesPerGrp) {fuel curr : Nat}
    (h : findNextInode T.toLayout fuel { s with currInodeNo := curr } =
      some (s₁, some (g, byte, bit))) :
    Found T s s₁ g byte bit := by
  induction fuel generalizing curr with
  | zero => exact nomatch h
  | succ fuel ih =>
    rw [findNextInode] at h
    by_cases hout : T.noBlkgrp ≤ (curr + 1) / T.inodesPerGrp ∨ (curr + 1) % T.inodesPerGrp = 0
    · rw [if_pos hout] at h
      exact nomatch h
    · rw [if_neg hout] at h
      rw [not_or, not_le] at hout
      obtain ⟨hgroup, hlast⟩ := hout
      have hmod := Nat.mod_lt (curr + 1) hpos
      obtain ⟨hblk, hsb, hdesc, hbits⟩ := @initInodeBmap_spec T
        { s with currInodeNo := curr + 1 } ((curr + 1) / T.inodesPerGrp) hperGrp
        (hc.empty _ hgroup)
      simp only [inodeBit_eq hlast] at h
      have hpos8 : 8 * (((curr + 1) % T.inodesPerGrp - 1) / 8) +
          ((curr + 1) % T.inodesPerGrp - 1) % 8 = (curr + 1) % T.inodesPerGrp - 1 := by omega
      have hindex : (curr + 1) % T.inodesPerGrp - 1 < T.inodesPerGrp := by omega
      have hbit : ((curr + 1) % T.inodesPerGrp - 1) % 8 < 8 := Nat.mod_lt _ (by decide)
      split_ifs at h with hset
      · -- a bitmap with a bit is initialised
        have hinit : bgFlags s.gdtable ((curr + 1) / T.inodesPerGrp) &&& 1 = 0 := by
          by_contra hinit
          have hclear := hc.empty _ hgroup hinit _ (Nat.lt_of_lt_of_le hindex hperGrp)
          have hclear₀ := (hbits _ _ hindex).mpr hclear
          rw [← hpos8, clear_at hbit, hset] at hclear₀
          exact Bool.noConfusion hclear₀
        refine @ih (curr + 1) ?_
        rw [← h, initInodeBmap, if_pos hinit]
      · cases h
        rw [Bool.not_eq_true, ← clear_at hbit, hpos8] at hset
        have hdiv := Nat.div_add_mod (curr + 1) T.inodesPerGrp
        rw [Nat.mul_comm] at hdiv
        refine ⟨hgroup, hbit, hpos8.trans_lt hindex, ?_, ?_, fun g' _ i hi => hbits g' i hi,
          fun k hflags _ => hdesc k hflags, hblk, hsb⟩
        · rw [initInodeBmap_currInodeNo, hpos8]
          change curr + 1 = _
          omega
        · rw [hpos8]
          exact (hbits _ _ hindex).mp hset

theorem findInode_spec (hc : Counted T s) (hperGrp : T.inodesPerGrp ≤ 8 * T.blksz)
    (hpos : 0 < T.inodesPerGrp)
    (h : findInode T.toLayout s = some (s₁, some (g, byte, bit))) : Found T s s₁ g byte bit := by
  rw [findInode] at h
  split_ifs at h
  · exact findFirstInode_spec hc hperGrp (Nat.zero_add _) (Option.some.inj h)
  · exact @findNextInode_spec T s s₁ g byte bit hc hperGrp hpos _ s.currInodeNo h

theorem own_of_position {index : Nat} (hindex : index < T.inodesPerGrp) :
    ownGroup T (index + 1 + g * T.inodesPerGrp) = g ∧
      ownIndex T (index + 1 + g * T.inodesPerGrp) = index := by
  have hsub : index + 1 + g * T.inodesPerGrp - 1 = index + T.inodesPerGrp * g := by
    rw [Nat.mul_comm]
    omega
  rw [ownGroup, ownIndex, hsub]
  refine ⟨?_, ?_⟩
  · rw [Nat.add_mul_div_left _ _ (Nat.zero_lt_of_lt hindex), Nat.div_eq_of_lt hindex, Nat.zero_add]
  · rw [Nat.add_mul_mod_self_left, Nat.mod_eq_of_lt hindex]

theorem Found.takeInode (h : Found T s s₁ g byte bit) :
    Changes T s (takeInode s₁ g byte bit) s₁.currInodeNo False (-1) (-1) := by
  obtain ⟨hgroup, hindex⟩ := @own_of_position T g _ h.index
  rw [← h.ino] at hgroup hindex
  have hfree : freeInodes s₁.gdtable g = freeInodes s.gdtable g :=
    le16At_congr fun k hk => h.descriptors _ (by omega) (by omega)
  refine ⟨fun g' hg' i hi => ?_, ?_, fun g' hne k hk => ?_, fun k hk => ?_, ⟨h.blkBmaps, ?_⟩, ?_⟩
  · change Clear (Function.update s₁.inodeBmaps g (setBit (s₁.inodeBmaps g) byte bit) g') i ↔ _
    rw [hgroup, hindex]
    obtain rfl | hne := eq_or_ne g' g
    · rw [Function.update_self, clear_setBit h.bit_lt, h.bitmap g' hg' i hi]
      by_cases hi' : i = 8 * byte + bit
      · rw [if_pos ⟨rfl, hi'⟩]
        exact iff_of_false (fun hand => hand.2 hi') not_false
      · rw [if_neg fun hand => hi' hand.2]
        exact and_iff_left hi'
    · rw [Function.update_of_ne hne, if_neg fun hand => hne hand.1]
      exact h.bitmap g' hg' i hi
  · rw [hgroup, ← UInt16.sub_eq_add_neg, ← hfree]
    exact (le16At_setLe16_of_ne _ _ (by omega)).trans (le16At_setLe16 _ _ _)
  · rw [hgroup] at hne
    refine (setLe16_of_ne _ _ (by omega)).trans ((setLe16_of_ne _ _ (by omega)).trans ?_)
    exact h.descriptors _ (by omega) (by omega)
  · rw [hgroup]
    refine (setLe16_of_ne _ _ (by omega)).trans ((setLe16_of_ne _ _ (by omega)).trans ?_)
    exact h.descriptors _ (by omega) (by omega)
  · rw [hgroup]
    refine (le16At_setLe16_of_ne _ _ (by omega)).trans
      ((le16At_setLe16_of_ne _ _ (by omega)).trans ?_)
    exact le16At_congr fun k hk => h.descriptors _ (by omega) (by omega)
  · exact congrArg (addFreeInodes · (-1)) h.superblock

theorem changes_of_returns (hc : Counted T s) (hperGrp : T.inodesPerGrp ≤ 8 * T.blksz)
    (hpos : 0 < T.inodesPerGrp) (hret : Returns T s ino)
    (h : getNewInodeNo T.toLayout s = some s') : Changes T s s' ino False (-1) (-1) := by
  obtain ⟨s₁, ⟨g, byte, bit⟩, hfind, rfl⟩ := hret
  have htaken := (findInode_spec hc hperGrp hpos hfind).takeInode
  rw [getNewInodeNo] at h
  simp only [hfind] at h
  split_ifs at h
  · obtain ⟨journal, rfl⟩ := logBlock_eq h
    exact ⟨htaken.bits, htaken.group, htaken.groups, htaken.fields, htaken.blocks,
      htaken.superblock⟩
  · obtain ⟨journal, prevIndex, rfl⟩ := logBitmap_eq h
    exact ⟨htaken.bits, htaken.group, htaken.groups, htaken.fields, htaken.blocks,
      htaken.superblock⟩

theorem changes_of_releaseInode (hlow : 1 ≤ ino) (h : releaseInode T.toLayout ino s = some s') :
    Changes T s s' ino True 1 1 := by
  rw [releaseInode] at h
  dsimp only at h
  split_ifs at h with hout
  rw [not_or] at hout
  obtain ⟨hgroup, hlast⟩ := hout
  have hdiv := @div_eq_ownGroup T ino hlow
  rw [if_neg hlast] at hdiv
  have hindex : ino % T.inodesPerGrp - 1 = ownIndex T ino := by
    have h1 := Nat.div_add_mod (ino - 1) T.inodesPerGrp
    have h2 := Nat.div_add_mod ino T.inodesPerGrp
    rw [← ownGroup, ← ownIndex] at h1
    rw [hdiv] at h2
    omega
  have hpos8 : 8 * (ownIndex T ino / 8) + ownIndex T ino % 8 = ownIndex T ino := Nat.div_add_mod _ _
  rw [inodeBit_eq hlast, hindex, hdiv] at h
  obtain ⟨journal, rfl⟩ := logBlock_eq h
  refine ⟨fun g' hg' i hi => ?_, ?_, fun g' hne k hk => ?_, fun k hk => ?_, ⟨rfl, ?_⟩, rfl⟩
  · change Clear (Function.update s.inodeBmaps (ownGroup T ino) (clearBit
      (s.inodeBmaps (ownGroup T ino)) (ownIndex T ino / 8) (ownIndex T ino % 8)) g') i ↔ _
    obtain rfl | hne := eq_or_ne g' (ownGroup T ino)
    · rw [Function.update_self, clear_clearBit (Nat.mod_lt _ (by decide)), hpos8]
      by_cases hi' : i = ownIndex T ino
      · rw [if_pos ⟨rfl, hi'⟩]
        exact iff_of_true (.inr hi') trivial
      · rw [if_neg fun hand => hi' hand.2]
        exact or_iff_left hi'
    · rw [Function.update_of_ne hne, if_neg fun hand => hne hand.1]
  · exact le16At_setLe16 _ _ _
  · exact setLe16_of_ne _ _ (by omega)
  · exact setLe16_of_ne _ _ (by omega)
  · exact le16At_setLe16_of_ne _ _ (by omega)

end

/-- The inodes for which all functions mean the same: none of the last ones of the groups,
and of those from 2 ^ 31 + 1 on only the first one of a block. -/
theorem inodeRight_iff {T : InodeLayout} {v : Volume} {gdtable : Ptr} {ino : Nat}
    (h : Consistent T v gdtable) (hlow : 1 ≤ ino) (hhigh : ino ≤ T.noBlkgrp * T.inodesPerGrp) :
    InodeRight T v gdtable ino ↔ ino % T.inodesPerGrp ≠ 0 ∧ Positive T ino := by
  have hread := readPlace_eq_iff h (fun _ _ => rfl) hlow hhigh
  have htable := itablePlace_eq_iff h hlow hhigh
  constructor
  · exact fun hright => ⟨htable.mp hright.table, hread.mp hright.read⟩
  · rintro ⟨hlast, hpos⟩
    exact {
      read := hread.mpr hpos
      table := htable.mpr hlast
      bit := bitPlace_eq hlow hlast
      readBack := readInode_writeInode h hlow hhigh hlast hpos
      allocated := fun s s' hc => changes_of_returns hc h.perGrp_le h.perGrp_pos
      deleted := fun s s' => changes_of_releaseInode hlow }

/-- Two groups with one block of eight inodes each. -/
def twoGroups : InodeLayout where
  blksz := 1024
  size := 16 * 1024
  journalBlk := (10 + ·)
  noBlkgrp := 2
  blkPerGrp := 8192
  inodesPerGrp := 8
  inodesz := 128

/-- The inode tables are blocks 5 and 6. -/
def twoTables : Ptr := fun k => if k = 8 then 5 else if k = 40 then 6 else 0

def twoGroupsVolume : Volume where
  disk := fun q => if q = 2 * 1024 + 8 then 5 else if q = 2 * 1024 + 40 then 6 else 0
  sb := fun _ => 0
  revoked := []
  writes := []

theorem twoTables_eq (k : Nat) : twoTables k =
    twoGroupsVolume.disk (gdtableBlkno twoGroups.toLayout * twoGroups.blksz + k) := by
  have hblkno : gdtableBlkno twoGroups.toLayout = 2 := rfl
  rw [hblkno]
  change twoTables k =
    if 2 * 1024 + k = 2 * 1024 + 8 then 5 else if 2 * 1024 + k = 2 * 1024 + 40 then 6 else 0
  simp only [Nat.add_right_inj]
  rfl

theorem inodeTableId_twoTables {g : Nat} (hg : g < 2) :
    (inodeTableId twoTables g).toNat = 5 + g := by
  obtain rfl | rfl : g = 0 ∨ g = 1 := by omega
  · decide
  · decide

theorem consistent_twoGroups : Consistent twoGroups twoGroupsVolume twoTables where
  blksz := ⟨10, by decide, by decide, rfl⟩
  inodesz_ge := by decide
  inodesz_dvd := by decide
  perGrp_pos := by decide
  perGrp_le := by decide
  perBlock_dvd := by decide
  total := by decide
  loaded := fun k _ => twoTables_eq k
  inside := fun g hg k hk => by
    obtain rfl : k = 0 := Nat.lt_one_iff.mp hk
    rw [inodeTableId_twoTables hg]
    change (5 + g + 0 + 1) * 1024 ≤ 16 * 1024
    change g < 2 at hg
    omega
  behind := fun g hg => by
    rw [inodeTableId_twoTables hg]
    change 2 * 1024 + 32 * 2 ≤ (5 + g) * 1024
    omega
  disjoint := fun g hg g' hg' k hk k' hk' heq => by
    obtain rfl : k = 0 := Nat.lt_one_iff.mp hk
    obtain rfl : k' = 0 := Nat.lt_one_iff.mp hk'
    rw [inodeTableId_twoTables hg, inodeTableId_twoTables hg'] at heq
    omega

/-- The second inode of the second group. -/
theorem inodeRight_second : InodeRight twoGroups twoGroupsVolume twoTables 10 :=
  (inodeRight_iff consistent_twoGroups (by decide) (by decide)).mpr ⟨by decide, .inl (by decide)⟩

/-- The last inode of the first group is written into the table of the second one. -/
theorem last_inode_misplaced :
    ¬∀ (T : InodeLayout) (v : Volume) (gdtable : Ptr) (ino : Nat), Consistent T v gdtable →
      1 ≤ ino → ino ≤ T.noBlkgrp * T.inodesPerGrp → InodeRight T v gdtable ino := by
  intro claim
  have hright := claim twoGroups twoGroupsVolume twoTables 8 consistent_twoGroups (by decide)
    (by decide)
  exact (itablePlace_eq_iff consistent_twoGroups (by decide) (by decide)).mp hright.table rfl

end UBoot.Ext4
