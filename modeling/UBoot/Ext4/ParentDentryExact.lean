import Mathlib.Data.List.GetD
import UBoot.Ext4.Dentries

/-!
# When an entry goes into its directory

The search for the last block of a directory finds none when all twelve are allocated, and
block 0 is taken. A new block goes into an array of blocks also when there is a tree of extents
in its place, its one entry has a length of 16 bits, and the room behind a last entry that is
too short is taken for a large one.
-/

namespace UBoot.Ext4.ParentDentry

open Verification

structure FileName where
  bytes : List UInt8
  pos : 0 < bytes.length
  le : bytes.length ≤ 255

/-- A directory: its blocks, their bytes, and the offsets of the entries in each of them. -/
structure Directory (g : Geometry) where
  inode : Inode
  blocks : List Nat
  content : Nat → Ptr
  offs : Nat → List Nat
  nonempty : blocks ≠ []
  length_le : blocks.length ≤ INDIRECT_BLOCKS
  pos : ∀ b ∈ blocks, 0 < b
  nodup : blocks.Nodup
  fits : ∀ b ∈ blocks, b * g.sectPerblk + g.sectPerblk < 4294967296
  chain : ∀ i < blocks.length, Chain g (content i) (offs i)
  mapped : inode.extents = false → ∀ i < INDIRECT_BLOCKS,
    Extents.longInt (le32At inode.dirBlocks (4 * i)).toNat = blocks.getD i 0

section

variable {g : Geometry} (d : Directory g) (fuel : Nat)

/-- The inode maps the blocks of the directory and no others. -/
def MapsTo (part : Partition) (inode : Inode) (blocks : List Nat) : Prop :=
  ∀ i < INDIRECT_BLOCKS, readAllocatedBlock g fuel part inode i = some (blocks.getD i 0 : Int)

instance (part : Partition) (inode : Inode) (blocks : List Nat) :
    Decidable (MapsTo (g := g) fuel part inode blocks) :=
  inferInstanceAs (Decidable (∀ i < _, _))

/-- A directory on a partition. -/
structure Holds (part : Partition) : Prop where
  mapped : MapsTo (g := g) fuel part d.inode d.blocks
  inside : ∀ b ∈ d.blocks, b * g.sectPerblk + g.sectPerblk ≤ part.partSize
  content : ∀ i, (hi : i < d.blocks.length) → part.disk d.blocks[i] = d.content i

/-- A block that the allocator may give. -/
structure Fresh (part : Partition) (b : Nat) : Prop where
  pos : 0 < b
  lt : b < 2147483648
  not_mem : b ∉ d.blocks
  inside : b * g.sectPerblk + g.sectPerblk ≤ part.partSize

/-- The last block that is queued is a block of the directory or one that was allocated for it,
and is mapped: a chain with the entries that it had and the new one, which comes first in a new
block only. The others that are queued are unchanged. The blocks are still mapped. -/
structure Inserted (name : List UInt8) (newBlks : List Nat) (ino : UInt32) (s : State) :
    Prop where
  maps : ∀ i, (hi : i < d.blocks.length) →
    readAllocatedBlock g fuel s.part s.inode i = some (d.blocks[i] : Int)
  queued : ∃ older, ∃ b : Nat, ∃ buf i, s.queued = older ++ [((b : Int), buf)] ∧
    (∀ q ∈ older, ∃ j, ∃ hj : j < d.blocks.length, q = ((d.blocks[j] : Int), d.content j)) ∧
    i < INDIRECT_BLOCKS ∧ (b ∈ d.blocks ∨ b ∈ newBlks) ∧
    readAllocatedBlock g fuel s.part s.inode i = some (b : Int) ∧
    ∃ offs before behind, Chain g buf offs ∧
      offs.map (entryAt buf) = before ++ ⟨ino, name, FILETYPE_REG⟩ :: behind ∧
      before ++ behind =
        (if i < d.blocks.length then (d.offs i).map (entryAt (d.content i)) else []) ∧
      (i < d.blocks.length ∧ before ≠ [] ∨ d.blocks.length ≤ i ∧ b ∈ newBlks)

end

section

variable {g : Geometry} (d : Directory g) (name : FileName)

/-- A call ends, writes nothing behind a block, and when it assigns a number of an inode the
entry has gone into the directory. -/
def InsertRight : Prop :=
  ∀ part fuel newInode newBlks, Holds d fuel part → (∀ b ∈ newBlks, Fresh d part b) →
    ∃ r s, updateParentDentry g name.bytes fuel newInode newBlks (start part d.inode) =
      some (r, s) ∧
      ∀ ino, r = some ino → newInode = some ino ∧ Inserted d fuel name.bytes newBlks ino s

def Directory.last : Nat := d.blocks.length - 1

/-- There is room in the last block. -/
def Roomy : Prop :=
  ∃ a ∈ d.offs d.last, Room name.bytes (d.content d.last) a

instance : Decidable (Roomy d name) := inferInstanceAs (Decidable (∃ a ∈ _, _))

/-- There are less than twelve blocks. The last one has room, or its last entry is long enough
for its name and no new block can come, or one that is mapped as a block and whose size is a
length of an entry. -/
def InsertCond : Prop :=
  d.blocks.length < INDIRECT_BLOCKS ∧
    (Roomy d name ∨
      (∀ a, (d.offs d.last).getLast? = some a →
        dentryLength (namelen (d.content d.last) a) ≤ direntlen (d.content d.last) a) ∧
      (d.blocks.length = INDIRECT_BLOCKS - 1 ∨ d.inode.extents = false ∧ g.blksz < 65536))

end

/-! ## The search for the last block -/

section

variable {g : Geometry} {fuel : Nat} {blocks : List Nat}

/-- The block in front of an index, for a search that began with another one. -/
def blockBefore (blocks : List Nat) (previous : Int) : Nat → Int
  | 0 => previous
  | i + 1 => blocks.getD i 0

theorem probe_eq {s : State} (hmaps : MapsTo (g := g) fuel s.part s.inode blocks)
    (hpos : ∀ b ∈ blocks, 0 < b) (hle : blocks.length ≤ INDIRECT_BLOCKS) (left i : Nat)
    (hi : i ≤ blocks.length) (hleft : i + left = INDIRECT_BLOCKS) :
    probe g fuel { s with previousBlknr := blockBefore blocks s.previousBlknr i } left i =
      some (blocks.length, if blocks.length < INDIRECT_BLOCKS then
        { s with
          previousBlknr := blockBefore blocks s.previousBlknr blocks.length
          firstBlockNoOfRoot := blockBefore blocks s.previousBlknr blocks.length }
      else { s with previousBlknr := blockBefore blocks s.previousBlknr blocks.length }) := by
  induction left generalizing i with
  | zero =>
    obtain rfl : i = blocks.length := by omega
    rw [probe, if_neg (by omega)]
  | succ left ih =>
    have hread := hmaps i (by omega)
    rw [probe, hread, Option.bind_some]
    rcases Nat.eq_or_lt_of_le hi with rfl | hlt
    · rw [List.getD_eq_default _ _ le_rfl, if_pos Nat.cast_zero, if_pos (by omega)]
    · have hb := hpos _ (List.getElem_mem hlt)
      rw [List.getD_eq_getElem _ _ hlt, if_neg (by omega)]
      have hih := ih (i + 1) hlt (by omega)
      rw [blockBefore, List.getD_eq_getElem _ _ hlt] at hih
      exact hih

theorem sectPerblk_pos (g : Geometry) : 0 < g.sectPerblk := Nat.two_pow_pos _

theorem blksz_eq (g : Geometry) : g.blksz = g.sectPerblk * 2 ^ g.log2blksz := Nat.pow_add _ _ _

theorem blksz_bounds (g : Geometry) : 1024 ≤ g.blksz ∧ g.blksz ≤ 65536 :=
  ⟨Nat.pow_le_pow_right Nat.two_pos g.ten_le, Nat.pow_le_pow_right Nat.two_pos g.le_sixteen⟩

/-- A block of the partition is read. -/
theorem devread_of_inside {part : Partition} {b : Nat}
    (h : b * g.sectPerblk + g.sectPerblk ≤ part.partSize) :
    devread g part b = some (part.disk b) := by
  have hpos := sectPerblk_pos g
  have hlt := part.partSize_lt
  have hsector : ((b : Int) * g.sectPerblk % 4294967296).toNat = b * g.sectPerblk := by
    rw [← Nat.cast_mul]
    omega
  have hlast : (g.blksz - 1) / 2 ^ g.log2blksz = g.sectPerblk - 1 := by
    obtain ⟨n, hn⟩ := Nat.exists_eq_succ_of_ne_zero hpos.ne'
    have hsec := Nat.two_pow_pos g.log2blksz
    rw [blksz_eq, hn, Nat.succ_mul, Nat.add_sub_assoc hsec, Nat.mul_comm,
      Nat.mul_add_div hsec, Nat.div_eq_of_lt (by omega), Nat.add_zero, Nat.succ_sub_one]
  rw [devread, hsector, hlast, if_pos, Nat.mul_div_cancel _ hpos]
  omega

/-- The block in which the entry goes, for a directory with less than twelve blocks. -/
def lastBlock (blocks : List Nat) : Nat := blocks.getD (blocks.length - 1) 0

def settled (s : State) (blocks : List Nat) : State :=
  { s with previousBlknr := lastBlock blocks, firstBlockNoOfRoot := lastBlock blocks }

theorem probe_of_lt {s : State} (hmaps : MapsTo (g := g) fuel s.part s.inode blocks)
    (hpos : ∀ b ∈ blocks, 0 < b) (hne : blocks ≠ []) (hlt : blocks.length < INDIRECT_BLOCKS) :
    probe g fuel s INDIRECT_BLOCKS 0 = some (blocks.length, settled s blocks) := by
  have hprobe := probe_eq hmaps hpos hlt.le INDIRECT_BLOCKS 0 (Nat.zero_le _) (Nat.zero_add _)
  obtain ⟨n, hn⟩ := Nat.exists_eq_succ_of_ne_zero (mt List.eq_nil_of_length_eq_zero hne)
  rw [if_pos hlt] at hprobe
  rw [settled, lastBlock]
  rw [hn] at hprobe ⊢
  exact hprobe

theorem attempt_eq {name : List UInt8} {newInode : Option UInt32} {s : State} {buf : Ptr}
    (hmaps : MapsTo (g := g) fuel s.part s.inode blocks) (hpos : ∀ b ∈ blocks, 0 < b)
    (hne : blocks ≠ []) (hlt : blocks.length < INDIRECT_BLOCKS)
    (hread : devread g s.part (lastBlock blocks) = some buf) :
    attempt g name fuel newInode s =
      match walk g name buf s.padding g.blksz 0 with
      | .outside => none
      | .full padding =>
        if blocks.length = INDIRECT_BLOCKS - 1 then some (.failed (settled s blocks))
        else some (.full blocks.length buf { settled s blocks with padding })
      | .found off sizeofVoidSpace buf =>
        match newInode with
        | none => some (.failed (settled s blocks))
        | some ino =>
          (insertEntry g name ino off sizeofVoidSpace buf).map fun buf =>
            .assigned ino { settled s blocks with
              queued := s.queued ++ [((lastBlock blocks : Int), buf)] } := by
  rw [attempt, probe_of_lt hmaps hpos hne hlt, Option.bind_some]
  have hread' : devread g (settled s blocks).part (settled s blocks).firstBlockNoOfRoot =
      some buf := hread
  dsimp only
  rw [hread']
  rfl

end

/-! ## Into the last block -/

section

variable {g : Geometry} {d : Directory g} {fuel : Nat} {part : Partition} {name : FileName}
  {newInode : Option UInt32} {newBlks : List Nat}

theorem Directory.length_pos (d : Directory g) : 0 < d.blocks.length :=
  List.length_pos_iff.mpr d.nonempty

theorem Directory.last_lt (d : Directory g) : d.last < d.blocks.length :=
  Nat.sub_lt d.length_pos Nat.one_pos

theorem Directory.lastBlock_eq (d : Directory g) (h : d.last < d.blocks.length) :
    lastBlock d.blocks = d.blocks[d.last] :=
  List.getD_eq_getElem _ _ h

theorem Holds.read (h : Holds d fuel part) {i : Nat} (hi : i < d.blocks.length) :
    readAllocatedBlock g fuel part d.inode i = some (d.blocks[i] : Int) := by
  rw [h.mapped i (Nat.lt_of_lt_of_le hi d.length_le), List.getD_eq_getElem _ _ hi]

theorem Holds.devread_last (h : Holds d fuel part) :
    devread g part (lastBlock d.blocks) = some (d.content d.last) := by
  rw [d.lastBlock_eq d.last_lt, devread_of_inside (h.inside _ (List.getElem_mem _)),
    h.content _ d.last_lt]

theorem update_of_failed {s s' : State}
    (h : attempt g name.bytes fuel newInode s = some (.failed s')) :
    updateParentDentry g name.bytes fuel newInode newBlks s = some (none, s') := by
  cases newBlks with
  | nil => rw [updateParentDentry, h, Option.map_some]
  | cons b bs => rw [updateParentDentry, h, Option.bind_some]

theorem update_of_assigned {s s' : State} {ino : UInt32}
    (h : attempt g name.bytes fuel newInode s = some (.assigned ino s')) :
    updateParentDentry g name.bytes fuel newInode newBlks s = some (some ino, s') := by
  cases newBlks with
  | nil => rw [updateParentDentry, h, Option.map_some]
  | cons b bs => rw [updateParentDentry, h, Option.bind_some]

theorem exists_first {p : Nat → Prop} {l : List Nat} (h : ∃ a ∈ l, p a) :
    ∃ xs a ys, l = xs ++ a :: ys ∧ (∀ c ∈ xs, ¬ p c) ∧ p a := by
  induction l with
  | nil => exact absurd h (by simp)
  | cons x l ih =>
    by_cases hx : p x
    · exact ⟨[], x, l, rfl, by simp, hx⟩
    · obtain ⟨a, ha, hpa⟩ := h
      obtain ⟨xs, b, ys, rfl, hxs, hb⟩ := ih ⟨a, (List.mem_cons.mp ha).resolve_left (fun heq =>
        hx (heq ▸ hpa)), hpa⟩
      exact ⟨x :: xs, b, ys, rfl, fun c hc => (List.mem_cons.mp hc).elim (fun heq => heq ▸ hx)
        (hxs c), hb⟩

/-- The new entry goes into the last block when that has room. -/
theorem right_of_roomy (h : Holds d fuel part) (hlt : d.blocks.length < INDIRECT_BLOCKS)
    (hroomy : Roomy d name) :
    ∃ r s, updateParentDentry g name.bytes fuel newInode newBlks (start part d.inode) =
      some (r, s) ∧
      ∀ ino, r = some ino → newInode = some ino ∧ Inserted d fuel name.bytes newBlks ino s := by
  obtain ⟨xs, a, ys, hoffs, hxs, ha⟩ := exists_first hroomy
  have hchain := d.chain d.last d.last_lt
  rw [hoffs] at hchain
  have hattempt : attempt g name.bytes fuel newInode (start part d.inode) = _ :=
    attempt_eq h.mapped d.pos d.nonempty hlt h.devread_last
  rw [show (start part d.inode).padding = 0 from rfl, hchain.walk_room hxs ha] at hattempt
  cases newInode with
  | none => exact ⟨_, _, update_of_failed hattempt, nofun⟩
  | some ino =>
    dsimp only at hattempt
    rw [insertEntry_of_room hchain ha, Option.map_some] at hattempt
    refine ⟨_, _, update_of_assigned hattempt, ?_⟩
    rintro _ ⟨⟩
    refine ⟨rfl, fun i hi => h.read hi, [], _, _, d.last, rfl, by simp, ?_, Or.inl ?_, ?_, _, _,
      _, chain_inserted hchain ha name.le, entries_inserted hchain ha name.le, ?_,
      Or.inl ⟨d.last_lt, by simp⟩⟩
    · exact Nat.lt_of_lt_of_le d.last_lt d.length_le
    · rw [d.lastBlock_eq d.last_lt]
      exact List.getElem_mem _
    · rw [d.lastBlock_eq d.last_lt]
      exact h.read d.last_lt
    · rw [if_pos d.last_lt, hoffs, ← List.map_append, List.append_assoc]
      rfl

/-! ## Into a new block -/

theorem longInt_of_lt {n : Nat} (h : n < 2147483648) : Extents.longInt n = n := by
  rw [Extents.longInt, Nat.mod_eq_of_lt (by omega), if_pos h]

theorem le32At_setLe32_of_ne (p : Ptr) {offset offset' : Nat} (x : UInt32)
    (h : offset' + 4 ≤ offset ∨ offset + 4 ≤ offset') :
    le32At (setLe32 p offset x) offset' = le32At p offset' := by
  rw [le32At, setLe32, Ptr.bytes_write_of_disjoint _ _ h, le32At]

/-- A block is mapped behind those that are. -/
theorem MapsTo.snoc {inode : Inode} {blocks : List Nat} {b : Nat} {part' : Partition}
    (h : MapsTo (g := g) fuel part inode blocks) (hextents : inode.extents = false)
    (hb : b < 2147483648) (size blockcnt : UInt32) :
    MapsTo (g := g) fuel part' { inode with
      dirBlocks := setLe32 inode.dirBlocks (4 * blocks.length) (UInt32.ofNat b), size, blockcnt }
      (blocks ++ [b]) := by
  intro i hi
  have hread := h i hi
  rw [readAllocatedBlock, if_neg (by simp [hextents])] at hread ⊢
  dsimp only
  rcases Nat.lt_trichotomy i blocks.length with hlt | rfl | hgt
  · rw [List.getD_append _ _ _ _ hlt, ← hread, le32At_setLe32_of_ne _ _ (by omega)]
  · rw [le32At_setLe32, UInt32.toNat_ofNat_of_lt' (Nat.lt_trans hb (by decide)), longInt_of_lt hb,
      List.getD_append_right _ _ _ _ le_rfl, Nat.sub_self]
    rfl
  · rw [List.getD_eq_default _ _ hgt.le] at hread
    rw [List.getD_eq_default _ _ (by rw [List.length_append, List.length_singleton]; omega),
      ← hread, le32At_setLe32_of_ne _ _ (by omega)]

theorem direntlen_zeros : direntlen (fun _ => 0) 0 = 0 := by decide

/-- A new block has room for any name. -/
theorem walk_zeros (g : Geometry) (name : List UInt8) (padding : Nat) :
    walk g name (fun _ => 0) padding g.blksz 0 = .found 0 0 fun _ => 0 := by
  have hbounds := (blksz_bounds g).1
  obtain ⟨n, hn⟩ : ∃ n, g.blksz = n + 1 := Nat.exists_eq_succ_of_ne_zero (by omega)
  have hwalk : walk g name (fun _ => 0) padding (n + 1) 0 = .found 0 0 fun _ => 0 := by
    rw [walk, if_neg (by omega), if_pos direntlen_zeros]
  rwa [← hn] at hwalk

theorem insertEntry_zeros (name : FileName) (ino : UInt32) :
    insertEntry g name.bytes ino 0 0 (fun _ => 0) =
      some (putEntry name.bytes (fun _ => 0) 0 ino g.blksz) := by
  have hbounds := (blksz_bounds g).1
  have hname := name.le
  rw [insertEntry, direntlen_zeros, if_neg (by omega), if_neg (not_not.mpr rfl)]
  rfl

theorem chain_zeros (name : FileName) (ino : UInt32) (hblksz : g.blksz < 65536) :
    Chain g (putEntry name.bytes (fun _ => 0) 0 ino g.blksz) [0] := by
  have hbounds := (blksz_bounds g).1
  have hname := name.le
  have hlen : direntlen (putEntry name.bytes (fun _ => 0) 0 ino g.blksz) 0 = g.blksz := by
    rw [direntlen_putEntry, Nat.mod_eq_of_lt hblksz]
  constructor
  · refine Covers.cons (by omega) ?_
    rw [hlen, Nat.zero_add]
    exact Covers.nil
  · intro a ha
    obtain rfl := List.mem_singleton.mp ha
    rw [hlen, namelen_putEntry hname]
    omega

theorem Directory.offs_eq (d : Directory g) : ∃ xs a, d.offs d.last = xs ++ [a] := by
  have hchain := (d.chain d.last d.last_lt).covers
  have hbounds := (blksz_bounds g).1
  rcases List.eq_nil_or_concat (d.offs d.last) with hnil | ⟨xs, a, hoffs⟩
  · rw [hnil] at hchain
    have := hchain.eq_of_nil
    omega
  · exact ⟨xs, a, by rw [hoffs, List.concat_eq_append]⟩

theorem putZeros_disk {b : Nat} (h : b * g.sectPerblk + g.sectPerblk ≤ part.partSize) :
    (putZeros g part b).disk b = (fun _ => 0) ∧ (putZeros g part b).partSize = part.partSize := by
  rw [putZeros, if_neg (by omega)]
  exact ⟨Function.update_self _ _ _, rfl⟩

theorem lastBlock_snoc (blocks : List Nat) (b : Nat) : lastBlock (blocks ++ [b]) = b := by
  rw [lastBlock, List.length_append, List.length_singleton, Nat.add_sub_cancel,
    List.getD_append_right _ _ _ _ le_rfl, Nat.sub_self]
  rfl

theorem attempt_zeros {s : State} {blocks : List Nat}
    (hmaps : MapsTo (g := g) fuel s.part s.inode blocks) (hpos : ∀ b ∈ blocks, 0 < b)
    (hne : blocks ≠ []) (hlt : blocks.length < INDIRECT_BLOCKS)
    (hread : devread g s.part (lastBlock blocks) = some fun _ => 0) :
    attempt g name.bytes fuel newInode s =
      match newInode with
      | none => some (.failed (settled s blocks))
      | some ino =>
        some (.assigned ino { settled s blocks with
          queued := s.queued ++
            [((lastBlock blocks : Int), putEntry name.bytes (fun _ => 0) 0 ino g.blksz)] }) := by
  rw [attempt_eq hmaps hpos hne hlt hread, walk_zeros]
  cases newInode with
  | none => rfl
  | some ino =>
    dsimp only
    rw [insertEntry_zeros, Option.map_some]

/-- What a full last block, or one whose last entry is too short, comes to. -/
theorem attempt_not_roomy (h : Holds d fuel part) (hlt : d.blocks.length < INDIRECT_BLOCKS)
    (hroomy : ¬ Roomy d name) :
    ∃ xs a, d.offs d.last = xs ++ [a] ∧
      attempt g name.bytes fuel newInode (start part d.inode) =
        if dentryLength (namelen (d.content d.last) a) ≤ direntlen (d.content d.last) a then
          if d.blocks.length = INDIRECT_BLOCKS - 1 then
            some (.failed (settled (start part d.inode) d.blocks))
          else
            some (.full d.blocks.length (d.content d.last)
              { settled (start part d.inode) d.blocks with
                padding := paddingFactor 0 (namelen (d.content d.last) a) })
        else
          match newInode with
          | none => some (.failed (settled (start part d.inode) d.blocks))
          | some _ => none := by
  obtain ⟨xs, a, hoffs⟩ := d.offs_eq
  have hchain := d.chain d.last d.last_lt
  rw [hoffs] at hchain
  have hroom (c : Nat) (hc : c ∈ xs ++ [a]) : ¬ Room name.bytes (d.content d.last) c :=
    fun hc' => hroomy ⟨c, hoffs ▸ hc, hc'⟩
  have hattempt : attempt g name.bytes fuel newInode (start part d.inode) = _ :=
    attempt_eq h.mapped d.pos d.nonempty hlt h.devread_last
  rw [show (start part d.inode).padding = 0 from rfl, hchain.walk_not_room name.le hroom]
    at hattempt
  refine ⟨xs, a, hoffs, ?_⟩
  rw [hattempt]
  by_cases hlong : dentryLength (namelen (d.content d.last) a) ≤ direntlen (d.content d.last) a
  · rw [if_pos hlong, if_pos hlong]
  · rw [if_neg hlong, if_neg hlong]
    cases newInode with
    | none => rfl
    | some ino =>
      have hend := hchain.last
      have hlt := namelen_lt (d.content d.last) a
      have hneed := dentryLength_le (namelen (d.content d.last) a)
      dsimp only
      rw [insertEntry, direntlen_setDirentlen (by omega), if_pos (by omega)]
      rfl

/-! ## A directory that grows -/

/-- The state after a restart with a new block. -/
def grown (d : Directory g) (part : Partition) (padding b : Nat) : State :=
  grow g { settled (start part d.inode) d.blocks with padding } d.blocks.length
    (d.content d.last) b

section

variable {b padding : Nat} (h : Holds d fuel part) (hextents : d.inode.extents = false)
  (hb : Fresh d part b)

include h hextents hb

theorem grown_maps : MapsTo (g := g) fuel (grown d part padding b).part
    (grown d part padding b).inode (d.blocks ++ [b]) :=
  h.mapped.snoc hextents hb.lt _ _

theorem attempt_grown (hlt : d.blocks.length + 1 < INDIRECT_BLOCKS) :
    attempt g name.bytes fuel newInode (grown d part padding b) =
      match newInode with
      | none => some (.failed (settled (grown d part padding b) (d.blocks ++ [b])))
      | some ino =>
        some (.assigned ino { settled (grown d part padding b) (d.blocks ++ [b]) with
          queued := [((lastBlock d.blocks : Int), d.content d.last),
            ((b : Int), putEntry name.bytes (fun _ => 0) 0 ino g.blksz)] }) := by
  have hread : devread g (grown d part padding b).part (lastBlock (d.blocks ++ [b])) =
      some fun _ => 0 := by
    obtain ⟨hdisk, hsize⟩ := putZeros_disk hb.inside
    have hpart : (grown d part padding b).part = putZeros g part b := rfl
    rw [lastBlock_snoc, hpart, devread_of_inside (by rw [hsize]; exact hb.inside), hdisk]
  have hpos (c : Nat) (hc : c ∈ d.blocks ++ [b]) : 0 < c := by
    rcases List.mem_append.mp hc with hc | hc
    · exact d.pos c hc
    · exact List.mem_singleton.mp hc ▸ hb.pos
  rw [attempt_zeros (grown_maps h hextents hb) hpos (by simp) (by rwa [List.length_append]) hread,
    lastBlock_snoc]
  rfl

/-- Once there is a new block, the entry goes into it. -/
theorem right_of_grown (hlt : d.blocks.length + 1 < INDIRECT_BLOCKS) (hblksz : g.blksz < 65536) :
    ∃ r s, updateParentDentry g name.bytes fuel newInode newBlks (grown d part padding b) =
      some (r, s) ∧ ∀ ino, r = some ino →
        newInode = some ino ∧ Inserted d fuel name.bytes (b :: newBlks) ino s := by
  have hmaps := @grown_maps g d fuel part b padding h hextents hb
  have hread (i : Nat) (hi : i < d.blocks.length) : readAllocatedBlock g fuel
      (grown d part padding b).part (grown d part padding b).inode i =
        some (d.blocks[i] : Int) := by
    rw [hmaps i (by omega), List.getD_append _ _ _ _ hi, List.getD_eq_getElem _ _ hi]
  have hattempt : attempt g name.bytes fuel newInode (grown d part padding b) = _ :=
    attempt_grown h hextents hb hlt
  cases newInode with
  | none => exact ⟨_, _, update_of_failed hattempt, nofun⟩
  | some ino =>
    refine ⟨_, _, update_of_assigned hattempt, ?_⟩
    rintro _ ⟨⟩
    refine ⟨rfl, hread, [_], _, _, d.blocks.length, rfl, ?_, by omega,
      Or.inr List.mem_cons_self, ?_, [0], [], [], chain_zeros name ino hblksz, ?_, ?_,
      Or.inr ⟨le_rfl, List.mem_cons_self⟩⟩
    · intro q hq
      refine ⟨d.last, d.last_lt, ?_⟩
      rw [List.mem_singleton.mp hq, d.lastBlock_eq d.last_lt]
    · refine (hmaps _ (by omega)).trans ?_
      rw [List.getD_append_right _ _ _ _ le_rfl, Nat.sub_self]
      rfl
    · rw [List.map_singleton, entryAt_putEntry name.le]
      rfl
    · rw [if_neg (Nat.lt_irrefl _)]
      rfl

end

theorem succ_lt_of_ne (hlt : d.blocks.length < INDIRECT_BLOCKS)
    (hne : d.blocks.length ≠ INDIRECT_BLOCKS - 1) : d.blocks.length + 1 < INDIRECT_BLOCKS := by
  rw [INDIRECT_BLOCKS] at *
  omega

/-- The new entry goes into a new block when the last one is full. -/
theorem right_of_full (h : Holds d fuel part) (hlt : d.blocks.length < INDIRECT_BLOCKS)
    (hroomy : ¬ Roomy d name)
    (hlong : ∀ a, (d.offs d.last).getLast? = some a →
      dentryLength (namelen (d.content d.last) a) ≤ direntlen (d.content d.last) a)
    (hgrow : d.blocks.length = INDIRECT_BLOCKS - 1 ∨ d.inode.extents = false ∧ g.blksz < 65536)
    (hfresh : ∀ b ∈ newBlks, Fresh d part b) :
    ∃ r s, updateParentDentry g name.bytes fuel newInode newBlks (start part d.inode) =
      some (r, s) ∧
      ∀ ino, r = some ino → newInode = some ino ∧ Inserted d fuel name.bytes newBlks ino s := by
  obtain ⟨xs, a, hoffs, hattempt⟩ := @attempt_not_roomy g d fuel part name newInode h hlt hroomy
  rw [if_pos (hlong a (by rw [hoffs, List.getLast?_concat]))] at hattempt
  by_cases heleven : d.blocks.length = INDIRECT_BLOCKS - 1
  · rw [if_pos heleven] at hattempt
    exact ⟨_, _, update_of_failed hattempt, nofun⟩
  · rw [if_neg heleven] at hattempt
    obtain ⟨hextents, hblksz⟩ := hgrow.resolve_left heleven
    cases newBlks with
    | nil =>
      rw [updateParentDentry, hattempt, Option.map_some]
      exact ⟨_, _, rfl, nofun⟩
    | cons b bs =>
      rw [updateParentDentry, hattempt, Option.bind_some]
      exact right_of_grown h hextents (hfresh b List.mem_cons_self)
        (succ_lt_of_ne hlt heleven) hblksz

theorem right_of_cond (d : Directory g) (name : FileName) (h : InsertCond d name) :
    InsertRight d name := by
  intro part fuel newInode newBlks hholds hfresh
  by_cases hroomy : Roomy d name
  · exact right_of_roomy hholds h.1 hroomy
  · obtain ⟨hlong, hgrow⟩ := h.2.resolve_left hroomy
    exact right_of_full hholds h.1 hroomy hlong hgrow hfresh

end

/-! ## What goes wrong -/

section

variable {g : Geometry} (d : Directory g) (name : FileName)

/-- A large partition with the blocks of the directory and zeros elsewhere. -/
def Directory.onDisk : Partition where
  disk := fun b => if b ∈ d.blocks then d.content (d.blocks.idxOf b) else fun _ => 0
  partSize := 4294967295
  partSize_lt := by decide

variable {d name}

theorem onDisk_maps (hextents : d.inode.extents = false) :
    MapsTo (g := g) 0 d.onDisk d.inode d.blocks := by
  intro i hi
  rw [readAllocatedBlock, if_neg (by simp [hextents]), d.mapped hextents i hi]

theorem onDisk_holds {fuel : Nat} (hmaps : MapsTo (g := g) fuel d.onDisk d.inode d.blocks) :
    Holds d fuel d.onDisk where
  mapped := hmaps
  inside := fun b hb => Nat.le_of_lt_succ (d.fits b hb)
  content := fun i hi => by
    rw [Directory.onDisk]
    dsimp only
    rw [if_pos (List.getElem_mem hi), d.nodup.idxOf_getElem]

theorem sectPerblk_lt (d : Directory g) : g.sectPerblk < 4294967295 := by
  have hmem := List.getElem_mem d.length_pos
  have hpos := d.pos _ hmem
  have hfits := d.fits _ hmem
  have := Nat.mul_le_mul_right g.sectPerblk hpos
  have := sectPerblk_pos g
  omega

/-- Block 0 is not one of the directory's. -/
theorem devread_zero : devread g d.onDisk 0 = some fun _ => 0 := by
  have hlt := sectPerblk_lt d
  have hle : 0 * g.sectPerblk + g.sectPerblk ≤ d.onDisk.partSize := by
    rw [Nat.zero_mul, Nat.zero_add]
    exact hlt.le
  have hread := devread_of_inside hle
  rw [Nat.cast_zero] at hread
  rw [hread, Directory.onDisk]
  exact congrArg some (if_neg fun hmem => Nat.lt_irrefl 0 (d.pos 0 hmem))

/-- Twelve blocks are all passed, and the entry goes into block 0. -/
theorem not_right_of_twelve (hextents : d.inode.extents = false)
    (hlen : d.blocks.length = INDIRECT_BLOCKS) : ¬ InsertRight d name := by
  intro h
  have hholds := onDisk_holds (onDisk_maps hextents)
  have hprobe : probe g 0 (start d.onDisk d.inode) INDIRECT_BLOCKS 0 = _ :=
    @probe_eq g 0 d.blocks (start d.onDisk d.inode) hholds.mapped d.pos d.length_le
      INDIRECT_BLOCKS 0 (Nat.zero_le _) (Nat.zero_add _)
  rw [hlen, if_neg (Nat.lt_irrefl _)] at hprobe
  have hattempt : attempt g name.bytes 0 (some 1) (start d.onDisk d.inode) =
      some (.assigned 1 { start d.onDisk d.inode with
        previousBlknr := blockBefore d.blocks (-1) INDIRECT_BLOCKS
        queued := [(0, putEntry name.bytes (fun _ => 0) 0 1 g.blksz)] }) := by
    rw [attempt, hprobe, Option.bind_some]
    dsimp only [start]
    rw [devread_zero]
    dsimp only
    rw [walk_zeros]
    dsimp only
    rw [insertEntry_zeros]
    rfl
  obtain ⟨r, s, hupdate, hright⟩ := h d.onDisk 0 (some 1) [] hholds (by simp)
  rw [update_of_assigned hattempt] at hupdate
  obtain ⟨rfl, rfl⟩ := Prod.ext_iff.mp (Option.some.inj hupdate)
  obtain ⟨older, b, buf, i, heq, -, -, hmem, -⟩ := (hright 1 rfl).2.queued
  have hlast := (List.append_inj' (show [] ++ [_] = _ from heq) rfl).2
  have hzero : (0 : Int) = b := (Prod.ext_iff.mp (List.singleton_inj.mp hlast)).1
  have hpos := d.pos b (hmem.resolve_right List.not_mem_nil)
  omega

/-- Behind a last entry that is too short the block ends. -/
theorem not_right_of_short (hextents : d.inode.extents = false)
    (hlt : d.blocks.length < INDIRECT_BLOCKS) (hroomy : ¬ Roomy d name) {a : Nat}
    (ha : (d.offs d.last).getLast? = some a)
    (hshort : direntlen (d.content d.last) a < dentryLength (namelen (d.content d.last) a)) :
    ¬ InsertRight d name := by
  intro h
  have hholds := onDisk_holds (onDisk_maps hextents)
  obtain ⟨xs, a', hoffs, hattempt⟩ :=
    @attempt_not_roomy g d 0 d.onDisk name (some 1) hholds hlt hroomy
  rw [hoffs, List.getLast?_concat] at ha
  obtain rfl := Option.some.inj ha
  rw [if_neg (Nat.not_le.mpr hshort)] at hattempt
  obtain ⟨r, s, hupdate, -⟩ := h d.onDisk 0 (some 1) [] hholds (by simp)
  rw [updateParentDentry, hattempt] at hupdate
  exact nomatch hupdate

/-- Some block is not one of the directory's. -/
theorem exists_fresh (hblksz : g.blksz = 65536) (hlt : d.blocks.length < INDIRECT_BLOCKS) :
    ∃ b, Fresh d d.onDisk b := by
  obtain ⟨b, hb, hnot⟩ : ∃ b ∈ List.range' 1 12, b ∉ d.blocks := by
    by_contra hall
    have hsub : List.range' 1 12 ⊆ d.blocks := fun b hb =>
      by_contra fun hnot => hall ⟨b, hb, hnot⟩
    have hle := List.Subperm.length_le (List.subperm_of_subset List.nodup_range' hsub)
    rw [List.length_range'] at hle
    exact absurd hlt (Nat.not_lt.mpr hle)
  have hsect : g.sectPerblk ≤ 65536 := by
    rw [← hblksz, blksz_eq]
    exact Nat.le_mul_of_pos_right _ (Nat.two_pow_pos _)
  obtain ⟨hb1, hb2⟩ := List.mem_range'_1.mp hb
  have hmul := Nat.mul_le_mul (Nat.le_of_lt_succ hb2) hsect
  refine ⟨b, hb1, by omega, hnot, ?_⟩
  show b * g.sectPerblk + g.sectPerblk ≤ 4294967295
  omega

/-- The length of a block of 64 KiB is 0 as a length of an entry. -/
theorem not_right_of_large (hextents : d.inode.extents = false)
    (hlt : d.blocks.length + 1 < INDIRECT_BLOCKS) (hroomy : ¬ Roomy d name)
    (hlong : ∀ a, (d.offs d.last).getLast? = some a →
      dentryLength (namelen (d.content d.last) a) ≤ direntlen (d.content d.last) a)
    (hblksz : g.blksz = 65536) : ¬ InsertRight d name := by
  intro h
  have hholds := onDisk_holds (onDisk_maps hextents)
  have hlt' : d.blocks.length < INDIRECT_BLOCKS := Nat.lt_of_succ_lt hlt
  obtain ⟨b, hb⟩ := exists_fresh hblksz hlt'
  obtain ⟨xs, a, hoffs, hattempt⟩ :=
    @attempt_not_roomy g d 0 d.onDisk name (some 1) hholds hlt' hroomy
  have hne : d.blocks.length ≠ INDIRECT_BLOCKS - 1 := by
    rw [INDIRECT_BLOCKS] at *
    omega
  rw [if_pos (hlong a (by rw [hoffs, List.getLast?_concat])), if_neg hne] at hattempt
  obtain ⟨r, s, hupdate, hright⟩ := h d.onDisk 0 (some 1) [b] hholds (by simpa using hb)
  rw [updateParentDentry, hattempt, Option.bind_some] at hupdate
  have hgrown := @update_of_assigned g 0 name (some 1) []
    (grown d d.onDisk (paddingFactor 0 (namelen (d.content d.last) a)) b) _ 1
    (attempt_grown hholds hextents hb hlt)
  obtain ⟨rfl, rfl⟩ := Prod.ext_iff.mp (Option.some.inj (hgrown.symm.trans hupdate))
  obtain ⟨older, b', buf, i, heq, -, -, -, -, offs, before, behind, hchain, -⟩ :=
    (hright 1 rfl).2.queued
  have hlast := (List.append_inj' (show [_] ++ [_] = _ from heq) rfl).2
  obtain ⟨-, rfl⟩ := Prod.ext_iff.mp (List.singleton_inj.mp hlast)
  have hlen : direntlen (putEntry name.bytes (fun _ => 0) 0 1 g.blksz) 0 = 0 := by
    rw [direntlen_putEntry, hblksz]
  have hcovers := hchain.covers
  rw [hblksz] at hcovers
  cases hcovers with
  | cons hpos _ =>
    rw [hblksz] at hlen
    exact absurd hpos (by rw [hlen]; decide)

theorem cond_of_right (hextents : d.inode.extents = false) (h : InsertRight d name) :
    InsertCond d name := by
  have hlt : d.blocks.length < INDIRECT_BLOCKS :=
    Nat.lt_of_le_of_ne d.length_le fun hlen => not_right_of_twelve hextents hlen h
  refine ⟨hlt, or_iff_not_imp_left.mpr fun hroomy => ?_⟩
  have hlong (a : Nat) (ha : (d.offs d.last).getLast? = some a) :
      dentryLength (namelen (d.content d.last) a) ≤ direntlen (d.content d.last) a :=
    Nat.not_lt.mp fun hshort => not_right_of_short hextents hlt hroomy ha hshort h
  refine ⟨hlong, or_iff_not_imp_left.mpr fun hne => ⟨hextents, ?_⟩⟩
  refine Nat.lt_of_le_of_ne (blksz_bounds g).2 fun hblksz => ?_
  exact not_right_of_large hextents (succ_lt_of_ne hlt hne) hroomy hlong hblksz h

end

/-- An entry goes into its directory as it ought to when the condition holds, and for a
directory that is mapped by blocks only then. -/
theorem insertRight_iff {g : Geometry} (d : Directory g) (name : FileName) :
    (InsertCond d name → InsertRight d name) ∧
      (d.inode.extents = false → (InsertRight d name ↔ InsertCond d name)) :=
  ⟨right_of_cond d name, fun hextents => ⟨cond_of_right hextents, right_of_cond d name⟩⟩

/-- Twelve blocks of 1024 bytes, each with one empty entry. -/
def twelveBlocks : Directory ⟨9, 1, by decide, by decide⟩ where
  inode :=
    { extents := false
      dirBlocks := fun j => if j < 48 ∧ j % 4 = 0 then UInt8.ofNat (j / 4 + 1) else 0
      size := 12288
      blockcnt := 24 }
  blocks := List.range' 1 12
  content := fun _ j => if j = 5 then 4 else 0
  offs := fun _ => [0]
  nonempty := by decide
  length_le := by decide
  pos := by decide
  nodup := by decide
  fits := by decide
  chain := fun _ _ => by
    have hlen : direntlen (fun j => if j = 5 then 4 else 0) 0 = 1024 := by decide
    refine ⟨Covers.cons (by rw [hlen]; decide) ?_, fun a ha => ?_⟩
    · rw [hlen]
      exact Covers.nil
    · obtain rfl := List.mem_singleton.mp ha
      rw [hlen]
      decide
  mapped := fun _ => by decide

/-- A block of four entries of 256 bytes with names of 240 bytes. -/
def fourEntries : Ptr := fun j => if j % 256 = 5 then 1 else if j % 256 = 6 then 240 else 0

theorem fourEntries_chain :
    Chain ⟨9, 1, by decide, by decide⟩ fourEntries [0, 256, 512, 768] where
  covers := by
    have hlen : ∀ a ∈ [0, 256, 512, 768], direntlen fourEntries a = 256 := by decide
    refine Covers.cons (by decide) ?_
    rw [hlen 0 (by decide)]
    refine Covers.cons (by decide) ?_
    rw [hlen 256 (by decide)]
    refine Covers.cons (by decide) ?_
    rw [hlen 512 (by decide)]
    refine Covers.cons (by decide) ?_
    rw [hlen 768 (by decide)]
    exact Covers.nil
  holds := by decide

/-- Four such blocks of 1024 bytes from block 100 on, mapped by one extent. -/
def fourBlocks : Directory ⟨9, 1, by decide, by decide⟩ where
  inode :=
    { extents := true
      dirBlocks := Ptr.ofList
        [0x0a, 0xf3, 1, 0, 4, 0, 0, 0, 0, 0, 0, 0, 0, 0, 0, 0, 4, 0, 0, 0, 100, 0, 0, 0]
      size := 4096
      blockcnt := 8 }
  blocks := [100, 101, 102, 103]
  content := fun _ => fourEntries
  offs := fun _ => [0, 256, 512, 768]
  nonempty := by decide
  length_le := by decide
  pos := by decide
  nodup := by decide
  fits := by decide
  chain := fun _ _ => fourEntries_chain
  mapped := nofun

/-- The number of the new block comes to be the length of the extent. -/
theorem fourBlocks_grown :
    MapsTo (g := ⟨9, 1, by decide, by decide⟩) 1 (grown fourBlocks fourBlocks.onDisk 0 5).part
      (grown fourBlocks fourBlocks.onDisk 0 5).inode [100, 101, 102, 103, 104] := by
  decide

/-- The new entry goes into block 104, which was not allocated. -/
theorem not_right_of_extents : ¬ InsertRight fourBlocks ⟨[97], by decide, by decide⟩ := by
  intro h
  have hmaps : MapsTo (g := ⟨9, 1, by decide, by decide⟩) 1 fourBlocks.onDisk fourBlocks.inode
      fourBlocks.blocks := by decide
  have hholds := onDisk_holds hmaps
  have hroomy : ¬ Roomy fourBlocks ⟨[97], by decide, by decide⟩ := by decide
  have hfresh : Fresh fourBlocks fourBlocks.onDisk 5 :=
    ⟨by decide, by decide, by decide, by decide⟩
  obtain ⟨xs, a, hoffs, hattempt⟩ := @attempt_not_roomy _ fourBlocks 1 fourBlocks.onDisk
    ⟨[97], by decide, by decide⟩ (some 1) hholds (by decide) hroomy
  obtain rfl : 768 = a := by
    have hlast := congrArg List.getLast? hoffs
    rw [List.getLast?_concat] at hlast
    exact Option.some.inj hlast
  rw [if_pos (by decide), if_neg (by decide)] at hattempt
  obtain ⟨r, s, hupdate, hright⟩ := h fourBlocks.onDisk 1 (some 1) [5] hholds
    (by simpa using hfresh)
  rw [updateParentDentry, hattempt, Option.bind_some] at hupdate
  have hgrown := @update_of_assigned _ 1 ⟨[97], by decide, by decide⟩ (some 1) []
    (grown fourBlocks fourBlocks.onDisk 0 5) _ 1
    (attempt_zeros fourBlocks_grown (by decide) (by decide) (by decide) rfl)
  obtain ⟨rfl, rfl⟩ := Prod.ext_iff.mp (Option.some.inj (hgrown.symm.trans hupdate))
  obtain ⟨older, b, buf, i, heq, -, -, hmem, -⟩ := (hright 1 rfl).2.queued
  have hlast := (List.append_inj' (show [_] ++ [_] = _ from heq) rfl).2
  have hb : (104 : Int) = b := (Prod.ext_iff.mp (List.singleton_inj.mp hlast)).1
  obtain rfl : b = 104 := by omega
  exact absurd hmem (by decide)

/-- The entry of a file named `a` goes into block 0 of a directory of twelve blocks, and into a
block that nobody allocated for a directory with an extent. -/
theorem insert_wrong : ¬ InsertRight twelveBlocks ⟨[97], by decide, by decide⟩ ∧
    ¬ InsertRight fourBlocks ⟨[97], by decide, by decide⟩ :=
  ⟨not_right_of_twelve rfl rfl, not_right_of_extents⟩

end UBoot.Ext4.ParentDentry
