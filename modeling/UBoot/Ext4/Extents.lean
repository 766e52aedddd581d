import Mathlib.Data.Fintype.Option
import UBoot.Ext4.Session
import UBoot.Verification.Cycles

/-!
# Files that are mapped by extents

`ext4fs_get_extent_block` and the part of `read_allocated_block` for extents
(`fs/ext4/ext4_common.c`). The root of the tree stands in the inode, the other nodes in
blocks of the partition. The depth, the number of entries and the pointers are taken as
they are found: an entry may lie outside of its node, and the descent may not end.
`lbaint_t` and `long int` have 32 bits, and `zalloc` succeeds.
-/

namespace UBoot.Ext4.Extents

open Verification Relation

def EXT4_EXT_MAGIC : UInt16 := 0xf30a

/-- A number of a sector, as an `lbaint_t`. -/
abbrev Sector := Fin 4294967296

/-- The inode's 60 bytes of block pointers, the partition of `partSize` sectors, and the two
logarithms that the code shifts by: of the bytes in a sector and of the sectors in a
block. -/
structure File where
  dirBlocks : Ptr
  disk : Ptr
  partSize : Nat
  log2blksz : Nat
  log2FsBlocksize : Nat
  partSize_lt : partSize < 4294967296

/-- Where a node stands: in the inode, or in the block that begins with a sector. -/
abbrev Node := Option Sector

section

variable (x : File)

def File.blksz : Nat := 2 ^ (x.log2FsBlocksize + x.log2blksz)

def File.bytes : Node → Ptr
  | none => x.dirBlocks
  | some sector => x.disk.add (sector * 2 ^ x.log2blksz)

/-- The room that there is for a node. -/
def File.room : Node → Nat
  | none => 60
  | some _ => x.blksz

/-- The check of `ext4fs_devread` for a block. -/
def File.reads (sector : Sector) : Bool :=
  (sector + (x.blksz - 1) / 2 ^ x.log2blksz) % 4294967296 < x.partSize

/-! ## Fields -/

/-- `struct ext4_extent_header` -/
def File.ehMagic (n : Node) : UInt16 := le16At (x.bytes n) 0

def File.ehEntries (n : Node) : Nat := (le16At (x.bytes n) 2).toNat

def File.ehDepth (n : Node) : Nat := (le16At (x.bytes n) 6).toNat

/-- `ei_block` and `ee_block` of entry `i`. -/
def File.block (n : Node) (i : Nat) : Nat := (le32At (x.bytes n) (12 + 12 * i)).toNat

/-- `ei_leaf_hi` and `ei_leaf_lo`, as a sector. -/
def File.leaf (n : Node) (i : Nat) : Nat :=
  (le16At (x.bytes n) (12 + 12 * i + 8)).toNat * 2 ^ 32 +
    (le32At (x.bytes n) (12 + 12 * i + 4)).toNat

def File.leafSector (n : Node) (i : Nat) : Sector :=
  Fin.ofNat 4294967296 (x.leaf n i * 2 ^ x.log2FsBlocksize)

def File.eeLen (n : Node) (i : Nat) : Nat := (le16At (x.bytes n) (12 + 12 * i + 4)).toNat

/-- `ee_start_hi` and `ee_start_lo`. -/
def File.eeStart (n : Node) (i : Nat) : Nat :=
  (le16At (x.bytes n) (12 + 12 * i + 6)).toNat * 2 ^ 32 +
    (le32At (x.bytes n) (12 + 12 * i + 8)).toNat

/-- Entry `i` lies in the room of the node. -/
def File.Inside (n : Node) (i : Nat) : Prop := 12 + 12 * (i + 1) ≤ x.room n

instance (n : Node) (i : Nat) : Decidable (x.Inside n i) := inferInstanceAs (Decidable (_ ≤ _))

/-! ## The code -/

/-- The search through the entries of a node, with `left` of them left: the first entry
behind `fileblock`, or the number of entries. Nothing when an entry lies outside. -/
def searchLoop (n : Node) (fileblock : Nat) : Nat → Nat → Option Nat
  | 0, i => some i
  | left + 1, i =>
    if x.Inside n i then
      if x.block n i ≤ fileblock then searchLoop n fileblock left (i + 1) else some i
    else none

def search (n : Node) (fileblock : Nat) : Option Nat :=
  searchLoop x n fileblock (x.ehEntries n) 0

/-- What one round of the descent comes to. -/
inductive Round
  | invalid
  | found
  | outside
  | child (sector : Sector)
  deriving DecidableEq

/-- A round of the loop of `ext4fs_get_extent_block`. -/
def descendRound (n : Node) (fileblock : Nat) : Round :=
  if x.ehMagic n ≠ EXT4_EXT_MAGIC then .invalid
  else if x.ehDepth n = 0 then .found
  else
    match search x n fileblock with
    | none => .outside
    | some 0 => .invalid
    | some (i + 1) =>
      if x.reads (x.leafSector n i) then .child (x.leafSector n i) else .invalid

/-- What `ext4fs_get_extent_block` comes to. -/
inductive Descent
  | invalid
  | found (n : Node)
  | outside
  deriving DecidableEq

/-- `ext4fs_get_extent_block` from a node on. -/
def getExtentBlock (fileblock : Nat) : Nat → Node → Option Descent
  | 0, _ => none
  | fuel + 1, n =>
    match descendRound x n fileblock with
    | .invalid => some .invalid
    | .found => some (.found n)
    | .outside => some .outside
    | .child sector => getExtentBlock fileblock fuel (some sector)

/-- The value of a `long int`. -/
def longInt (n : Nat) : Int :=
  if n % 4294967296 < 2147483648 then (n % 4294967296 : Nat)
  else (n % 4294967296 : Nat) - 4294967296

def EINVAL : Int := 22

/-- What `read_allocated_block` does with the leaf. -/
def readLeaf (n : Node) (fileblock : Nat) : Option Int :=
  (search x n fileblock).map fun
    | 0 => -1
    | i + 1 =>
      let fileblock := fileblock - x.block n i
      if x.eeLen n i ≤ fileblock then 0 else longInt (fileblock + x.eeStart n i)

/-- `read_allocated_block` for a file that has extents: nothing without enough fuel, and
nothing inside when an entry lies outside of its node. -/
def readAllocatedBlock (fuel fileblock : Nat) : Option (Option Int) :=
  (getExtentBlock x fileblock fuel none).map fun
    | .invalid => some (-EINVAL)
    | .found n => readLeaf x n fileblock
    | .outside => none

end

/-! ## The search -/

/-- The number of entries that come before the first one behind `fileblock`. -/
def leadFrom (block : Nat → Nat) (fileblock : Nat) : Nat → Nat → Nat
  | 0, i => i
  | left + 1, i =>
    if block i ≤ fileblock then leadFrom block fileblock left (i + 1) else i

section

variable (block : Nat → Nat) (fileblock : Nat)

theorem le_leadFrom (left i : Nat) : i ≤ leadFrom block fileblock left i := by
  induction left generalizing i with
  | zero => exact Nat.le_refl i
  | succ left ih =>
    rw [leadFrom]
    split_ifs
    · exact (Nat.le_succ i).trans (ih (i + 1))
    · exact Nat.le_refl i

theorem leadFrom_le (left i : Nat) : leadFrom block fileblock left i ≤ i + left := by
  induction left generalizing i with
  | zero => exact Nat.le_refl i
  | succ left ih =>
    rw [leadFrom]
    split_ifs
    · have := ih (i + 1)
      omega
    · omega

theorem block_le_of_lt_leadFrom (left i : Nat) {k : Nat} (hik : i ≤ k)
    (hk : k < leadFrom block fileblock left i) : block k ≤ fileblock := by
  induction left generalizing i with
  | zero => exact absurd hk (by rw [leadFrom]; omega)
  | succ left ih =>
    rw [leadFrom] at hk
    split_ifs at hk with hle
    · obtain rfl | hlt := Nat.eq_or_lt_of_le hik
      · exact hle
      · exact ih (i + 1) hlt hk
    · omega

theorem lt_block_leadFrom (left i : Nat) (h : leadFrom block fileblock left i < i + left) :
    fileblock < block (leadFrom block fileblock left i) := by
  induction left generalizing i with
  | zero => exact absurd h (by rw [leadFrom]; omega)
  | succ left ih =>
    rw [leadFrom] at h ⊢
    split_ifs at h ⊢ with hle
    · exact ih (i + 1) (by omega)
    · omega

end

section

variable (x : File) (n : Node) (fileblock : Nat)

def File.lead : Nat := leadFrom (x.block n) fileblock (x.ehEntries n) 0

/-- The entries that the search reads lie in the room of the node. -/
def File.SearchInside : Prop := ∀ i < x.ehEntries n, i ≤ x.lead n fileblock → x.Inside n i

theorem searchLoop_eq (left i : Nat) :
    (searchLoop x n fileblock left i = none ∧
      ∃ k, i ≤ k ∧ k ≤ leadFrom (x.block n) fileblock left i ∧ k < i + left ∧ ¬x.Inside n k) ∨
    (searchLoop x n fileblock left i = some (leadFrom (x.block n) fileblock left i) ∧
      ∀ k, i ≤ k → k ≤ leadFrom (x.block n) fileblock left i → k < i + left → x.Inside n k) := by
  induction left generalizing i with
  | zero => exact .inr ⟨rfl, fun k hik _ hk => by omega⟩
  | succ left ih =>
    rw [searchLoop, leadFrom]
    by_cases hin : x.Inside n i
    · rw [if_pos hin]
      by_cases hle : x.block n i ≤ fileblock
      · rw [if_pos hle, if_pos hle]
        refine (ih (i + 1)).imp (fun ⟨hnone, k, hik, hk, hlt, hout⟩ => ?_)
          (fun ⟨hsome, hall⟩ => ?_)
        · exact ⟨hnone, k, by omega, hk, by omega, hout⟩
        · refine ⟨hsome, fun k hik hk hlt => ?_⟩
          obtain rfl | hne := Nat.eq_or_lt_of_le hik
          · exact hin
          · exact hall k hne hk (by omega)
      · rw [if_neg hle, if_neg hle]
        refine .inr ⟨rfl, fun k hik hk _ => ?_⟩
        obtain rfl : k = i := by omega
        exact hin
    · rw [if_neg hin]
      refine .inl ⟨rfl, i, Nat.le_refl i, ?_, by omega, hin⟩
      split_ifs
      · exact (Nat.le_succ i).trans (le_leadFrom _ _ _ _)
      · exact Nat.le_refl i

/-- The search finds the number of leading entries, or reads an entry outside. -/
theorem search_eq : (search x n fileblock = none ∧ ¬x.SearchInside n fileblock) ∨
    (search x n fileblock = some (x.lead n fileblock) ∧ x.SearchInside n fileblock) := by
  refine (searchLoop_eq x n fileblock (x.ehEntries n) 0).imp
    (fun ⟨hnone, k, _, hk, hlt, hout⟩ => ⟨hnone, fun h => hout (h k (by omega) hk)⟩)
    (fun ⟨hsome, hall⟩ => ⟨hsome, fun k hlt hk => hall k (Nat.zero_le k) hk (by omega)⟩)

theorem lead_le : x.lead n fileblock ≤ x.ehEntries n := by
  have := leadFrom_le (x.block n) fileblock (x.ehEntries n) 0
  rw [Nat.zero_add] at this
  exact this

theorem block_le_of_lt_lead {i : Nat} (h : i < x.lead n fileblock) : x.block n i ≤ fileblock :=
  block_le_of_lt_leadFrom _ _ _ 0 (Nat.zero_le i) h

theorem lt_block_lead (h : x.lead n fileblock < x.ehEntries n) :
    fileblock < x.block n (x.lead n fileblock) :=
  lt_block_leadFrom _ _ _ 0 (by rw [Nat.zero_add]; exact h)

end

end UBoot.Ext4.Extents
