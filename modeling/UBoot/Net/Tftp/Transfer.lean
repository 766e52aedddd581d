import Mathlib.Data.List.Basic
import UBoot.Net.Tftp.Basic

/-!
# Files and block sizes

A file is sent in blocks of the size agreed on. All blocks but the last one are
full, and the last one is short, possibly empty.
-/

namespace UBoot.Net.Tftp

open Verification

/-! ### Arithmetic of `ulong` -/

theorem ulong_natCast (n : Nat) : ulong n = n % 4294967296 := by
  rw [ulong]
  omega

theorem ulong_of_lt {n : Nat} (h : n < 4294967296) : ulong n = n := by
  rw [ulong_natCast, Nat.mod_eq_of_lt h]

theorem ulong_add (m n : Nat) : ulong ((m : Int) + n) = (m + n) % 4294967296 := by
  rw [ulong]
  omega

@[simp] theorem length_loadBytes (mem : Nat → UInt8) (addr n : Nat) :
    (loadBytes mem addr n).length = n := by
  simp [loadBytes]

/-! ### The blocks of a file -/

/-- The number of blocks of a file of `size` bytes. -/
def blockCount (size blkSize : Nat) : Nat := size / blkSize + 1

/-- The block with a number; the first one has number 1. -/
def fileBlock (file : List UInt8) (blkSize k : Nat) : List UInt8 :=
  (file.drop ((k - 1) * blkSize)).take blkSize

def fileBlocks (file : List UInt8) (blkSize : Nat) : List (List UInt8) :=
  (List.range (blockCount file.length blkSize)).map fun i => fileBlock file blkSize (i + 1)

variable {file : List UInt8} {blkSize k : Nat}

@[simp] theorem length_fileBlock (file : List UInt8) (blkSize k : Nat) :
    (fileBlock file blkSize k).length = min blkSize (file.length - (k - 1) * blkSize) := by
  simp [fileBlock]

/-- Block `k` ends at the end of the file or is full. -/
theorem mul_le_of_lt_blockCount {size : Nat} (hk : k < blockCount size blkSize) :
    k * blkSize ≤ size := by
  rw [blockCount, Nat.lt_succ_iff] at hk
  exact Nat.le_trans (Nat.mul_le_mul_right _ hk) (Nat.div_mul_le_self _ _)

theorem lt_mul_of_blockCount_le (size : Nat) (hpos : 0 < blkSize)
    (hk : blockCount size blkSize ≤ k) : size < k * blkSize := by
  rw [blockCount] at hk
  calc size < (size / blkSize + 1) * blkSize := Nat.lt_mul_of_div_lt (Nat.lt_succ_self _) hpos
    _ ≤ k * blkSize := Nat.mul_le_mul_right _ hk

/-- Only the last block is short. -/
theorem length_fileBlock_lt_iff (h1 : 1 ≤ k) (hk : k ≤ blockCount file.length blkSize) :
    (fileBlock file blkSize k).length < blkSize ↔
      0 < blkSize ∧ k = blockCount file.length blkSize := by
  obtain ⟨n, rfl⟩ : ∃ n, k = n + 1 := ⟨k - 1, by omega⟩
  rw [length_fileBlock, Nat.add_sub_cancel]
  have hn := mul_le_of_lt_blockCount (show n < blockCount file.length blkSize by omega)
  constructor
  · intro hlt
    refine ⟨by omega, ?_⟩
    by_contra hne
    have hfull := mul_le_of_lt_blockCount (show n + 1 < blockCount file.length blkSize by omega)
    rw [Nat.succ_mul] at hfull
    omega
  · rintro ⟨hpos, heq⟩
    have hend := lt_mul_of_blockCount_le file.length hpos (Nat.le_of_eq heq.symm)
    rw [Nat.succ_mul] at hend
    omega

/-! ### Agreeing on the block size -/

theorem oackTurn_cases (pkt : List UInt8) (i : Nat) :
    (∀ blkSize, oackTurn pkt blkSize i = blkSize) ∨
      ∃ value, ∀ blkSize, oackTurn pkt blkSize i = value := by
  by_cases h : (pkt.drop i).takeWhile (· ≠ 0) = ascii "blksize"
  · exact .inr ⟨_, fun _ => if_pos h⟩
  · exact .inl fun _ => if_neg h

/-- The same OACK again does not change the block size. -/
theorem oackBlkSize_idem (pkt : List UInt8) (blkSize : Nat) :
    oackBlkSize pkt (oackBlkSize pkt blkSize) = oackBlkSize pkt blkSize := by
  -- either no position sets a block size, or the last one that does decides
  have hfold : ∀ positions : List Nat, (∀ b, positions.foldl (oackTurn pkt) b = b) ∨
      ∃ value, ∀ b, positions.foldl (oackTurn pkt) b = value := by
    intro positions
    induction positions using List.reverseRecOn with
    | nil => exact .inl fun _ => rfl
    | append_singleton positions i ih =>
      simp only [List.foldl_append, List.foldl_cons, List.foldl_nil]
      rcases oackTurn_cases pkt i with hkeep | hset
      · simp only [hkeep]
        exact ih
      · obtain ⟨value, hset⟩ := hset
        exact .inr ⟨value, fun _ => hset _⟩
  simp only [oackBlkSize]
  rcases hfold (List.range (pkt.length - 8)) with hkeep | ⟨value, hset⟩
  · simp only [hkeep]
  · simp only [hset]

theorem oackTurn_lt (pkt : List UInt8) {blkSize : Nat} (h : blkSize < 65536) (i : Nat) :
    oackTurn pkt blkSize i < 65536 := by
  rw [oackTurn]
  split
  · exact Nat.mod_lt _ (by decide)
  · exact h

theorem oackBlkSize_lt (pkt : List UInt8) {blkSize : Nat} (h : blkSize < 65536) :
    oackBlkSize pkt blkSize < 65536 := by
  rw [oackBlkSize]
  generalize List.range (pkt.length - 8) = positions
  induction positions generalizing blkSize with
  | nil => exact h
  | cons i positions ih => exact ih (oackTurn_lt pkt h i)

/-- The block size after the answer of a server, which may have no options. -/
def agreedBlkSize : Option (List UInt8) → Nat
  | none => TFTP_BLOCK_SIZE
  | some options => oackBlkSize options TFTP_BLOCK_SIZE

theorem agreedBlkSize_lt (oack : Option (List UInt8)) : agreedBlkSize oack < 65536 := by
  cases oack with
  | none => decide
  | some options => exact oackBlkSize_lt options (by decide)

/-- The variables of the client before the first transfer. -/
def Client.unused : Client where
  state := .data
  block := 0
  lastBlock := 0
  blockWrap := 0
  blockWrapOffset := 0
  blkSize := TFTP_BLOCK_SIZE
  writing := false
  finalBlock := false
  xferSize := 0
  loadAddr := 0
  saveAddr := 0
  mem := fun _ => 0
  timeoutCount := 0
  timeoutCountMax := TIMEOUT_COUNT
  ourPort := 0
  remotePort := 0
  status := .running

end UBoot.Net.Tftp
