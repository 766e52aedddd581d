import UBoot.Verification.Move

/-!
# Moving images in chunks

`memmove_wd` of `common/image.c`. With a watchdog it moves a chunk at a time,
so that the watchdog can be reset in between. The addresses are those of
objects in memory, so a pointer behind the last byte does not wrap.
-/

namespace UBoot.Image

open Verification

/-- The loop of `memmove_wd`. -/
def memmoveChunks (chunksz : Nat) (pos : 0 < chunksz) (mem : Ptr) (dst src len : Nat) : Ptr :=
  if 0 < len then
    let tail := if len > chunksz then chunksz else len
    let back := if dst > src then tail else 0
    let mem := mem.move (dst - back) (src - back) tail
    let ahead := if dst - back < src - back then tail else 0
    memmoveChunks chunksz pos mem (dst - back + ahead) (src - back + ahead) (len - tail)
  else mem
termination_by len
decreasing_by split_ifs <;> omega

/-- `memmove_wd` with and without `CONFIG_HW_WATCHDOG` or `CONFIG_WATCHDOG` -/
def memmoveWd (watchdog : Bool) (chunksz : Nat) (pos : 0 < chunksz) (mem : Ptr)
    (dst src len : Nat) : Ptr :=
  if dst = src then mem
  else if watchdog then
    if dst > src then memmoveChunks chunksz pos mem (dst + len) (src + len) len
    else memmoveChunks chunksz pos mem dst src len
  else mem.move dst src len

section

variable {chunksz : Nat} (pos : 0 < chunksz) (mem : Ptr)

theorem memmoveChunks_zero (dst src : Nat) :
    memmoveChunks chunksz pos mem dst src 0 = mem := by
  rw [memmoveChunks, if_neg (Nat.lt_irrefl 0)]

include pos in
/-- The chunk of one round is not empty and not longer than what is left. -/
theorem exists_tail {len : Nat} (h : 0 < len) :
    ∃ tail rest, (if len > chunksz then chunksz else len) = tail ∧ 0 < tail ∧
      len = rest + tail := by
  split_ifs with hlong
  · exact ⟨chunksz, len - chunksz, rfl, pos, by omega⟩
  · exact ⟨len, 0, rfl, h, by omega⟩

/-- One round towards lower addresses moves the first chunk. -/
theorem memmoveChunks_forward {dst src len : Nat} (h : dst < src) (hlen : 0 < len) :
    ∃ tail rest, 0 < tail ∧ len = tail + rest ∧
      memmoveChunks chunksz pos mem dst src len =
        memmoveChunks chunksz pos (mem.move dst src tail) (dst + tail) (src + tail) rest := by
  obtain ⟨tail, rest, htail, hpos, hsum⟩ := exists_tail pos hlen
  refine ⟨tail, rest, hpos, by omega, ?_⟩
  rw [memmoveChunks, if_pos hlen]
  simp only [htail]
  rw [if_neg (by omega), Nat.sub_zero, Nat.sub_zero, if_pos h, hsum, Nat.add_sub_cancel]

/-- One round towards higher addresses moves the last chunk. -/
theorem memmoveChunks_backward {dst src len : Nat} (h : src < dst) (hlen : 0 < len) :
    ∃ tail rest, 0 < tail ∧ len = rest + tail ∧
      memmoveChunks chunksz pos mem (dst + len) (src + len) len =
        memmoveChunks chunksz pos (mem.move (dst + rest) (src + rest) tail) (dst + rest)
          (src + rest) rest := by
  obtain ⟨tail, rest, htail, hpos, hsum⟩ := exists_tail pos hlen
  refine ⟨tail, rest, hpos, hsum, ?_⟩
  rw [memmoveChunks, if_pos hlen]
  simp only [htail]
  have hback : ∀ a, a + len - tail = a + rest := by
    intro a
    omega
  rw [if_pos (by omega), hback, hback, if_neg (by omega), Nat.add_zero, Nat.add_zero, hsum,
    Nat.add_sub_cancel]

/-- From the first chunk on: the chunks behind have not been written before they are read. -/
theorem memmoveChunks_of_lt {dst src : Nat} (h : dst < src) (len : Nat) :
    memmoveChunks chunksz pos mem dst src len = mem.move dst src len := by
  induction len using Nat.strong_induction_on generalizing mem dst src with
  | _ len ih =>
    obtain rfl | hlen := Nat.eq_zero_or_pos len
    · rw [memmoveChunks_zero, Ptr.move_zero]
    · obtain ⟨tail, rest, hpos, rfl, hround⟩ := memmoveChunks_forward pos mem h hlen
      rw [hround, ih rest (by omega) _ (by omega), Ptr.move_forward _ h.le]

/-- From the last chunk on: the chunks before have not been written before they are read. -/
theorem memmoveChunks_of_gt {dst src : Nat} (h : src < dst) (len : Nat) :
    memmoveChunks chunksz pos mem (dst + len) (src + len) len = mem.move dst src len := by
  induction len using Nat.strong_induction_on generalizing mem with
  | _ len ih =>
    obtain rfl | hlen := Nat.eq_zero_or_pos len
    · rw [memmoveChunks_zero, Ptr.move_zero]
    · obtain ⟨tail, rest, hpos, rfl, hround⟩ := memmoveChunks_backward pos mem h hlen
      rw [hround, ih rest (by omega) _, Ptr.move_backward _ h.le]

end

/-- Moving in chunks of any size is one move, however the two regions overlap. -/
theorem memmoveWd_eq_move (watchdog : Bool) (chunksz : Nat) (pos : 0 < chunksz) (mem : Ptr)
    (dst src len : Nat) :
    memmoveWd watchdog chunksz pos mem dst src len = mem.move dst src len := by
  rw [memmoveWd]
  obtain hlt | rfl | hgt := Nat.lt_trichotomy dst src
  · rw [if_neg hlt.ne, if_neg hlt.not_gt, memmoveChunks_of_lt pos mem hlt, ite_self]
  · rw [if_pos rfl, Ptr.move_self]
  · rw [if_neg hgt.ne', if_pos hgt, memmoveChunks_of_gt pos mem hgt, ite_self]

/-- Five bytes are moved up by one in chunks of two. -/
theorem memmoveWd_overlapping :
    (memmoveWd true 2 (by decide) (Ptr.ofList [1, 2, 3, 4, 5, 6]) 1 0 5).bytes 6 =
      [1, 1, 2, 3, 4, 5] := by
  rw [memmoveWd_eq_move]
  decide

end UBoot.Image
