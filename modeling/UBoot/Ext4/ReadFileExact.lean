import UBoot.Ext4.ReadFile

/-!
# When a part of a file is read right

A length is cut off at the size of the file and not at what is left behind the position, a
hole is filled up to the end of its block, and a read that begins in the last sector of a
block goes on with the same block as if it were the next one. Nothing else goes wrong.
-/

namespace UBoot.Ext4.ReadFile

open Verification

/-- The range is read into the buffer and nothing is written behind it. The reported length
stays in the file also for a range that does not. -/
def ReadRight (x : File) (pos len : Nat) : Prop :=
  ∀ v : Volume, v.Holds x → ∀ out,
    (∀ n out', readFile x v pos len out = some (n, out') → n = 0 ∨ pos + n ≤ x.size) ∧
    (pos + len ≤ x.size → ∃ out', readFile x v pos len out = some (len, out') ∧
      (∀ j < len, out' j = x.byte v (pos + j)) ∧ ∀ j, len ≤ j → out' j = out j)

/-- The length comes to be in the file, no hole is cut, and no block follows itself. -/
def ReadCond (x : File) (pos len : Nat) : Prop :=
  (pos = 0 ∨ pos + len ≤ x.size ∨ len = 0 ∨ x.size = 0) ∧
    (pos + len ≤ x.size → ¬ TailHole x pos len ∧ ¬ Twin x pos len)

variable (x : File) (v : Volume) {pos len : Nat}

theorem readFile_eq (out : Ptr) : readFile x v pos len out =
    (readRange x v pos (min len x.size) out).map fun out => (min len x.size, out) := by
  have hmin : (if len > x.size then x.size else len) = min len x.size := by
    rw [Nat.min_def]
    split_ifs <;> omega
  rw [readFile, hmin]

theorem filled_of_lt (out : Ptr) {n j : Nat} (hj : j < n) :
    filled x v pos out n j = x.byte v (pos + j) := by
  rw [filled, Ptr.write, if_pos (by omega), Nat.sub_zero]

theorem filled_of_le (out : Ptr) {n j : Nat} (hj : n ≤ j) : filled x v pos out n j = out j :=
  if_neg (by omega)

theorem readRight_of_cond (h : ReadCond x pos len) : ReadRight x pos len := by
  intro v hvol out
  constructor
  · intro n out' hread
    rw [readFile_eq, Option.map_eq_some_iff] at hread
    obtain ⟨_, -, heq⟩ := hread
    obtain rfl := (Prod.ext_iff.mp heq).1
    have := h.1
    dsimp only
    omega
  · intro hrange
    obtain ⟨htail, htwin⟩ := h.2 hrange
    rw [readFile_eq, Nat.min_eq_left (by omega), readRange_eq x v hvol hrange htwin htail]
    exact ⟨_, rfl, fun j hj => filled_of_lt x v out hj, fun j hj => filled_of_le x v out hj⟩

/-! ## A partition that is large enough -/

/-- A partition that holds whatever the loop reads. -/
def large (pos len : Nat) (disk : Ptr) : Volume where
  disk := disk
  partSize := 2147483648 * 2 ^ x.log2FsBlocksize + x.blocksize * blockcnt x pos len

variable (pos len) in
theorem large_holds (disk : Ptr) : (large x pos len disk).Holds x := by
  intro i _ _
  have hle := Nat.mul_le_mul_right (2 ^ x.log2FsBlocksize) (Nat.succ_le_of_lt (x.map_lt i))
  rw [Nat.succ_mul] at hle
  exact Nat.le_trans hle (Nat.le_add_right _ _)

/-- A delayed read begins in a block and is no longer than the blocks that were passed. -/
def Short (i : Nat) (s : State) : Prop :=
  ∀ d, s.delayed = some d → d.start < 2147483648 * 2 ^ x.log2FsBlocksize ∧
    d.skipfirst + d.extent ≤ x.blocksize * i

theorem blknr_lt (i : Nat) : x.blknr i < 2147483648 * 2 ^ x.log2FsBlocksize :=
  Nat.mul_lt_mul_of_pos_right (x.map_lt i) (Nat.two_pow_pos _)

theorem Short.reads {disk : Ptr} {i : Nat} {s : State} (h : Short x i s)
    (hi : i ≤ blockcnt x pos len) : Reads x (large x pos len disk) s := by
  intro d hd
  obtain ⟨hstart, hextent⟩ := h d hd
  have hdiv := Nat.div_le_self (d.skipfirst + d.extent - 1) x.blksz
  have hmul := Nat.mul_le_mul_left x.blocksize hi
  show _ < 2147483648 * 2 ^ x.log2FsBlocksize + x.blocksize * blockcnt x pos len
  omega

theorem Short.readBlock {i : Nat} {s s' : State} (h : Short x i s)
    (hfirst : pos / x.blocksize ≤ i) (hi : i < blockcnt x pos len)
    (hs' : readBlock x v pos len i s = some s') : Short x (i + 1) s' := by
  have hle := (blockend_le x hi hfirst).1
  intro d hd
  rw [Nat.mul_succ]
  obtain ⟨-, ⟨-, hnone, -⟩ | ⟨-, ⟨d', hd', -, hsome⟩, -⟩ | ⟨-, -, hsome, -⟩⟩ :=
    readBlock_cases x v pos len hs'
  · rw [hnone] at hd
    exact nomatch hd
  · obtain rfl := Option.some.inj (hsome.symm.trans hd)
    obtain ⟨hstart, hextent⟩ := h d' hd'
    refine ⟨hstart, ?_⟩
    show d'.skipfirst + (d'.extent + blockend x pos len i) ≤ _
    omega
  · obtain rfl := Option.some.inj (hsome.symm.trans hd)
    refine ⟨blknr_lt x i, ?_⟩
    show skipfirst x pos i + blockend x pos len i ≤ _
    omega

variable (pos len) in
theorem readRange_large (disk out : Ptr) :
    ∃ out', readRange x (large x pos len disk) pos len out = some out' := by
  obtain ⟨s, hs, h⟩ := readBlocks_rule x (large x pos len disk) (fun i s => Short x i s)
    (fun i s hfirst hi h => by
      obtain ⟨s', hs'⟩ := readBlock_isSome x (large x pos len disk) pos len i (h.reads x hi.le)
      exact ⟨s', hs', h.readBlock x _ hfirst hi hs'⟩)
    (s := { buf := 0, delayed := none, out }) nofun
  rw [readRange, hs, Option.bind_some, spill_eq x _ (h.reads x le_rfl)]
  exact ⟨_, rfl⟩

theorem length_of_right (h : ReadRight x pos len) :
    pos = 0 ∨ pos + len ≤ x.size ∨ len = 0 ∨ x.size = 0 := by
  obtain ⟨out', hout'⟩ := readRange_large x pos (min len x.size) (fun _ => 0) (fun _ => 0)
  have hread := (h _ (large_holds x _ _ (fun _ => 0)) (fun _ => 0)).1 (min len x.size) out' (by
    rw [readFile_eq, hout']
    rfl)
  omega

/-! ## What goes wrong in a range -/

theorem readRange_of_right (h : ReadRight x pos len) (hrange : pos + len ≤ x.size)
    (hvol : v.Holds x) (out : Ptr) :
    ∃ s, readBlocks x v pos len (blockcnt x pos len - pos / x.blocksize) (pos / x.blocksize)
        { buf := 0, delayed := none, out } = some s ∧
      (∀ j < len, view x v s j = x.byte v (pos + j)) ∧ ∀ j, len ≤ j → view x v s j = out j := by
  obtain ⟨out', hread, hbytes, hbehind⟩ := (h v hvol out).2 hrange
  rw [readFile_eq, Nat.min_eq_left (by omega), Option.map_eq_some_iff] at hread
  obtain ⟨_, hread, heq⟩ := hread
  obtain rfl := (Prod.ext_iff.mp heq).2
  rw [readRange, Option.bind_eq_some_iff] at hread
  obtain ⟨s, hs, hspill⟩ := hread
  obtain rfl := view_of_spill x v hspill
  exact ⟨s, hs, hbytes, hbehind⟩

theorem blockcnt_of_mod_ne (h : (pos + len) % x.blocksize ≠ 0) :
    blockcnt x pos len = (pos + len) / x.blocksize + 1 := by
  have hlast := Nat.div_add_mod (pos + len) x.blocksize
  have hlt := Nat.mod_lt (pos + len) x.blocksize_pos
  have h1 := lt_blockcnt_iff x pos len (i := (pos + len) / x.blocksize)
  have h2 := lt_blockcnt_iff x pos len (i := (pos + len) / x.blocksize + 1)
  rw [Nat.mul_succ] at h2
  omega

/-- A hole is shown as zeros up to the end of its block. -/
theorem view_of_hole {i : Nat} {s s' : State} (hplaced : Placed x pos len i s)
    (hfirst : pos / x.blocksize ≤ i) (hi : i < blockcnt x pos len) (hmap : x.map i = 0)
    (hs' : readBlock x v pos len i s = some s') {k : Nat} (hk : x.blocksize * i ≤ pos + k)
    (hend : pos + k < x.blocksize * (i + 1)) : view x v s' k = 0 := by
  obtain ⟨src, hview, hsrc⟩ := view_readBlock x v hplaced hi hs'
  have hnext := buf_next x hfirst
  rw [hview, hsrc fun _ _ hne => absurd hmap hne, written, if_pos hmap, blockSource, if_pos hmap,
    hplaced.buf, Ptr.write, if_pos (by omega)]

/-- A hole that ends behind the range is filled behind the range. -/
theorem not_right_of_tailHole (hrange : pos + len ≤ x.size) (htail : TailHole x pos len) :
    ¬ ReadRight x pos len := by
  intro h
  have hvol := large_holds x pos len fun _ => 0
  obtain ⟨s, hs, -, hbehind⟩ := readRange_of_right x _ h hrange hvol (fun _ => 1)
  have hcnt := blockcnt_of_mod_ne x htail.1
  have hlast := Nat.div_add_mod (pos + len) x.blocksize
  have hlt := Nat.mod_lt (pos + len) x.blocksize_pos
  have hfirst : pos / x.blocksize ≤ (pos + len) / x.blocksize := Nat.div_le_div_right (by omega)
  have hkeep := readBlocks_partial x _
    (fun i s => Placed x pos len i s ∧ (i = blockcnt x pos len → view x _ s len = 0))
    (fun i s s' hfirst hi hs' h => by
      refine ⟨h.1.readBlock x _ hfirst hi hs', fun hend => ?_⟩
      obtain rfl : i = (pos + len) / x.blocksize := by omega
      refine view_of_hole x _ h.1 hfirst hi htail.2 hs' (by omega) ?_
      rw [Nat.mul_succ]
      omega)
    ⟨placed_first x _, fun hend => by omega⟩ hs
  have hone := hbehind len le_rfl
  rw [hkeep.2 rfl] at hone
  exact absurd hone (by decide)

variable (pos) in
/-- The place behind the first block. -/
def behindFirst : Nat := x.map (pos / x.blocksize) * x.blocksize + x.blocksize

variable (pos len) in
/-- The loop while it reads the second block from behind the first one. -/
structure Misread (i : Nat) (s : State) : Prop where
  placed : Placed x pos len i s
  none : i = pos / x.blocksize → s.delayed = none
  first : i = pos / x.blocksize + 1 →
    s.delayed = some (delay x pos len (pos / x.blocksize) 0)
  byte : pos / x.blocksize + 1 < i →
    view x v s (x.blocksize - pos % x.blocksize) = v.disk (behindFirst x pos)

theorem Misread.readBlock (htwin : Twin x pos len) {i : Nat} {s s' : State}
    (h : Misread x v pos len i s)
    (hfirst : pos / x.blocksize ≤ i) (hi : i < blockcnt x pos len)
    (hs' : readBlock x v pos len i s = some s') :
    Misread x v pos len (i + 1) s' := by
  obtain ⟨hskip, hshort, hcnt, hmap, hsame⟩ := htwin
  have hmod := Nat.div_add_mod pos x.blocksize
  have hlt := Nat.mod_lt pos x.blocksize_pos
  have hfull := blockend_of_next x hcnt
  rw [skipfirst_first] at hfull
  have hcases := (readBlock_cases x v pos len hs').2
  refine ⟨h.placed.readBlock x v hfirst hi hs', fun hne => by omega, fun heq => ?_, fun hgt => ?_⟩
  · obtain rfl : i = pos / x.blocksize := by omega
    obtain ⟨h0, -⟩ | ⟨-, ⟨d, hd, -⟩, -⟩ | ⟨-, -, hsome, -⟩ := hcases
    · exact absurd h0 hmap
    · rw [h.none rfl] at hd
      exact nomatch hd
    · rw [hsome, h.placed.buf, Nat.sub_eq_zero_of_le (by omega)]
  · rcases Nat.eq_or_lt_of_le (Nat.succ_le_of_lt (Nat.lt_of_succ_lt_succ hgt)) with heq | hlater
    · obtain rfl : i = pos / x.blocksize + 1 := heq.symm
      have hd := h.first rfl
      have hpos : 0 < blockend x pos len (pos / x.blocksize + 1) :=
        blockend_pos_of_first_lt x (Nat.lt_succ_self _) hi
      obtain ⟨h0, -⟩ | ⟨-, ⟨d, hd', -, hsome⟩, -⟩ | ⟨-, hnext, -⟩ := hcases
      · exact absurd (hsame.symm.trans h0) hmap
      · obtain rfl := Option.some.inj (hd.symm.trans hd')
        simp only [view, hsome, Delayed.extend, delay, hfull, skipfirst_first, Ptr.write, Ptr.add,
          Nat.sub_zero, Nat.zero_add, Nat.zero_le, true_and]
        rw [if_pos (by omega), x.blknr_mul, behindFirst]
        congr 1
        omega
      · refine absurd ?_ (hnext _ hd)
        rw [delay, hfull, Nat.div_eq_of_lt hshort, Nat.add_zero, File.blknr, File.blknr, hsame]
    · obtain ⟨src, hview, -⟩ := view_readBlock x v h.placed hi hs'
      have hmul := Nat.mul_le_mul_left x.blocksize (Nat.succ_le_of_lt hlater)
      rw [Nat.mul_succ, Nat.mul_succ] at hmul
      rw [hview, h.placed.buf, Ptr.write, if_neg (by omega), h.byte hlater]

/-- The second block is read from behind the first one. -/
theorem not_right_of_twin (hrange : pos + len ≤ x.size) (htwin : Twin x pos len) :
    ¬ ReadRight x pos len := by
  intro h
  have hvol := large_holds x pos len
    fun a => if a = behindFirst x pos then 1 else 0
  obtain ⟨s, hs, hbytes, -⟩ := readRange_of_right x _ h hrange hvol (fun _ => 0)
  have hkeep := readBlocks_partial x _ (fun i s => Misread x _ pos len i s)
    (fun i s s' hfirst hi hs' h => h.readBlock x _ htwin hfirst hi hs')
    ⟨placed_first x _, fun _ => rfl, fun heq => by omega, fun hgt => by omega⟩ hs
  have hin := (lt_blockcnt_iff x pos len).mp htwin.2.2.1
  have hmod := Nat.div_add_mod pos x.blocksize
  have hlt := Nat.mod_lt pos x.blocksize_pos
  rw [Nat.mul_succ] at hin
  have hsecond : pos + (x.blocksize - pos % x.blocksize) =
      (pos / x.blocksize + 1) * x.blocksize := by
    rw [Nat.succ_mul, Nat.mul_comm]
    omega
  have hbyte := hbytes (x.blocksize - pos % x.blocksize) (by omega)
  rw [hkeep.byte htwin.2.2.1, hsecond, File.byte, Nat.mul_div_cancel _ x.blocksize_pos,
    Nat.mul_mod_left, htwin.2.2.2.2, if_neg htwin.2.2.2.1] at hbyte
  simp only [large] at hbyte
  rw [if_pos trivial, if_neg (by rw [behindFirst]; omega)] at hbyte
  exact absurd hbyte (by decide)

/-- The length that is read and reported comes to be in the file, no hole is cut, and no
block follows itself: exactly then a range is read right. -/
theorem readRight_iff : ReadRight x pos len ↔ ReadCond x pos len := by
  constructor
  · intro h
    refine ⟨length_of_right x h, fun hrange => ⟨fun htail => ?_, fun htwin => ?_⟩⟩
    · exact not_right_of_tailHole x hrange htail h
    · exact not_right_of_twin x hrange htwin h
  · exact readRight_of_cond x

/-- A file of two blocks of 1024 bytes in the same place. -/
def twoBlocks (place : Fin 2) : File where
  map := fun _ => place
  size := 2000
  log2blksz := 9
  log2FsBlocksize := 1
  map_lt := fun _ => by omega
  size_lt := by decide

/-- The first 100 bytes of a hole, 100 bytes across the end of a block that follows itself,
and 2000 bytes from position 1000 on. -/
theorem readFile_wrong : ¬ ReadRight (twoBlocks 0) 0 100 ∧ ¬ ReadRight (twoBlocks 1) 1000 100 ∧
    ¬ ReadRight (twoBlocks 0) 1000 2000 := by
  refine ⟨?_, ?_, ?_⟩
  · exact not_right_of_tailHole _ (by decide) ⟨by decide, rfl⟩
  · exact not_right_of_twin _ (by decide) ⟨by decide, by decide, by decide, by decide, rfl⟩
  · intro h
    exact absurd (length_of_right _ h) (by decide)

end UBoot.Ext4.ReadFile
