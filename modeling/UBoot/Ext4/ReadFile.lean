import UBoot.Verification.Bytes

/-!
# Reading a part of a file

`ext4fs_read_file` (`fs/ext4/ext4fs.c`) and `ext4fs_devread` (`fs/ext4/dev.c`). The device
gives every sector that it is asked for. `lbaint_t` is as with `CONFIG_SYS_64BIT_LBA`, so
that no number of a sector wraps, and a file is read from a position whose block has an
`int` for its number. The differences to `blocksize * i` are taken as they are when the
product does not overflow.

The buffer is the memory from `buf` on, and the variable `buf` is an offset into it.
-/

namespace UBoot.Ext4.ReadFile

open Verification

/-- A file as `read_allocated_block` finds it, with 0 for a hole, and the two logarithms that
the code shifts by: of the bytes in a sector and of the sectors in a block. -/
structure File where
  map : Nat → Nat
  size : Nat
  log2blksz : Nat
  log2FsBlocksize : Nat
  map_lt : ∀ i, map i < 2147483648
  size_lt : size < 2147483648

/-- The partition and its number of sectors. -/
structure Volume where
  disk : Ptr
  partSize : Nat

section

variable (x : File) (v : Volume)

def File.blksz : Nat := 2 ^ x.log2blksz

def File.blocksize : Nat := 2 ^ (x.log2FsBlocksize + x.log2blksz)

/-- The first sector of a block. -/
def File.blknr (i : Nat) : Nat := x.map i * 2 ^ x.log2FsBlocksize

/-- What `block_read` gives from a sector on. -/
def sectors (sector : Nat) : Ptr := v.disk.add (sector * x.blksz)

/-! ## The device -/

/-- The end of `ext4fs_devread`, from the part that begins with a sector on. -/
def devreadAligned (sector byteLen buf : Nat) (out : Ptr) : Ptr :=
  let blockLen := byteLen / x.blksz * x.blksz
  if byteLen = 0 then out
  else if blockLen = 0 then out.write buf byteLen (sectors x v sector)
  else
    let out := out.write buf blockLen (sectors x v sector)
    if byteLen - blockLen = 0 then out
    else
      out.write (buf + blockLen) (byteLen - blockLen)
        (sectors x v (sector + blockLen / x.blksz))

/-- `ext4fs_devread`, which is not called with nothing to skip and nothing to read. -/
def devread (sector byteOffset byteLen buf : Nat) (out : Ptr) : Option Ptr :=
  if v.partSize ≤ sector + (byteOffset + byteLen - 1) / x.blksz then none
  else
    let sector := sector + byteOffset / x.blksz
    let byteOffset := byteOffset % x.blksz
    if byteOffset ≠ 0 then
      let readlen := min (x.blksz - byteOffset) byteLen
      some (devreadAligned x v (sector + 1) (byteLen - readlen) (buf + readlen)
        (out.write buf readlen ((sectors x v sector).add byteOffset)))
    else some (devreadAligned x v sector byteLen buf out)

/-! ## The file -/

/-- The `delayed_*` variables. -/
structure Delayed where
  start : Nat
  extent : Nat
  skipfirst : Nat
  buf : Nat
  next : Nat

/-- What the loop changes. There is no delayed read when `previous_block_number` is -1. -/
structure State where
  buf : Nat
  delayed : Option Delayed
  out : Ptr

def spill (s : State) : Option Ptr :=
  match s.delayed with
  | none => some s.out
  | some d => devread x v d.start d.skipfirst d.extent d.buf s.out

variable (pos len : Nat)

def blockcnt : Nat := (len + pos + x.blocksize - 1) / x.blocksize

def skipfirst (i : Nat) : Nat := if i = pos / x.blocksize then pos - x.blocksize * i else 0

def blockend (i : Nat) : Nat :=
  (if i = blockcnt x pos len - 1 then
    if len + pos - x.blocksize * i = 0 then x.blocksize else len + pos - x.blocksize * i
  else x.blocksize) - skipfirst x pos i

/-- The read that begins with a block. -/
def delay (i buf : Nat) : Delayed :=
  { start := x.blknr i
    extent := blockend x pos len i
    skipfirst := skipfirst x pos i
    buf := buf
    next := x.blknr i + blockend x pos len i / x.blksz }

/-- The delayed read goes on with a block. -/
def Delayed.extend (d : Delayed) (i : Nat) : Delayed :=
  { d with
    extent := d.extent + blockend x pos len i
    next := d.next + blockend x pos len i / x.blksz }

/-- The body of the loop. -/
def readBlock (i : Nat) (s : State) : Option State :=
  let buf := s.buf + (x.blocksize - skipfirst x pos i)
  if x.blknr i ≠ 0 then
    match s.delayed with
    | some d =>
      if d.next = x.blknr i then some { s with buf, delayed := some (d.extend x pos len i) }
      else (spill x v s).map fun out => { buf, delayed := some (delay x pos len i s.buf), out }
    | none => some { s with buf, delayed := some (delay x pos len i s.buf) }
  else
    (spill x v s).map fun out =>
      { buf, delayed := none,
        out := out.write s.buf (x.blocksize - skipfirst x pos i) fun _ => 0 }

/-- The loop, with `left` blocks to go. -/
def readBlocks : Nat → Nat → State → Option State
  | 0, _, s => some s
  | left + 1, i, s => (readBlock x v pos len i s).bind (readBlocks left (i + 1))

/-- The loop and the last read, for a length that fits. -/
def readRange (out : Ptr) : Option Ptr :=
  (readBlocks x v pos len (blockcnt x pos len - pos / x.blocksize) (pos / x.blocksize)
    { buf := 0, delayed := none, out }).bind (spill x v)

/-- `ext4fs_read_file`: the reported length and the buffer, nothing when it returns -1. -/
def readFile (out : Ptr) : Option (Nat × Ptr) :=
  let len := if len > x.size then x.size else len
  (readRange x v pos len out).map fun out => (len, out)

end

/-! ## Block by block -/

section

variable (x : File) (v : Volume)

def File.byte (p : Nat) : UInt8 :=
  if x.map (p / x.blocksize) = 0 then 0
  else v.disk (x.map (p / x.blocksize) * x.blocksize + p % x.blocksize)

/-- The blocks of the file lie in the partition. -/
def Volume.Holds : Prop :=
  ∀ i, x.blocksize * i < x.size → x.map i ≠ 0 →
    x.blknr i + 2 ^ x.log2FsBlocksize ≤ v.partSize

/-- The bytes of the file from `pos` on, `n` of them in front of what the buffer held. -/
def filled (pos : Nat) (out : Ptr) (n : Nat) : Ptr := out.write 0 n fun j => x.byte v (pos + j)

theorem File.blksz_pos : 0 < x.blksz := Nat.two_pow_pos _

theorem File.blocksize_pos : 0 < x.blocksize := Nat.two_pow_pos _

theorem File.blknr_mul (i : Nat) : x.blknr i * x.blksz = x.map i * x.blocksize := by
  rw [File.blknr, File.blksz, File.blocksize, Nat.pow_add, Nat.mul_assoc]

theorem File.blknr_eq_zero {i : Nat} : x.blknr i = 0 ↔ x.map i = 0 := by
  rw [File.blknr, Nat.mul_eq_zero, or_iff_left (Nat.two_pow_pos _).ne']

/-! ## A read of the device -/

theorem sectors_add (sector k : Nat) :
    sectors x v (sector + k) = (sectors x v sector).add (k * x.blksz) := by
  rw [sectors, sectors, Ptr.add_add, Nat.add_mul]

theorem devreadAligned_eq (sector byteLen buf : Nat) (out : Ptr) :
    devreadAligned x v sector byteLen buf out = out.write buf byteLen (sectors x v sector) := by
  have hle : byteLen / x.blksz * x.blksz ≤ byteLen := Nat.div_mul_le_self _ _
  rw [devreadAligned]
  split_ifs with h0 h1 h2
  · rw [h0, Ptr.write_zero]
  · rfl
  · rw [show byteLen = byteLen / x.blksz * x.blksz by omega, Nat.mul_div_cancel _ x.blksz_pos]
  · rw [sectors_add, Nat.mul_div_cancel _ x.blksz_pos, Ptr.write_write]
    congr 1
    omega

/-- A read copies the bytes at its place, however it is cut into sectors. -/
theorem devread_eq (sector byteOffset byteLen buf : Nat) (out : Ptr) :
    devread x v sector byteOffset byteLen buf out =
      if v.partSize ≤ sector + (byteOffset + byteLen - 1) / x.blksz then none
      else some (out.write buf byteLen (v.disk.add (sector * x.blksz + byteOffset))) := by
  have hsplit : byteOffset / x.blksz * x.blksz + byteOffset % x.blksz = byteOffset := by
    rw [Nat.mul_comm]
    exact Nat.div_add_mod _ _
  rw [devread]
  refine if_congr Iff.rfl rfl ?_
  simp only [devreadAligned_eq]
  have hplace : v.disk.add (sector * x.blksz + byteOffset) =
      (sectors x v (sector + byteOffset / x.blksz)).add (byteOffset % x.blksz) := by
    rw [sectors, Ptr.add_add, Nat.add_mul]
    congr 1
    omega
  rw [hplace]
  split_ifs with hoff
  · rcases Nat.le_total byteLen (x.blksz - byteOffset % x.blksz) with hle | hle
    · rw [Nat.min_eq_right hle, Nat.sub_self, Ptr.write_zero]
    · have hlt := Nat.mod_lt byteOffset x.blksz_pos
      have hnext : sectors x v (sector + byteOffset / x.blksz + 1) =
          ((sectors x v (sector + byteOffset / x.blksz)).add (byteOffset % x.blksz)).add
            (x.blksz - byteOffset % x.blksz) := by
        rw [sectors_add, Ptr.add_add, Nat.one_mul]
        congr 1
        omega
      rw [Nat.min_eq_left hle, hnext, Ptr.write_write, Nat.add_sub_cancel' hle]
  · rw [not_not.mp hoff, Ptr.add_zero]

/-! ## The loop -/

/-- The buffer as it is when the delayed read is made. -/
def view (s : State) : Ptr :=
  match s.delayed with
  | none => s.out
  | some d => s.out.write d.buf d.extent (v.disk.add (d.start * x.blksz + d.skipfirst))

/-- The delayed read lies in the partition. -/
def Reads (s : State) : Prop :=
  ∀ d, s.delayed = some d →
    d.start + (d.skipfirst + d.extent - 1) / x.blksz < v.partSize

theorem view_of_spill {s : State} {out : Ptr} (h : spill x v s = some out) : out = view x v s := by
  obtain ⟨buf, delayed, before⟩ := s
  cases delayed with
  | none => exact (Option.some.inj h).symm
  | some d =>
    simp only [spill, devread_eq, Option.ite_none_left_eq_some] at h
    exact (Option.some.inj h.2).symm

theorem spill_eq {s : State} (h : Reads x v s) : spill x v s = some (view x v s) := by
  obtain ⟨buf, delayed, before⟩ := s
  cases delayed with
  | none => rfl
  | some d =>
    simp only [spill, devread_eq]
    exact if_neg (Nat.not_le.mpr (h d rfl))

variable (pos len : Nat)

/-- What the loop does with a block: a hole is filled, a delayed read goes on, or a new one
begins. -/
theorem readBlock_cases {i : Nat} {s s' : State} (h : readBlock x v pos len i s = some s') :
    s'.buf = s.buf + (x.blocksize - skipfirst x pos i) ∧
      (x.map i = 0 ∧ s'.delayed = none ∧ s'.out = (view x v s).write s.buf
          (x.blocksize - skipfirst x pos i) (fun _ => 0) ∨
        x.map i ≠ 0 ∧ (∃ d, s.delayed = some d ∧ d.next = x.blknr i ∧
          s'.delayed = some (d.extend x pos len i)) ∧ s'.out = s.out ∨
        x.map i ≠ 0 ∧ (∀ d, s.delayed = some d → d.next ≠ x.blknr i) ∧
          s'.delayed = some (delay x pos len i s.buf) ∧ s'.out = view x v s) := by
  rw [readBlock] at h
  by_cases hmap : x.map i = 0
  · rw [if_neg (not_not.mpr (x.blknr_eq_zero.mpr hmap)), Option.map_eq_some_iff] at h
    obtain ⟨out, hout, rfl⟩ := h
    exact ⟨rfl, Or.inl ⟨hmap, rfl, by rw [view_of_spill x v hout]⟩⟩
  · rw [if_pos (fun h0 => hmap (x.blknr_eq_zero.mp h0))] at h
    obtain ⟨buf, delayed, before⟩ := s
    cases delayed with
    | none =>
      obtain rfl := Option.some.inj h
      exact ⟨rfl, Or.inr (Or.inr ⟨hmap, nofun, rfl, rfl⟩)⟩
    | some d =>
      by_cases hnext : d.next = x.blknr i
      · dsimp only at h
        rw [if_pos hnext] at h
        obtain rfl := Option.some.inj h
        exact ⟨rfl, Or.inr (Or.inl ⟨hmap, ⟨d, rfl, hnext, rfl⟩, rfl⟩)⟩
      · dsimp only at h
        rw [if_neg hnext, Option.map_eq_some_iff] at h
        obtain ⟨out, hout, rfl⟩ := h
        refine ⟨rfl, Or.inr (Or.inr ⟨hmap, ?_, rfl, view_of_spill x v hout⟩)⟩
        rintro d' hd'
        rwa [← Option.some.inj hd']

theorem readBlock_isSome (i : Nat) {s : State} (h : Reads x v s) :
    ∃ s', readBlock x v pos len i s = some s' := by
  rw [readBlock, spill_eq x v h]
  split_ifs with hmap
  · split
    · split_ifs
      · exact ⟨_, rfl⟩
      · exact ⟨_, rfl⟩
    · exact ⟨_, rfl⟩
  · exact ⟨_, rfl⟩

/-! ## The blocks of a range -/

/-- The bytes of the range that lie in front of a block. -/
def cover (i : Nat) : Nat := min (x.blocksize * i - pos) len

def blockSource (i : Nat) : Ptr :=
  if x.map i = 0 then fun _ => 0
  else v.disk.add (x.map i * x.blocksize + skipfirst x pos i)

theorem lt_blockcnt_iff {i : Nat} : i < blockcnt x pos len ↔ x.blocksize * i < pos + len := by
  rw [blockcnt, ← Nat.succ_le_iff, Nat.le_div_iff_mul_le x.blocksize_pos, Nat.succ_mul,
    Nat.mul_comm]
  have := x.blocksize_pos
  omega

variable {pos len} {i : Nat}

theorem le_of_first_le (hi : pos / x.blocksize < i) : pos < x.blocksize * i := by
  rw [Nat.mul_comm]
  exact (Nat.div_lt_iff_lt_mul x.blocksize_pos).mp hi

theorem skipfirst_lt : skipfirst x pos i < x.blocksize := by
  have hlt := Nat.mod_lt pos x.blocksize_pos
  rw [skipfirst]
  split_ifs with h
  · rwa [h, ← Nat.mod_eq_sub]
  · exact x.blocksize_pos

/-- Where the bytes of a block begin, in the block and in the buffer. -/
theorem skipfirst_place (hi : pos / x.blocksize ≤ i) :
    x.blocksize * i + skipfirst x pos i = pos + (x.blocksize * i - pos) := by
  rw [skipfirst]
  split_ifs with h
  · have := Nat.mul_div_le pos x.blocksize
    rw [h]
    omega
  · have := le_of_first_le x (Nat.lt_of_le_of_ne hi (Ne.symm h))
    omega

theorem buf_next (hi : pos / x.blocksize ≤ i) :
    x.blocksize * i - pos + (x.blocksize - skipfirst x pos i) = x.blocksize * (i + 1) - pos := by
  have hplace := skipfirst_place x hi
  have hlt : skipfirst x pos i < x.blocksize := skipfirst_lt x
  rw [Nat.mul_succ]
  omega

theorem skipfirst_first : skipfirst x pos (pos / x.blocksize) = pos % x.blocksize := by
  rw [skipfirst, if_pos rfl, Nat.mod_eq_sub]

theorem skipfirst_of_lt (hi : pos / x.blocksize < i) : skipfirst x pos i = 0 :=
  if_neg hi.ne'

theorem blockend_of_next (hi : i + 1 < blockcnt x pos len) :
    blockend x pos len i = x.blocksize - skipfirst x pos i := by
  rw [blockend, if_neg (by omega)]

theorem cover_of_lt (hi : i < blockcnt x pos len) : cover x pos len i = x.blocksize * i - pos := by
  have := (lt_blockcnt_iff x pos len).mp hi
  exact Nat.min_eq_left (by omega)

theorem cover_first : cover x pos len (pos / x.blocksize) = 0 := by
  have := Nat.mul_div_le pos x.blocksize
  rw [cover, Nat.sub_eq_zero_of_le this, Nat.zero_min]

theorem cover_end : cover x pos len (blockcnt x pos len) = len := by
  have := (lt_blockcnt_iff x pos len).not.mp (Nat.lt_irrefl (blockcnt x pos len))
  exact Nat.min_eq_right (by omega)

theorem cover_add_blockend (hfirst : pos / x.blocksize ≤ i) (hi : i < blockcnt x pos len) :
    cover x pos len i + blockend x pos len i = cover x pos len (i + 1) := by
  have hplace := skipfirst_place x hfirst
  have hin := (lt_blockcnt_iff x pos len).mp hi
  have hlast := (lt_blockcnt_iff x pos len (i := i + 1))
  have hlt : skipfirst x pos i < x.blocksize := skipfirst_lt x
  rw [cover_of_lt x hi, blockend, cover]
  rw [Nat.mul_succ] at hlast ⊢
  split_ifs <;> omega

theorem blockend_pos_of_first_lt (hfirst : pos / x.blocksize < i) (hi : i < blockcnt x pos len) :
    0 < blockend x pos len i := by
  have hin := (lt_blockcnt_iff x pos len).mp hi
  have := x.blocksize_pos
  rw [blockend, skipfirst_of_lt x hfirst]
  split_ifs <;> omega

/-- A block of the range holds the bytes of the file. -/
theorem blockSource_eq (hfirst : pos / x.blocksize ≤ i) {k : Nat}
    (hk : k < x.blocksize - skipfirst x pos i) :
    blockSource x v pos i k = x.byte v (pos + (x.blocksize * i - pos + k)) := by
  have hplace := skipfirst_place x hfirst
  have hpos : pos + (x.blocksize * i - pos + k) = skipfirst x pos i + k + x.blocksize * i := by
    omega
  have hlt : skipfirst x pos i + k < x.blocksize := by omega
  rw [File.byte, hpos, Nat.add_mul_div_left _ _ x.blocksize_pos, Nat.div_eq_of_lt hlt, Nat.zero_add,
    Nat.add_mul_mod_self_left, Nat.mod_eq_of_lt hlt, blockSource]
  split_ifs
  · rfl
  · rw [Ptr.add, Nat.add_assoc]

theorem first_le_blockcnt : pos / x.blocksize ≤ blockcnt x pos len := by
  have := x.blocksize_pos
  exact Nat.div_le_div_right (by omega)

/-! ## Rules for the loop -/

/-- A loop whose blocks are all read keeps what each of them keeps. -/
theorem readBlocks_rule (P : Nat → State → Prop)
    (hstep : ∀ i s, pos / x.blocksize ≤ i → i < blockcnt x pos len → P i s →
      ∃ s', readBlock x v pos len i s = some s' ∧ P (i + 1) s')
    {s : State} (h : P (pos / x.blocksize) s) :
    ∃ s', readBlocks x v pos len (blockcnt x pos len - pos / x.blocksize) (pos / x.blocksize) s =
      some s' ∧ P (blockcnt x pos len) s' := by
  have hrun : ∀ left i s, pos / x.blocksize ≤ i → i + left = blockcnt x pos len → P i s →
      ∃ s', readBlocks x v pos len left i s = some s' ∧ P (blockcnt x pos len) s' := by
    intro left
    induction left with
    | zero =>
      rintro i s - hleft h
      exact ⟨s, rfl, hleft ▸ h⟩
    | succ left ih =>
      intro i s hfirst hleft h
      obtain ⟨s', hs', h'⟩ := hstep i s hfirst (by omega) h
      rw [readBlocks, hs', Option.bind_some]
      exact ih (i + 1) s' (by omega) (by omega) h'
  exact hrun _ _ s le_rfl (Nat.add_sub_cancel' (first_le_blockcnt x)) h

/-- A loop that comes to its end has kept what each block keeps. -/
theorem readBlocks_partial (P : Nat → State → Prop)
    (hstep : ∀ i s s', pos / x.blocksize ≤ i → i < blockcnt x pos len →
      readBlock x v pos len i s = some s' → P i s → P (i + 1) s')
    {s s' : State} (h : P (pos / x.blocksize) s)
    (hs' : readBlocks x v pos len (blockcnt x pos len - pos / x.blocksize) (pos / x.blocksize) s =
      some s') : P (blockcnt x pos len) s' := by
  have hrun : ∀ left i s, pos / x.blocksize ≤ i → i + left = blockcnt x pos len → P i s →
      readBlocks x v pos len left i s = some s' → P (blockcnt x pos len) s' := by
    intro left
    induction left with
    | zero =>
      rintro i s - hleft h hs'
      rwa [← Option.some.inj hs', ← hleft]
    | succ left ih =>
      intro i s hfirst hleft h hs'
      rw [readBlocks, Option.bind_eq_some_iff] at hs'
      obtain ⟨s1, h1, hs'⟩ := hs'
      exact ih (i + 1) s1 (by omega) (by omega) (hstep i s s1 hfirst (by omega) h1 h) hs'
  exact hrun _ _ s le_rfl (Nat.add_sub_cancel' (first_le_blockcnt x)) h hs'

/-! ## One block -/

variable (pos len i) in
/-- The bytes that the loop writes for a block, or leaves to a delayed read. -/
def written : Nat :=
  if x.map i = 0 then x.blocksize - skipfirst x pos i else blockend x pos len i

/-- The end of a delayed read on the disk. -/
def Delayed.stop (d : Delayed) : Nat := d.start * x.blksz + d.skipfirst + d.extent

variable (pos len i) in
/-- The buffer is at block `i`, and a delayed read comes up to it. -/
structure Placed (s : State) : Prop where
  buf : s.buf = x.blocksize * i - pos
  joined : ∀ d, s.delayed = some d → d.buf + d.extent = cover x pos len i

theorem placed_first (out : Ptr) :
    Placed x pos len (pos / x.blocksize) { buf := 0, delayed := none, out } :=
  ⟨(Nat.sub_eq_zero_of_le (Nat.mul_div_le pos x.blocksize)).symm, nofun⟩

theorem Placed.buf_eq {s : State} (h : Placed x pos len i s) (hi : i < blockcnt x pos len) :
    s.buf = cover x pos len i := by
  rw [h.buf, cover_of_lt x hi]

theorem Placed.readBlock {s s' : State} (h : Placed x pos len i s)
    (hfirst : pos / x.blocksize ≤ i) (hi : i < blockcnt x pos len)
    (hs' : readBlock x v pos len i s = some s') : Placed x pos len (i + 1) s' := by
  obtain ⟨hbuf, hcases⟩ := readBlock_cases x v pos len hs'
  refine ⟨by rw [hbuf, h.buf, buf_next x hfirst], ?_⟩
  rw [← cover_add_blockend x hfirst hi]
  obtain ⟨-, hnone, -⟩ | ⟨-, ⟨d', hd', -, hsome⟩, -⟩ | ⟨-, -, hsome, -⟩ := hcases
  · rw [hnone]
    exact nofun
  · rw [hsome]
    rintro d ⟨⟩
    rw [← h.joined d' hd', Nat.add_assoc]
    rfl
  · rw [hsome, h.buf_eq x hi]
    rintro d ⟨⟩
    rfl

/-- A block changes the view as if it were read at once. The bytes are those of the block when
a read that goes on with it has come to its place. -/
theorem view_readBlock {s s' : State} (hplaced : Placed x pos len i s)
    (hi : i < blockcnt x pos len) (h : ReadFile.readBlock x v pos len i s = some s') :
    ∃ src, view x v s' = (view x v s).write s.buf (written x pos len i) src ∧
      ((∀ d, s.delayed = some d → x.map i ≠ 0 → d.next = x.blknr i →
        d.stop x = x.map i * x.blocksize + skipfirst x pos i) → src = blockSource x v pos i) := by
  obtain ⟨-, ⟨hmap, hd', hout⟩ | ⟨hmap, ⟨d, hd, hnext, hd'⟩, hout⟩ | ⟨hmap, hnext, hd', hout⟩⟩ :=
    readBlock_cases x v pos len h
  · refine ⟨fun _ => 0, ?_, fun _ => by rw [blockSource, if_pos hmap]⟩
    rw [written, if_pos hmap, view, hd', hout]
  · refine ⟨v.disk.add (d.stop x), ?_, ?_⟩
    · rw [written, if_neg hmap, view, view, hd', hd, hout, hplaced.buf_eq x hi,
        ← hplaced.joined d hd, Delayed.stop, ← Ptr.add_add, Ptr.write_write]
      rfl
    · intro hplace
      rw [hplace d hd hmap hnext, blockSource, if_neg hmap]
  · refine ⟨blockSource x v pos i, ?_, fun _ => rfl⟩
    rw [written, if_neg hmap, view, hd', hout, blockSource, if_neg hmap, ← x.blknr_mul]
    rfl

/-! ## What the loop keeps -/

variable (pos len i) in
/-- A delayed read in front of block `i`. -/
structure Run (d : Delayed) : Prop where
  started : pos / x.blocksize < i
  inside : d.stop x ≤ v.partSize * x.blksz
  nonempty : 0 < d.skipfirst + d.extent
  next : i < blockcnt x pos len → x.map i ≠ 0 → d.next = x.blknr i →
    d.stop x = x.map i * x.blocksize + skipfirst x pos i

variable (pos len i) in
/-- The buffer shows the blocks in front of `i`. -/
structure Filled (out : Ptr) (s : State) : Prop where
  placed : Placed x pos len i s
  run : ∀ d, s.delayed = some d → Run x v pos len i d
  view : view x v s = filled x v pos out (cover x pos len i)

variable (pos len) in
/-- The end of the range lies inside of a hole. -/
def TailHole : Prop :=
  (pos + len) % x.blocksize ≠ 0 ∧ x.map ((pos + len) / x.blocksize) = 0

variable (pos len) in
/-- The range begins in the last sector of a block, behind its first byte, and goes on with a
block in the same place. -/
def Twin : Prop :=
  pos % x.blocksize ≠ 0 ∧ x.blocksize - pos % x.blocksize < x.blksz ∧
    pos / x.blocksize + 1 < blockcnt x pos len ∧ x.map (pos / x.blocksize) ≠ 0 ∧
    x.map (pos / x.blocksize + 1) = x.map (pos / x.blocksize)

theorem Run.reads {d : Delayed} (h : Run x v pos len i d) :
    d.start + (d.skipfirst + d.extent - 1) / x.blksz < v.partSize := by
  have hinside := h.inside
  have hnonempty := h.nonempty
  rw [Delayed.stop] at hinside
  rw [← Nat.mul_add_div x.blksz_pos, Nat.div_lt_iff_lt_mul x.blksz_pos, Nat.mul_comm x.blksz]
  omega

theorem Filled.reads {out : Ptr} {s : State} (h : Filled x v pos len i out s) : Reads x v s :=
  fun d hd => (h.run d hd).reads

theorem div_blksz_of_full : x.blocksize / x.blksz = 2 ^ x.log2FsBlocksize := by
  rw [File.blocksize, Nat.pow_add, ← File.blksz, Nat.mul_div_cancel _ x.blksz_pos]

theorem next_of_full {n : Nat} (h : x.blknr i + x.blocksize / x.blksz = x.blknr n) :
    x.map i * x.blocksize + x.blocksize = x.map n * x.blocksize := by
  rw [← x.blknr_mul, ← x.blknr_mul, ← h, div_blksz_of_full, Nat.add_mul]
  congr 1
  rw [File.blocksize, Nat.pow_add, File.blksz]

/-- What is left of the first block is followed by a block only in the last sector. -/
theorem twin_of_next {n skip : Nat} (hskip : 0 < skip)
    (h : x.blknr i + (x.blocksize - skip) / x.blksz = x.blknr n) :
    x.blocksize - skip < x.blksz ∧ x.map n = x.map i := by
  have hlt : (x.blocksize - skip) / x.blksz < 2 ^ x.log2FsBlocksize := by
    rw [Nat.div_lt_iff_lt_mul x.blksz_pos, File.blksz, ← Nat.pow_add, ← File.blocksize]
    have := x.blocksize_pos
    omega
  have hmap : x.map n = x.map i := by
    have hdiv := congrArg (· / 2 ^ x.log2FsBlocksize) h
    simp only [File.blknr] at hdiv
    rw [Nat.mul_comm, Nat.mul_add_div (Nat.two_pow_pos _), Nat.div_eq_of_lt hlt,
      Nat.mul_div_cancel _ (Nat.two_pow_pos _)] at hdiv
    exact hdiv.symm
  refine ⟨?_, hmap⟩
  rw [File.blknr, File.blknr, hmap, Nat.add_eq_left, Nat.div_eq_zero_iff] at h
  exact h.resolve_left x.blksz_pos.ne'

theorem blockend_le (hi : i < blockcnt x pos len) (hfirst : pos / x.blocksize ≤ i) :
    skipfirst x pos i + blockend x pos len i ≤ x.blocksize ∧
      0 < skipfirst x pos i + blockend x pos len i := by
  have hin := (lt_blockcnt_iff x pos len).mp hi
  have hlast := (lt_blockcnt_iff x pos len (i := i + 1))
  have hlt : skipfirst x pos i < x.blocksize := skipfirst_lt x
  have hplace := skipfirst_place x hfirst
  rw [Nat.mul_succ] at hlast
  rw [blockend]
  split_ifs <;> omega

/-- A hole is filled up to the end of its block. -/
theorem written_eq (htail : ¬ TailHole x pos len) (hi : i < blockcnt x pos len) :
    written x pos len i = blockend x pos len i := by
  have hin := (lt_blockcnt_iff x pos len).mp hi
  rw [written]
  split_ifs with hmap
  · by_cases hnext : i + 1 < blockcnt x pos len
    · rw [blockend_of_next x hnext]
    · have hend : pos + len ≤ x.blocksize * i + x.blocksize := by
        rw [← Nat.mul_succ]
        exact Nat.not_lt.mp ((lt_blockcnt_iff x pos len).not.mp hnext)
      have hfull : len + pos - x.blocksize * i = x.blocksize := by
        by_contra hne
        have hsum : pos + len = len + pos - x.blocksize * i + x.blocksize * i := by omega
        have hlt : len + pos - x.blocksize * i < x.blocksize := by omega
        refine htail ⟨?_, ?_⟩
        · rw [hsum, Nat.add_mul_mod_self_left, Nat.mod_eq_of_lt hlt]
          omega
        · rwa [hsum, Nat.add_mul_div_left _ _ x.blocksize_pos, Nat.div_eq_of_lt hlt, Nat.zero_add]
      have := x.blocksize_pos
      rw [blockend, if_pos (by omega), hfull, if_neg this.ne']
  · rfl

/-- The bytes of the next block stand behind those of the blocks in front of it. -/
theorem filled_write (out : Ptr) (hfirst : pos / x.blocksize ≤ i) (hi : i < blockcnt x pos len) :
    (filled x v pos out (cover x pos len i)).write (cover x pos len i) (blockend x pos len i)
      (blockSource x v pos i) = filled x v pos out (cover x pos len (i + 1)) := by
  rw [filled, filled, ← cover_add_blockend x hfirst hi]
  conv_rhs => rw [← Ptr.write_write, Nat.zero_add]
  apply Ptr.write_congr
  intro k hk
  have hle := (blockend_le x hi hfirst).1
  rw [blockSource_eq x v hfirst (by omega), Ptr.add, cover_of_lt x hi]

/-- A block of the file lies in the partition. -/
theorem inside_of_holds (hvol : v.Holds x) (hi : x.blocksize * i < x.size) (hmap : x.map i ≠ 0) :
    x.map i * x.blocksize + x.blocksize ≤ v.partSize * x.blksz := by
  have h := Nat.mul_le_mul_right x.blksz (hvol i hi hmap)
  rwa [Nat.add_mul, x.blknr_mul, File.blksz, ← Nat.pow_add, ← File.blksz, ← File.blocksize] at h

section

variable (hvol : v.Holds x) (hrange : pos + len ≤ x.size)

include hvol hrange

/-- A read that goes on with a block. -/
theorem Run.extend {d : Delayed} (h : Run x v pos len i d) (hi : i < blockcnt x pos len)
    (hmap : x.map i ≠ 0) (hnext : d.next = x.blknr i) :
    Run x v pos len (i + 1) (d.extend x pos len i) := by
  have hin := (lt_blockcnt_iff x pos len).mp hi
  have hinside := inside_of_holds x v hvol (Nat.lt_of_lt_of_le hin hrange) hmap
  have hle := blockend_le x hi h.started.le
  have hskip := skipfirst_of_lt x h.started
  have hplace := h.next hi hmap hnext
  have hstop : (d.extend x pos len i).stop x = d.stop x + blockend x pos len i :=
    (Nat.add_assoc _ _ _).symm
  have hstarted := h.started
  refine ⟨Nat.lt_succ_of_lt hstarted, by omega, ?_, ?_⟩
  · exact Nat.lt_of_lt_of_le h.nonempty
      (Nat.add_le_add_left (Nat.le_add_right _ _) _)
  · intro hnext' hmap' heq
    have hfull := blockend_of_next x hnext'
    rw [hskip, Nat.sub_zero] at hfull
    have hfollow : x.map i * x.blocksize + x.blocksize = x.map (i + 1) * x.blocksize := by
      apply next_of_full
      rw [← hnext, ← heq, ← hfull]
      rfl
    rw [hstop, hplace, hskip, skipfirst_of_lt x (Nat.lt_succ_of_lt hstarted), hfull]
    omega

variable (htwin : ¬ Twin x pos len)

include htwin

/-- A read that begins with a block. -/
theorem run_delay (hfirst : pos / x.blocksize ≤ i) (hi : i < blockcnt x pos len)
    (hmap : x.map i ≠ 0) : Run x v pos len (i + 1) (delay x pos len i (x.blocksize * i - pos)) := by
  have hin := (lt_blockcnt_iff x pos len).mp hi
  have hinside := inside_of_holds x v hvol (Nat.lt_of_lt_of_le hin hrange) hmap
  have hle := blockend_le x hi hfirst
  have hstop : (delay x pos len i (x.blocksize * i - pos)).stop x =
      x.map i * x.blocksize + skipfirst x pos i + blockend x pos len i := by
    rw [Delayed.stop, ← x.blknr_mul]
    rfl
  refine ⟨Nat.lt_succ_of_le hfirst, by omega, hle.2, ?_⟩
  intro hnext hmap' heq
  simp only [delay, blockend_of_next x hnext] at heq
  rw [hstop, blockend_of_next x hnext, skipfirst_of_lt x (Nat.lt_succ_of_le hfirst)]
  rcases Nat.eq_zero_or_pos (skipfirst x pos i) with hskip | hskip
  · rw [hskip, Nat.sub_zero] at heq
    have := next_of_full x heq
    omega
  · have hfirst' : i = pos / x.blocksize := by
      by_contra hne
      rw [skipfirst, if_neg hne] at hskip
      exact Nat.lt_irrefl 0 hskip
    obtain ⟨hlt, hsame⟩ := twin_of_next x hskip heq
    subst hfirst'
    rw [skipfirst_first] at hskip hlt
    exact absurd ⟨hskip.ne', hlt, hnext, hmap, hsame⟩ htwin

theorem Filled.readBlock (htail : ¬ TailHole x pos len) {out : Ptr} {s : State}
    (h : Filled x v pos len i out s) (hfirst : pos / x.blocksize ≤ i)
    (hi : i < blockcnt x pos len) :
    ∃ s', readBlock x v pos len i s = some s' ∧ Filled x v pos len (i + 1) out s' := by
  obtain ⟨s', hs'⟩ := readBlock_isSome x v pos len i h.reads
  obtain ⟨src, hview, hsrc⟩ := view_readBlock x v h.placed hi hs'
  refine ⟨s', hs', h.placed.readBlock x v hfirst hi hs', ?_, ?_⟩
  · intro d hd
    obtain ⟨-, hcases⟩ := readBlock_cases x v pos len hs'
    obtain ⟨-, hnone, -⟩ | ⟨hmap, ⟨d', hd', hnext, hsome⟩, -⟩ | ⟨hmap, -, hsome, -⟩ := hcases
    · rw [hnone] at hd
      exact nomatch hd
    · rw [hsome] at hd
      obtain rfl := Option.some.inj hd
      exact (h.run d' hd').extend x v hvol hrange hi hmap hnext
    · rw [hsome, h.placed.buf] at hd
      obtain rfl := Option.some.inj hd
      exact run_delay x v hvol hrange htwin hfirst hi hmap
  · rw [hview, hsrc fun d hd hmap hnext => (h.run d hd).next hi hmap hnext, written_eq x htail hi,
      h.view, h.placed.buf_eq x hi, filled_write x v out hfirst hi]

theorem readRange_eq (htail : ¬ TailHole x pos len) (out : Ptr) :
    readRange x v pos len out = some (filled x v pos out len) := by
  have hstart : Filled x v pos len (pos / x.blocksize) out { buf := 0, delayed := none, out } := by
    refine ⟨placed_first x out, nofun, ?_⟩
    rw [cover_first, filled, Ptr.write_zero]
    rfl
  obtain ⟨s, hs, h⟩ := readBlocks_rule x v (fun i s => Filled x v pos len i out s)
    (fun i s hfirst hi h => h.readBlock x v hvol hrange htwin htail hfirst hi) hstart
  have hview := h.view
  rw [cover_end] at hview
  rw [readRange, hs, Option.bind_some, spill_eq x v h.reads, hview]

end

end

end UBoot.Ext4.ReadFile
