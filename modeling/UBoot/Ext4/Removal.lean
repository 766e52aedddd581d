import UBoot.Ext4.ParentDentryExact

/-!
# The entry of a file that is replaced

`check_filename` and `ext4fs_filename_check` (`fs/ext4/ext4_common.c`) look for a name in the
blocks of a directory. The entry that is found is given to
the one in front of it; there is no result when there is none, as `previous_dir` is null then,
nor when the code reads outside of a block or does not end.
-/

namespace UBoot.Ext4.ParentDentry

open Verification

section

variable (g : Geometry) (name : List UInt8)

/-- `strncmp` of a name with the bytes at a place, for its whole length. -/
def strncmpEq (buf : Ptr) : Nat → List UInt8 → Option Bool
  | _, [] => some true
  | p, c :: cs =>
    if g.blksz ≤ p then none else if buf p = c then strncmpEq buf (p + 1) cs else some false

/-- Whether an entry has the name. -/
def sameName (buf : Ptr) (off : Nat) : Option Bool :=
  if name.length = namelen buf off then strncmpEq g buf (off + 8) name else some false

/-- The loop over the entries: the entry with the name and the one in front of it. -/
def findName (buf : Ptr) : Nat → Option Nat → Nat → Option (Option (Option Nat × Nat))
  | 0, _, _ => none
  | fuel + 1, previousDir, off =>
    if g.blksz < off + 7 then none
    else do
      let found ← sameName g name buf off
      if found then return some (previousDir, off)
      else if g.blksz - off = direntlen buf off then return none
      else findName buf fuel (some off) (off + direntlen buf off)

/-- The entry is taken out: its inode number, and the block. -/
def removeEntry (buf : Ptr) (previousDir off : Nat) : UInt32 × Ptr :=
  let buf := setDirentlen buf previousDir (direntlen buf previousDir + direntlen buf off)
  (le32At buf off, setLe32 buf off 0)

/-- `check_filename` after the block was read: the inode number and what is queued, and
nothing inside for -1. -/
def checkFilename (buf : Ptr) : Option (Option (UInt32 × Ptr)) :=
  match findName g name buf (g.blksz + 1) none 0 with
  | none => none
  | some none => some none
  | some (some (none, _)) => none
  | some (some (some previousDir, off)) => some (some (removeEntry buf previousDir off))

/-- The loop of `ext4fs_filename_check`, with `left` blocks to go: the inode number, nothing
inside for -1, and what is queued. -/
def filenameCheckFrom (fuel : Nat) (part : Partition) (inode : Inode) :
    Nat → Nat → Option (Option UInt32 × List (Int × Ptr))
  | 0, _ => some (none, [])
  | left + 1, i => do
    let blknr ← readAllocatedBlock g fuel part inode i
    if blknr = 0 then return (none, [])
    else
      match devread g part blknr with
      | none => filenameCheckFrom fuel part inode left (i + 1)
      | some buf =>
        match ← checkFilename g name buf with
        | none => filenameCheckFrom fuel part inode left (i + 1)
        | some (inodeno, buf) =>
          if inodeno ≠ 0xffffffff then return (some inodeno, [(blknr, buf)])
          else
            let (result, queued) ← filenameCheckFrom fuel part inode left (i + 1)
            return (result, (blknr, buf) :: queued)

/-- `ext4fs_filename_check` -/
def filenameCheck (fuel : Nat) (part : Partition) (inode : Inode) :
    Option (Option UInt32 × List (Int × Ptr)) :=
  filenameCheckFrom g name fuel part inode INDIRECT_BLOCKS 0

end

/-! ## The search -/

section

variable {g : Geometry} {name : List UInt8} {buf : Ptr} {off fuel a : Nat} {xs ys offs : List Nat}

theorem strncmpEq_eq {p : Nat} {cs : List UInt8} (h : p + cs.length ≤ g.blksz) :
    strncmpEq g buf p cs = some (decide ((buf.add p).bytes cs.length = cs)) := by
  induction cs generalizing p with
  | nil => rfl
  | cons c cs ih =>
    rw [List.length_cons] at h
    have hbytes : (buf.add p).bytes (cs.length + 1) = buf p :: (buf.add (p + 1)).bytes cs.length := by
      rw [Nat.add_comm, Ptr.bytes_add, Ptr.add_add]
      rfl
    rw [strncmpEq, if_neg (by omega), List.length_cons, hbytes]
    by_cases hc : buf p = c
    · rw [if_pos hc, ih (by omega), hc]
      simp only [List.cons.injEq, true_and]
    · rw [if_neg hc]
      simp [hc]

/-- The comparison is right when the entry lies in the block. -/
theorem sameName_eq (h : off + 8 + namelen buf off ≤ g.blksz) :
    sameName g name buf off = some (decide ((entryAt buf off).name = name)) := by
  have hlen : (entryAt buf off).name.length = namelen buf off := Ptr.length_bytes _ _
  rw [sameName]
  split
  · next heq =>
      rw [strncmpEq_eq (by omega), heq]
      rfl
  · next hne =>
      congr 1
      exact (decide_eq_false fun heq => hne (by rw [← heq, hlen])).symm

/-- The step at an entry that has another name and is not the last one. -/
theorem findName_next (prev : Option Nat) (hlt : off + direntlen buf off < g.blksz)
    (hheld : 8 + namelen buf off ≤ direntlen buf off) (hname : (entryAt buf off).name ≠ name) :
    findName g name buf (fuel + 1) prev off =
      findName g name buf fuel (some off) (off + direntlen buf off) := by
  rw [findName, if_neg (by omega), sameName_eq (by omega)]
  simp only [Option.bind_eq_bind, Option.bind_some, decide_eq_true_eq]
  rw [if_neg hname, if_neg (by omega)]

theorem findName_skip (prev : Option Nat)
    (hcovers : Covers (direntlen buf) g.blksz off (xs ++ a :: ys))
    (hholds : ∀ c ∈ xs ++ a :: ys, 8 + namelen buf c ≤ direntlen buf c)
    (hnames : ∀ c ∈ xs, (entryAt buf c).name ≠ name) (hfuel : g.blksz < off + fuel) :
    ∃ fuel', findName g name buf fuel prev off =
      findName g name buf (fuel' + 1) (xs.foldl (fun _ c => some c) prev) a := by
  induction xs generalizing off fuel prev with
  | nil =>
    cases hcovers with
    | cons hpos hrest =>
      have hle := hrest.le
      obtain ⟨fuel, rfl⟩ : ∃ n, fuel = n + 1 := Nat.exists_eq_succ_of_ne_zero (by omega)
      exact ⟨fuel, rfl⟩
  | cons x xs ih =>
    cases hcovers with
    | cons hpos hrest =>
      have hheld := hholds x List.mem_cons_self
      have hbounds := hrest.bounds (List.mem_append_right xs List.mem_cons_self)
      have hlast := hholds a (by simp)
      obtain ⟨fuel, rfl⟩ : ∃ n, fuel = n + 1 := Nat.exists_eq_succ_of_ne_zero (by omega)
      obtain ⟨fuel', hfind⟩ := ih (some x) hrest
        (fun c hc => hholds c (List.mem_cons_of_mem x hc))
        (fun c hc => hnames c (List.mem_cons_of_mem x hc)) (show g.blksz < _ + fuel by omega)
      refine ⟨fuel', ?_⟩
      rw [findName_next prev (by omega) hheld (hnames x List.mem_cons_self), hfind]
      rfl

/-- The loop finds the first entry with the name, and knows the one in front of it. -/
theorem Chain.findName_eq (h : Chain g buf (xs ++ a :: ys))
    (hnames : ∀ c ∈ xs, (entryAt buf c).name ≠ name) (ha : (entryAt buf a).name = name) :
    findName g name buf (g.blksz + 1) none 0 =
      some (some (xs.foldl (fun _ c => some c) none, a)) := by
  obtain ⟨fuel, hfind⟩ := findName_skip none h.covers h.holds hnames
    (show g.blksz < 0 + (g.blksz + 1) by omega)
  have hbounds := h.covers.bounds (List.mem_append_right xs List.mem_cons_self)
  have hheld := h.holds a (by simp)
  rw [hfind, findName, if_neg (by omega), sameName_eq (by omega)]
  simp only [Option.bind_eq_bind, Option.bind_some, decide_eq_true_eq]
  rw [if_pos ha]
  rfl

theorem Chain.findName_absent (h : Chain g buf offs)
    (hnames : ∀ c ∈ offs, (entryAt buf c).name ≠ name) (hpos : 0 < g.blksz) :
    findName g name buf (g.blksz + 1) none 0 = some none := by
  rcases List.eq_nil_or_concat offs with rfl | ⟨xs, a, rfl⟩
  · exact absurd h.covers.eq_of_nil hpos.ne
  rw [List.concat_eq_append] at h hnames
  obtain ⟨fuel, hfind⟩ := findName_skip none h.covers h.holds
    (fun c hc => hnames c (List.mem_append_left [a] hc))
    (show g.blksz < 0 + (g.blksz + 1) by omega)
  have hlast := h.last
  have hheld := h.holds a (by simp)
  rw [hfind, findName, if_neg (by omega), sameName_eq (by omega)]
  simp only [Option.bind_eq_bind, Option.bind_some, decide_eq_true_eq]
  rw [if_neg (hnames a (by simp)), if_pos (by omega)]
  rfl

end

/-! ## The entry that is taken out -/

section

variable {g : Geometry} {name : List UInt8} {buf : Ptr} {p a : Nat} {xs ys : List Nat}

/-- The entry in front of it takes its place. -/
theorem removeEntry_inode (hne : p + 8 ≤ a) : (removeEntry buf p a).1 = (entryAt buf a).inode := by
  rw [removeEntry, entryAt]
  exact le32At_congr fun k hk => setDirentlen_of_ne (by omega)

theorem removeEntry_of_ne {j : Nat} (hj : j < p + 4 ∨ p + 6 ≤ j) (hj' : j < a ∨ a + 4 ≤ j) :
    (removeEntry buf p a).2 j = buf j := by
  rw [removeEntry, setLe32]
  dsimp only
  rw [write_of_ne hj', setDirentlen_of_ne hj]

/-- The entry that is taken out stands behind the one in front of it. -/
theorem next_eq (h : Chain g buf (xs ++ p :: a :: ys)) :
    a = p + direntlen buf p ∧ a + direntlen buf a ≤ g.blksz := by
  obtain ⟨-, -, hrest⟩ := h.covers.of_append_cons
  have hrest' : Covers (direntlen buf) g.blksz (p + direntlen buf p) ([] ++ a :: ys) := hrest
  obtain ⟨hnone, -, -⟩ := hrest'.of_append_cons
  exact ⟨hnone.eq_of_nil.symm, (hrest.bounds List.mem_cons_self).2⟩

/-- The other entries stay. -/
theorem removeEntry_other (h : Chain g buf (xs ++ p :: a :: ys)) {c : Nat} (hc : c ∈ xs ∨ c ∈ ys) :
    entryAt (removeEntry buf p a).2 c = entryAt buf c ∧
      direntlen (removeEntry buf p a).2 c = direntlen buf c ∧
      namelen (removeEntry buf p a).2 c = namelen buf c := by
  have hp := h.holds p (by simp)
  have ha := h.holds a (by simp)
  have hheld := h.holds c (by rcases hc with hc | hc <;> simp [hc])
  have hnext := (next_eq h).1
  have hp' := h.covers.disjoint (hc.imp_right (List.mem_cons_of_mem a))
  have h' : Covers (direntlen buf) g.blksz 0 ((xs ++ [p]) ++ a :: ys) := by
    simpa using h.covers
  have ha' := h'.disjoint (hc.imp_left (List.mem_append_left [p]))
  have hsame : ∀ j, c ≤ j → j < c + 8 + namelen buf c → (removeEntry buf p a).2 j = buf j :=
    fun j hle hlt => removeEntry_of_ne (by omega) (by omega)
  exact ⟨entryAt_congr fun j hle hlt _ => hsame j hle hlt,
    direntlen_congr fun j hle hlt => hsame j (by omega) (by omega),
    namelen_congr (hsame _ (by omega) (by omega))⟩

theorem removeEntry_front (h : Chain g buf (xs ++ p :: a :: ys)) (hblksz : g.blksz < 65536) :
    entryAt (removeEntry buf p a).2 p = entryAt buf p ∧
      direntlen (removeEntry buf p a).2 p = direntlen buf p + direntlen buf a ∧
      namelen (removeEntry buf p a).2 p = namelen buf p := by
  have hp := h.holds p (by simp)
  obtain ⟨hnext, hend⟩ := next_eq h
  have hsame : ∀ j, p ≤ j → j < p + 8 + namelen buf p → j < p + 4 ∨ p + 6 ≤ j →
      (removeEntry buf p a).2 j = buf j :=
    fun j hle hlt hne => removeEntry_of_ne hne (by omega)
  refine ⟨entryAt_congr hsame, ?_, namelen_congr (hsame _ (by omega) (by omega) (by omega))⟩
  have hlen : ∀ j, p + 4 ≤ j → j < p + 6 → (removeEntry buf p a).2 j =
      setDirentlen buf p (direntlen buf p + direntlen buf a) j :=
    fun j hle hlt => write_of_ne (by omega)
  rw [direntlen_congr hlen, direntlen_setDirentlen (by omega)]

/-- The block without the entry: a chain with the others. -/
theorem chain_removeEntry (h : Chain g buf (xs ++ p :: a :: ys)) (hblksz : g.blksz < 65536) :
    Chain g (removeEntry buf p a).2 (xs ++ p :: ys) ∧
      (xs ++ p :: ys).map (entryAt (removeEntry buf p a).2) =
        (xs ++ p :: ys).map (entryAt buf) := by
  obtain ⟨hfront, hlen, hname⟩ := removeEntry_front h hblksz
  refine ⟨⟨h.covers.merge hlen fun c hc => (removeEntry_other h hc).2.1, fun c hc => ?_⟩, ?_⟩
  · rcases List.mem_append.mp hc with hc | hc
    · obtain ⟨-, hlen, hname⟩ := removeEntry_other h (Or.inl hc)
      rw [hlen, hname]
      exact h.holds c (List.mem_append_left _ hc)
    rcases List.mem_cons.mp hc with rfl | hc
    · have := h.holds c (by simp)
      omega
    · obtain ⟨-, hlen, hname⟩ := removeEntry_other h (Or.inr hc)
      rw [hlen, hname]
      exact h.holds c (by simp [hc])
  · refine List.map_congr_left fun c hc => ?_
    rcases List.mem_append.mp hc with hc | hc
    · exact (removeEntry_other h (Or.inl hc)).1
    rcases List.mem_cons.mp hc with rfl | hc
    · exact hfront
    · exact (removeEntry_other h (Or.inr hc)).1

end

/-! ## The directory -/

section

variable {g : Geometry} {name : List UInt8} {buf : Ptr} {xs ys offs : List Nat} {a : Nat}

/-- What `check_filename` makes of a block whose first entry with the name stands behind
others: the number of its inode, and the block without it. -/
def Removed (g : Geometry) (buf : Ptr) (xs : List Nat) (a : Nat) (ys : List Nat)
    (result : UInt32 × Ptr) : Prop :=
  result.1 = (entryAt buf a).inode ∧ Chain g result.2 (xs ++ ys) ∧
    (xs ++ ys).map (entryAt result.2) = (xs ++ ys).map (entryAt buf)

theorem Chain.checkFilename_absent (h : Chain g buf offs)
    (hnames : ∀ c ∈ offs, (entryAt buf c).name ≠ name) (hpos : 0 < g.blksz) :
    checkFilename g name buf = some none := by
  rw [checkFilename, h.findName_absent hnames hpos]

theorem Chain.checkFilename_found (h : Chain g buf (xs ++ a :: ys)) (hblksz : g.blksz < 65536)
    (hnames : ∀ c ∈ xs, (entryAt buf c).name ≠ name) (ha : (entryAt buf a).name = name) :
    (xs = [] → checkFilename g name buf = none) ∧
      (xs ≠ [] → ∃ result, checkFilename g name buf = some (some result) ∧
        Removed g buf xs a ys result) := by
  rw [checkFilename, h.findName_eq hnames ha]
  constructor
  · rintro rfl
    rfl
  · intro hne
    obtain ⟨front, p, rfl⟩ := (List.eq_nil_or_concat xs).resolve_left hne
    rw [List.concat_eq_append] at h ⊢
    have h' : Chain g buf (front ++ p :: a :: ys) := by simpa using h
    have hbefore : p + 8 ≤ a := by
      have hp := h'.holds p (by simp)
      have := (next_eq h').1
      omega
    obtain ⟨hchain, hentries⟩ := chain_removeEntry h' hblksz
    refine ⟨removeEntry buf p a, ?_, removeEntry_inode hbefore, ?_⟩
    · rw [List.foldl_append]
      rfl
    · rw [List.append_assoc, List.singleton_append]
      exact ⟨hchain, hentries⟩

end

section

variable {g : Geometry} {d : Directory g} {fuel : Nat} {part : Partition}

structure FirstNamed (d : Directory g) (name : List UInt8) (i : Nat) (xs : List Nat) (a : Nat)
    (ys : List Nat) : Prop where
  lt : i < d.blocks.length
  offs : d.offs i = xs ++ a :: ys
  named : (entryAt (d.content i) a).name = name
  before : ∀ c ∈ xs, (entryAt (d.content i) c).name ≠ name
  blocks : ∀ j < i, ∀ c ∈ d.offs j, (entryAt (d.content j) c).name ≠ name

theorem Holds.devread_block (h : Holds d fuel part) {i : Nat} (hi : i < d.blocks.length) :
    devread g part d.blocks[i] = some (d.content i) := by
  rw [devread_of_inside (h.inside _ (List.getElem_mem hi)), h.content i hi]

theorem filenameCheckFrom_step (h : Holds d fuel part) {i : Nat} (hi : i < d.blocks.length)
    (left : Nat) (name : List UInt8) :
    filenameCheckFrom g name fuel part d.inode (left + 1) i =
      (checkFilename g name (d.content i)).bind fun
        | none => filenameCheckFrom g name fuel part d.inode left (i + 1)
        | some (inodeno, buf) =>
          if inodeno ≠ 0xffffffff then some (some inodeno, [((d.blocks[i] : Int), buf)])
          else (filenameCheckFrom g name fuel part d.inode left (i + 1)).bind fun r =>
            some (r.1, ((d.blocks[i] : Int), buf) :: r.2) := by
  have hpos := d.pos _ (List.getElem_mem hi)
  simp only [filenameCheckFrom, h.read hi, Option.bind_eq_bind, Option.bind_some]
  rw [if_neg (by omega), h.devread_block hi]
  rfl

theorem filenameCheckFrom_skip (h : Holds d fuel part) {name : List UInt8} {i n left : Nat}
    (hle : i + n ≤ d.blocks.length)
    (hnames : ∀ j, i ≤ j → j < i + n → ∀ c ∈ d.offs j, (entryAt (d.content j) c).name ≠ name) :
    filenameCheckFrom g name fuel part d.inode (n + left) i =
      filenameCheckFrom g name fuel part d.inode left (i + n) := by
  induction n generalizing i with
  | zero => rw [Nat.zero_add, Nat.add_zero]
  | succ n ih =>
    have hpos : 0 < g.blksz := Nat.two_pow_pos _
    have habsent := (d.chain i (by omega)).checkFilename_absent
      (hnames i le_rfl (by omega)) hpos
    rw [Nat.add_right_comm, filenameCheckFrom_step h (by omega), habsent, Option.bind_some,
      ih (by omega) fun j hj hlt => hnames j (by omega) (by omega), Nat.add_right_comm,
      Nat.add_assoc]

theorem filenameCheck_absent (h : Holds d fuel part) {name : List UInt8}
    (hnames : ∀ j < d.blocks.length, ∀ c ∈ d.offs j, (entryAt (d.content j) c).name ≠ name) :
    filenameCheck g name fuel part d.inode = some (none, []) := by
  obtain ⟨left, hleft⟩ := Nat.exists_eq_add_of_le d.length_le
  have hskip := @filenameCheckFrom_skip g d fuel part h name 0 d.blocks.length left (by omega)
    fun j _ hlt => hnames j (by omega)
  rw [filenameCheck, hleft, hskip, Nat.zero_add]
  cases left with
  | zero => rfl
  | succ left =>
    have hend := h.mapped d.blocks.length (by omega)
    rw [List.getD_eq_default _ _ le_rfl] at hend
    simp only [filenameCheckFrom, hend, Option.bind_eq_bind, Option.bind_some]
    rfl

theorem filenameCheck_found (h : Holds d fuel part) (hblksz : g.blksz < 65536) {name : List UInt8}
    {i a : Nat} {xs ys : List Nat} (hfirst : FirstNamed d name i xs a ys)
    (hinode : (entryAt (d.content i) a).inode ≠ 0xffffffff) :
    (xs = [] → filenameCheck g name fuel part d.inode = none) ∧
      (xs ≠ [] → ∃ inodeno buf, Removed g (d.content i) xs a ys (inodeno, buf) ∧
        filenameCheck g name fuel part d.inode =
          some (some inodeno, [(((d.blocks.getD i 0 : Nat) : Int), buf)])) := by
  have hlt := hfirst.lt
  have hchain := d.chain i hlt
  rw [hfirst.offs] at hchain
  obtain ⟨hnull, hfound⟩ := hchain.checkFilename_found hblksz hfirst.before hfirst.named
  obtain ⟨left, hleft⟩ := Nat.exists_eq_add_of_lt (Nat.lt_of_lt_of_le hlt d.length_le)
  have hskip := @filenameCheckFrom_skip g d fuel part h name 0 i (left + 1) (by omega)
    fun j _ hlt => hfirst.blocks j (by omega)
  rw [filenameCheck, hleft, Nat.add_assoc, hskip, Nat.zero_add, filenameCheckFrom_step h hlt]
  constructor
  · intro hnil
    rw [hnull hnil]
    rfl
  · intro hne
    obtain ⟨⟨inodeno, buf⟩, hcheck, hremoved⟩ := hfound hne
    refine ⟨inodeno, buf, hremoved, ?_⟩
    have hino : inodeno ≠ 0xffffffff := by
      rw [show inodeno = _ from hremoved.1]
      exact hinode
    rw [hcheck, Option.bind_some, List.getD_eq_getElem _ _ hlt]
    exact if_pos hino

/-- The name is not in the directory, or its first entry is at the start of a block, where the
code has no entry in front of it, or that entry is taken out and the others stay. -/
inductive Looked (d : Directory g) (name : List UInt8) :
    Option (Option UInt32 × List (Int × Ptr)) → Prop
  | absent (hnames : ∀ j < d.blocks.length, ∀ c ∈ d.offs j,
      (entryAt (d.content j) c).name ≠ name) : Looked d name (some (none, []))
  | first {i a : Nat} {ys : List Nat} (hfirst : FirstNamed d name i [] a ys) : Looked d name none
  | removed {i a : Nat} {xs ys : List Nat} {buf : Ptr} (hfirst : FirstNamed d name i xs a ys)
      (hne : xs ≠ [])
      (hbuf : Removed g (d.content i) xs a ys ((entryAt (d.content i) a).inode, buf)) :
      Looked d name (some (some (entryAt (d.content i) a).inode,
        [(((d.blocks.getD i 0 : Nat) : Int), buf)]))

/-- Inode numbers are not -1. -/
def ValidInodes (d : Directory g) : Prop :=
  ∀ i < d.blocks.length, ∀ a ∈ d.offs i, (entryAt (d.content i) a).inode ≠ 0xffffffff

theorem exists_firstNamed {name : List UInt8}
    (h : ∃ j < d.blocks.length, ∃ c ∈ d.offs j, (entryAt (d.content j) c).name = name) :
    ∃ i xs a ys, FirstNamed d name i xs a ys := by
  obtain ⟨j, ⟨hj, hc⟩, hfirst⟩ := Nat.findX h
  obtain ⟨xs, a, ys, hoffs, hbefore, ha⟩ := exists_first hc
  refine ⟨j, xs, a, ys, hj, hoffs, ha, hbefore, fun k hk c hc hname => ?_⟩
  exact hfirst k hk ⟨by omega, c, hc, hname⟩

/-- `ext4fs_filename_check` of a directory. -/
theorem filenameCheck_looked (h : Holds d fuel part) (hblksz : g.blksz < 65536)
    (hinodes : ValidInodes d) (name : List UInt8) :
    Looked d name (filenameCheck g name fuel part d.inode) := by
  by_cases hfound : ∃ j < d.blocks.length, ∃ c ∈ d.offs j, (entryAt (d.content j) c).name = name
  · obtain ⟨i, xs, a, ys, hfirst⟩ := exists_firstNamed hfound
    have hmem : a ∈ d.offs i := by
      rw [hfirst.offs]
      exact List.mem_append_right xs List.mem_cons_self
    obtain ⟨hnull, hremoved⟩ :=
      filenameCheck_found h hblksz hfirst (hinodes i hfirst.lt a hmem)
    by_cases hnil : xs = []
    · rw [hnull hnil]
      subst hnil
      exact .first hfirst
    · obtain ⟨inodeno, buf, hbuf, hcheck⟩ := hremoved hnil
      obtain rfl : inodeno = _ := hbuf.1
      rw [hcheck]
      exact .removed hfirst hnil hbuf
  · have hnames : ∀ j < d.blocks.length, ∀ c ∈ d.offs j, (entryAt (d.content j) c).name ≠ name :=
      fun j hj c hc hname => hfound ⟨j, hj, c, hc, hname⟩
    rw [filenameCheck_absent h hnames]
    exact .absent hnames

/-- A name that was just put into its directory is found in the block that was queued, and taking
it out leaves the entries that were there before, unless the block is a new one: there is no
entry in front of it then. -/
theorem checkFilename_inserted {name : FileName} {newInode : Option UInt32} {newBlks : List Nat}
    (h : Holds d fuel part) (hcond : InsertCond d name) (hfresh : ∀ b ∈ newBlks, Fresh d part b)
    (hblksz : g.blksz < 65536)
    (hnew : ∀ j < d.blocks.length, ∀ c ∈ d.offs j, (entryAt (d.content j) c).name ≠ name.bytes)
    {ino : UInt32} {s : State}
    (hupdate : updateParentDentry g name.bytes fuel newInode newBlks (start part d.inode) =
      some (some ino, s)) :
    ∃ older, ∃ b : Nat, ∃ buf i, s.queued = older ++ [((b : Int), buf)] ∧
      readAllocatedBlock g fuel s.part s.inode i = some (b : Int) ∧
      (i < d.blocks.length ∧
          (∃ buf' offs, checkFilename g name.bytes buf = some (some (ino, buf')) ∧
            Chain g buf' offs ∧
            offs.map (entryAt buf') = (d.offs i).map (entryAt (d.content i))) ∨
        d.blocks.length ≤ i ∧ b ∈ newBlks ∧ checkFilename g name.bytes buf = none) := by
  obtain ⟨r, s', hupdate', hright⟩ := right_of_cond d name hcond part fuel newInode newBlks h hfresh
  obtain ⟨rfl, rfl⟩ : r = some ino ∧ s' = s := by simpa using hupdate'.symm.trans hupdate
  obtain ⟨-, hinserted⟩ := hright ino rfl
  obtain ⟨older, b, buf, i, hqueued, -, -, -, hread, offs, before, behind, hchain, hentries, hrest,
    hplace⟩ := hinserted.queued
  refine ⟨older, b, buf, i, hqueued, hread, ?_⟩
  obtain ⟨xs, zs, rfl, hxs, hzs⟩ := List.map_eq_append_iff.mp hentries
  obtain ⟨a, ys, rfl, ha, hys⟩ := List.map_eq_cons_iff.mp hzs
  have hold : ∀ e ∈ before ++ behind, e.name ≠ name.bytes := by
    intro e he
    rw [hrest] at he
    split at he
    · next hi =>
        obtain ⟨c, hc, rfl⟩ := List.mem_map.mp he
        exact hnew i hi c hc
    · simp at he
  have hbefore : ∀ c ∈ xs, (entryAt buf c).name ≠ name.bytes := by
    intro c hc
    refine hold _ (List.mem_append_left _ ?_)
    rw [← hxs]
    exact List.mem_map_of_mem hc
  obtain ⟨hnull, hfound⟩ := hchain.checkFilename_found hblksz hbefore (by rw [ha])
  rcases hplace with ⟨hi, hne⟩ | ⟨hi, hb⟩
  · obtain ⟨⟨inodeno, buf'⟩, hcheck, hinode, hchain', hentries'⟩ :=
      hfound fun hnil => hne (by rw [← hxs, hnil, List.map_nil])
    obtain rfl : inodeno = ino := by rw [show inodeno = _ from hinode, ha]
    rw [if_pos hi] at hrest
    refine Or.inl ⟨hi, buf', xs ++ ys, hcheck, hchain', hentries'.trans ?_⟩
    rw [List.map_append, hxs, hys, hrest]
  · rw [if_neg (Nat.not_lt.mpr hi)] at hrest
    have hnil : before = [] := (List.append_eq_nil_iff.mp hrest).1
    exact Or.inr ⟨hi, hb, hnull (List.map_eq_nil_iff.mp (hxs.trans hnil))⟩

/-- When the last block has room the number is assigned. -/
theorem update_of_roomy {name : FileName} (newBlks : List Nat) (h : Holds d fuel part)
    (hlt : d.blocks.length < INDIRECT_BLOCKS) (hroomy : Roomy d name) (ino : UInt32) :
    ∃ s, updateParentDentry g name.bytes fuel (some ino) newBlks (start part d.inode) =
      some (some ino, s) := by
  obtain ⟨xs, a, ys, hoffs, hxs, ha⟩ := exists_first hroomy
  have hchain := d.chain d.last d.last_lt
  rw [hoffs] at hchain
  have hattempt : attempt g name.bytes fuel (some ino) (start part d.inode) = _ :=
    attempt_eq h.mapped d.pos d.nonempty hlt h.devread_last
  rw [show (start part d.inode).padding = 0 from rfl, hchain.walk_room hxs ha] at hattempt
  dsimp only at hattempt
  rw [insertEntry_of_room hchain ha, Option.map_some] at hattempt
  exact ⟨_, update_of_assigned hattempt⟩

end

/-! ## A directory with two entries -/

theorem ten_le_oneKiB : 10 ≤ 1 + 9 := by decide

theorem oneKiB_le_sixteen : 1 + 9 ≤ 16 := by decide

/-- Blocks of two sectors. -/
def oneKiB : Geometry := ⟨9, 1, ten_le_oneKiB, oneKiB_le_sixteen⟩

/-- `.` and `x`, in a block of 1024 bytes. -/
def twoEntries : Ptr :=
  Ptr.ofList [2, 0, 0, 0, 12, 0, 1, 2, 46, 0, 0, 0, 11, 0, 0, 0, 0xf4, 3, 1, 1, 120, 0, 0, 0]

theorem twoEntries_chain : Chain oneKiB twoEntries [0, 12] where
  covers := by
    have hlen : direntlen twoEntries 0 = 12 ∧ direntlen twoEntries 12 = 1012 := by decide
    refine Covers.cons (by decide) ?_
    rw [hlen.1]
    refine Covers.cons (by decide) ?_
    rw [hlen.2]
    exact Covers.nil
  holds := by decide

def smallDirectory : Directory oneKiB where
  inode := ⟨false, Ptr.ofList [7], 1024, 2⟩
  blocks := [7]
  content := fun _ => twoEntries
  offs := fun _ => [0, 12]
  nonempty := by decide
  length_le := by decide
  pos := by decide
  nodup := by decide
  fits := by decide
  chain := fun _ _ => twoEntries_chain
  mapped := fun _ => by decide

theorem smallDirectory_holds : Holds smallDirectory 0 smallDirectory.onDisk :=
  onDisk_holds (onDisk_maps rfl)

theorem filenameCheck_looked_small : Looked smallDirectory [120]
    (filenameCheck oneKiB [120] 0 smallDirectory.onDisk
      smallDirectory.inode) :=
  filenameCheck_looked smallDirectory_holds (by decide)
    (fun i _ a ha => (by decide : ∀ a ∈ [0, 12], (entryAt twoEntries a).inode ≠ 0xffffffff) a ha)
    [120]

theorem checkFilename_inserted_small : ∃ s older b buf buf' offs,
    updateParentDentry oneKiB [121] 0 (some 12) []
      (start smallDirectory.onDisk smallDirectory.inode) = some (some 12, s) ∧
    s.queued = older ++ [(b, buf)] ∧
    checkFilename oneKiB [121] buf = some (some (12, buf')) ∧ Chain oneKiB buf' offs ∧
    offs.map (entryAt buf') = [0, 12].map (entryAt twoEntries) := by
  have hroomy : Roomy smallDirectory ⟨[121], by decide, by decide⟩ := by decide
  obtain ⟨s, hupdate⟩ := update_of_roomy [] smallDirectory_holds (by decide) hroomy 12
  obtain ⟨older, b, buf, i, hqueued, -, hfound | hnew⟩ :=
    checkFilename_inserted smallDirectory_holds ⟨by decide, Or.inl hroomy⟩ (by simp) (by decide)
      (fun j _ c hc => (by decide : ∀ c ∈ [0, 12], (entryAt twoEntries c).name ≠ [121]) c hc)
      hupdate
  · obtain ⟨-, buf', offs, hcheck, hchain, hentries⟩ := hfound
    exact ⟨s, older, b, buf, buf', offs, hupdate, hqueued, hcheck, hchain, hentries⟩
  · exact absurd hnew.2.1 (by simp)

end UBoot.Ext4.ParentDentry
