import UBoot.Ext4.Extents

/-!
# The blocks of a file in its tree of extents

What `read_allocated_block` returns for a file that has extents. The descent ends inside
of its nodes unless it meets a node with too little room or one that it has come through.
In a well-formed tree the result is the right one when an entry precedes the block at each
node and the extent that is found has blocks to it.
-/

namespace UBoot.Ext4.Extents

open Verification Relation

/-- A number of a block of a file, as an `int`. -/
abbrev FileBlock := Fin 2147483648

section

variable (x : File) (fileblock : FileBlock)

/-! ## The end of the descent -/

/-- The descent goes from a node on to another. -/
def File.Child (n m : Node) : Prop :=
  x.ehMagic n = EXT4_EXT_MAGIC ∧ x.ehDepth n ≠ 0 ∧
    ∃ i, x.lead n fileblock = i + 1 ∧ x.reads (x.leafSector n i) = true ∧
      m = some (x.leafSector n i)

/-- The nodes from this one on have the room that the searches want. -/
def File.Roomy (n : Node) : Prop :=
  ∀ m, ReflTransGen (x.Child fileblock) n m → x.ehMagic m = EXT4_EXT_MAGIC →
    x.SearchInside m fileblock

/-- `read_allocated_block` once its descent has come to a node. -/
def readFrom (fuel : Nat) (n : Node) : Option (Option Int) :=
  (getExtentBlock x fileblock fuel n).map fun
    | .invalid => some (-EINVAL)
    | .found n => readLeaf x n fileblock
    | .outside => none

/-- Some round is the last one, and each entry that is read lies in its node. -/
def EndsInside (n : Node) : Prop := ∃ fuel r, readFrom x fileblock fuel n = some (some r)

variable {x fileblock}

theorem readFrom_succ (fuel : Nat) (n : Node) : readFrom x fileblock (fuel + 1) n =
    match descendRound x n fileblock with
    | .invalid => some (some (-EINVAL))
    | .found => some (readLeaf x n fileblock)
    | .outside => some none
    | .child sector => readFrom x fileblock fuel (some sector) := by
  rw [readFrom, getExtentBlock]
  cases descendRound x n fileblock <;> rfl

theorem descendRound_of_not_magic {n : Node} (h : x.ehMagic n ≠ EXT4_EXT_MAGIC) :
    descendRound x n fileblock = .invalid := by
  rw [descendRound, if_pos h]

theorem descendRound_leaf {n : Node} (hmagic : x.ehMagic n = EXT4_EXT_MAGIC)
    (hdepth : x.ehDepth n = 0) : descendRound x n fileblock = .found := by
  rw [descendRound, if_neg (not_not_intro hmagic), if_pos hdepth]

theorem descendRound_index {n : Node} (hmagic : x.ehMagic n = EXT4_EXT_MAGIC)
    (hdepth : x.ehDepth n ≠ 0) : descendRound x n fileblock =
    match search x n fileblock with
    | none => .outside
    | some 0 => .invalid
    | some (i + 1) =>
      if x.reads (x.leafSector n i) then .child (x.leafSector n i) else .invalid :=
  (if_neg (not_not_intro hmagic)).trans (if_neg hdepth)

theorem readFrom_outside {n : Node} (hmagic : x.ehMagic n = EXT4_EXT_MAGIC)
    (hsearch : search x n fileblock = none) (fuel : Nat) :
    readFrom x fileblock (fuel + 1) n = some none := by
  by_cases hdepth : x.ehDepth n = 0
  · rw [readFrom_succ, descendRound_leaf hmagic hdepth, readLeaf, hsearch]
    rfl
  · rw [readFrom_succ, descendRound_index hmagic hdepth, hsearch]

theorem readFrom_nothing_before {n : Node} (hmagic : x.ehMagic n = EXT4_EXT_MAGIC)
    (hdepth : x.ehDepth n ≠ 0) (hsearch : search x n fileblock = some 0) (fuel : Nat) :
    readFrom x fileblock (fuel + 1) n = some (some (-EINVAL)) := by
  rw [readFrom_succ, descendRound_index hmagic hdepth, hsearch]

theorem descendRound_lead {n : Node} {i : Nat} (hmagic : x.ehMagic n = EXT4_EXT_MAGIC)
    (hdepth : x.ehDepth n ≠ 0) (hsearch : search x n fileblock = some (i + 1)) :
    descendRound x n fileblock =
      if x.reads (x.leafSector n i) then .child (x.leafSector n i) else .invalid := by
  rw [descendRound_index hmagic hdepth, hsearch]

theorem readFrom_not_reads {n : Node} {i : Nat} (hmagic : x.ehMagic n = EXT4_EXT_MAGIC)
    (hdepth : x.ehDepth n ≠ 0) (hsearch : search x n fileblock = some (i + 1))
    (hreads : ¬x.reads (x.leafSector n i) = true) (fuel : Nat) :
    readFrom x fileblock (fuel + 1) n = some (some (-EINVAL)) := by
  rw [readFrom_succ, descendRound_lead hmagic hdepth hsearch, if_neg hreads]

theorem readFrom_child {n : Node} {i : Nat} (hmagic : x.ehMagic n = EXT4_EXT_MAGIC)
    (hdepth : x.ehDepth n ≠ 0) (hsearch : search x n fileblock = some (i + 1))
    (hreads : x.reads (x.leafSector n i) = true) (fuel : Nat) :
    readFrom x fileblock (fuel + 1) n = readFrom x fileblock fuel (some (x.leafSector n i)) := by
  rw [readFrom_succ, descendRound_lead hmagic hdepth hsearch, if_pos hreads]

/-- A descent that ends has a last round on each of its ways, and room in each node. -/
theorem acc_and_roomy_of_readFrom {fuel : Nat} {n : Node} {r : Int}
    (h : readFrom x fileblock fuel n = some (some r)) :
    Acc (fun m n => x.Child fileblock n m) n ∧ x.Roomy fileblock n := by
  induction fuel generalizing n with
  | zero => cases h
  | succ fuel ih =>
    have hinside : x.ehMagic n = EXT4_EXT_MAGIC →
        search x n fileblock = some (x.lead n fileblock) ∧ x.SearchInside n fileblock := by
      intro hmagic
      refine (search_eq x n fileblock).resolve_left fun ⟨hnone, _⟩ => ?_
      rw [readFrom_outside hmagic hnone] at h
      cases h
    have hchild : ∀ m, x.Child fileblock n m →
        readFrom x fileblock fuel m = some (some r) := by
      rintro m ⟨hmagic, hdepth, i, hlead, hreads, rfl⟩
      rw [← readFrom_child hmagic hdepth ((hinside hmagic).1.trans (by rw [hlead])) hreads]
      exact h
    refine ⟨.intro n fun m hm => (ih (hchild m hm)).1, fun m hm hmagic => ?_⟩
    obtain rfl | ⟨c, hc, hcm⟩ := ReflTransGen.cases_head hm
    · exact (hinside hmagic).2
    · exact (ih (hchild c hc)).2 m hcm hmagic

theorem endsInside_of_acc {n : Node} (hacc : Acc (fun m n => x.Child fileblock n m) n)
    (hroomy : x.Roomy fileblock n) : EndsInside x fileblock n := by
  induction hacc with
  | intro n _ ih =>
    by_cases hmagic : x.ehMagic n = EXT4_EXT_MAGIC
    swap
    · refine ⟨1, -EINVAL, ?_⟩
      rw [readFrom_succ, descendRound_of_not_magic hmagic]
    have hinside := hroomy n .refl hmagic
    have hsearch : search x n fileblock = some (x.lead n fileblock) :=
      ((search_eq x n fileblock).resolve_left fun h => h.2 hinside).1
    by_cases hdepth : x.ehDepth n = 0
    · refine ⟨1, ?_⟩
      rw [readFrom_succ, descendRound_leaf hmagic hdepth, readLeaf, hsearch]
      exact ⟨_, rfl⟩
    cases hlead : x.lead n fileblock with
    | zero =>
      rw [hlead] at hsearch
      exact ⟨1, _, readFrom_nothing_before hmagic hdepth hsearch 0⟩
    | succ i =>
      rw [hlead] at hsearch
      by_cases hreads : x.reads (x.leafSector n i) = true
      · have hstep : x.Child fileblock n (some (x.leafSector n i)) :=
          ⟨hmagic, hdepth, i, hlead, hreads, rfl⟩
        obtain ⟨fuel, r, h⟩ := ih _ hstep fun m hm => hroomy m (.head hstep hm)
        exact ⟨fuel + 1, r, (readFrom_child hmagic hdepth hsearch hreads fuel).trans h⟩
      · exact ⟨1, _, readFrom_not_reads hmagic hdepth hsearch hreads 0⟩

/-- The descent ends inside of its nodes exactly when each node that it comes to has the room
and it comes to none twice. -/
theorem endsInside_iff (n : Node) : EndsInside x fileblock n ↔
    x.Roomy fileblock n ∧ ¬ReachesCycle (x.Child fileblock) n := by
  constructor
  · rintro ⟨fuel, r, h⟩
    obtain ⟨hacc, hroomy⟩ := acc_and_roomy_of_readFrom h
    exact ⟨hroomy, acc_iff_not_reachesCycle.mp hacc⟩
  · rintro ⟨hroomy, hcycle⟩
    exact endsInside_of_acc (acc_iff_not_reachesCycle.mpr hcycle) hroomy

end

/-! ## Well-formed trees -/

section

variable (x : File)

/-- The number of blocks of extent `i`: a length above 32768 is that of an uninitialised one. -/
def File.extentLen (n : Node) (i : Nat) : Nat :=
  if x.eeLen n i ≤ 32768 then x.eeLen n i else x.eeLen n i - 32768

/-- Where the blocks end that entry `i` is about. -/
def File.upper (n : Node) (hi i : Nat) : Nat :=
  if i + 1 < x.ehEntries n then x.block n (i + 1) else hi

/-- What all nodes have to meet: `eh_depth` is right, the entries lie in the node, and they
are sorted. -/
structure File.NodeWellFormed (depth : Nat) (n : Node) (lo hi : Nat) : Prop where
  magic : x.ehMagic n = EXT4_EXT_MAGIC
  depth : x.ehDepth n = depth
  room : 12 + 12 * x.ehEntries n ≤ x.room n
  lower : ∀ i < x.ehEntries n, lo ≤ x.block n i
  sorted : ∀ i < x.ehEntries n, x.block n i < x.upper n hi i

/-- The tree of this depth under a node, for the blocks of the file from `lo` to `hi`, is
well-formed. -/
def File.WellFormed : Nat → Node → Nat → Nat → Prop
  | 0, n, lo, hi => x.NodeWellFormed 0 n lo hi ∧
      ∀ i < x.ehEntries n, 0 < x.extentLen n i ∧
        x.block n i + x.extentLen n i ≤ x.upper n hi i ∧
        (x.eeStart n i + x.extentLen n i) * 2 ^ x.log2FsBlocksize ≤ x.partSize
  | depth + 1, n, lo, hi => x.NodeWellFormed (depth + 1) n lo hi ∧
      ∀ i < x.ehEntries n, (x.leaf n i + 1) * 2 ^ x.log2FsBlocksize ≤ x.partSize ∧
        WellFormed depth (some (x.leafSector n i)) (x.block n i) (x.upper n hi i)

/-- An initialised extent of the tree maps the block of the file to this one. -/
def File.MapsTo (fileblock p : Nat) : Nat → Node → Prop
  | 0, n => ∃ i < x.ehEntries n, x.eeLen n i ≤ 32768 ∧ x.block n i ≤ fileblock ∧
      fileblock < x.block n i + x.extentLen n i ∧ p = x.eeStart n i + (fileblock - x.block n i)
  | depth + 1, n => ∃ i < x.ehEntries n, MapsTo fileblock p depth (some (x.leafSector n i))

/-- The result is the block that the tree maps to, or zero for a hole. -/
def File.Right (fileblock depth : Nat) (n : Node) (r : Int) : Prop :=
  (∀ p, x.MapsTo fileblock p depth n → r = p) ∧
    ((¬∃ p, x.MapsTo fileblock p depth n) → r = 0)

/-- An entry precedes the block at each node that it leads to. The block lies behind the
extent that is found, or in an initialised one at a block whose number is a positive
`long int`. -/
def File.Preceded (fileblock : Nat) : Nat → Node → Prop
  | 0, n => ∃ i, x.lead n fileblock = i + 1 ∧ (fileblock < x.block n i + x.eeLen n i →
      if x.eeLen n i ≤ 32768 then x.eeStart n i + (fileblock - x.block n i) < 2147483648
      else (x.eeStart n i + (fileblock - x.block n i)) % 4294967296 = 0)
  | depth + 1, n => ∃ i, x.lead n fileblock = i + 1 ∧
      Preceded fileblock depth (some (x.leafSector n i))

end

section

variable {x : File} {n : Node} {depth lo hi : Nat} {fileblock : Nat}

theorem File.WellFormed.node (h : x.WellFormed depth n lo hi) :
    x.NodeWellFormed depth n lo hi := by
  cases depth with
  | zero => exact h.1
  | succ depth => exact h.1

theorem File.NodeWellFormed.block_lt (h : x.NodeWellFormed depth n lo hi) {i j : Nat}
    (hij : i < j) (hj : j < x.ehEntries n) : x.block n i < x.block n j := by
  have hnext : ∀ i, i + 1 < x.ehEntries n → x.block n i < x.block n (i + 1) := by
    intro i hi
    have := h.sorted i (by omega)
    rwa [File.upper, if_pos hi] at this
  induction j, hij using Nat.le_induction with
  | base => exact hnext i hj
  | succ j _ ih => exact (ih (by omega)).trans (hnext j hj)

theorem File.NodeWellFormed.upper_le (h : x.NodeWellFormed depth n lo hi) {i j : Nat}
    (hij : i < j) (hj : j < x.ehEntries n) : x.upper n hi i ≤ x.block n j := by
  rw [File.upper, if_pos (by omega)]
  obtain rfl | hlt := Nat.eq_or_lt_of_le (show i + 1 ≤ j from hij)
  · exact Nat.le_refl _
  · exact (h.block_lt hlt hj).le

theorem File.NodeWellFormed.upper_le_hi (h : x.NodeWellFormed depth n lo hi) {i : Nat}
    (hi' : i < x.ehEntries n) : x.upper n hi i ≤ hi := by
  -- the last entry's range ends at `hi`, and those before it end at its key
  have hlast := h.sorted (x.ehEntries n - 1) (by omega)
  rw [File.upper, if_neg (by omega)] at hlast
  obtain heq | hlt := Nat.eq_or_lt_of_le (show i ≤ x.ehEntries n - 1 by omega)
  · rw [File.upper, if_neg (by omega)]
  · exact (h.upper_le hlt (by omega)).trans hlast.le

/-- The ranges of a node's entries do not overlap. -/
theorem File.NodeWellFormed.eq_of_mem (h : x.NodeWellFormed depth n lo hi) {i j k : Nat}
    (hi' : i < x.ehEntries n) (hj : j < x.ehEntries n)
    (hik : x.block n i ≤ k ∧ k < x.upper n hi i) (hjk : x.block n j ≤ k ∧ k < x.upper n hi j) :
    i = j := by
  obtain hlt | heq | hlt := Nat.lt_trichotomy i j
  · have := h.upper_le hlt hj
    omega
  · exact heq
  · have := h.upper_le hlt hi'
    omega

/-- The entry that the search stops behind is the one with the block in its range. -/
theorem lead_range {i : Nat} (h : x.lead n fileblock = i + 1) (hhi : fileblock < hi) :
    i < x.ehEntries n ∧ x.block n i ≤ fileblock ∧ fileblock < x.upper n hi i := by
  have hle := lead_le x n fileblock
  refine ⟨by omega, block_le_of_lt_lead x n fileblock (by omega), ?_⟩
  rw [File.upper]
  split_ifs with hlt
  · have := lt_block_lead x n fileblock (by omega)
    rwa [h] at this
  · exact hhi

/-- A block of the file is mapped within the range of its tree. -/
theorem File.WellFormed.mapsTo_range (h : x.WellFormed depth n lo hi) {p : Nat}
    (hp : x.MapsTo fileblock p depth n) : lo ≤ fileblock ∧ fileblock < hi := by
  induction depth generalizing n lo hi with
  | zero =>
    obtain ⟨i, hi', _, hle, hlt, _⟩ := hp
    have hlo := h.node.lower i hi'
    have hupper := h.node.upper_le_hi hi'
    have hend := (h.2 i hi').2.1
    omega
  | succ depth ih =>
    obtain ⟨i, hi', hp⟩ := hp
    have hlo := h.node.lower i hi'
    have hupper := h.node.upper_le_hi hi'
    have hmem := ih (h.2 i hi').2 hp
    omega

/-- At an index node the tree maps what the child in front of the block maps. -/
theorem File.WellFormed.mapsTo_child (h : x.WellFormed (depth + 1) n lo hi) {i p : Nat}
    (hi' : i < x.ehEntries n) (hmem : x.block n i ≤ fileblock ∧ fileblock < x.upper n hi i) :
    x.MapsTo fileblock p (depth + 1) n ↔
      x.MapsTo fileblock p depth (some (x.leafSector n i)) := by
  constructor
  · rintro ⟨j, hj, hp⟩
    obtain rfl := h.node.eq_of_mem hi' hj hmem ((h.2 j hj).2.mapsTo_range hp)
    exact hp
  · exact fun hp => ⟨i, hi', hp⟩

/-- At a leaf only the extent in front of the block can map it. -/
theorem File.WellFormed.mapsTo_leaf (h : x.WellFormed 0 n lo hi) {i p : Nat}
    (hi' : i < x.ehEntries n) (hmem : x.block n i ≤ fileblock ∧ fileblock < x.upper n hi i) :
    x.MapsTo fileblock p 0 n ↔ x.eeLen n i ≤ 32768 ∧
      fileblock < x.block n i + x.eeLen n i ∧ p = x.eeStart n i + (fileblock - x.block n i) := by
  constructor
  · rintro ⟨j, hj, hinit, hle, hlt, hp⟩
    have hend := (h.2 j hj).2.1
    obtain rfl := h.node.eq_of_mem hi' hj hmem ⟨hle, by omega⟩
    rw [File.extentLen, if_pos hinit] at hlt
    exact ⟨hinit, hlt, hp⟩
  · rintro ⟨hinit, hlt, hp⟩
    refine ⟨i, hi', hinit, hmem.1, ?_, hp⟩
    rw [File.extentLen, if_pos hinit]
    exact hlt

end

/-! ## The result -/

theorem longInt_eq_self_iff {n : Nat} (h : n < 4294967296) : longInt n = n ↔ n < 2147483648 := by
  rw [longInt]
  split_ifs <;> omega

theorem longInt_eq_zero_iff (n : Nat) : longInt n = 0 ↔ n % 4294967296 = 0 := by
  rw [longInt]
  split_ifs <;> omega

section

variable {x : File} {n : Node} {depth lo hi fuel : Nat} {fileblock : FileBlock} {r : Int}

/-- A negative result is never right. -/
theorem not_right_of_neg (h : r < 0) : ¬x.Right fileblock depth n r := by
  rintro ⟨hmapped, hhole⟩
  by_cases hp : ∃ p, x.MapsTo fileblock p depth n
  · obtain ⟨p, hp⟩ := hp
    have := hmapped p hp
    omega
  · have := hhole hp
    omega

theorem not_preceded_of_lead_eq_zero (h : x.lead n fileblock = 0) :
    ¬x.Preceded fileblock depth n := by
  cases depth with
  | zero =>
    rintro ⟨i, hi, _⟩
    omega
  | succ depth =>
    rintro ⟨i, hi, _⟩
    omega

theorem File.NodeWellFormed.search_eq (h : x.NodeWellFormed depth n lo hi) :
    search x n fileblock = some (x.lead n fileblock) := by
  refine ((Extents.search_eq x n fileblock).resolve_left fun hout => hout.2 fun i hi _ => ?_).1
  have hroom := h.room
  rw [File.Inside]
  omega

theorem File.WellFormed.reads (h : x.WellFormed (depth + 1) n lo hi) {i : Nat}
    (hi' : i < x.ehEntries n) : x.reads (x.leafSector n i) = true := by
  have hfits := (h.2 i hi').1
  have hlt := x.partSize_lt
  have hpos : 0 < 2 ^ x.log2FsBlocksize := Nat.two_pow_pos _
  rw [Nat.add_mul, Nat.one_mul] at hfits
  -- the sectors of the block, less one
  have hsectors : (x.blksz - 1) / 2 ^ x.log2blksz = 2 ^ x.log2FsBlocksize - 1 := by
    rw [File.blksz, pow_add, Nat.div_eq_iff (Nat.two_pow_pos _), Nat.sub_mul]
    have := Nat.le_mul_of_pos_left (2 ^ x.log2blksz) hpos
    have := Nat.two_pow_pos x.log2blksz
    omega
  have hsector : ((x.leafSector n i : Sector) : Nat) = x.leaf n i * 2 ^ x.log2FsBlocksize :=
    Nat.mod_eq_of_lt (by omega)
  rw [File.reads, decide_eq_true_iff, hsectors, hsector, Nat.mod_eq_of_lt (by omega)]
  omega

theorem right_leaf_iff (h : x.WellFormed 0 n lo hi) (hhi : fileblock < hi)
    (hr : readLeaf x n fileblock = some r) :
    x.Right fileblock 0 n r ↔ x.Preceded fileblock 0 n := by
  rw [readLeaf, h.node.search_eq] at hr
  cases hlead : x.lead n fileblock with
  | zero =>
    rw [hlead] at hr
    obtain rfl : -1 = r := Option.some.inj hr
    exact iff_of_false (not_right_of_neg (by decide)) (not_preceded_of_lead_eq_zero hlead)
  | succ i =>
    rw [hlead] at hr
    obtain ⟨hi', hle, hupper⟩ := lead_range hlead hhi
    have hmaps := fun p => h.mapsTo_leaf (p := p) hi' ⟨hle, hupper⟩
    obtain rfl : (if x.eeLen n i ≤ fileblock - x.block n i then (0 : Int)
        else longInt (fileblock - x.block n i + x.eeStart n i)) = r := Option.some.inj hr
    have hpreceded : x.Preceded fileblock 0 n ↔
        ((fileblock : Nat) < x.block n i + x.eeLen n i →
          if x.eeLen n i ≤ 32768 then x.eeStart n i + (fileblock - x.block n i) < 2147483648
          else (x.eeStart n i + (fileblock - x.block n i)) % 4294967296 = 0) := by
      refine ⟨fun ⟨j, hj, hif⟩ => ?_, fun hif => ⟨i, hlead, hif⟩⟩
      obtain rfl : j = i := by omega
      exact hif
    rw [hpreceded, File.Right]
    simp only [hmaps]
    by_cases hbehind : x.eeLen n i ≤ fileblock - x.block n i
    · -- the block lies behind the extent, in a hole
      rw [if_pos hbehind]
      refine iff_of_true ⟨fun p ⟨_, hlt, _⟩ => ?_, fun _ => rfl⟩ fun hlt => ?_ <;> omega
    have hlt : (fileblock : Nat) < x.block n i + x.eeLen n i := by omega
    rw [if_neg hbehind]
    by_cases hinit : x.eeLen n i ≤ 32768
    · have hfits := (h.2 i hi').2.2
      rw [File.extentLen, if_pos hinit] at hfits
      have hstart := Nat.le_mul_of_pos_right (x.eeStart n i + x.eeLen n i)
        (Nat.two_pow_pos x.log2FsBlocksize)
      have hpart := x.partSize_lt
      simp only [hlt, hinit, if_true, true_and, forall_const, forall_eq]
      rw [Nat.add_comm, longInt_eq_self_iff (by omega)]
      exact ⟨fun hright => hright.1, fun h31 => ⟨h31, fun hnot => absurd ⟨_, rfl⟩ hnot⟩⟩
    · simp only [hlt, hinit, if_false, false_and, exists_false, not_false_eq_true, forall_const,
        false_implies, true_and]
      rw [longInt_eq_zero_iff, Nat.add_comm]

/-- In a well-formed tree the result from a node on is right exactly when entries precede the
block as they should. -/
theorem right_iff_preceded (h : x.WellFormed depth n lo hi) (hhi : fileblock < hi)
    (hr : readFrom x fileblock fuel n = some (some r)) :
    x.Right fileblock depth n r ↔ x.Preceded fileblock depth n := by
  induction depth generalizing n lo hi fuel with
  | zero =>
    cases fuel with
    | zero => cases hr
    | succ fuel =>
      rw [readFrom_succ, descendRound_leaf h.node.magic h.node.depth] at hr
      exact right_leaf_iff h hhi (Option.some.inj hr)
  | succ depth ih =>
    have hdepth : x.ehDepth n ≠ 0 := by
      rw [h.node.depth]
      exact Nat.succ_ne_zero depth
    have hsearch : search x n fileblock = some (x.lead n fileblock) := h.node.search_eq
    cases fuel with
    | zero => cases hr
    | succ fuel =>
      cases hlead : x.lead n fileblock with
      | zero =>
        rw [hlead] at hsearch
        rw [readFrom_nothing_before h.node.magic hdepth hsearch] at hr
        obtain rfl : -EINVAL = r := Option.some.inj (Option.some.inj hr)
        exact iff_of_false (not_right_of_neg (by decide))
          (not_preceded_of_lead_eq_zero hlead)
      | succ i =>
        rw [hlead] at hsearch
        obtain ⟨hi', hle, hupper⟩ := lead_range hlead hhi
        rw [readFrom_child h.node.magic hdepth hsearch (h.reads hi')] at hr
        have hright : x.Right fileblock (depth + 1) n r ↔
            x.Right fileblock depth (some (x.leafSector n i)) r := by
          rw [File.Right, File.Right]
          simp only [h.mapsTo_child hi' ⟨hle, hupper⟩]
        have hpreceded : x.Preceded fileblock (depth + 1) n ↔
            x.Preceded fileblock depth (some (x.leafSector n i)) := by
          refine ⟨fun ⟨j, hj, hrest⟩ => ?_, fun hrest => ⟨i, hlead, hrest⟩⟩
          obtain rfl : j = i := by omega
          exact hrest
        rw [hright, hpreceded]
        exact ih (h.2 i hi').2 hupper hr

end

/-- `read_allocated_block` ends inside of the nodes of any tree, and is right for a well-formed
one, exactly when the nodes that the descent comes to have the room and come once, and in a
well-formed tree entries precede the block. -/
theorem readAllocatedBlock_iff (x : File) (fileblock : FileBlock) :
    ((∃ fuel r, readAllocatedBlock x fuel fileblock = some (some r)) ∧
      ∀ depth, x.WellFormed depth none 0 4294967296 →
        ∀ fuel r, readAllocatedBlock x fuel fileblock = some (some r) →
          x.Right fileblock depth none r) ↔
    x.Roomy fileblock none ∧ ¬ReachesCycle (x.Child fileblock) none ∧
      ∀ depth, x.WellFormed depth none 0 4294967296 → x.Preceded fileblock depth none := by
  have hends : (∃ fuel r, readAllocatedBlock x fuel fileblock = some (some r)) ↔ _ :=
    endsInside_iff none
  rw [hends, ← and_assoc]
  refine and_congr_right fun hinside => forall_congr' fun depth => ?_
  refine forall_congr' fun hwf => ?_
  have hhi : (fileblock : Nat) < 4294967296 := fileblock.isLt.trans (by decide)
  have hiff : ∀ {fuel r}, readAllocatedBlock x fuel fileblock = some (some r) →
      (x.Right fileblock depth none r ↔ x.Preceded fileblock depth none) :=
    fun h => right_iff_preceded hwf hhi h
  constructor
  · intro hright
    obtain ⟨fuel, r, h⟩ := hends.mpr hinside
    exact (hiff h).mp (hright fuel r h)
  · exact fun hpreceded fuel r h => (hiff h).mpr hpreceded

/-- One uninitialised extent, of the file's block 5. -/
def preallocated : File where
  dirBlocks := Ptr.ofList
    [0x0a, 0xf3, 1, 0, 4, 0, 0, 0, 0, 0, 0, 0, 5, 0, 0, 0, 1, 0x80, 0, 0, 100, 0, 0, 0]
  disk := fun _ => 0
  partSize := 65536
  log2blksz := 9
  log2FsBlocksize := 1
  partSize_lt := by decide

/-- An index node in block 10 whose one entry leads to block 10. -/
def circular : File where
  dirBlocks := Ptr.ofList
    [0x0a, 0xf3, 1, 0, 4, 0, 2, 0, 0, 0, 0, 0, 0, 0, 0, 0, 10, 0, 0, 0, 0, 0, 0, 0]
  disk := fun i => Ptr.ofList
    [0x0a, 0xf3, 1, 0, 4, 0, 1, 0, 0, 0, 0, 0, 0, 0, 0, 0, 10, 0, 0, 0, 0, 0, 0, 0] (i - 10240)
  partSize := 65536
  log2blksz := 9
  log2FsBlocksize := 1
  partSize_lt := by decide

/-- The hole before the extent is an error, the uninitialised block is returned as a mapped
one, and the descent of the other tree never ends. -/
theorem readAllocatedBlock_wrong :
    (preallocated.WellFormed 0 none 0 4294967296 ∧
      readAllocatedBlock preallocated 1 0 = some (some (-1)) ∧
      ¬preallocated.Right 0 0 none (-1) ∧
      readAllocatedBlock preallocated 1 5 = some (some 100) ∧
      ¬preallocated.Right 5 0 none 100) ∧
    ∀ fuel, readAllocatedBlock circular fuel 0 = none := by
  have hmaps : ∀ k p, ¬preallocated.MapsTo k p 0 none := by
    rintro k p ⟨i, hi, hinit, _⟩
    obtain rfl : i = 0 := Nat.lt_one_iff.mp hi
    exact absurd hinit (by decide)
  have hround : ∀ fuel, readFrom circular 0 fuel (some 20) = none := by
    intro fuel
    induction fuel with
    | zero => rfl
    | succ fuel ih =>
      rw [readFrom_child (i := 0) (by decide) (by decide) (by decide) (by decide)]
      exact ih
  refine ⟨⟨⟨⟨by decide, by decide, by decide, by decide, by decide⟩, by decide⟩, by decide,
    fun h => absurd (h.2 fun ⟨p, hp⟩ => hmaps 0 p hp) (by decide), by decide,
    fun h => absurd (h.2 fun ⟨p, hp⟩ => hmaps 5 p hp) (by decide)⟩, fun fuel => ?_⟩
  cases fuel with
  | zero => rfl
  | succ fuel =>
    have hfirst := @readFrom_child circular 0 none 0 (by decide) (by decide) (by decide)
      (by decide) fuel
    exact hfirst.trans (hround fuel)

end UBoot.Ext4.Extents
