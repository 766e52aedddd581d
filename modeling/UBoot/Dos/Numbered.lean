import Mathlib.Data.List.Forall2
import UBoot.Dos.Ends

/-!
# The numbers of DOS partitions

`print_partition_extended` follows every extended entry of a sector, and all of them with
the same number; `get_partition_info_extended` follows the first. The two agree when the
other entries lead to nothing else.
-/

namespace UBoot.Dos

/-- Extended partitions that form a tree of readable sectors, below a sector. -/
inductive Tree (dev : BlockDev) : UInt32 → UInt32 → Prop
  | node {sector relative : UInt32} {buffer : List UInt8} (hread : dev.read sector = some buffer)
      (hmagic : hasMagic buffer = true)
      (hboot : ∀ pt ∈ partitions buffer, pt.bootInd = 0 ∨ pt.bootInd = 0x80)
      (below : ∀ pt ∈ partitions buffer, isExtended pt.sysInd = true →
        Tree dev (extSector relative pt) (extRelative sector relative pt)) :
      Tree dev sector relative

structure Numbered where
  number : Int
  start : UInt32
  size : UInt32
  deriving DecidableEq

/-- The partitions of a table. -/
def numberedSlots (sector : UInt32) : Int → List DosPartition → List Numbered
  | _, [] => []
  | partNum, pt :: pts =>
    (if counted pt then [⟨partNum, sector + pt.start4, pt.size4⟩] else []) ++
      numberedSlots sector (nextNum sector partNum pt) pts

/-- The partitions in a sector and below all of its extended entries. -/
inductive Below (dev : BlockDev) : UInt32 → UInt32 → Int → Numbered → Prop
  | here {sector relative : UInt32} {partNum : Int} {buffer : List UInt8} {p : Numbered}
      (hread : dev.read sector = some buffer)
      (hp : p ∈ numberedSlots sector partNum (partitions buffer)) :
      Below dev sector relative partNum p
  | follow {sector relative : UInt32} {partNum : Int} {buffer : List UInt8} {p : Numbered}
      {pt : DosPartition} (hread : dev.read sector = some buffer) (hpt : pt ∈ extended buffer)
      (h : Below dev (extSector relative pt) (extRelative sector relative pt)
        (lastNum sector partNum (partitions buffer)) p) :
      Below dev sector relative partNum p

/-- The partitions on the chain of the first extended entries. -/
inductive OnChain (dev : BlockDev) : UInt32 → UInt32 → Int → Numbered → Prop
  | here {sector relative : UInt32} {partNum : Int} {buffer : List UInt8} {p : Numbered}
      (hread : dev.read sector = some buffer)
      (hp : p ∈ numberedSlots sector partNum (partitions buffer)) :
      OnChain dev sector relative partNum p
  | follow {sector relative : UInt32} {partNum : Int} {buffer : List UInt8} {p : Numbered}
      {pt : DosPartition} {others : List DosPartition} (hread : dev.read sector = some buffer)
      (hpt : extended buffer = pt :: others)
      (h : OnChain dev (extSector relative pt) (extRelative sector relative pt)
        (lastNum sector partNum (partitions buffer)) p) :
      OnChain dev sector relative partNum p

/-- The partitions below an extended entry that another one of its sector comes before. -/
inductive Stray (dev : BlockDev) : UInt32 → UInt32 → Int → Numbered → Prop
  | branch {sector relative : UInt32} {partNum : Int} {buffer : List UInt8} {p : Numbered}
      {pt first : DosPartition} {others : List DosPartition}
      (hread : dev.read sector = some buffer) (hext : extended buffer = first :: others)
      (hpt : pt ∈ others)
      (h : Below dev (extSector relative pt) (extRelative sector relative pt)
        (lastNum sector partNum (partitions buffer)) p) :
      Stray dev sector relative partNum p
  | follow {sector relative : UInt32} {partNum : Int} {buffer : List UInt8} {p : Numbered}
      {pt : DosPartition} {others : List DosPartition} (hread : dev.read sector = some buffer)
      (hpt : extended buffer = pt :: others)
      (h : Stray dev (extSector relative pt) (extRelative sector relative pt)
        (lastNum sector partNum (partitions buffer)) p) :
      Stray dev sector relative partNum p

section

variable {dev : BlockDev} {sector relative : UInt32} {partNum : Int} {p q : Numbered}

theorem below_iff : Below dev sector relative partNum p ↔
    OnChain dev sector relative partNum p ∨ Stray dev sector relative partNum p := by
  constructor
  · intro h
    induction h with
    | here hread hp => exact .inl (.here hread hp)
    | @follow _ _ _ buffer _ pt hread hpt h ih =>
      cases hext : extended buffer with
      | nil =>
        rw [hext] at hpt
        cases hpt
      | cons first others =>
        rw [hext] at hpt
        rcases List.mem_cons.mp hpt with rfl | hothers
        · exact ih.imp (.follow hread hext) (.follow hread hext)
        · exact .inr (.branch hread hext hothers h)
  · rintro (h | h)
    · induction h with
      | here hread hp => exact .here hread hp
      | follow hread hpt _ ih => exact .follow hread (hpt ▸ List.mem_cons_self ..) ih
    · induction h with
      | branch hread hext hpt h => exact .follow hread (hext ▸ List.mem_cons_of_mem _ hpt) h
      | follow hread hpt _ ih => exact .follow hread (hpt ▸ List.mem_cons_self ..) ih

/-! ### Numbers on the chain -/

theorem le_nextNum (pt : DosPartition) : partNum ≤ nextNum sector partNum pt := by
  rw [nextNum]
  split <;> omega

theorem nextNum_of_counted {pt : DosPartition} (h : counted pt = true) :
    nextNum sector partNum pt = partNum + 1 :=
  if_pos (.inr h)

theorem le_lastNum (pts : List DosPartition) : partNum ≤ lastNum sector partNum pts := by
  induction pts generalizing partNum with
  | nil => exact Int.le_refl _
  | cons pt pts ih => exact Int.le_trans (le_nextNum pt) ih

/-- The numbers of a table lie between those before and behind it. -/
theorem number_bounds {pts : List DosPartition} (hp : p ∈ numberedSlots sector partNum pts) :
    partNum ≤ p.number ∧ p.number < lastNum sector partNum pts := by
  induction pts generalizing partNum with
  | nil => cases hp
  | cons pt pts ih =>
    rw [numberedSlots, List.mem_append] at hp
    rcases hp with hp | hp
    · by_cases hcounted : counted pt = true
      · rw [if_pos hcounted] at hp
        obtain rfl := List.mem_singleton.mp hp
        have hlast := @le_lastNum sector (nextNum sector partNum pt) pts
        have hnext := @nextNum_of_counted sector partNum pt hcounted
        rw [lastNum, List.foldl_cons, ← lastNum]
        dsimp only
        omega
      · rw [if_neg hcounted] at hp
        cases hp
    · exact ⟨Int.le_trans (le_nextNum pt) (ih hp).1, (ih hp).2⟩

theorem number_injective {pts : List DosPartition} (hp : p ∈ numberedSlots sector partNum pts)
    (hq : q ∈ numberedSlots sector partNum pts) (hnumber : p.number = q.number) : p = q := by
  induction pts generalizing partNum with
  | nil => cases hp
  | cons pt pts ih =>
    rw [numberedSlots, List.mem_append] at hp hq
    by_cases hcounted : counted pt = true
    · have hbehind : ∀ r, r ∈ numberedSlots sector (nextNum sector partNum pt) pts →
          partNum < r.number := by
        intro r hr
        have := (number_bounds hr).1
        rw [nextNum_of_counted hcounted] at this
        omega
      rw [if_pos hcounted, List.mem_singleton] at hp hq
      rcases hp with rfl | hp <;> rcases hq with rfl | hq
      · rfl
      · exact absurd hnumber (Int.ne_of_lt (hbehind q hq))
      · exact absurd hnumber.symm (Int.ne_of_lt (hbehind p hp))
      · exact ih hp hq
    · rw [if_neg hcounted] at hp hq
      exact ih (hp.resolve_left (List.not_mem_nil)) (hq.resolve_left (List.not_mem_nil))

theorem OnChain.le_number (h : OnChain dev sector relative partNum p) : partNum ≤ p.number := by
  induction h with
  | here _ hp => exact (number_bounds hp).1
  | follow _ _ _ ih => exact Int.le_trans (le_lastNum _) ih

theorem OnChain.number_injective (hp : OnChain dev sector relative partNum p)
    (hq : OnChain dev sector relative partNum q) (hnumber : p.number = q.number) : p = q := by
  induction hp with
  | here hread hp =>
    cases hq with
    | here hread' hq =>
      obtain rfl := Option.some.inj (hread.symm.trans hread')
      exact Dos.number_injective hp hq hnumber
    | follow hread' _ hq =>
      obtain rfl := Option.some.inj (hread.symm.trans hread')
      have := (number_bounds hp).2
      have := hq.le_number
      omega
  | follow hread hext hp ih =>
    cases hq with
    | here hread' hq =>
      obtain rfl := Option.some.inj (hread.symm.trans hread')
      have := (number_bounds hq).2
      have := hp.le_number
      omega
    | follow hread' hext' hq =>
      obtain rfl := Option.some.inj (hread.symm.trans hread')
      obtain ⟨rfl, -⟩ := List.cons.inj (hext.symm.trans hext')
      exact ih hq hnumber

end

/-! ### The lookup -/

theorem not_counted_of_extended {pt : DosPartition} (h : isExtended pt.sysInd = true) :
    counted pt = false := by
  rw [counted, h]
  exact Bool.and_false _

section

variable {sector : UInt32} {whichPart partNum : Int} {pts : List DosPartition}

theorem getSlots_some {number : Int} {pt : DosPartition}
    (h : getSlots sector whichPart partNum pts = some (number, pt)) :
    number = whichPart ∧
      ⟨whichPart, sector + pt.start4, pt.size4⟩ ∈ numberedSlots sector partNum pts := by
  induction pts generalizing partNum with
  | nil => cases h
  | cons first pts ih =>
    rw [getSlots] at h
    by_cases hfirst : gettable first ∧ partNum = whichPart
    · rw [if_pos hfirst] at h
      obtain ⟨rfl, rfl⟩ := Prod.mk.inj (Option.some.inj h)
      have hcounted := (Bool.and_eq_true _ _ ▸ hfirst.1 : _ ∧ counted first = true).2
      refine ⟨hfirst.2, ?_⟩
      rw [numberedSlots, if_pos hcounted, ← hfirst.2]
      exact List.mem_append_left _ (List.mem_singleton_self _)
    · rw [if_neg hfirst] at h
      obtain ⟨hnumber, hmem⟩ := ih h
      exact ⟨hnumber, List.mem_append_right _ hmem⟩

/-- When it finds none, no partition of the table has the number. -/
theorem number_ne_of_getSlots (hboot : ∀ pt ∈ pts, pt.bootInd = 0 ∨ pt.bootInd = 0x80)
    (h : getSlots sector whichPart partNum pts = none) :
    ∀ p ∈ numberedSlots sector partNum pts, p.number ≠ whichPart := by
  induction pts generalizing partNum with
  | nil => simp [numberedSlots]
  | cons first pts ih =>
    rw [getSlots] at h
    by_cases hfirst : gettable first ∧ partNum = whichPart
    · rw [if_pos hfirst] at h
      cases h
    · rw [if_neg hfirst] at h
      have hrest := ih (fun pt hpt => hboot pt (List.mem_cons_of_mem _ hpt)) h
      intro p hp
      rw [numberedSlots, List.mem_append] at hp
      rcases hp with hp | hp
      · by_cases hcounted : counted first = true
        · rw [if_pos hcounted] at hp
          obtain rfl := List.mem_singleton.mp hp
          have hmask : first.bootInd &&& 0x7f = 0 := by
            rcases hboot first (List.mem_cons_self ..) with h | h <;> rw [h] <;> decide
          exact fun hnumber => hfirst ⟨by simp [gettable, hmask, hcounted], hnumber⟩
        · rw [if_neg hcounted] at hp
          cases hp
      · exact hrest p hp

end

/-! ### The recursions on a tree -/

theorem testBlockType_eq_mbr {buffer : List UInt8} (hmagic : hasMagic buffer = true)
    (hboot : (partitionAt buffer 0).bootInd = 0 ∨ (partitionAt buffer 0).bootInd = 0x80) :
    testBlockType buffer = some .mbr := by
  have hslot : ¬((partitionAt buffer 0).bootInd ≠ 0 ∧ (partitionAt buffer 0).bootInd ≠ 0x80) :=
    fun h => hboot.elim h.1 h.2
  simp only [testBlockType, if_pos hmagic, testSlots, if_neg hslot]

theorem mem_of_mapM {α β : Type*} {f : α → Option β} {l : List α} {ys : List β}
    (h : l.mapM f = some ys) {y : β} : y ∈ ys ↔ ∃ x ∈ l, f x = some y := by
  induction l generalizing ys with
  | nil =>
    obtain rfl := Option.some.inj h
    simp
  | cons x l ih =>
    rw [List.mapM_cons, Option.bind_eq_bind, Option.bind_eq_some_iff] at h
    obtain ⟨z, hz, h⟩ := h
    rw [Option.bind_eq_bind, Option.bind_eq_some_iff] at h
    obtain ⟨zs, hzs, h⟩ := h
    obtain rfl := Option.some.inj h
    rw [List.mem_cons, ih hzs, List.exists_mem_cons_iff, hz, Option.some.injEq, eq_comm]

/-- A line for the partition, which is not extended. -/
def Listed (outs : List Output) (p : Numbered) : Prop :=
  ∃ line, .part line ∈ outs ∧ line.extd = false ∧
    p = ⟨line.partNum, line.lbaStart, line.lbaSize⟩

theorem listed_append {first second : List Output} {p : Numbered} :
    Listed (first ++ second) p ↔ Listed first p ∨ Listed second p := by
  simp only [Listed, List.mem_append, or_and_right, exists_or]

theorem listed_flatten {outs : List (List Output)} {p : Numbered} :
    Listed outs.flatten p ↔ ∃ out ∈ outs, Listed out p := by
  constructor
  · rintro ⟨line, hline, hrest⟩
    obtain ⟨out, hout, hline⟩ := List.mem_flatten.mp hline
    exact ⟨out, hout, line, hline, hrest⟩
  · rintro ⟨out, hout, line, hline, hrest⟩
    exact ⟨line, List.mem_flatten.mpr ⟨out, hout, hline⟩, hrest⟩

theorem listed_printSlots {sector disksig : UInt32} {partNum : Int} {pts : List DosPartition}
    {p : Numbered} :
    Listed (printSlots sector disksig partNum pts) p ↔ p ∈ numberedSlots sector partNum pts := by
  induction pts generalizing partNum with
  | nil => simp [Listed, printSlots, numberedSlots]
  | cons pt pts ih =>
    rw [printSlots, numberedSlots, listed_append, List.mem_append, ih]
    refine or_congr_left ?_
    by_cases hext : isExtended pt.sysInd = true
    · -- an extended entry of the MBR has a line of its own kind
      have hnot : ¬Listed (if pt.sysInd ≠ 0 ∧ (sector = 0 ∨ !isExtended pt.sysInd) then
          [.part (printOnePart pt sector partNum disksig)] else []) p := by
        rintro ⟨line, hline, hextd, -⟩
        split at hline
        · obtain rfl := Output.part.inj (List.mem_singleton.mp hline)
          exact Bool.false_ne_true (hextd.symm.trans hext)
        · cases hline
      refine iff_of_false hnot ?_
      rw [not_counted_of_extended hext]
      simp
    · by_cases hsys : pt.sysInd = 0
      · simp [hsys, Listed, counted]
      · simp [hsys, hext, Listed, counted, printOnePart]

variable {dev : BlockDev} {sector relative : UInt32}

theorem Tree.listed_iff (tree : Tree dev sector relative) {fuel : Nat} {partNum : Int}
    {disksig : UInt32} {outs : List Output}
    (hprint : printPartitionExtended dev fuel sector relative partNum disksig = some outs)
    {p : Numbered} : Listed outs p ↔ Below dev sector relative partNum p := by
  induction tree generalizing fuel partNum disksig outs with
  | @node sector relative buffer hread hmagic hboot _ ih =>
    cases fuel with
    | zero => cases hprint
    | succ fuel =>
      have hmbr := testBlockType_eq_mbr hmagic (hboot _ (List.mem_cons_self ..))
      simp only [printPartitionExtended, hread, hmbr, ne_eq, not_true_eq_false, if_false]
        at hprint
      obtain ⟨rest, hrest, rfl⟩ := Option.map_eq_some_iff.mp hprint
      rw [listed_append, listed_flatten, listed_printSlots]
      constructor
      · rintro (hp | ⟨out, hout, hp⟩)
        · exact .here hread hp
        · obtain ⟨pt, hpt, hcall⟩ := (mem_of_mapM hrest).mp hout
          have hext := List.mem_filter.mp hpt
          exact .follow hread hpt ((ih pt hext.1 hext.2 hcall).mp hp)
      · intro h
        cases h with
        | here hread' hp =>
          obtain rfl := Option.some.inj (hread.symm.trans hread')
          exact .inl hp
        | @follow _ _ _ _ _ pt hread' hpt hp =>
          obtain rfl := Option.some.inj (hread.symm.trans hread')
          have hext := List.mem_filter.mp hpt
          obtain ⟨out, hcall⟩ := Option.isSome_iff_exists.mp
            (isSome_mapM_iff.mp (Option.isSome_of_mem hrest) pt hpt)
          exact .inr ⟨out, (mem_of_mapM hrest).mpr ⟨pt, hpt, hcall⟩,
            (ih pt hext.1 hext.2 hcall).mpr hp⟩

/-- What is found in a tree is the partition of the number on the chain. -/
theorem Tree.found_cases (tree : Tree dev sector relative) {whichPart : Int}
    {info : DiskPartition} {fuel : Nat} {partNum : Int} {disksig : UInt32}
    {result : Except Int DiskPartition}
    (hget : getPartitionInfoExtended dev whichPart info fuel sector relative partNum disksig =
      some result) :
    (∃ found, result = .ok found ∧
        OnChain dev sector relative partNum ⟨whichPart, found.start, found.size⟩) ∨
      (result = .error (-1) ∧ ∀ p, OnChain dev sector relative partNum p →
        p.number ≠ whichPart) := by
  induction tree generalizing fuel partNum disksig with
  | @node sector relative buffer hread hmagic hboot _ ih =>
    cases fuel with
    | zero => cases hget
    | succ fuel =>
      have hmbr := testBlockType_eq_mbr hmagic (hboot _ (List.mem_cons_self ..))
      simp only [getPartitionInfoExtended, hread, hmagic, Bool.not_true, Bool.false_eq_true,
        if_false, hmbr] at hget
      cases hslots : getSlots sector whichPart partNum (partitions buffer) with
      | some found =>
        obtain ⟨number, pt⟩ := found
        simp only [hslots] at hget
        exact .inl ⟨_, (Option.some.inj hget).symm, .here hread (getSlots_some hslots).2⟩
      | none =>
        simp only [hslots] at hget
        have hhere := number_ne_of_getSlots hboot hslots
        have hhead := find_extended buffer
        cases hext : extended buffer with
        | nil =>
          rw [hext, List.head?_nil] at hhead
          simp only [hhead] at hget
          refine .inr ⟨(Option.some.inj hget).symm, fun p hp => ?_⟩
          cases hp with
          | here hread' hp =>
            obtain rfl := Option.some.inj (hread.symm.trans hread')
            exact hhere p hp
          | follow hread' hext' _ =>
            obtain rfl := Option.some.inj (hread.symm.trans hread')
            rw [hext] at hext'
            cases hext'
        | cons pt others =>
          rw [hext, List.head?_cons] at hhead
          simp only [hhead] at hget
          have hpt : pt ∈ extended buffer := hext ▸ List.mem_cons_self ..
          have hmem := List.mem_filter.mp hpt
          refine (ih pt hmem.1 hmem.2 hget).imp ?_ ?_
          · rintro ⟨found, hfound, hp⟩
            exact ⟨found, hfound, .follow hread hext hp⟩
          · rintro ⟨hresult, hnone⟩
            refine ⟨hresult, fun p hp => ?_⟩
            cases hp with
            | here hread' hp =>
              obtain rfl := Option.some.inj (hread.symm.trans hread')
              exact hhere p hp
            | follow hread' hext' hp =>
              obtain rfl := Option.some.inj (hread.symm.trans hread')
              obtain ⟨rfl, -⟩ := List.cons.inj (hext.symm.trans hext')
              exact hnone p hp

theorem Tree.acc_print (tree : Tree dev sector relative) :
    Acc (fun y x => PrintCalls dev x y) (sector, relative) := by
  induction tree with
  | @node sector relative buffer hread _ _ _ ih =>
    refine .intro _ fun c' hcall => ?_
    obtain ⟨buffer', hread', -, pt, hpt, rfl⟩ := hcall
    obtain rfl := Option.some.inj (hread.symm.trans hread')
    have hext := List.mem_filter.mp hpt
    exact ih pt hext.1 hext.2

theorem Tree.acc_get (tree : Tree dev sector relative) :
    Acc (fun y x => GetCalls dev x y) (sector, relative) := by
  induction tree with
  | @node sector relative buffer hread _ _ _ ih =>
    refine .intro _ fun c' hcall => ?_
    obtain ⟨buffer', hread', -, pt, others, hcons, rfl⟩ := hcall
    obtain rfl := Option.some.inj (hread.symm.trans hread')
    have hpt : pt ∈ extended buffer := hcons ▸ List.mem_cons_self ..
    have hext := List.mem_filter.mp hpt
    exact ih pt hext.1 hext.2

/-! ### Agreement -/

/-- What `print_part_dos` prints. -/
def Prints (dev : BlockDev) (outs : List Output) : Prop :=
  ∃ fuel, printPartDos dev fuel = some outs

/-- What `get_partition_info_dos` returns. -/
def Gets (dev : BlockDev) (part : Int) (info : DiskPartition)
    (result : Except Int DiskPartition) : Prop :=
  ∃ fuel, getPartitionInfoDos dev part info fuel = some result

/-- A partition is listed and found alike, by every number. -/
structure Agree (dev : BlockDev) (info : DiskPartition) (outs : List Output) : Prop where
  ends : ∀ part, ∃ result, Gets dev part info result
  found : ∀ p, Listed outs p →
    ∃ r, Gets dev p.number info (.ok r) ∧ r.start = p.start ∧ r.size = p.size
  listed : ∀ part r, Gets dev part info (.ok r) → Listed outs ⟨part, r.start, r.size⟩

theorem Tree.onChain_of_gets (tree : Tree dev 0 0) {part : Int} {info r : DiskPartition}
    (h : Gets dev part info (.ok r)) : OnChain dev 0 0 1 ⟨part, r.start, r.size⟩ := by
  obtain ⟨fuel, hget⟩ := h
  rcases tree.found_cases hget with ⟨found, hok, hp⟩ | ⟨herror, -⟩
  · obtain rfl := Except.ok.inj hok
    exact hp
  · cases herror

/-- On a tree the two agree exactly when the extended entries that are not the first of
their sector lead to partitions of the chain only. -/
theorem agree_iff (info : DiskPartition) (tree : Tree dev 0 0) :
    (∃ outs, Prints dev outs ∧ Agree dev info outs) ↔
      ∀ p, Stray dev 0 0 1 p → OnChain dev 0 0 1 p := by
  constructor
  · rintro ⟨outs, ⟨fuel, hprint⟩, agree⟩ p hstray
    obtain ⟨r, hget, hstart, hsize⟩ :=
      agree.found p ((tree.listed_iff hprint).mpr (below_iff.mpr (.inr hstray)))
    have hchain := tree.onChain_of_gets hget
    rw [hstart, hsize] at hchain
    exact hchain
  · intro hstray
    obtain ⟨fuel, hfuel⟩ := print_of_acc tree.acc_print
    obtain ⟨outs, hprint⟩ := Option.isSome_iff_exists.mp (hfuel 1 0)
    obtain ⟨fuel', hfuel'⟩ := get_of_acc tree.acc_get
    have hends : ∀ part, ∃ result, Gets dev part info result := fun part => by
      obtain ⟨result, hget⟩ := Option.isSome_iff_exists.mp (hfuel' part info 1 0)
      exact ⟨result, fuel', hget⟩
    refine ⟨outs, ⟨fuel, hprint⟩, hends, fun p hp => ?_, fun part r hget => ?_⟩
    · have hchain : OnChain dev 0 0 1 p :=
        (below_iff.mp ((tree.listed_iff hprint).mp hp)).elim id (hstray p)
      obtain ⟨result, fuel, hget⟩ := hends p.number
      rcases tree.found_cases hget with ⟨r, rfl, hr⟩ | ⟨-, hnone⟩
      · have hp := hr.number_injective hchain rfl
        exact ⟨r, ⟨fuel, hget⟩, congrArg Numbered.start hp, congrArg Numbered.size hp⟩
      · exact absurd rfl (hnone p hchain)
    · exact (tree.listed_iff hprint).mpr (below_iff.mpr (.inl (tree.onChain_of_gets hget)))

/-- Nothing strays where no sector has two extended entries. -/
theorem not_stray_of_single
    (hsingle : ∀ sector buffer, dev.read sector = some buffer → (extended buffer).length ≤ 1)
    {partNum : Int} {p : Numbered} : ¬Stray dev sector relative partNum p := by
  intro h
  induction h with
  | @branch _ _ _ _ _ _ _ others hread hext hpt _ =>
    have hlen := hsingle _ _ hread
    rw [hext, List.length_cons] at hlen
    have hnil : others = [] := List.length_eq_zero_iff.mp (by omega)
    rw [hnil] at hpt
    cases hpt
  | follow _ _ _ ih => exact ih

def entryBytes (sysInd start size : UInt8) : List UInt8 :=
  [0, 0, 0, 0, sysInd, 0, 0, 0, start, 0, 0, 0, size, 0, 0, 0]

/-- A sector with two entries. -/
def tableOf (first second : List UInt8) : List UInt8 :=
  List.replicate 446 0 ++ (first ++ (second ++ (List.replicate 32 0 ++ [0x55, 0xaa])))

/-- A disk with an extended partition from sector 10 on, and another entry in the MBR. -/
def forkDisk (second : List UInt8) : BlockDev where
  ifType := .usb
  dev := 0
  lba := 100
  read := fun sector =>
    if sector = 0 then some (tableOf (entryBytes 5 10 10) second)
    else if sector = 10 then some (tableOf (entryBytes 0x83 1 5) (entryBytes 0 0 0))
    else if sector = 20 then some (tableOf (entryBytes 0x83 1 7) (entryBytes 0 0 0))
    else none

theorem byteAt_tableOf (first second : List UInt8) (k : Nat) :
    byteAt (tableOf first second) (446 + k) =
      byteAt (first ++ (second ++ (List.replicate 32 0 ++ [0x55, 0xaa]))) k := by
  have hle : (List.replicate 446 (0 : UInt8)).length ≤ 446 + k := by
    rw [List.length_replicate]
    exact Nat.le_add_right ..
  rw [byteAt, byteAt, tableOf, List.getD_eq_getElem?_getD, List.getD_eq_getElem?_getD,
    List.getElem?_append_right hle, List.length_replicate, Nat.add_sub_cancel_left]

/-- An entry is found without the code in front of the table. -/
theorem partitionAt_tableOf (first second : List UInt8) (slot : Nat) :
    partitionAt (tableOf first second) slot =
      ⟨byteAt (first ++ (second ++ (List.replicate 32 0 ++ [0x55, 0xaa]))) (16 * slot),
        byteAt (first ++ (second ++ (List.replicate 32 0 ++ [0x55, 0xaa]))) (16 * slot + 4),
        le32ToInt (first ++ (second ++ (List.replicate 32 0 ++ [0x55, 0xaa]))) (16 * slot + 8),
        le32ToInt (first ++ (second ++ (List.replicate 32 0 ++ [0x55, 0xaa]))) (16 * slot + 12)⟩ := by
  simp only [partitionAt, le32ToInt, DOS_PART_TBL_OFFSET, Nat.add_assoc, byteAt_tableOf]

/-- The entries of the sectors of such a disk. -/
theorem tables_forkDisk :
    (hasMagic (tableOf (entryBytes 5 10 10) (entryBytes 0 0 0)) = true ∧
      partitions (tableOf (entryBytes 5 10 10) (entryBytes 0 0 0)) =
        [⟨0, 5, 10, 10⟩, ⟨0, 0, 0, 0⟩, ⟨0, 0, 0, 0⟩, ⟨0, 0, 0, 0⟩]) ∧
    (hasMagic (tableOf (entryBytes 5 10 10) (entryBytes 5 20 10)) = true ∧
      partitions (tableOf (entryBytes 5 10 10) (entryBytes 5 20 10)) =
        [⟨0, 5, 10, 10⟩, ⟨0, 5, 20, 10⟩, ⟨0, 0, 0, 0⟩, ⟨0, 0, 0, 0⟩]) ∧
    (hasMagic (tableOf (entryBytes 0x83 1 5) (entryBytes 0 0 0)) = true ∧
      partitions (tableOf (entryBytes 0x83 1 5) (entryBytes 0 0 0)) =
        [⟨0, 0x83, 1, 5⟩, ⟨0, 0, 0, 0⟩, ⟨0, 0, 0, 0⟩, ⟨0, 0, 0, 0⟩]) ∧
    (hasMagic (tableOf (entryBytes 0x83 1 7) (entryBytes 0 0 0)) = true ∧
      partitions (tableOf (entryBytes 0x83 1 7) (entryBytes 0 0 0)) =
        [⟨0, 0x83, 1, 7⟩, ⟨0, 0, 0, 0⟩, ⟨0, 0, 0, 0⟩, ⟨0, 0, 0, 0⟩]) := by
  simp only [partitions, partitionAt_tableOf]
  decide +kernel

/-- A sector that leads nowhere. -/
theorem Tree.leaf {buffer : List UInt8} (hread : dev.read sector = some buffer)
    (hmagic : hasMagic buffer = true)
    (hpts : ∀ pt ∈ partitions buffer, pt.bootInd = 0 ∧ isExtended pt.sysInd = false) :
    Tree dev sector relative := by
  refine .node hread hmagic (fun pt hpt => .inl (hpts pt hpt).1) fun pt hpt hext => ?_
  rw [(hpts pt hpt).2] at hext
  cases hext

theorem leaf_forkDisk (second : List UInt8) {start : UInt32} (hstart : start = 10 ∨ start = 20) :
    Tree (forkDisk second) start relative := by
  obtain ⟨-, -, ⟨hmagic, hpts⟩, ⟨hmagic', hpts'⟩⟩ := tables_forkDisk
  rcases hstart with rfl | rfl
  · refine .leaf rfl hmagic ?_
    rw [hpts]
    decide
  · refine .leaf rfl hmagic' ?_
    rw [hpts']
    decide

/-- An empty structure. -/
def noInfo : DiskPartition := ⟨0, 0, 0, "", "", false, ""⟩

/-- With one extended entry in each sector the two agree. -/
theorem agree_iff_one_extended :
    ∃ outs, Prints (forkDisk (entryBytes 0 0 0)) outs ∧
      Agree (forkDisk (entryBytes 0 0 0)) noInfo outs := by
  obtain ⟨⟨hmagic, hpts⟩, -, ⟨-, hleaf⟩, ⟨-, hleaf'⟩⟩ := tables_forkDisk
  have tree : Tree (forkDisk (entryBytes 0 0 0)) 0 0 := by
    refine .node rfl hmagic ?_ ?_ <;> rw [hpts]
    · decide
    · intro pt hpt hext
      have hfirst : pt = ⟨0, 5, 10, 10⟩ := by
        revert pt
        decide
      subst hfirst
      exact leaf_forkDisk _ (.inl rfl)
  refine (agree_iff noInfo tree).mpr fun p hstray => absurd hstray (not_stray_of_single ?_)
  intro sector buffer hread
  rw [forkDisk] at hread
  dsimp only at hread
  split at hread
  · obtain rfl := Option.some.inj hread
    rw [extended, hpts]
    decide
  split at hread
  · obtain rfl := Option.some.inj hread
    rw [extended, hleaf]
    decide
  split at hread
  · obtain rfl := Option.some.inj hread
    rw [extended, hleaf']
    decide
  · cases hread

/-- With two in the MBR number 5 is printed twice, and found once. -/
theorem unfound_partition :
    Tree (forkDisk (entryBytes 5 20 10)) 0 0 ∧
      ∃ outs, Prints (forkDisk (entryBytes 5 20 10)) outs ∧ Listed outs ⟨5, 21, 7⟩ ∧
        ∀ info r, Gets (forkDisk (entryBytes 5 20 10)) 5 info (.ok r) → r.start = 11 := by
  obtain ⟨-, ⟨hmagic, hpts⟩, ⟨-, hleaf⟩, ⟨-, hleaf'⟩⟩ := tables_forkDisk
  have tree : Tree (forkDisk (entryBytes 5 20 10)) 0 0 := by
    refine .node rfl hmagic ?_ ?_ <;> rw [hpts]
    · decide
    · intro pt hpt hext
      have hstart : (pt.start4 = 10 ∨ pt.start4 = 20) := by
        revert pt
        decide
      have hnext : extSector 0 pt = pt.start4 := UInt32.add_zero _
      rw [hnext]
      exact leaf_forkDisk _ hstart
  have hext : extended (tableOf (entryBytes 5 10 10) (entryBytes 5 20 10)) =
      [⟨0, 5, 10, 10⟩, ⟨0, 5, 20, 10⟩] := by
    rw [extended, hpts]
    decide
  obtain ⟨fuel, hfuel⟩ := print_of_acc tree.acc_print
  obtain ⟨outs, hprint⟩ := Option.isSome_iff_exists.mp (hfuel 1 0)
  refine ⟨tree, outs, ⟨fuel, hprint⟩, (tree.listed_iff hprint).mpr ?_, fun info r hget => ?_⟩
  · refine .follow rfl (hext ▸ List.mem_cons_of_mem _ (List.mem_singleton_self _)) (.here rfl ?_)
    rw [hpts, hleaf']
    decide
  · have hchain : OnChain (forkDisk (entryBytes 5 20 10)) 0 0 1 ⟨5, 11, 5⟩ := by
      refine .follow rfl hext (.here rfl ?_)
      rw [hpts, hleaf]
      decide
    exact congrArg Numbered.start
      ((tree.onChain_of_gets hget).number_injective hchain rfl)

end UBoot.Dos
