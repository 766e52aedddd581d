import Mathlib.Data.Finite.Prod
import UBoot.Dos.Basic
import UBoot.Verification.Cycles

/-!
# Where the walks over DOS partitions end

Both recursions take the next sector from the disk and remember none. One ends where no
path over extended entries comes back, the other also at the partition it looks for.
-/

namespace UBoot.Dos

open Verification

/-- The extended entries of a sector. -/
def extended (buffer : List UInt8) : List DosPartition :=
  (partitions buffer).filter (isExtended ·.sysInd)

/-- A sector, and what its starts are relative to. -/
abbrev Place := UInt32 × UInt32

/-- Where an extended entry leads to. -/
def Place.next (c : Place) (pt : DosPartition) : Place :=
  (extSector c.2 pt, extRelative c.1 c.2 pt)

/-- `print_partition_extended` calls itself for another place. -/
def PrintCalls (dev : BlockDev) (c c' : Place) : Prop :=
  ∃ buffer, dev.read c.1 = some buffer ∧ testBlockType buffer = some .mbr ∧
    ∃ pt ∈ extended buffer, c' = c.next pt

/-- `get_partition_info_extended` does, when it has not found the part. -/
def GetCalls (dev : BlockDev) (c c' : Place) : Prop :=
  ∃ buffer, dev.read c.1 = some buffer ∧ hasMagic buffer = true ∧
    ∃ pt others, extended buffer = pt :: others ∧ c' = c.next pt

/-- The part is on the chain of the first extended entries. -/
inductive Met (dev : BlockDev) (whichPart : Int) : UInt32 → UInt32 → Int → Prop
  | here {sector relative : UInt32} {partNum : Int} {buffer : List UInt8}
      (hread : dev.read sector = some buffer) (hmagic : hasMagic buffer = true)
      (hslots : (getSlots sector whichPart partNum (partitions buffer)).isSome) :
      Met dev whichPart sector relative partNum
  | follow {sector relative : UInt32} {partNum : Int} {buffer : List UInt8} {pt : DosPartition}
      {others : List DosPartition} (hread : dev.read sector = some buffer)
      (hmagic : hasMagic buffer = true) (hext : extended buffer = pt :: others)
      (h : Met dev whichPart (extSector relative pt) (extRelative sector relative pt)
        (lastNum sector partNum (partitions buffer))) :
      Met dev whichPart sector relative partNum

instance finiteUInt32 : Finite UInt32 :=
  Finite.of_injective UInt32.toFin fun _ _ h => UInt32.toFin_inj.mp h

theorem find_extended (buffer : List UInt8) :
    (partitions buffer).find? (isExtended ·.sysInd) = (extended buffer).head? :=
  List.head?_filter.symm

theorem isSome_mapM_iff {α β : Type*} {f : α → Option β} {l : List α} :
    (l.mapM f).isSome ↔ ∀ x ∈ l, (f x).isSome := by
  induction l with
  | nil => simp
  | cons x l ih =>
    rw [List.mapM_cons, List.forall_mem_cons, ← ih]
    cases f x with
    | none => simp
    | some y => cases l.mapM f <;> simp

/-- One bound for all elements of a list. -/
theorem exists_forall_mem_of_mono {α : Type*} {P : Nat → α → Prop}
    (hmono : ∀ {n m x}, n ≤ m → P n x → P m x) {l : List α} (h : ∀ x ∈ l, ∃ n, P n x) :
    ∃ n, ∀ x ∈ l, P n x := by
  induction l with
  | nil => exact ⟨0, by simp⟩
  | cons x l ih =>
    obtain ⟨hx, hl⟩ := List.forall_mem_cons.mp h
    obtain ⟨n, hn⟩ := hx
    obtain ⟨m, hm⟩ := ih hl
    exact ⟨max n m, List.forall_mem_cons.mpr ⟨hmono (Nat.le_max_left ..) hn,
      fun y hy => hmono (Nat.le_max_right ..) (hm y hy)⟩⟩

section

variable {dev : BlockDev} {sector relative disksig : UInt32} {partNum : Int} {fuel : Nat}

/-! ### Printing -/

/-- With more fuel the calls have to end. -/
theorem isSome_print_succ_iff :
    (printPartitionExtended dev (fuel + 1) sector relative partNum disksig).isSome ↔
      ∀ buffer, dev.read sector = some buffer → testBlockType buffer = some .mbr →
        ∀ pt ∈ extended buffer, (printPartitionExtended dev fuel (extSector relative pt)
          (extRelative sector relative pt) (lastNum sector partNum (partitions buffer))
          (diskSig sector buffer disksig)).isSome := by
  rw [printPartitionExtended]
  cases dev.read sector with
  | none => simp
  | some buffer =>
    by_cases hmbr : testBlockType buffer = some .mbr
    · simp only [hmbr, ne_eq, not_true_eq_false, if_false, Option.isSome_map, isSome_mapM_iff,
        Option.some.injEq, forall_eq', forall_true_left, extended]
    · simp [hmbr]

theorem isSome_print_mono {fuel' : Nat} (hle : fuel ≤ fuel')
    (h : (printPartitionExtended dev fuel sector relative partNum disksig).isSome) :
    (printPartitionExtended dev fuel' sector relative partNum disksig).isSome := by
  induction fuel generalizing fuel' sector relative partNum disksig with
  | zero => cases h
  | succ fuel ih =>
    cases fuel' with
    | zero => omega
    | succ fuel' =>
      rw [isSome_print_succ_iff] at h ⊢
      exact fun buffer hread hmbr pt hpt =>
        ih (Nat.le_of_succ_le_succ hle) (h buffer hread hmbr pt hpt)

theorem acc_of_print
    (h : (printPartitionExtended dev fuel sector relative partNum disksig).isSome) :
    Acc (fun y x => PrintCalls dev x y) (sector, relative) := by
  induction fuel generalizing sector relative partNum disksig with
  | zero => cases h
  | succ fuel ih =>
    rw [isSome_print_succ_iff] at h
    refine .intro _ fun c' hcall => ?_
    obtain ⟨buffer, hread, hmbr, pt, hpt, rfl⟩ := hcall
    exact ih (h buffer hread hmbr pt hpt)

/-- Fuel for every number and signature. -/
theorem print_of_acc {c : Place} (h : Acc (fun y x => PrintCalls dev x y) c) :
    ∃ fuel, ∀ partNum disksig,
      (printPartitionExtended dev fuel c.1 c.2 partNum disksig).isSome := by
  induction h with
  | intro c _ ih =>
    cases hread : dev.read c.1 with
    | none =>
      refine ⟨1, fun partNum disksig => isSome_print_succ_iff.mpr fun buffer hread' => ?_⟩
      rw [hread] at hread'
      cases hread'
    | some buffer =>
      by_cases hmbr : testBlockType buffer = some .mbr
      · have hcalls : ∀ pt ∈ extended buffer, ∃ fuel, ∀ partNum disksig,
            (printPartitionExtended dev fuel (c.next pt).1 (c.next pt).2 partNum
              disksig).isSome :=
          fun pt hpt => ih (c.next pt) ⟨buffer, hread, hmbr, pt, hpt, rfl⟩
        obtain ⟨fuel, hfuel⟩ := exists_forall_mem_of_mono
          (fun hle h partNum disksig => isSome_print_mono hle (h partNum disksig)) hcalls
        refine ⟨fuel + 1, fun partNum disksig => isSome_print_succ_iff.mpr ?_⟩
        intro buffer' hread' _ pt hpt
        obtain rfl := Option.some.inj (hread.symm.trans hread')
        exact hfuel pt hpt _ _
      · refine ⟨1, fun partNum disksig => isSome_print_succ_iff.mpr ?_⟩
        intro buffer' hread' hmbr'
        obtain rfl := Option.some.inj (hread.symm.trans hread')
        exact absurd hmbr' hmbr

/-! ### Looking one up -/

variable {whichPart : Int} {info : DiskPartition}

/-- With more fuel the call has to end, where there is one. -/
theorem isSome_get_succ_iff :
    (getPartitionInfoExtended dev whichPart info (fuel + 1) sector relative partNum
        disksig).isSome ↔
      ∀ buffer, dev.read sector = some buffer → hasMagic buffer = true →
        getSlots sector whichPart partNum (partitions buffer) = none →
          ∀ pt others, extended buffer = pt :: others →
            (getPartitionInfoExtended dev whichPart info fuel (extSector relative pt)
              (extRelative sector relative pt) (lastNum sector partNum (partitions buffer))
              (diskSig sector buffer disksig)).isSome := by
  rw [getPartitionInfoExtended]
  cases dev.read sector with
  | none => simp
  | some buffer =>
    cases hmagic : hasMagic buffer with
    | false => simp [hmagic]
    | true =>
      cases hslots : getSlots sector whichPart partNum (partitions buffer) with
      | some found => simp [hmagic, hslots]
      | none =>
        have hfind := find_extended buffer
        cases hext : extended buffer with
        | nil =>
          rw [hext, List.head?_nil] at hfind
          by_cases hpbr : testBlockType buffer = some .pbr <;>
            simp [hmagic, hslots, hfind, hext, hpbr]
        | cons pt others =>
          rw [hext, List.head?_cons] at hfind
          simp [hmagic, hslots, hfind, hext]

theorem met_or_acc_of_get
    (h : (getPartitionInfoExtended dev whichPart info fuel sector relative partNum
      disksig).isSome) :
    Met dev whichPart sector relative partNum ∨
      Acc (fun y x => GetCalls dev x y) (sector, relative) := by
  induction fuel generalizing sector relative partNum disksig with
  | zero => cases h
  | succ fuel ih =>
    rw [isSome_get_succ_iff] at h
    by_cases hcalls : ∃ c', GetCalls dev (sector, relative) c'
    · obtain ⟨_, buffer, hread, hmagic, pt, others, hext, rfl⟩ := hcalls
      cases hslots : getSlots sector whichPart partNum (partitions buffer) with
      | some found => exact .inl (.here hread hmagic (Option.isSome_of_mem hslots))
      | none =>
        refine (ih (h buffer hread hmagic hslots pt others hext)).imp
          (.follow hread hmagic hext) fun hacc => .intro _ ?_
        rintro _ ⟨buffer', hread', -, pt', others', hext', rfl⟩
        obtain rfl := Option.some.inj (hread.symm.trans hread')
        obtain ⟨rfl, -⟩ := List.cons.inj (hext.symm.trans hext')
        exact hacc
    · exact .inr (.intro _ fun c' hcall => absurd ⟨c', hcall⟩ hcalls)

theorem get_of_met (info : DiskPartition) (h : Met dev whichPart sector relative partNum) :
    ∃ fuel, ∀ disksig, (getPartitionInfoExtended dev whichPart info fuel sector relative partNum
      disksig).isSome := by
  induction h with
  | here hread _ hfound =>
    refine ⟨1, fun disksig => isSome_get_succ_iff.mpr fun buffer hread' _ hslots => ?_⟩
    obtain rfl := Option.some.inj (hread.symm.trans hread')
    rw [hslots] at hfound
    cases hfound
  | follow hread _ hext _ ih =>
    obtain ⟨fuel, hfuel⟩ := ih
    refine ⟨fuel + 1, fun disksig => isSome_get_succ_iff.mpr ?_⟩
    intro buffer hread' _ _ pt others hext'
    obtain rfl := Option.some.inj (hread.symm.trans hread')
    obtain ⟨rfl, -⟩ := List.cons.inj (hext.symm.trans hext')
    exact hfuel _

theorem get_of_acc {c : Place} (h : Acc (fun y x => GetCalls dev x y) c) :
    ∃ fuel, ∀ whichPart info partNum disksig, (getPartitionInfoExtended dev whichPart info fuel
      c.1 c.2 partNum disksig).isSome := by
  induction h with
  | intro c _ ih =>
    by_cases hcalls : ∃ c', GetCalls dev c c'
    · obtain ⟨_, buffer, hread, hmagic, pt, others, hext, rfl⟩ := hcalls
      obtain ⟨fuel, hfuel⟩ := ih (c.next pt) ⟨buffer, hread, hmagic, pt, others, hext, rfl⟩
      refine ⟨fuel + 1, fun whichPart info partNum disksig => isSome_get_succ_iff.mpr ?_⟩
      intro buffer' hread' _ _ pt' others' hext'
      obtain rfl := Option.some.inj (hread.symm.trans hread')
      obtain ⟨rfl, -⟩ := List.cons.inj (hext.symm.trans hext')
      exact hfuel _ _ _ _
    · refine ⟨1, fun whichPart info partNum disksig => isSome_get_succ_iff.mpr ?_⟩
      intro buffer hread hmagic _ pt others hext
      exact absurd ⟨_, buffer, hread, hmagic, pt, others, hext, rfl⟩ hcalls

end

/-! ### From the MBR -/

/-- The recursion of `print_part_dos` ends. -/
def PrintEnds (dev : BlockDev) : Prop := ∃ fuel, (printPartDos dev fuel).isSome

/-- The recursion of `get_partition_info_dos` ends. -/
def GetEnds (dev : BlockDev) (part : Int) (info : DiskPartition) : Prop :=
  ∃ fuel, (getPartitionInfoDos dev part info fuel).isSome

theorem printEnds_iff (dev : BlockDev) : PrintEnds dev ↔ ¬ReachesCycle (PrintCalls dev) (0, 0) := by
  rw [← acc_iff_not_reachesCycle]
  constructor
  · rintro ⟨fuel, h⟩
    exact acc_of_print h
  · intro h
    obtain ⟨fuel, hfuel⟩ := print_of_acc h
    exact ⟨fuel, hfuel 1 0⟩

theorem getEnds_iff (dev : BlockDev) (part : Int) (info : DiskPartition) :
    GetEnds dev part info ↔ Met dev part 0 0 1 ∨ ¬ReachesCycle (GetCalls dev) (0, 0) := by
  rw [← acc_iff_not_reachesCycle]
  constructor
  · rintro ⟨fuel, h⟩
    exact met_or_acc_of_get h
  · rintro (h | h)
    · obtain ⟨fuel, hfuel⟩ := get_of_met info h
      exact ⟨fuel, hfuel 0⟩
    · obtain ⟨fuel, hfuel⟩ := get_of_acc h
      exact ⟨fuel, hfuel part info 1 0⟩

/-- Both recursions end exactly when no path over extended entries comes back to a place,
but for a lookup whose part is found before. -/
theorem walks_end_iff (dev : BlockDev) (part : Int) (info : DiskPartition) :
    GetEnds dev part info ∧ PrintEnds dev ↔
      (Met dev part 0 0 1 ∨ ¬ReachesCycle (GetCalls dev) (0, 0)) ∧
        ¬ReachesCycle (PrintCalls dev) (0, 0) :=
  and_congr (getEnds_iff dev part info) (printEnds_iff dev)

/-- A table whose first entry is extended and starts at sector 0. -/
def loopTable : List UInt8 :=
  List.replicate 446 0 ++ ([0, 0, 0, 0, 5] ++ (List.replicate 59 0 ++ [0x55, 0xaa]))

def loopDisk : BlockDev where
  ifType := .usb
  dev := 0
  lba := 100
  read := fun _ => some loopTable

theorem extended_loopTable :
    extended loopTable = [⟨0, 5, 0, 0⟩] ∧ hasMagic loopTable = true ∧
      testBlockType loopTable = some .mbr ∧ ∀ pt ∈ partitions loopTable, gettable pt = false := by
  decide +kernel

theorem getSlots_eq_none {sector : UInt32} {whichPart partNum : Int} {pts : List DosPartition}
    (h : ∀ pt ∈ pts, gettable pt = false) : getSlots sector whichPart partNum pts = none := by
  induction pts generalizing partNum with
  | nil => rfl
  | cons pt pts ih =>
    obtain ⟨hpt, hpts⟩ := List.forall_mem_cons.mp h
    rw [getSlots, if_neg fun hfound => Bool.false_ne_true (hpt.symm.trans hfound.1), ih hpts]

theorem not_met_loopDisk {whichPart : Int} {sector relative : UInt32} {partNum : Int} :
    ¬Met loopDisk whichPart sector relative partNum := by
  intro hmet
  induction hmet with
  | here hread _ hslots =>
    obtain rfl := Option.some.inj hread
    rw [getSlots_eq_none extended_loopTable.2.2.2] at hslots
    cases hslots
  | follow _ _ _ _ ih => exact ih

/-- The MBR leads to itself. -/
theorem endless_walks :
    ¬PrintEnds loopDisk ∧ ∀ info, ¬GetEnds loopDisk 5 info := by
  obtain ⟨hext, hmagic, hmbr, -⟩ := extended_loopTable
  rw [printEnds_iff, not_not]
  refine ⟨⟨(0, 0), .refl, .single ⟨loopTable, rfl, hmbr, _, hext ▸ List.mem_cons_self .., rfl⟩⟩,
    fun info => ?_⟩
  rw [getEnds_iff]
  rintro (hmet | hcycle)
  · exact not_met_loopDisk hmet
  · exact hcycle ⟨(0, 0), .refl, .single ⟨loopTable, rfl, hmagic, _, _, hext, rfl⟩⟩

end UBoot.Dos
