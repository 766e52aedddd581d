import UBoot.Mtdparts.Table
import UBoot.Verification.Run

/-!
# The current partition over a run of `mtdparts` operations

The index of the current partition is kept in step with the list by comparing
offsets. Partitions of one device may share an offset, and `part_del` then
cannot tell those in front of the current one from those behind it. The index
has 8 bits, the count 16.
-/

namespace UBoot.Mtdparts

open Verification

/-- The operations. New objects get fresh pointers. A device is built from its
partitions by `part_sort_add`, as `device_parse` does. -/
inductive Op where
  | partAdd (dev : Nat) (part : PartInfo)
  | partDel (dev part : Nat)
  | deviceAdd (id : MtdIds) (parts : List PartInfo)
  | deviceDel (dev : Nat)
  | chpart (id : List Char)
  deriving DecidableEq, Repr

variable (getMtdInfo : MtdType → UInt8 → Option MtdInfo)

/-- One operation; an operation that fails changes nothing. -/
def State.step (s : State) : Op → State
  | .partAdd dev part =>
    let s' := { s with nextPtr := s.nextPtr + 1 }
    match s.deviceAt dev with
    | none => s
    | some dev => (Mtdparts.partAdd getMtdInfo s' dev { part with ptr := s.nextPtr }).getD s
  | .partDel dev part =>
    match s.deviceAt dev with
    | none => s
    | some dev =>
      match dev.parts.find? (·.ptr = part) with
      | none => s
      | some part => Mtdparts.partDel s dev part
  | .deviceAdd id parts =>
    let s' := { s with nextPtr := s.nextPtr + 1 + parts.length }
    match addAll (allocate (s.nextPtr + 1) parts)
      { ptr := s.nextPtr, id := id, numParts := 0, parts := [] } with
    | none => s
    | some dev => Mtdparts.deviceAdd s' dev
  | .deviceDel dev =>
    match s.deviceAt dev with
    | none => s
    | some dev => Mtdparts.deviceDel s dev
  | .chpart id => Mtdparts.chpart s id

/-- The operation does not run into the index arithmetic: a deleted partition
is not behind the current one at the same offset, and the counters do not
overflow. -/
def OffsetsTell (s : State) : Op → Prop
  | .partAdd ptr part =>
    ∀ dev, s.deviceAt ptr = some dev → dev.parts.length < 65535 ∧
      (s.currentMtdDev = some ptr →
        ∀ curr, s.currentPart = some curr → part.offset ≤ curr.offset →
          s.currentMtdPartnum ≠ 255)
  | .partDel ptr partPtr =>
    s.currentMtdDev = some ptr → ∀ dev, s.deviceAt ptr = some dev →
      ∀ curr, s.currentPart = some curr → ∀ i part, s.currentMtdPartnum.toNat < i →
        dev.parts[i]? = some part → part.ptr = partPtr → part.offset ≠ curr.offset
  | .deviceAdd _ parts => parts.length ≤ 65535
  | .deviceDel _ => True
  | .chpart id =>
    ∀ dev pnum part, findDevAndPart s id = some (dev, pnum, part) → part ∈ dev.parts.take 256

/-- What is asked of every state: where there is a current partition, its
index is in range, the count is right and the list is sorted. -/
def CurrentInRange (s : State) : Prop :=
  ∀ dev, s.currentDevice = some dev → dev.parts ≠ [] →
    s.currentMtdPartnum.toNat < dev.numParts.toNat ∧
      dev.numParts.toNat = dev.parts.length ∧
      dev.parts.Pairwise fun a b => a.offset ≤ b.offset

/-- What is asked of a step from `s` to `s'`: the current partition stays the
current one while it exists, and `chpart` selects the partition it finds. -/
def KeepsCurrent (s : State) (op : Op) (s' : State) : Prop :=
  match op with
  | .chpart id => ∀ dev pnum part, findDevAndPart s id = some (dev, pnum, part) →
      s'.currentPart = some part
  | _ => ∀ part, s.currentPart = some part →
      (∃ dev ∈ s'.devices, part ∈ dev.parts) → s'.currentPart = some part

/-! ### Indices -/

theorem getElem?_insert {α : Type} {front back : List α} {i : Nat} {a x : α}
    (h : (front ++ back)[i]? = some a) :
    (front ++ x :: back)[if front.length ≤ i then i + 1 else i]? = some a := by
  split_ifs with hi
  · rw [List.getElem?_append_right hi] at h
    rw [List.getElem?_append_right (by omega), show i + 1 - front.length = i - front.length + 1 by omega]
    exact h
  · rw [List.getElem?_append_left (by omega)] at h ⊢
    exact h

theorem getElem?_remove {α : Type} {front back : List α} {i : Nat} {a x : α}
    (h : (front ++ x :: back)[i]? = some a) (hi : i ≠ front.length) :
    (front ++ back)[if front.length < i then i - 1 else i]? = some a := by
  split_ifs with hlt
  · rw [List.getElem?_append_right (by omega)] at h ⊢
    rw [show i - front.length = i - 1 - front.length + 1 by omega] at h
    exact h
  · rw [List.getElem?_append_left (by omega)] at h ⊢
    exact h

/-- The comparison of `part_sort_add` tells on which side of the current
partition the new one goes. -/
theorem Sorted.next_le_iff {front back : List PartInfo} {i : Nat} {curr pi part : PartInfo}
    (sorted : Sorted (front ++ back)) (hcurr : (front ++ back)[i]? = some curr)
    (hpi : back.head? = some pi) (hfront : ∀ p ∈ front, p.offset < part.offset)
    (hle : part.offset ≤ pi.offset) :
    pi.offset ≤ curr.offset ↔ front.length ≤ i := by
  constructor
  · intro h
    by_contra hi
    rw [List.getElem?_append_left (by omega)] at hcurr
    have hlt := hfront curr (List.mem_of_getElem? hcurr)
    exact UInt64.not_le.mpr hlt (UInt64.le_trans hle h)
  · intro hi
    rw [List.getElem?_append_right hi] at hcurr
    have hback := List.mem_of_getElem? hcurr
    obtain - | ⟨pi', rest⟩ := back
    · simp at hpi
    · obtain rfl : pi' = pi := by simpa using hpi
      obtain rfl | hmem := List.mem_cons.mp hback
      · exact UInt64.le_refl _
      · exact (List.pairwise_cons.mp (List.pairwise_append.mp sorted).2.1).1 curr hmem

/-- The comparison of `part_del` tells on which side of the current partition
the deleted one was, unless it was behind it at the same offset. -/
theorem Sorted.deleted_le_iff {front back : List PartInfo} {i : Nat} {curr part : PartInfo}
    (sorted : Sorted (front ++ part :: back)) (hcurr : (front ++ part :: back)[i]? = some curr)
    (hi : i ≠ front.length) (hne : i < front.length → part.offset ≠ curr.offset) :
    part.offset ≤ curr.offset ↔ front.length < i := by
  obtain ⟨-, hb, hfb⟩ := List.pairwise_append.mp sorted
  constructor
  · intro h
    by_contra hlt
    have hi' : i < front.length := by omega
    rw [List.getElem?_append_left hi'] at hcurr
    have hle := hfb curr (List.mem_of_getElem? hcurr) part (by simp)
    exact hne hi' (UInt64.le_antisymm h hle)
  · intro h
    rw [List.getElem?_append_right (by omega),
      show i - front.length = i - front.length - 1 + 1 by omega] at hcurr
    exact (List.pairwise_cons.mp hb).1 curr (List.mem_of_getElem? hcurr)

/-! ### The invariant -/

/-- A device in order; all pointers are below `next`. -/
structure DeviceSound (next : Nat) (dev : MtdDevice) : Prop where
  fresh : dev.ptr < next
  partFresh : ∀ p ∈ dev.parts, p.ptr < next
  nodup : (dev.parts.map PartInfo.ptr).Nodup
  count : dev.numParts.toNat = dev.parts.length
  sorted : Sorted dev.parts

/-- The index is in range, or 0 on a device without partitions. -/
def Points (dev : MtdDevice) (partnum : UInt8) : Prop :=
  (dev.parts = [] ∧ partnum = 0) ∨ partnum.toNat < dev.parts.length

/-- The invariant of a run. -/
structure Sound (s : State) : Prop where
  devPtrs : (s.devices.map MtdDevice.ptr).Nodup
  device : ∀ dev ∈ s.devices, DeviceSound s.nextPtr dev
  owner : ∀ d ∈ s.devices, ∀ d' ∈ s.devices, ∀ p ∈ d.parts, p ∈ d'.parts → d = d'
  current : ∀ ptr, s.currentMtdDev = some ptr →
    ∃ dev, s.deviceAt ptr = some dev ∧ Points dev s.currentMtdPartnum

theorem Sound.init : Sound State.init := by
  constructor <;> simp [State.init]

/-- The invariant does not look at the environment variables. -/
theorem Sound.indexPartitions {s : State} (h : Sound s) : Sound (indexPartitions s) where
  devPtrs := by simpa using h.devPtrs
  device := by simpa using h.device
  owner := by simpa using h.owner
  current := by simpa [State.deviceAt] using h.current

theorem Sound.currentSave {s : State} (h : Sound s) : Sound (currentSave s) :=
  Sound.indexPartitions ⟨h.devPtrs, h.device, h.owner, h.current⟩

theorem Sound.deviceAt_iff {s : State} (h : Sound s) {ptr : Nat} {dev : MtdDevice} :
    s.deviceAt ptr = some dev ↔ dev ∈ s.devices ∧ dev.ptr = ptr :=
  deviceAt_eq_some_iff h.devPtrs

/-- With the right count the guard of `mtd_part_info` is the end of the list. -/
theorem DeviceSound.mtdPartInfo {next : Nat} {dev : MtdDevice} (h : DeviceSound next dev)
    (n : Nat) : mtdPartInfo dev n = dev.parts[n]? := by
  unfold Mtdparts.mtdPartInfo
  split_ifs with hn
  · rw [h.count] at hn
    exact (List.getElem?_eq_none hn).symm
  · rfl

theorem Sound.currentPart_iff {s : State} (h : Sound s) {part : PartInfo} :
    s.currentPart = some part ↔ ∃ dev ∈ s.devices, s.currentMtdDev = some dev.ptr ∧
      dev.parts[s.currentMtdPartnum.toNat]? = some part := by
  constructor
  · intro hpart
    obtain ⟨dev, hdev, hinfo⟩ := Option.bind_eq_some_iff.mp hpart
    obtain ⟨ptr, hptr, hat⟩ := Option.bind_eq_some_iff.mp hdev
    obtain ⟨hmem, rfl⟩ := h.deviceAt_iff.mp hat
    rw [(h.device dev hmem).mtdPartInfo] at hinfo
    exact ⟨dev, hmem, hptr, hinfo⟩
  · rintro ⟨dev, hmem, hptr, hinfo⟩
    have hat := h.deviceAt_iff.mpr ⟨hmem, rfl⟩
    rw [State.currentPart, State.currentDevice, hptr]
    simp only [Option.bind_some, hat]
    rw [(h.device dev hmem).mtdPartInfo]
    exact hinfo

theorem Sound.currentInRange {s : State} (h : Sound s) : CurrentInRange s := by
  intro dev hdev hne
  obtain ⟨ptr, hptr, hat⟩ := Option.bind_eq_some_iff.mp hdev
  have hmem := (h.deviceAt_iff.mp hat).1
  obtain ⟨dev', hat', hpoints⟩ := h.current ptr hptr
  obtain rfl : dev' = dev := by simpa [hat] using hat'.symm
  have hsound := h.device dev' hmem
  refine ⟨?_, hsound.count, hsound.sorted⟩
  obtain ⟨hnil, -⟩ | hlt := hpoints
  · exact absurd hnil hne
  · rw [hsound.count]
    exact hlt

/-! ### Changing one device -/

/-- The state after one device has changed, and with it the current index and
the pointers in use. -/
def State.update (s : State) (dev : MtdDevice) (partnum : UInt8) (next : Nat) : State :=
  { s.setDevice dev with currentMtdPartnum := partnum, nextPtr := next }

/-- Changing one device keeps the invariant if the device stays in order and
does not take partitions of others, and the index stays in range on it. -/
theorem Sound.update {s : State} (h : Sound s) {dev dev' : MtdDevice} {partnum : UInt8}
    {next : Nat} (hdev : dev ∈ s.devices) (hptr : dev'.ptr = dev.ptr) (hnext : s.nextPtr ≤ next)
    (sound' : DeviceSound next dev')
    (owner' : ∀ p ∈ dev'.parts, p ∈ dev.parts ∨ s.nextPtr ≤ p.ptr)
    (hcurr : s.currentMtdDev = some dev.ptr → Points dev' partnum)
    (hother : s.currentMtdDev ≠ some dev.ptr → partnum = s.currentMtdPartnum) :
    Sound (s.update dev' partnum next) := by
  -- A partition of the changed device belongs to no other device.
  have hpart : ∀ d ∈ s.devices, d.ptr ≠ dev'.ptr → ∀ p ∈ dev'.parts, p ∉ d.parts := by
    intro d hd hne p hp hmem
    obtain hold | hfresh := owner' p hp
    · have := h.owner dev hdev d hd p hold hmem
      exact hne (by rw [← this, hptr])
    · have := (h.device d hd).partFresh p hmem
      omega
  have devPtrs' : ((s.setDevice dev').devices.map MtdDevice.ptr).Nodup := by
    rw [setDevice_map_ptr]
    exact h.devPtrs
  refine ⟨devPtrs', ?_, ?_, ?_⟩
  · intro d hd
    obtain rfl | ⟨hd, -⟩ := mem_setDevice hd
    · exact sound'
    · have := h.device d hd
      exact ⟨by have := this.fresh; change _ < next; omega,
        fun p hp => by have := this.partFresh p hp; change _ < next; omega,
        this.nodup, this.count, this.sorted⟩
  · intro d hd d' hd' p hp hp'
    obtain rfl | ⟨hmem, hne⟩ := mem_setDevice hd
    · obtain rfl | ⟨hmem', hne'⟩ := mem_setDevice hd'
      · rfl
      · exact absurd hp' (hpart d' hmem' hne' p hp)
    · obtain rfl | ⟨hmem', hne'⟩ := mem_setDevice hd'
      · exact absurd hp (hpart d hmem hne p hp')
      · exact h.owner d hmem d' hmem' p hp hp'
  · intro ptr hcur
    change s.currentMtdDev = some ptr at hcur
    obtain ⟨d, hat, hpoints⟩ := h.current ptr hcur
    obtain ⟨hd, rfl⟩ := h.deviceAt_iff.mp hat
    by_cases hsame : d.ptr = dev.ptr
    · rw [hsame] at hcur ⊢
      exact ⟨dev', (deviceAt_eq_some_iff devPtrs').mpr ⟨mem_setDevice_self hdev hptr, hptr⟩,
        hcurr hcur⟩
    · have hne : s.currentMtdDev ≠ some dev.ptr := by simp [hcur, hsame]
      have hmem := mem_setDevice_of_ne hd (by rwa [← hptr] at hsame)
      refine ⟨d, (deviceAt_eq_some_iff devPtrs').mpr ⟨hmem, rfl⟩, ?_⟩
      change Points d partnum
      rw [hother hne]
      exact hpoints

/-- The current partition is the same after a change of one device, if the new
index denotes it there. -/
theorem Sound.currentPart_update {s : State} (h : Sound s) {dev dev' : MtdDevice}
    {partnum : UInt8} {next : Nat} {part : PartInfo} (h' : Sound (s.update dev' partnum next))
    (hdev : dev ∈ s.devices) (hptr : dev'.ptr = dev.ptr) (hpart : s.currentPart = some part)
    (hcurr : s.currentMtdDev = some dev.ptr →
      dev.parts[s.currentMtdPartnum.toNat]? = some part → dev'.parts[partnum.toNat]? = some part)
    (hother : s.currentMtdDev ≠ some dev.ptr → partnum = s.currentMtdPartnum) :
    (s.update dev' partnum next).currentPart = some part := by
  obtain ⟨d, hd, hcur, hinfo⟩ := h.currentPart_iff.mp hpart
  apply h'.currentPart_iff.mpr
  by_cases hsame : d.ptr = dev.ptr
  · obtain rfl : d = dev := List.inj_on_of_nodup_map h.devPtrs hd hdev hsame
    exact ⟨dev', mem_setDevice_self hdev hptr, by rw [hptr]; exact hcur, hcurr hcur hinfo⟩
  · have hne : s.currentMtdDev ≠ some dev.ptr := by simp [hcur, hsame]
    refine ⟨d, mem_setDevice_of_ne hd (by rwa [← hptr] at hsame), hcur, ?_⟩
    change d.parts[partnum.toNat]? = some part
    rw [hother hne]
    exact hinfo

/-! ### Adding a partition -/

theorem DeviceSound.insert {next next' : Nat} {dev : MtdDevice} (h : DeviceSound next dev)
    {part : PartInfo} {parts : List PartInfo} {follows : Option PartInfo}
    (hadd : sortAdd part dev.parts = some (parts, follows))
    (hfresh : next ≤ part.ptr) (hnext : part.ptr < next') (hroom : dev.parts.length < 65535) :
    DeviceSound next' { dev with numParts := dev.numParts + 1, parts := parts } := by
  obtain ⟨front, back, hsplit, rfl, hfollows, hfront, hback⟩ := sortAdd_split hadd
  have sorted := h.sorted
  rw [hsplit] at sorted
  have hback' := sorted.le_of_head (by rw [← hfollows]; exact hback)
  have hparts : ∀ p ∈ front ++ back, p.ptr < part.ptr := by
    intro p hp
    have := h.partFresh p (by rw [hsplit]; exact hp)
    omega
  refine ⟨by have := h.fresh; change dev.ptr < next'; omega, ?_, ?_, ?_,
    sorted.insert hfront hback'⟩
  · intro p hp
    obtain hp | hp := List.mem_append.mp hp
    · have := hparts p (List.mem_append_left _ hp)
      omega
    · obtain rfl | hp := List.mem_cons.mp hp
      · exact hnext
      · have := hparts p (List.mem_append_right _ hp)
        omega
  · have hnodup := h.nodup
    rw [hsplit] at hnodup
    have hperm : (front ++ part :: back).Perm (part :: (front ++ back)) := List.perm_middle
    apply (hperm.map PartInfo.ptr).nodup_iff.mpr
    refine List.nodup_cons.mpr ⟨?_, hnodup⟩
    rintro hmem
    obtain ⟨p, hp, hptr⟩ := List.mem_map.mp hmem
    have := hparts p hp
    omega
  · have hcount := h.count
    have hlen : dev.parts.length = front.length + back.length := by rw [hsplit, List.length_append]
    simp only [UInt16.toNat_add, List.length_append, List.length_cons, hcount]
    simp only [UInt16.reduceToNat]
    omega

/-- What `part_sort_add` does: the device changes, and the index moves when the
entry behind the new one is not behind the current one. -/
theorem partSortAdd_cases {s t : State} {dev : MtdDevice} {part : PartInfo}
    (h : partSortAdd s dev part = some t) :
    ∃ parts follows partnum, sortAdd part dev.parts = some (parts, follows) ∧
      (t = indexPartitions (s.update { dev with numParts := dev.numParts + 1, parts := parts }
          partnum s.nextPtr) ∨
        t = currentSave (s.update { dev with numParts := dev.numParts + 1, parts := parts }
          partnum s.nextPtr)) ∧
      ((∃ pi curr, follows = some pi ∧ s.currentMtdDev = some dev.ptr ∧
          mtdPartInfo dev s.currentMtdPartnum.toNat = some curr ∧ pi.offset ≤ curr.offset ∧
          partnum = s.currentMtdPartnum + 1) ∨
        (partnum = s.currentMtdPartnum ∧ ∀ pi curr, follows = some pi →
          s.currentMtdDev = some dev.ptr →
          mtdPartInfo dev s.currentMtdPartnum.toNat = some curr → ¬pi.offset ≤ curr.offset)) := by
  unfold partSortAdd at h
  obtain hadd | ⟨⟨parts, follows⟩, hadd⟩ := Option.eq_none_or_eq_some (sortAdd part dev.parts)
  · simp [hadd] at h
  · simp only [hadd] at h
    by_cases hdev : s.currentMtdDev = some dev.ptr
    · cases follows with
      | none =>
        refine ⟨parts, none, s.currentMtdPartnum, hadd, .inl ?_, .inr ⟨rfl, by simp⟩⟩
        simpa [State.update, State.setDevice] using h.symm
      | some pi =>
        simp only [hdev, if_true] at h
        cases hcurr : mtdPartInfo dev s.currentMtdPartnum.toNat with
        | none =>
          refine ⟨parts, some pi, s.currentMtdPartnum, hadd, .inl ?_, .inr ⟨rfl, by simp⟩⟩
          simpa [hcurr, State.update, State.setDevice] using h.symm
        | some curr =>
          by_cases hle : pi.offset ≤ curr.offset
          · refine ⟨parts, some pi, s.currentMtdPartnum + 1, hadd, .inr ?_,
              .inl ⟨pi, curr, rfl, hdev, rfl, hle, rfl⟩⟩
            simpa [hcurr, hle, State.update, State.setDevice] using h.symm
          · refine ⟨parts, some pi, s.currentMtdPartnum, hadd, .inl ?_, .inr ⟨rfl, ?_⟩⟩
            · simpa [hcurr, hle, State.update, State.setDevice] using h.symm
            · rintro pi' curr' ⟨⟩ - ⟨⟩
              exact hle
    · refine ⟨parts, follows, s.currentMtdPartnum, hadd, .inl ?_, .inr ⟨rfl, ?_⟩⟩
      · cases follows <;> simpa [hdev, State.update, State.setDevice] using h.symm
      · intro pi curr _ hdev'
        exact absurd hdev' hdev

theorem DeviceSound.currentPart_insert {next : Nat} {dev : MtdDevice} (h : DeviceSound next dev)
    {part curr : PartInfo} {parts : List PartInfo} {follows : Option PartInfo} {n partnum : UInt8}
    (hadd : sortAdd part dev.parts = some (parts, follows))
    (hcurr : dev.parts[n.toNat]? = some curr)
    (hmax : part.offset ≤ curr.offset → n ≠ 255)
    (hmove : (∃ pi, follows = some pi ∧ pi.offset ≤ curr.offset ∧ partnum = n + 1) ∨
      (partnum = n ∧ ∀ pi, follows = some pi → ¬pi.offset ≤ curr.offset)) :
    parts[partnum.toNat]? = some curr := by
  obtain ⟨front, back, hsplit, rfl, hfollows, hfront, hback⟩ := sortAdd_split hadd
  have sorted := h.sorted
  rw [hsplit] at hcurr sorted
  have hinsert := getElem?_insert (x := part) hcurr
  obtain ⟨pi, hpi, hle, rfl⟩ | ⟨hn, hnot⟩ := hmove
  · have hside := (sorted.next_le_iff hcurr (by rw [← hfollows, hpi]) hfront (hback pi hpi)).mp hle
    have hne := hmax (UInt64.le_trans (hback pi hpi) hle)
    have hlt := n.toNat_lt
    have hadd1 : (n + 1).toNat = n.toNat + 1 := by
      have : n.toNat ≠ 255 := fun h255 => hne (UInt8.toNat_inj.mp h255)
      rw [UInt8.toNat_add]
      simp only [UInt8.reduceToNat]
      omega
    rw [hadd1]
    simpa [hside] using hinsert
  · have hside : ¬front.length ≤ n.toNat := by
      intro hside
      obtain - | ⟨pi, rest⟩ := back
      · rw [List.append_nil] at hcurr
        have := (List.getElem?_eq_some_iff.mp hcurr).1
        omega
      · have hpi : follows = some pi := hfollows
        exact hnot pi hpi
          ((sorted.next_le_iff hcurr rfl hfront (hback pi hpi)).mpr hside)
    rw [hn]
    simpa [hside] using hinsert

/-- An addition keeps the invariant and the current partition. -/
theorem Sound.partAdd {s t : State} (h : Sound s) {dev : MtdDevice} {part : PartInfo}
    (hdev : dev ∈ s.devices) (hroom : dev.parts.length < 65535)
    (hmax : s.currentMtdDev = some dev.ptr → ∀ curr, s.currentPart = some curr →
      part.offset ≤ curr.offset → s.currentMtdPartnum ≠ 255)
    (hadd : partSortAdd { s with nextPtr := s.nextPtr + 1 } dev { part with ptr := s.nextPtr } =
      some t) :
    Sound t ∧ ∀ curr, s.currentPart = some curr → t.currentPart = some curr := by
  obtain ⟨parts, follows, partnum, hsort, ht, hmove⟩ := partSortAdd_cases hadd
  have hsound := h.device dev hdev
  simp only [hsound.mtdPartInfo] at hmove
  have hsound' : DeviceSound (s.nextPtr + 1)
      { dev with numParts := dev.numParts + 1, parts := parts } :=
    hsound.insert hsort (Nat.le_refl _) (Nat.lt_succ_self _) hroom
  -- On the current device the new index denotes what the old one did.
  have hkeep : s.currentMtdDev = some dev.ptr → ∀ curr,
      dev.parts[s.currentMtdPartnum.toNat]? = some curr → parts[partnum.toNat]? = some curr := by
    intro hcur curr hinfo
    have hpart := h.currentPart_iff.mpr ⟨dev, hdev, hcur, hinfo⟩
    apply hsound.currentPart_insert hsort hinfo (hmax hcur curr hpart)
    obtain ⟨pi, curr', hpi, -, hinfo', hle, rfl⟩ | ⟨hn, hnot⟩ := hmove
    · obtain rfl : curr = curr' := by simpa [hinfo] using hinfo'
      exact .inl ⟨pi, hpi, hle, rfl⟩
    · exact .inr ⟨hn, fun pi hpi => hnot pi curr hpi hcur hinfo⟩
  have hother : s.currentMtdDev ≠ some dev.ptr → partnum = s.currentMtdPartnum := by
    intro hne
    obtain ⟨pi, curr, -, hcur, -⟩ | ⟨hn, -⟩ := hmove
    · exact absurd hcur hne
    · exact hn
  have hpoints : s.currentMtdDev = some dev.ptr →
      Points { dev with numParts := dev.numParts + 1, parts := parts } partnum := by
    intro hcur
    obtain ⟨d, hat, hp⟩ := h.current dev.ptr hcur
    obtain ⟨hd, hptr⟩ := h.deviceAt_iff.mp hat
    obtain rfl : d = dev := List.inj_on_of_nodup_map h.devPtrs hd hdev hptr
    right
    obtain ⟨hnil, hzero⟩ | hlt := hp
    · obtain ⟨front, back, hsplit, rfl, hfollows, -⟩ := sortAdd_split hsort
      obtain ⟨rfl, rfl⟩ := List.append_eq_nil_iff.mp (hsplit.symm.trans hnil)
      obtain ⟨pi, curr, hpi, -⟩ | ⟨hn, -⟩ := hmove
      · simp [hfollows] at hpi
      · rw [hn, hzero]
        simp
    · have hinfo := List.getElem?_eq_getElem hlt
      exact (List.getElem?_eq_some_iff.mp (hkeep hcur _ hinfo)).1
  have howner : ∀ p ∈ parts, p ∈ dev.parts ∨ s.nextPtr ≤ p.ptr := by
    obtain ⟨front, back, hsplit, rfl, -⟩ := sortAdd_split hsort
    intro p hp
    rw [hsplit]
    obtain hp | hp := List.mem_append.mp hp
    · exact .inl (List.mem_append_left _ hp)
    · obtain rfl | hp := List.mem_cons.mp hp
      · exact .inr (Nat.le_refl _)
      · exact .inl (List.mem_append_right _ hp)
  have hptr : ({ dev with numParts := dev.numParts + 1, parts := parts } : MtdDevice).ptr =
      dev.ptr := rfl
  have hupdate := h.update hdev hptr (Nat.le_succ s.nextPtr) hsound' howner hpoints hother
  have hcurrent := fun curr hcurr => h.currentPart_update hupdate hdev hptr hcurr
    (fun hcur hinfo => hkeep hcur curr hinfo) hother
  obtain rfl | rfl := ht
  · refine ⟨hupdate.indexPartitions, ?_⟩
    intro curr hcurr
    rw [indexPartitions_currentPart]
    exact hcurrent curr hcurr
  · refine ⟨hupdate.currentSave, ?_⟩
    intro curr hcurr
    rw [currentSave_currentPart]
    exact hcurrent curr hcurr

/-! ### Deleting -/

theorem DeviceSound.remove {next : Nat} {dev : MtdDevice} (h : DeviceSound next dev)
    {front back : List PartInfo} {part : PartInfo} (hsplit : dev.parts = front ++ part :: back) :
    DeviceSound next { dev with numParts := dev.numParts - 1, parts := front ++ back } := by
  have hsub : (front ++ back).Sublist dev.parts := by
    rw [hsplit]
    exact List.Sublist.append_left (List.sublist_cons_self part back) front
  refine ⟨h.fresh, fun p hp => h.partFresh p (hsub.subset hp), h.nodup.sublist (hsub.map _), ?_,
    h.sorted.sublist hsub⟩
  have hcount := h.count
  have hlt := dev.numParts.toNat_lt
  rw [hsplit] at hcount
  simp only [List.length_append, List.length_cons] at hcount
  rw [UInt16.toNat_sub_of_le]
  · simp only [UInt16.reduceToNat, List.length_append]
    omega
  · rw [UInt16.le_iff_toNat_le]
    simp only [UInt16.reduceToNat]
    omega

/-- Deleting a device keeps the invariant, and the current partition unless it
was on that device. -/
theorem Sound.deviceDel {s : State} (h : Sound s) (dev : MtdDevice) :
    Sound (deviceDel s dev) ∧ ∀ curr, s.currentPart = some curr →
      (∃ d ∈ (deviceDel s dev).devices, curr ∈ d.parts) →
        (deviceDel s dev).currentPart = some curr := by
  have hsub : (s.devices.filter (·.ptr ≠ dev.ptr)).Sublist s.devices := List.filter_sublist
  have hnodup := h.devPtrs.sublist (hsub.map MtdDevice.ptr)
  have hmem : ∀ d ∈ s.devices.filter (·.ptr ≠ dev.ptr), d ∈ s.devices := fun d hd => hsub.subset hd
  unfold Mtdparts.deviceDel
  by_cases hcur : s.currentMtdDev = some dev.ptr
  · -- The current partition was on the device that is gone.
    have hgone : ∀ curr, s.currentPart = some curr →
        ¬∃ d ∈ s.devices.filter (·.ptr ≠ dev.ptr), curr ∈ d.parts := by
      rintro curr hcurr ⟨d, hd, hin⟩
      obtain ⟨d', hd', hcur', hinfo⟩ := h.currentPart_iff.mp hcurr
      have heq := h.owner d (hmem d hd) d' hd' curr hin (List.mem_of_getElem? hinfo)
      have hptr : dev.ptr = d.ptr := by
        rw [heq]
        simpa using hcur.symm.trans hcur'
      simp [hptr] at hd
    simp only [hcur, if_true]
    cases hrest : s.devices.filter (·.ptr ≠ dev.ptr) with
    | nil =>
      refine ⟨Sound.currentSave ⟨by simp, by simp, by simp, by simp⟩, ?_⟩
      simp
    | cons first rest =>
      rw [hrest] at hnodup hmem hgone
      refine ⟨Sound.currentSave ⟨hnodup, fun d hd => h.device d (hmem d hd),
        fun d hd d' hd' => h.owner d (hmem d hd) d' (hmem d' hd'), ?_⟩, ?_⟩
      · intro ptr hptr
        obtain rfl : first.ptr = ptr := by simpa using hptr
        refine ⟨first, by simp [State.deviceAt], ?_⟩
        by_cases hnil : first.parts = []
        · exact .inl ⟨hnil, rfl⟩
        · exact .inr (List.length_pos_iff.mpr hnil)
      · intro curr hcurr hin
        exact absurd (by simpa using hin) (hgone curr hcurr)
  · simp only [hcur, if_false]
    have hsound : Sound { s with devices := s.devices.filter (·.ptr ≠ dev.ptr) } := by
      refine ⟨hnodup, fun d hd => h.device d (hmem d hd),
        fun d hd d' hd' => h.owner d (hmem d hd) d' (hmem d' hd'), ?_⟩
      intro ptr hptr
      obtain ⟨d, hat, hpoints⟩ := h.current ptr hptr
      obtain ⟨hd, rfl⟩ := h.deviceAt_iff.mp hat
      have hne : d.ptr ≠ dev.ptr := fun heq => hcur (heq ▸ hptr)
      exact ⟨d, (deviceAt_eq_some_iff hnodup).mpr ⟨by simp [hd, hne], rfl⟩, hpoints⟩
    refine ⟨hsound.indexPartitions, ?_⟩
    intro curr hcurr _
    rw [indexPartitions_currentPart]
    obtain ⟨d, hd, hcur', hinfo⟩ := h.currentPart_iff.mp hcurr
    have hne : d.ptr ≠ dev.ptr := fun heq => hcur (heq ▸ hcur')
    exact hsound.currentPart_iff.mpr ⟨d, by simp [hd, hne], hcur', hinfo⟩

/-- The index after `part_del` on a device with other partitions. -/
def deletedPartnum (s : State) (dev : MtdDevice) (part : PartInfo) : UInt8 :=
  match (if s.currentMtdDev = some dev.ptr then
    mtdPartInfo dev s.currentMtdPartnum.toNat else none) with
  | none => s.currentMtdPartnum
  | some curr =>
    if curr.ptr = part.ptr then 0
    else if part.offset ≤ curr.offset then s.currentMtdPartnum - 1
    else s.currentMtdPartnum

theorem partDel_eq (s : State) {dev : MtdDevice} (part : PartInfo) (hnum : dev.numParts ≠ 1) :
    ∃ u, u = s.update { dev with
        numParts := dev.numParts - 1, parts := dev.parts.filter (·.ptr ≠ part.ptr) }
          (deletedPartnum s dev part) s.nextPtr ∧
      (partDel s dev part = indexPartitions u ∨ partDel s dev part = currentSave u) := by
  refine ⟨_, rfl, ?_⟩
  unfold partDel deletedPartnum
  simp only [hnum, if_false]
  generalize (if s.currentMtdDev = some dev.ptr then
    mtdPartInfo dev s.currentMtdPartnum.toNat else none) = currPi
  cases currPi with
  | none => exact .inl rfl
  | some curr =>
    simp only
    right
    split_ifs <;> rfl

/-- The current partition keeps its place when another one of its device is
deleted that the offset tells apart. -/
theorem DeviceSound.currentPart_remove {next : Nat} {s : State} {dev : MtdDevice}
    (h : DeviceSound next dev) {front back : List PartInfo} {part curr : PartInfo}
    (hsplit : dev.parts = front ++ part :: back) (hcur : s.currentMtdDev = some dev.ptr)
    (hcurr : dev.parts[s.currentMtdPartnum.toNat]? = some curr) (hne : curr.ptr ≠ part.ptr)
    (htell : s.currentMtdPartnum.toNat < front.length → part.offset ≠ curr.offset) :
    (front ++ back)[(deletedPartnum s dev part).toNat]? = some curr := by
  have hdeleted : deletedPartnum s dev part = if part.offset ≤ curr.offset then
      s.currentMtdPartnum - 1 else s.currentMtdPartnum := by
    simp [deletedPartnum, hcur, h.mtdPartInfo, hcurr, hne]
  have sorted := h.sorted
  rw [hsplit] at hcurr sorted
  have hi : s.currentMtdPartnum.toNat ≠ front.length := by
    intro hi
    rw [hi, List.getElem?_append_right (Nat.le_refl _), Nat.sub_self] at hcurr
    obtain rfl : part = curr := by simpa using hcurr
    exact hne rfl
  have hside := sorted.deleted_le_iff hcurr hi htell
  have hremove := getElem?_remove hcurr hi
  rw [hdeleted]
  by_cases hlt : front.length < s.currentMtdPartnum.toNat
  · rw [if_pos hlt] at hremove
    rw [if_pos (hside.mpr hlt), UInt8.toNat_sub_of_le]
    · exact hremove
    · rw [UInt8.le_iff_toNat_le]
      simp only [UInt8.reduceToNat]
      omega
  · rw [if_neg hlt] at hremove
    rw [if_neg fun hle => hlt (hside.mp hle)]
    exact hremove

/-- A deletion that the offsets tell apart keeps the invariant, and the
current partition unless it is the one deleted. -/
theorem Sound.partDel {s : State} (h : Sound s) {dev : MtdDevice} {part : PartInfo}
    (hdev : dev ∈ s.devices) (hpart : part ∈ dev.parts)
    (htell : s.currentMtdDev = some dev.ptr → ∀ curr, s.currentPart = some curr → ∀ i p,
      s.currentMtdPartnum.toNat < i → dev.parts[i]? = some p → p.ptr = part.ptr →
        p.offset ≠ curr.offset) :
    Sound (partDel s dev part) ∧ ∀ curr, s.currentPart = some curr →
      (∃ d ∈ (partDel s dev part).devices, curr ∈ d.parts) →
        (partDel s dev part).currentPart = some curr := by
  by_cases hnum : dev.numParts = 1
  · have heq : Mtdparts.partDel s dev part = Mtdparts.deviceDel s dev := by
      simp [Mtdparts.partDel, hnum]
    rw [heq]
    exact h.deviceDel dev
  have hsound := h.device dev hdev
  obtain ⟨front, back, hsplit⟩ := List.append_of_mem hpart
  have hnodup := hsound.nodup
  rw [hsplit] at hnodup
  obtain ⟨u, hu, hdel⟩ := partDel_eq s part hnum
  rw [hsplit, filter_ptr_ne hnodup] at hu
  have hkeep : s.currentMtdDev = some dev.ptr → ∀ curr, curr.ptr ≠ part.ptr →
      dev.parts[s.currentMtdPartnum.toNat]? = some curr →
        (front ++ back)[(deletedPartnum s dev part).toNat]? = some curr := by
    intro hcur curr hne hinfo
    refine hsound.currentPart_remove hsplit hcur hinfo hne ?_
    intro hlt
    have hcurr := h.currentPart_iff.mpr ⟨dev, hdev, hcur, hinfo⟩
    exact htell hcur curr hcurr front.length part hlt (by simp [hsplit]) rfl
  have hother : s.currentMtdDev ≠ some dev.ptr →
      deletedPartnum s dev part = s.currentMtdPartnum := by
    intro hne
    simp [deletedPartnum, hne]
  have hpoints : s.currentMtdDev = some dev.ptr →
      Points { dev with numParts := dev.numParts - 1, parts := front ++ back }
        (deletedPartnum s dev part) := by
    intro hcur
    obtain ⟨d, hat, hp⟩ := h.current dev.ptr hcur
    obtain ⟨hd, hptr⟩ := h.deviceAt_iff.mp hat
    obtain rfl : d = dev := List.inj_on_of_nodup_map h.devPtrs hd hdev hptr
    obtain ⟨hnil, -⟩ | hlt := hp
    · simp [hnil] at hpart
    · have hinfo := List.getElem?_eq_getElem hlt
      right
      by_cases hsame : d.parts[s.currentMtdPartnum.toNat].ptr = part.ptr
      · have hzero : deletedPartnum s d part = 0 := by
          simp [deletedPartnum, hcur, hsound.mtdPartInfo, hinfo, hsame]
        rw [hzero]
        simp only [List.length_append]
        have hcount := hsound.count
        rw [hsplit] at hcount
        simp only [List.length_append, List.length_cons] at hcount
        by_contra hlen
        refine hnum (UInt16.toNat_inj.mp ?_)
        simp only [UInt8.reduceToNat] at hlen
        simp only [UInt16.reduceToNat]
        omega
      · exact (List.getElem?_eq_some_iff.mp (hkeep hcur _ hsame hinfo)).1
  have hptr : ({ dev with numParts := dev.numParts - 1, parts := front ++ back } : MtdDevice).ptr =
      dev.ptr := rfl
  have howner : ∀ p ∈ front ++ back, p ∈ dev.parts ∨ s.nextPtr ≤ p.ptr := by
    intro p hp
    left
    rw [hsplit]
    exact (List.Sublist.append_left (List.sublist_cons_self part back) front).subset hp
  have hupdate := h.update hdev hptr (Nat.le_refl _) (hsound.remove hsplit) howner hpoints hother
  rw [← hu] at hupdate
  have hcurrent : ∀ curr, s.currentPart = some curr → (∃ d ∈ u.devices, curr ∈ d.parts) →
      u.currentPart = some curr := by
    rintro curr hcurr ⟨d, hd, hin⟩
    subst hu
    refine h.currentPart_update hupdate hdev hptr hcurr (fun hcur hinfo => ?_) hother
    refine hkeep hcur curr ?_ hinfo
    intro hsame
    have hmem := List.mem_of_getElem? hinfo
    obtain rfl := List.inj_on_of_nodup_map hsound.nodup hmem hpart hsame
    -- The deleted partition is on no device of the new state.
    obtain rfl | ⟨hd, hne⟩ := mem_setDevice hd
    · have hperm : (front ++ curr :: back).Perm (curr :: (front ++ back)) := List.perm_middle
      have hnot := (List.nodup_cons.mp ((hperm.map PartInfo.ptr).nodup_iff.mp hnodup)).1
      exact hnot (List.mem_map_of_mem hin)
    · exact hne (by rw [h.owner d hd dev hdev curr hin hmem])
  obtain hdel | hdel := hdel
  · rw [hdel]
    refine ⟨hupdate.indexPartitions, ?_⟩
    simpa using hcurrent
  · rw [hdel]
    refine ⟨hupdate.currentSave, ?_⟩
    simpa using hcurrent

/-! ### Adding a device -/

theorem DeviceSound.addAll {next : Nat} {parts : List PartInfo} {dev dev' : MtdDevice}
    (h : DeviceSound next dev) (hroom : dev.parts.length + parts.length ≤ 65535)
    (hadd : addAll (allocate next parts) dev = some dev') :
    DeviceSound (next + parts.length) dev' ∧ dev'.ptr = dev.ptr ∧
      ∀ p ∈ dev'.parts, p ∈ dev.parts ∨ next ≤ p.ptr := by
  induction parts generalizing next dev with
  | nil =>
    obtain rfl : dev = dev' := by simpa [allocate, Mtdparts.addAll] using hadd
    exact ⟨h, rfl, fun p hp => .inl hp⟩
  | cons part parts ih =>
    simp only [allocate, Mtdparts.addAll, List.length_cons] at hadd hroom
    cases hsort : sortAdd { part with ptr := next } dev.parts with
    | none => simp [hsort] at hadd
    | some result =>
      obtain ⟨inserted, follows⟩ := result
      simp only [hsort] at hadd
      obtain ⟨front, back, hsplit, hinserted, -⟩ := sortAdd_split hsort
      have hstep : DeviceSound (next + 1)
          { dev with numParts := dev.numParts + 1, parts := inserted } :=
        h.insert hsort (Nat.le_refl _) (Nat.lt_succ_self _) (by omega)
      have hlen : inserted.length = dev.parts.length + 1 := by
        rw [hinserted, hsplit]
        simp only [List.length_append, List.length_cons]
        omega
      obtain ⟨hsound, hptr, hmem⟩ := ih hstep (by simp only; omega) hadd
      refine ⟨?_, hptr, ?_⟩
      · rw [List.length_cons, show next + (parts.length + 1) = next + 1 + parts.length by omega]
        exact hsound
      · intro p hp
        obtain hin | hle := hmem p hp
        · simp only [hinserted, hsplit] at hin ⊢
          obtain hin | hin := List.mem_append.mp hin
          · exact .inl (List.mem_append_left _ hin)
          · obtain rfl | hin := List.mem_cons.mp hin
            · exact .inr (Nat.le_refl _)
            · exact .inl (List.mem_append_right _ hin)
        · exact .inr (by omega)

/-- Adding a device whose pointers are new keeps the invariant and the current
partition. -/
theorem Sound.deviceAdd {s : State} (h : Sound s) {dev : MtdDevice} {next : Nat}
    (hnext : s.nextPtr ≤ next) (hdev : DeviceSound next dev) (hptr : s.nextPtr ≤ dev.ptr)
    (hparts : ∀ p ∈ dev.parts, s.nextPtr ≤ p.ptr) :
    Sound (deviceAdd { s with nextPtr := next } dev) ∧
      ∀ curr, s.currentPart = some curr →
        (deviceAdd { s with nextPtr := next } dev).currentPart = some curr := by
  have hdevPtrs : ((s.devices ++ [dev]).map MtdDevice.ptr).Nodup := by
    rw [List.map_append, List.nodup_append]
    refine ⟨h.devPtrs, by simp, ?_⟩
    intro a ha b hb hab
    obtain ⟨d, hd, rfl⟩ := List.mem_map.mp ha
    have := (h.device d hd).fresh
    simp only [List.map_cons, List.map_nil, List.mem_singleton] at hb
    omega
  have hdevice : ∀ d ∈ s.devices ++ [dev], DeviceSound next d := by
    intro d hd
    obtain hd | hd := List.mem_append.mp hd
    · have := h.device d hd
      exact ⟨Nat.lt_of_lt_of_le this.fresh hnext,
        fun p hp => Nat.lt_of_lt_of_le (this.partFresh p hp) hnext,
        this.nodup, this.count, this.sorted⟩
    · obtain rfl := List.mem_singleton.mp hd
      exact hdev
  have hapart : ∀ d ∈ s.devices, ∀ p ∈ d.parts, p ∉ dev.parts := by
    intro d hd p hp hp'
    have := (h.device d hd).partFresh p hp
    have := hparts p hp'
    omega
  have howner : ∀ d ∈ s.devices ++ [dev], ∀ d' ∈ s.devices ++ [dev], ∀ p ∈ d.parts,
      p ∈ d'.parts → d = d' := by
    intro d hd d' hd' p hp hp'
    simp only [List.mem_append, List.mem_singleton] at hd hd'
    obtain hd | rfl := hd
    · obtain hd' | rfl := hd'
      · exact h.owner d hd d' hd' p hp hp'
      · exact absurd hp' (hapart d hd p hp)
    · obtain hd' | rfl := hd'
      · exact absurd hp (hapart d' hd' p hp')
      · rfl
  unfold Mtdparts.deviceAdd
  by_cases hempty : s.devices = []
  · simp only [hempty, if_true]
    rw [hempty] at hdevPtrs hdevice howner
    refine ⟨Sound.currentSave ⟨hdevPtrs, hdevice, howner, ?_⟩, ?_⟩
    · intro ptr hcur
      obtain rfl : dev.ptr = ptr := by simpa using hcur
      refine ⟨dev, by simp [State.deviceAt], ?_⟩
      by_cases hnil : dev.parts = []
      · exact .inl ⟨hnil, rfl⟩
      · exact .inr (List.length_pos_iff.mpr hnil)
    · intro curr hcurr
      obtain ⟨d, hd, -⟩ := h.currentPart_iff.mp hcurr
      simp [hempty] at hd
  · simp only [hempty, if_false]
    have hsound : Sound { s with nextPtr := next, devices := s.devices ++ [dev] } := by
      refine ⟨hdevPtrs, hdevice, howner, ?_⟩
      intro ptr hcur
      obtain ⟨d, hat, hpoints⟩ := h.current ptr hcur
      obtain ⟨hd, rfl⟩ := h.deviceAt_iff.mp hat
      exact ⟨d, (deviceAt_eq_some_iff hdevPtrs).mpr ⟨List.mem_append_left _ hd, rfl⟩, hpoints⟩
    refine ⟨hsound.indexPartitions, ?_⟩
    intro curr hcurr
    rw [indexPartitions_currentPart]
    obtain ⟨d, hd, hcur, hinfo⟩ := h.currentPart_iff.mp hcurr
    exact hsound.currentPart_iff.mpr ⟨d, List.mem_append_left _ hd, hcur, hinfo⟩

/-! ### Selecting -/

/-- The 8-bit counter of the search by name. -/
theorem findName_spec {id : List Char} {parts : List PartInfo} {n pnum : UInt8} {part : PartInfo}
    (h : findName id parts n = some (pnum, part)) :
    ∃ i, parts[i]? = some part ∧ pnum = n + UInt8.ofNat i := by
  induction parts generalizing n with
  | nil => simp [findName] at h
  | cons p rest ih =>
    rw [findName] at h
    split_ifs at h with hname
    · obtain ⟨rfl, rfl⟩ : n = pnum ∧ p = part := by simpa using h
      exact ⟨0, rfl, by simp⟩
    · obtain ⟨i, hi, rfl⟩ := ih h
      refine ⟨i + 1, hi, ?_⟩
      rw [UInt8.ofNat_add, UInt8.add_assoc, UInt8.add_comm 1]
      rfl

/-- What `find_dev_and_part` finds among the first 256 partitions of a device
is at the index it returns. -/
theorem Sound.findDevAndPart_index {s : State} (h : Sound s) {id : List Char} {dev : MtdDevice}
    {pnum : UInt8} {part : PartInfo} (hfind : findDevAndPart s id = some (dev, pnum, part))
    (hfirst : part ∈ dev.parts.take 256) :
    dev ∈ s.devices ∧ dev.parts[pnum.toNat]? = some part := by
  unfold findDevAndPart at hfind
  simp only at hfind
  split at hfind
  next found hnamed =>
    obtain rfl : found = (dev, pnum, part) := by simpa using hfind
    obtain ⟨d, hd, hmap⟩ := List.exists_of_findSome?_eq_some hnamed
    obtain ⟨⟨n, p⟩, hname, heq⟩ := Option.map_eq_some_iff.mp hmap
    obtain ⟨rfl, rfl, rfl⟩ : d = dev ∧ n = pnum ∧ p = part := by simpa using heq
    refine ⟨hd, ?_⟩
    obtain ⟨i, hi, rfl⟩ := findName_spec hname
    -- The name is found at one index only, and that index is below 256.
    obtain ⟨j, hj, hjp⟩ := List.mem_take_iff_getElem.mp hfirst
    have hjp' : d.parts[j]? = some p := by
      rw [List.getElem?_eq_getElem (by omega), hjp]
    have hnodup := (h.device d hd).nodup.of_map PartInfo.ptr
    have hij : i = j := by
      obtain ⟨hilt, hip⟩ := List.getElem?_eq_some_iff.mp hi
      exact (List.Nodup.getElem_inj_iff hnodup).mp (hip.trans hjp.symm)
    subst hij
    have hlt : i < 256 := by omega
    simpa [Nat.mod_eq_of_lt hlt] using hi
  next hnamed =>
    split at hfind
    next type dnum c p hparse =>
      split_ifs at hfind with hend
      obtain ⟨d, hd, hmap⟩ := Option.bind_eq_some_iff.mp hfind
      obtain ⟨q, hinfo, heq⟩ := Option.map_eq_some_iff.mp hmap
      simp only [Prod.mk.injEq] at heq
      obtain ⟨rfl, rfl, rfl⟩ := heq
      have hmem := List.mem_of_find?_eq_some hd
      rw [(h.device d hmem).mtdPartInfo] at hinfo
      exact ⟨hmem, hinfo⟩
    next => simp at hfind

theorem Sound.chpart {s : State} (h : Sound s) {id : List Char}
    (hfirst : ∀ dev pnum part, findDevAndPart s id = some (dev, pnum, part) →
      part ∈ dev.parts.take 256) :
    Sound (chpart s id) ∧ ∀ dev pnum part, findDevAndPart s id = some (dev, pnum, part) →
      (chpart s id).currentPart = some part := by
  unfold Mtdparts.chpart
  cases hfind : findDevAndPart s id with
  | none => exact ⟨h, by simp⟩
  | some found =>
    obtain ⟨dev, pnum, part⟩ := found
    obtain ⟨hdev, hinfo⟩ := h.findDevAndPart_index hfind (hfirst dev pnum part hfind)
    have hsound : Sound { s with currentMtdDev := some dev.ptr, currentMtdPartnum := pnum } := by
      refine ⟨h.devPtrs, h.device, h.owner, ?_⟩
      intro ptr hcur
      obtain rfl : dev.ptr = ptr := by simpa using hcur
      exact ⟨dev, (deviceAt_eq_some_iff h.devPtrs).mpr ⟨hdev, rfl⟩,
        .inr (List.getElem?_eq_some_iff.mp hinfo).1⟩
    refine ⟨hsound.currentSave, ?_⟩
    rintro dev' pnum' part' hfound
    obtain ⟨rfl, rfl, rfl⟩ : dev = dev' ∧ pnum = pnum' ∧ part = part' := by simpa using hfound
    rw [currentSave_currentPart]
    exact hsound.currentPart_iff.mpr ⟨dev, hdev, rfl, hinfo⟩

/-! ### Runs -/

/-- One operation that the offsets tell apart keeps the invariant and the
current partition. -/
theorem Sound.step {s : State} (h : Sound s) {op : Op} (ok : OffsetsTell s op) :
    Sound (s.step getMtdInfo op) ∧ KeepsCurrent s op (s.step getMtdInfo op) := by
  cases op with
  | partAdd ptr part =>
    simp only [State.step, KeepsCurrent]
    cases hat : s.deviceAt ptr with
    | none => exact ⟨h, fun curr hcurr _ => hcurr⟩
    | some dev =>
      simp only
      obtain ⟨hdev, rfl⟩ := h.deviceAt_iff.mp hat
      obtain ⟨hroom, hmax⟩ := ok dev hat
      cases hadd : Mtdparts.partAdd getMtdInfo { s with nextPtr := s.nextPtr + 1 } dev
        { part with ptr := s.nextPtr } with
      | none => exact ⟨h, fun curr hcurr _ => hcurr⟩
      | some t =>
        obtain ⟨part', hvalid, hsort⟩ := Option.bind_eq_some_iff.mp hadd
        obtain ⟨hptr, hoffset⟩ := partValidate_keeps hvalid
        simp only at hptr
        have hpart' : part' = { part' with ptr := s.nextPtr } := by rw [← hptr]
        rw [hpart'] at hsort
        have hmax' := fun hcur curr hcurr hle => hmax hcur curr hcurr (hoffset ▸ hle)
        obtain ⟨hsound, hkeep⟩ := h.partAdd hdev hroom hmax' hsort
        exact ⟨hsound, fun curr hcurr _ => hkeep curr hcurr⟩
  | partDel ptr partPtr =>
    simp only [State.step, KeepsCurrent]
    cases hat : s.deviceAt ptr with
    | none => exact ⟨h, fun curr hcurr _ => hcurr⟩
    | some dev =>
      simp only
      obtain ⟨hdev, rfl⟩ := h.deviceAt_iff.mp hat
      cases hfind : dev.parts.find? (·.ptr = partPtr) with
      | none => exact ⟨h, fun curr hcurr _ => hcurr⟩
      | some part =>
        have hptr : part.ptr = partPtr := by simpa using List.find?_some hfind
        refine h.partDel hdev (List.mem_of_find?_eq_some hfind) ?_
        intro hcur curr hcurr i p hlt hp hsame
        exact ok hcur dev hat curr hcurr i p hlt hp (hsame.trans hptr)
  | deviceAdd id parts =>
    simp only [State.step, KeepsCurrent]
    cases hadd : addAll (allocate (s.nextPtr + 1) parts)
      { ptr := s.nextPtr, id := id, numParts := 0, parts := [] } with
    | none => exact ⟨h, fun curr hcurr _ => hcurr⟩
    | some dev =>
      have hnew : DeviceSound (s.nextPtr + 1)
          { ptr := s.nextPtr, id := id, numParts := 0, parts := [] } :=
        ⟨Nat.lt_succ_self _, by simp, by simp, rfl, List.Pairwise.nil⟩
      obtain ⟨hsound, hptr, hmem⟩ := hnew.addAll (by simpa [OffsetsTell] using ok) hadd
      have hparts : ∀ p ∈ dev.parts, s.nextPtr ≤ p.ptr := by
        intro p hp
        obtain hin | hle := hmem p hp
        · simp at hin
        · omega
      have hptr' : s.nextPtr ≤ dev.ptr := Nat.le_of_eq hptr.symm
      obtain ⟨hs, hkeep⟩ := h.deviceAdd (by omega) hsound hptr' hparts
      exact ⟨hs, fun curr hcurr _ => hkeep curr hcurr⟩
  | deviceDel ptr =>
    simp only [State.step, KeepsCurrent]
    cases hat : s.deviceAt ptr with
    | none => exact ⟨h, fun curr hcurr _ => hcurr⟩
    | some dev => exact h.deviceDel dev
  | chpart id => exact h.chpart ok

/-- Over every run of operations that the offsets tell apart, the current
index is in range of a sorted and rightly counted list, and each operation
keeps the current partition unless it deletes it. -/
theorem current_partition_kept (ops : List Op)
    (ok : Guarded (State.step getMtdInfo) OffsetsTell State.init ops) :
    CurrentInRange (run (State.step getMtdInfo) State.init ops) ∧
      ∀ first op rest, ops = first ++ op :: rest →
        KeepsCurrent (run (State.step getMtdInfo) State.init first) op
          (run (State.step getMtdInfo) State.init (first ++ [op])) := by
  have keep : ∀ s op, Sound s → OffsetsTell s op → Sound (s.step getMtdInfo op) :=
    fun s op hs hok => (hs.step getMtdInfo hok).1
  refine ⟨(ok.invariant keep Sound.init).currentInRange, ?_⟩
  rintro first op rest rfl
  obtain ⟨hfirst, hop, -⟩ := Guarded.append_iff.mp ok
  rw [run_append, run_cons, run_nil]
  exact ((hfirst.invariant keep Sound.init).step getMtdInfo hop).2

/-- A flash of 16 MiB with blocks of 4 KiB. -/
def nand0 : MtdIds := { type := .nand, num := 0, size := 0x1000000, mtdId := ['f'] }

def smallBlocks (_ : MtdType) (_ : UInt8) : Option MtdInfo :=
  some { erasesize := 0x1000, eraseregions := [] }

/-- A partition of 1 MiB with a name of one letter. -/
def oneMeg (name : Char) (offset : UInt64) : PartInfo where
  ptr := 0
  name := [name]
  autoName := false
  size := 0x100000
  offset := offset
  maskFlags := 0

/-- A partition is selected by its number, another one is added in front of it
and the first one is deleted. -/
theorem current_partition_kept_three :
    CurrentInRange (run (State.step smallBlocks) State.init
      [.deviceAdd nand0 [oneMeg 'a' 0, oneMeg 'b' 0x200000], .chpart "nand0,1".toList,
        .partAdd 1 (oneMeg 'c' 0x100000), .partDel 1 2]) := by
  refine (current_partition_kept smallBlocks
    [.deviceAdd nand0 [oneMeg 'a' 0, oneMeg 'b' 0x200000], .chpart "nand0,1".toList,
      .partAdd 1 (oneMeg 'c' 0x100000), .partDel 1 2] ⟨?_, ?_, ?_, ?_, trivial⟩).1
  · exact Nat.le_of_ble_eq_true rfl
  · intro dev pnum part hfind
    have hfound : findDevAndPart (State.step smallBlocks State.init
        (.deviceAdd nand0 [oneMeg 'a' 0, oneMeg 'b' 0x200000])) "nand0,1".toList =
          some (⟨1, nand0, 2, [{ oneMeg 'a' 0 with ptr := 2 },
            { oneMeg 'b' 0x200000 with ptr := 3 }]⟩, 1, { oneMeg 'b' 0x200000 with ptr := 3 }) := by
      decide
    obtain ⟨rfl, rfl, rfl⟩ : _ ∧ _ ∧ _ := by simpa using hfound.symm.trans hfind
    decide
  · intro dev hdev
    obtain rfl : (⟨1, nand0, 2, [{ oneMeg 'a' 0 with ptr := 2 },
        { oneMeg 'b' 0x200000 with ptr := 3 }]⟩ : MtdDevice) = dev :=
      Option.some.inj (Eq.trans (by decide) hdev)
    exact ⟨by decide, fun _ _ _ _ => by decide⟩
  · intro _ dev hdev curr _ i part hi hpart hptr
    obtain rfl : (⟨1, nand0, 3, [{ oneMeg 'a' 0 with ptr := 2 },
        { oneMeg 'c' 0x100000 with ptr := 4 }, { oneMeg 'b' 0x200000 with ptr := 3 }]⟩ :
          MtdDevice) = dev := Option.some.inj (Eq.trans (by decide) hdev)
    have hi' : 2 < i := Nat.lt_of_le_of_lt (by decide) hi
    obtain ⟨hlt, -⟩ := List.getElem?_eq_some_iff.mp hpart
    simp only [List.length_cons, List.length_nil] at hlt
    omega

/-- Two partitions share an offset and the first of them is the current one.
Deleting the second takes the index from 0 to 255. -/
theorem index_lost_at_equal_offsets :
    ¬∀ (getMtdInfo : MtdType → UInt8 → Option MtdInfo) (ops : List Op),
      CurrentInRange (run (State.step getMtdInfo) State.init ops) ∧
        ∀ first op rest, ops = first ++ op :: rest →
          KeepsCurrent (run (State.step getMtdInfo) State.init first) op
            (run (State.step getMtdInfo) State.init (first ++ [op])) := by
  intro h
  have hrange := (h smallBlocks [.deviceAdd nand0 [oneMeg 'a' 0x100000],
    .partAdd 1 (oneMeg 'b' 0x100000), .chpart ['b'], .partDel 1 2]).1
  have := hrange ⟨1, nand0, 1, [{ oneMeg 'b' 0x100000 with ptr := 3 }]⟩ (by decide) (by decide)
  exact absurd this.1 (by decide)

end UBoot.Mtdparts
