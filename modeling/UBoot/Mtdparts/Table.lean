import Mathlib.Data.List.Nodup
import Mathlib.Tactic.Common
import UBoot.Mtdparts.Basic

/-!
# Lemmas about the tables

Where `part_sort_add` puts a partition, what deleting by pointer takes out, and
what the operations leave alone.
-/

namespace UBoot.Mtdparts

/-! ### Lists sorted by offset -/

def Sorted (parts : List PartInfo) : Prop :=
  parts.Pairwise fun a b => a.offset ≤ b.offset

/-- Where `part_sort_add` puts a partition: in front of the first one that
does not start below it. -/
theorem sortAdd_split {part : PartInfo} {parts parts' : List PartInfo} {next : Option PartInfo}
    (h : sortAdd part parts = some (parts', next)) :
    ∃ front back, parts = front ++ back ∧ parts' = front ++ part :: back ∧
      next = back.head? ∧ (∀ p ∈ front, p.offset < part.offset) ∧
      ∀ pi, next = some pi → part.offset ≤ pi.offset := by
  induction parts generalizing parts' next with
  | nil =>
    obtain ⟨rfl, rfl⟩ : [part] = parts' ∧ none = next := by simpa [sortAdd] using h
    exact ⟨[], [], rfl, rfl, rfl, by simp, by simp⟩
  | cons pi rest ih =>
    rw [sortAdd] at h
    split_ifs at h with hzero hle
    · obtain ⟨rfl, rfl⟩ : part :: pi :: rest = parts' ∧ some pi = next := by simpa using h
      exact ⟨[], pi :: rest, rfl, rfl, rfl, by simp, by simpa using hle⟩
    · obtain ⟨⟨tail, next'⟩, hrest, heq⟩ := Option.map_eq_some_iff.mp h
      obtain ⟨rfl, rfl⟩ : pi :: tail = parts' ∧ next' = next := by simpa using heq
      obtain ⟨front, back, rfl, rfl, hnext, hfront, hback⟩ := ih hrest
      refine ⟨pi :: front, back, rfl, rfl, hnext, ?_, hback⟩
      intro p hp
      obtain rfl | hp := List.mem_cons.mp hp
      · exact UInt64.not_le.mp hle
      · exact hfront p hp

/-- Every partition behind the place of insertion starts at or after it. -/
theorem Sorted.le_of_head {part : PartInfo} {front back : List PartInfo}
    (sorted : Sorted (front ++ back)) (hback : ∀ pi, back.head? = some pi → part.offset ≤ pi.offset) :
    ∀ p ∈ back, part.offset ≤ p.offset := by
  intro p hp
  obtain - | ⟨pi, rest⟩ := back
  · simp at hp
  · have hpi := hback pi rfl
    obtain rfl | hp := List.mem_cons.mp hp
    · exact hpi
    · have sorted' := (List.pairwise_append.mp sorted).2.1
      exact UInt64.le_trans hpi ((List.pairwise_cons.mp sorted').1 p hp)

theorem Sorted.insert {part : PartInfo} {front back : List PartInfo}
    (sorted : Sorted (front ++ back)) (hfront : ∀ p ∈ front, p.offset < part.offset)
    (hback : ∀ p ∈ back, part.offset ≤ p.offset) : Sorted (front ++ part :: back) := by
  obtain ⟨hf, hb, hfb⟩ := List.pairwise_append.mp sorted
  refine List.pairwise_append.mpr ⟨hf, List.pairwise_cons.mpr ⟨hback, hb⟩, ?_⟩
  intro a ha b hb
  obtain rfl | hb := List.mem_cons.mp hb
  · exact UInt64.le_of_lt (hfront a ha)
  · exact hfb a ha b hb

/-- Deleting by pointer takes out exactly the one partition. -/
theorem filter_ptr_ne {front back : List PartInfo} {part : PartInfo}
    (nodup : ((front ++ part :: back).map PartInfo.ptr).Nodup) :
    (front ++ part :: back).filter (·.ptr ≠ part.ptr) = front ++ back := by
  have hperm : (front ++ part :: back).Perm (part :: (front ++ back)) := List.perm_middle
  have hnot := (List.nodup_cons.mp ((hperm.map PartInfo.ptr).nodup_iff.mp nodup)).1
  have hne : ∀ p ∈ front ++ back, p.ptr ≠ part.ptr := by
    intro p hp heq
    exact hnot (heq ▸ List.mem_map_of_mem hp)
  have hfront : front.filter (·.ptr ≠ part.ptr) = front := by
    apply List.filter_eq_self.mpr
    intro p hp
    simpa using hne p (List.mem_append_left _ hp)
  have hback : back.filter (·.ptr ≠ part.ptr) = back := by
    apply List.filter_eq_self.mpr
    intro p hp
    simpa using hne p (List.mem_append_right _ hp)
  rw [List.filter_append, List.filter_cons, hfront, hback]
  simp

/-- Validation only fills in the size. -/
theorem partValidate_keeps {getMtdInfo : MtdType → UInt8 → Option MtdInfo}
    {id : MtdIds} {part part' : PartInfo}
    (h : partValidate getMtdInfo id part = some part') :
    part'.ptr = part.ptr ∧ part'.offset = part.offset := by
  unfold partValidate at h
  simp only at h
  split_ifs at h with hsize
  all_goals
    split at h
    · simp at h
    · split_ifs at h
      obtain rfl := Option.some.inj h
      exact ⟨rfl, rfl⟩

/-! ### Environment variables -/

@[simp] theorem indexPartitions_devices (s : State) :
    (indexPartitions s).devices = s.devices := by
  unfold indexPartitions
  split <;> rfl

@[simp] theorem indexPartitions_currentMtdDev (s : State) :
    (indexPartitions s).currentMtdDev = s.currentMtdDev := by
  unfold indexPartitions
  split <;> rfl

@[simp] theorem indexPartitions_currentMtdPartnum (s : State) :
    (indexPartitions s).currentMtdPartnum = s.currentMtdPartnum := by
  unfold indexPartitions
  split <;> rfl

@[simp] theorem indexPartitions_nextPtr (s : State) :
    (indexPartitions s).nextPtr = s.nextPtr := by
  unfold indexPartitions
  split <;> rfl

@[simp] theorem indexPartitions_currentPart (s : State) :
    (indexPartitions s).currentPart = s.currentPart := by
  have hat : (indexPartitions s).deviceAt = s.deviceAt := by
    funext ptr
    simp [State.deviceAt]
  simp [State.currentPart, State.currentDevice, hat]

@[simp] theorem currentSave_devices (s : State) : (currentSave s).devices = s.devices := by
  simp [currentSave]

@[simp] theorem currentSave_nextPtr (s : State) : (currentSave s).nextPtr = s.nextPtr := by
  simp [currentSave]

@[simp] theorem currentSave_currentPart (s : State) :
    (currentSave s).currentPart = s.currentPart := by
  simp [currentSave]
  rfl

/-! ### Devices by pointer -/

theorem deviceAt_eq_some_iff {s : State} (nodup : (s.devices.map MtdDevice.ptr).Nodup)
    {ptr : Nat} {dev : MtdDevice} :
    s.deviceAt ptr = some dev ↔ dev ∈ s.devices ∧ dev.ptr = ptr := by
  constructor
  · intro hdev
    exact ⟨List.mem_of_find?_eq_some hdev, by simpa using List.find?_some hdev⟩
  · rintro ⟨hmem, rfl⟩
    obtain ⟨dev', hdev'⟩ : ∃ dev', s.deviceAt dev.ptr = some dev' := by
      apply Option.isSome_iff_exists.mp
      exact List.find?_isSome.mpr ⟨dev, hmem, by simp⟩
    have hptr : dev'.ptr = dev.ptr := by simpa using List.find?_some hdev'
    rw [hdev', List.inj_on_of_nodup_map nodup (List.mem_of_find?_eq_some hdev') hmem hptr]

theorem mem_setDevice {s : State} {dev d : MtdDevice} (h : d ∈ (s.setDevice dev).devices) :
    d = dev ∨ (d ∈ s.devices ∧ d.ptr ≠ dev.ptr) := by
  obtain ⟨d', hd', rfl⟩ := List.mem_map.mp h
  split_ifs with hptr
  · exact .inl rfl
  · exact .inr ⟨hd', hptr⟩

theorem setDevice_map_ptr (s : State) (dev : MtdDevice) :
    (s.setDevice dev).devices.map MtdDevice.ptr = s.devices.map MtdDevice.ptr := by
  simp only [State.setDevice, List.map_map]
  apply List.map_congr_left
  intro d _
  simp only [Function.comp]
  split_ifs with h
  · exact h.symm
  · rfl

theorem mem_setDevice_self {s : State} {dev dev' : MtdDevice} (hdev : dev ∈ s.devices)
    (hptr : dev'.ptr = dev.ptr) : dev' ∈ (s.setDevice dev').devices := by
  apply List.mem_map.mpr
  exact ⟨dev, hdev, by simp [hptr]⟩

theorem mem_setDevice_of_ne {s : State} {dev d : MtdDevice} (hd : d ∈ s.devices)
    (hptr : d.ptr ≠ dev.ptr) : d ∈ (s.setDevice dev).devices := by
  apply List.mem_map.mpr
  exact ⟨d, hd, by simp [hptr]⟩

/-! ### The device list after each operation -/

theorem partSortAdd_devices {s t : State} {dev : MtdDevice} {part : PartInfo}
    (h : partSortAdd s dev part = some t) :
    ∃ parts next, sortAdd part dev.parts = some (parts, next) ∧ t.nextPtr = s.nextPtr ∧
      t.devices =
        (s.setDevice { dev with numParts := dev.numParts + 1, parts := parts }).devices := by
  unfold partSortAdd at h
  cases hadd : sortAdd part dev.parts with
  | none => simp [hadd] at h
  | some result =>
    obtain ⟨parts, next⟩ := result
    refine ⟨parts, next, rfl, ?_⟩
    simp only [hadd] at h
    split at h
    · split_ifs at h
      all_goals
        obtain rfl := Option.some.inj h
        simp [State.setDevice]
    · obtain rfl := Option.some.inj h
      simp [State.setDevice]

theorem deviceDel_devices (s : State) (dev : MtdDevice) :
    (deviceDel s dev).devices = s.devices.filter (·.ptr ≠ dev.ptr) ∧
      (deviceDel s dev).nextPtr = s.nextPtr := by
  unfold deviceDel
  simp only
  split
  · split <;> simp
  · simp

theorem partDel_devices (s : State) {dev : MtdDevice} (part : PartInfo) (h : dev.numParts ≠ 1) :
    (partDel s dev part).nextPtr = s.nextPtr ∧
      (partDel s dev part).devices = (s.setDevice { dev with
        numParts := dev.numParts - 1
        parts := dev.parts.filter (·.ptr ≠ part.ptr) }).devices := by
  unfold partDel
  simp only [h, if_false]
  split
  · simp [State.setDevice]
  · split_ifs <;> simp [State.setDevice]

theorem deviceAdd_devices (s : State) (dev : MtdDevice) :
    (deviceAdd s dev).devices = s.devices ++ [dev] ∧ (deviceAdd s dev).nextPtr = s.nextPtr := by
  unfold deviceAdd
  simp only
  split <;> simp

end UBoot.Mtdparts
