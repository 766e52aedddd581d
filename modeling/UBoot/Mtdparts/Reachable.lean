import Mathlib.Data.List.TakeWhile
import UBoot.Mtdparts.Current
import UBoot.Mtdparts.RoundTrip

/-!
# The tables that can be reached

A table starts empty and is changed by reading an `mtdparts` text and by the
commands `add` and `del`. Every partition in it has passed `part_parse` and
`part_validate`, whatever the text was, and every device was found under its
`mtd-id`. This is what reading the table back needs.
-/

namespace UBoot.Mtdparts

open Verification

variable {ids : List MtdIds} {getMtdInfo : MtdType → UInt8 → Option MtdInfo}

/-! ### One device -/

/-- In a sorted list an accepted partition is the only one at offset 0. -/
theorem sortAdd_zero {part : PartInfo} {parts parts' : List PartInfo} {next : Option PartInfo}
    (sorted : KeysSorted (keys parts)) (h : sortAdd part parts = some (parts', next)) :
    ∀ p ∈ parts, ¬(part.offset = 0 ∧ p.offset = 0) := by
  obtain - | ⟨pi, rest⟩ := parts
  · simp
  · rintro p hp ⟨hpart, hzero⟩
    have hle : pi.offset ≤ p.offset := by
      obtain rfl | hp := List.mem_cons.mp hp
      · exact UInt64.le_refl _
      · exact (List.pairwise_cons.mp sorted).1 p.key (List.mem_map_of_mem hp)
    have hpi : pi.offset = 0 := by
      rw [hzero] at hle
      exact UInt64.le_zero_iff.mp hle
    simp [sortAdd, hpart, hpi] at h

theorem oneAtZero_insertKey {k : PartKey} {ks : List PartKey} (h : OneAtZero ks)
    (hk : ∀ x ∈ ks, ¬(k.offset = 0 ∧ x.offset = 0)) : OneAtZero (insertKey k ks) := by
  induction ks with
  | nil => exact List.pairwise_singleton _ _
  | cons x xs ih =>
    obtain ⟨hx, hxs⟩ := oneAtZero_cons.mp h
    rw [insertKey]
    split_ifs
    · exact oneAtZero_cons.mpr ⟨hk, h⟩
    · refine oneAtZero_cons.mpr ⟨?_, ih hxs fun y hy => hk y (List.mem_cons_of_mem _ hy)⟩
      intro y hy
      obtain rfl | hy := mem_insertKey.mp hy
      · exact fun hz => hk x List.mem_cons_self hz.symm
      · exact hx y hy

/-- The pointers of a device are distinct and below `next`. -/
structure PtrsOk (next : Nat) (dev : MtdDevice) : Prop where
  fresh : dev.ptr < next
  partFresh : ∀ p ∈ dev.parts, p.ptr < next
  nodup : (dev.parts.map PartInfo.ptr).Nodup

theorem PtrsOk.mono {next next' : Nat} {dev : MtdDevice} (h : PtrsOk next dev)
    (hle : next ≤ next') : PtrsOk next' dev :=
  ⟨Nat.lt_of_lt_of_le h.fresh hle, fun p hp => Nat.lt_of_lt_of_le (h.partFresh p hp) hle, h.nodup⟩

/-- Adding a partition that was read and validated. -/
theorem DeviceOk.insert {dev : MtdDevice} (h : DeviceOk ids getMtdInfo dev) {part : PartInfo}
    (w : Written part) (v : Valid getMtdInfo dev.id part) {parts : List PartInfo}
    {next : Option PartInfo} (hadd : sortAdd part dev.parts = some (parts, next)) :
    DeviceOk ids getMtdInfo { dev with numParts := dev.numParts + 1, parts := parts } := by
  have hzero := sortAdd_zero h.sorted hadd
  obtain ⟨parts', next', hadd', hkeys⟩ := sortAdd_keys hzero
  obtain ⟨rfl, rfl⟩ : parts' = parts ∧ next' = next := by simpa [hadd] using hadd'.symm
  obtain ⟨front, back, hsplit, hparts, -⟩ := sortAdd_split hadd
  have hmem : ∀ p ∈ parts', p = part ∨ p ∈ dev.parts := by
    intro p hp
    rw [hparts] at hp
    rw [hsplit]
    simp only [List.mem_append, List.mem_cons] at hp ⊢
    tauto
  have hlength : parts'.length = dev.parts.length + 1 := by
    rw [hparts, hsplit]
    simp only [List.length_append, List.length_cons]
    omega
  refine ⟨h.found, h.colon, ?_, ?_, ?_, ?_, ?_⟩
  · simp only [h.count, hlength, UInt16.ofNat_add]
    rfl
  · simp only [hkeys]
    exact h.sorted.insertKey part.key
  · simp only [hkeys]
    refine oneAtZero_insertKey h.zero ?_
    intro k hk
    obtain ⟨p, hp, rfl⟩ := List.mem_map.mp hk
    exact hzero p hp
  · intro p hp
    obtain rfl | hp := hmem p hp
    · exact w
    · exact h.written p hp
  · intro p hp
    obtain rfl | hp := hmem p hp
    · exact v
    · exact h.valid p hp

theorem PtrsOk.insert {n next' : Nat} {dev : MtdDevice} (h : PtrsOk n dev) {part : PartInfo}
    {parts : List PartInfo} {next : Option PartInfo}
    (hadd : sortAdd part dev.parts = some (parts, next)) (hfresh : n ≤ part.ptr)
    (hnext : part.ptr < next') :
    PtrsOk next' { dev with numParts := dev.numParts + 1, parts := parts } := by
  obtain ⟨front, back, hsplit, rfl, -⟩ := sortAdd_split hadd
  have hperm : (front ++ part :: back).Perm (part :: dev.parts) := by
    rw [hsplit]
    exact List.perm_middle
  refine ⟨Nat.lt_trans (Nat.lt_of_lt_of_le h.fresh hfresh) hnext, ?_, ?_⟩
  · intro p hp
    obtain rfl | hp := List.mem_cons.mp (hperm.mem_iff.mp hp)
    · exact hnext
    · exact Nat.lt_trans (Nat.lt_of_lt_of_le (h.partFresh p hp) hfresh) hnext
  · apply (hperm.map PartInfo.ptr).nodup_iff.mpr
    refine List.nodup_cons.mpr ⟨?_, h.nodup⟩
    intro hmem
    obtain ⟨p, hp, hptr⟩ := List.mem_map.mp hmem
    have := h.partFresh p hp
    omega

/-- Building a device from partitions that were read and validated. -/
theorem DeviceOk.addAll {parts : List PartInfo} {n : Nat} {dev dev' : MtdDevice}
    (h : DeviceOk ids getMtdInfo dev) (hptrs : PtrsOk n dev) (w : ∀ p ∈ parts, Written p)
    (v : ∀ p ∈ parts, Valid getMtdInfo dev.id p)
    (hadd : addAll (allocate n parts) dev = some dev') :
    DeviceOk ids getMtdInfo dev' ∧ PtrsOk (n + parts.length) dev' ∧ dev'.id = dev.id ∧
      dev'.ptr = dev.ptr ∧ dev'.parts.length = dev.parts.length + parts.length ∧
      ∀ p ∈ dev'.parts, p ∈ dev.parts ∨ n ≤ p.ptr := by
  induction parts generalizing n dev with
  | nil =>
    obtain rfl : dev = dev' := by simpa [allocate, Mtdparts.addAll] using hadd
    exact ⟨h, hptrs, rfl, rfl, rfl, fun p hp => .inl hp⟩
  | cons part parts ih =>
    simp only [allocate, Mtdparts.addAll] at hadd
    cases hsort : sortAdd { part with ptr := n } dev.parts with
    | none => simp [hsort] at hadd
    | some result =>
      obtain ⟨inserted, next⟩ := result
      simp only [hsort] at hadd
      have wpart : Written { part with ptr := n } :=
        ⟨(w part List.mem_cons_self).name, (w part List.mem_cons_self).flags⟩
      have vpart : Valid getMtdInfo dev.id { part with ptr := n } :=
        (v part List.mem_cons_self).of_eq rfl rfl
      have hstep := h.insert wpart vpart hsort
      have hptrs' : PtrsOk (n + 1)
          { dev with numParts := dev.numParts + 1, parts := inserted } :=
        hptrs.insert hsort (Nat.le_refl n) (Nat.lt_succ_self n)
      obtain ⟨hok, hp, hid, hptr, hlen, hmem⟩ :=
        ih hstep hptrs' (fun p hp => w p (List.mem_cons_of_mem _ hp))
          (fun p hp => v p (List.mem_cons_of_mem _ hp)) hadd
      obtain ⟨front, back, hsplit, hinserted, -⟩ := sortAdd_split hsort
      refine ⟨hok, ?_, hid, hptr, ?_, ?_⟩
      · rw [List.length_cons, show n + (parts.length + 1) = n + 1 + parts.length by omega]
        exact hp
      · rw [hlen]
        simp only [hinserted, hsplit, List.length_append, List.length_cons]
        omega
      · intro p hp
        obtain hin | hle := hmem p hp
        · simp only [hinserted, List.mem_append, List.mem_cons] at hin
          rw [hsplit, List.mem_append]
          obtain hin | rfl | hin := hin
          · exact .inl (.inl hin)
          · exact .inr (Nat.le_refl n)
          · exact .inl (.inr hin)
        · exact .inr (by omega)

/-! ### What the parsers accept -/

theorem partName_written {p rest : List Char} {name : List Char}
    (h : partName p = some (some name, rest)) : name ≠ [] ∧ ')' ∉ name := by
  unfold partName at h
  split at h
  next p =>
    rw [List.span_eq_takeWhile_dropWhile] at h
    split at h
    next => simp at h
    next => simp at h
    next name' c rest' hne heq =>
      obtain ⟨rfl, rfl⟩ : name' = name ∧ rest' = rest := by simpa using h
      obtain ⟨hname, -⟩ := Prod.mk.inj heq
      refine ⟨?_, ?_⟩
      · rintro rfl
        exact hne rfl
      · intro hmem
        rw [← hname] at hmem
        simpa using List.mem_takeWhile_imp hmem
  next => simp at h

theorem partFlags_flags (p : List Char) : (partFlags p).1 = 0 ∨ (partFlags p).1 = 1 := by
  unfold partFlags
  split <;> simp

theorem partParse_written {p rest : List Char} {part : PartInfo}
    (h : partParse p = some (part, rest)) : Written part := by
  unfold partParse at h
  simp only [Option.bind_eq_bind, Option.bind_eq_some_iff, Option.some.injEq, Prod.mk.injEq] at h
  obtain ⟨⟨size, p1⟩, -, ⟨name, p2⟩, hname, p3, -, rfl, -⟩ := h
  refine ⟨?_, partFlags_flags p2⟩
  intro hauto
  cases name with
  | none => simp at hauto
  | some name => exact partName_written hname

/-- Everything the loop reads has been validated. -/
theorem partsLoop_valid {id : MtdIds} {fuel : Nat} {p rest : List Char} {offset : UInt64}
    {parts : List PartInfo} (h : partsLoop getMtdInfo id fuel p offset = some (parts, rest)) :
    ∀ part ∈ parts, Written part ∧ Valid getMtdInfo id part := by
  induction fuel generalizing p offset parts with
  | zero =>
    unfold partsLoop at h
    split at h <;> simp_all
  | succ fuel ih =>
    obtain - | ⟨c, cs⟩ := p
    · obtain rfl : [] = parts := by simpa [partsLoop] using (Prod.mk.inj (Option.some.inj h)).1
      simp
    by_cases hc : c = ';'
    · subst hc
      obtain rfl : [] = parts := (Prod.mk.inj (Option.some.inj h)).1
      simp
    · rw [partsLoop_succ hc] at h
      simp only [Option.bind_eq_some_iff, Option.some.injEq, Prod.mk.injEq] at h
      obtain ⟨⟨part, p1⟩, hparse, part', hvalid, ⟨rest', p2⟩, hloop, rfl, rfl⟩ := h
      intro q hq
      obtain rfl | hq := List.mem_cons.mp hq
      · refine ⟨?_, valid_of_partValidate hvalid⟩
        obtain ⟨rfl, -⟩ := partValidate_eq_some_iff.mp hvalid
        have w := partParse_written hparse
        split_ifs
        · exact ⟨w.name, w.flags⟩
        · exact ⟨w.name, w.flags⟩
      · exact ih hloop q hq

/-- A device that `device_parse` returns is in order, and its pointers are new. -/
theorem deviceParse_ok {s : State} {text rest : List Char} {dev : MtdDevice}
    (h : deviceParse ids getMtdInfo s text = some (dev, rest)) :
    DeviceOk ids getMtdInfo dev ∧ dev.parts ≠ [] ∧ PtrsOk (s.allocated dev).nextPtr dev ∧
      dev.ptr = s.nextPtr ∧ ∀ p ∈ dev.parts, s.nextPtr ≤ p.ptr := by
  unfold deviceParse at h
  rw [List.span_eq_takeWhile_dropWhile] at h
  split at h
  next => simp at h
  next mtdId c p heq =>
    simp only [Option.bind_eq_bind, Option.bind_eq_some_iff] at h
    obtain ⟨id, hid, ⟨parts, p1⟩, hloop, h⟩ := h
    split_ifs at h with hne
    simp only [Option.bind_eq_some_iff, Option.some.injEq, Prod.mk.injEq] at h
    obtain ⟨dev', hadd, rfl, -⟩ := h
    have hvalid := partsLoop_valid hloop
    have hmtdId : id.mtdId = mtdId := by simpa using List.find?_some hid
    have hcolon : ':' ∉ mtdId := by
      rw [← (Prod.mk.inj heq).1]
      intro hmem
      simpa using List.mem_takeWhile_imp hmem
    have hnew : DeviceOk ids getMtdInfo
        { ptr := s.nextPtr, id := id, numParts := 0, parts := [] } :=
      ⟨by rw [hmtdId]; exact hid, by rw [hmtdId]; exact hcolon, rfl, List.Pairwise.nil,
        List.Pairwise.nil, by simp, by simp⟩
    have hptrs : PtrsOk (s.nextPtr + 1)
        { ptr := s.nextPtr, id := id, numParts := 0, parts := [] } :=
      ⟨Nat.lt_succ_self _, by simp, by simp⟩
    obtain ⟨hok, hp, -, hptr, hlen, hmem⟩ := hnew.addAll hptrs
      (fun p hp => (hvalid p hp).1) (fun p hp => (hvalid p hp).2) hadd
    simp only [List.length_nil, Nat.zero_add] at hlen
    refine ⟨hok, ?_, ?_, hptr, ?_⟩
    · intro hnil
      rw [hnil] at hlen
      exact hne (List.length_eq_zero_iff.mp hlen.symm)
    · rw [← hlen] at hp
      exact hp
    · intro p hp
      obtain hin | hle := hmem p hp
      · simp at hin
      · omega

/-! ### Tables -/

/-- What is known of a reachable table. -/
structure TableOk (ids : List MtdIds) (getMtdInfo : MtdType → UInt8 → Option MtdInfo)
    (s : State) : Prop where
  device : ∀ dev ∈ s.devices, DeviceOk ids getMtdInfo dev
  nonempty : ∀ dev ∈ s.devices, dev.parts ≠ []
  numbers : (s.devices.map (·.id.number)).Nodup
  devPtrs : (s.devices.map MtdDevice.ptr).Nodup
  ptrs : ∀ dev ∈ s.devices, PtrsOk s.nextPtr dev

/-- Only the device list and the pointers in use matter. -/
theorem TableOk.of_eq {s t : State} (h : TableOk ids getMtdInfo s) (hdevices : t.devices = s.devices)
    (hnext : t.nextPtr = s.nextPtr) : TableOk ids getMtdInfo t where
  device := by rw [hdevices]; exact h.device
  nonempty := by rw [hdevices]; exact h.nonempty
  numbers := by rw [hdevices]; exact h.numbers
  devPtrs := by rw [hdevices]; exact h.devPtrs
  ptrs := by rw [hdevices, hnext]; exact h.ptrs

theorem tableOk_nil {s : State} (h : s.devices = []) : TableOk ids getMtdInfo s := by
  constructor <;> simp [h]

/-- A device that was just parsed and is not defined yet is put at the end. -/
theorem TableOk.append {s : State} (h : TableOk ids getMtdInfo s) {text rest : List Char}
    {dev : MtdDevice} (hparse : deviceParse ids getMtdInfo s text = some (dev, rest))
    (hfind : deviceFind s dev.id.type dev.id.num = none) :
    TableOk ids getMtdInfo { s.allocated dev with devices := s.devices ++ [dev] } := by
  obtain ⟨hok, hne, hptrs, hptr, -⟩ := deviceParse_ok hparse
  have hmono : s.nextPtr ≤ (s.allocated dev).nextPtr := by
    simp only [State.allocated]
    omega
  refine ⟨?_, ?_, ?_, ?_, ?_⟩
  · intro d hd
    obtain hd | hd := List.mem_append.mp hd
    · exact h.device d hd
    · obtain rfl := List.mem_singleton.mp hd
      exact hok
  · intro d hd
    obtain hd | hd := List.mem_append.mp hd
    · exact h.nonempty d hd
    · obtain rfl := List.mem_singleton.mp hd
      exact hne
  · simp only [List.map_append, List.nodup_append]
    refine ⟨h.numbers, by simp, ?_⟩
    intro a ha b hb hab
    obtain ⟨d, hd, rfl⟩ := List.mem_map.mp ha
    obtain rfl : b = dev.id.number := by simpa using hb
    have := List.find?_eq_none.mp hfind d hd
    simp only [decide_eq_true_eq] at this
    exact this (Prod.mk.inj hab)
  · simp only [List.map_append, List.nodup_append]
    refine ⟨h.devPtrs, by simp, ?_⟩
    intro a ha b hb hab
    obtain ⟨d, hd, rfl⟩ := List.mem_map.mp ha
    have := (h.ptrs d hd).fresh
    simp only [List.map_cons, List.map_nil, List.mem_singleton] at hb
    omega
  · intro d hd
    obtain hd | hd := List.mem_append.mp hd
    · exact (h.ptrs d hd).mono hmono
    · obtain rfl := List.mem_singleton.mp hd
      exact hptrs

/-- A device of the table is replaced by another version of it. -/
theorem TableOk.setDevice {s : State} (h : TableOk ids getMtdInfo s) {dev : MtdDevice}
    (dev' : MtdDevice) {next : Nat} (hdev : dev ∈ s.devices) (hptr : dev'.ptr = dev.ptr)
    (hid : dev'.id = dev.id) (hnext : s.nextPtr ≤ next) (ok : DeviceOk ids getMtdInfo dev') (hne : dev'.parts ≠ [])
    (hptrs : PtrsOk next dev') :
    TableOk ids getMtdInfo { s.setDevice dev' with nextPtr := next } := by
  have hnumbers : (s.setDevice dev').devices.map (·.id.number) = s.devices.map (·.id.number) := by
    simp only [State.setDevice, List.map_map]
    apply List.map_congr_left
    intro d hd
    simp only [Function.comp]
    split_ifs with heq
    · rw [List.inj_on_of_nodup_map h.devPtrs hd hdev (heq.trans hptr), hid]
    · rfl
  refine ⟨?_, ?_, ?_, ?_, ?_⟩
  · intro d hd
    obtain rfl | ⟨hd, -⟩ := mem_setDevice hd
    · exact ok
    · exact h.device d hd
  · intro d hd
    obtain rfl | ⟨hd, -⟩ := mem_setDevice hd
    · exact hne
    · exact h.nonempty d hd
  · simp only [hnumbers]
    exact h.numbers
  · simp only [setDevice_map_ptr]
    exact h.devPtrs
  · intro d hd
    obtain rfl | ⟨hd, -⟩ := mem_setDevice hd
    · exact hptrs
    · exact (h.ptrs d hd).mono hnext

theorem TableOk.devicesLoop {s s' : State} (h : TableOk ids getMtdInfo s) {fuel : Nat}
    {text : List Char} (hloop : devicesLoop ids getMtdInfo fuel s text = some s') :
    TableOk ids getMtdInfo s' := by
  induction fuel generalizing s text with
  | zero =>
    obtain - | ⟨c, cs⟩ := text
    · obtain rfl : s = s' := Option.some.inj hloop
      exact h
    · simp [Mtdparts.devicesLoop] at hloop
  | succ fuel ih =>
    obtain - | ⟨c, cs⟩ := text
    · obtain rfl : s = s' := Option.some.inj hloop
      exact h
    · simp only [Mtdparts.devicesLoop, Option.bind_eq_bind, Option.bind_eq_some_iff] at hloop
      obtain ⟨⟨dev, rest⟩, hparse, hloop⟩ := hloop
      split_ifs at hloop with hfind
      have hnone : deviceFind s dev.id.type dev.id.num = none := by simpa using hfind
      exact ih (h.append hparse hnone) hloop

/-- Reading a text, whatever was defined before. -/
theorem tableOk_mtdpartsInit (s : State) (text : List Char) :
    TableOk ids getMtdInfo (mtdpartsInit ids getMtdInfo s text) := by
  have hempty : TableOk ids getMtdInfo (mtdDevicesInit s) := tableOk_nil rfl
  have hparse : TableOk ids getMtdInfo (parseMtdparts ids getMtdInfo s text).1 := by
    unfold parseMtdparts
    simp only
    split_ifs
    · split
      next => exact hempty
      next s' hloop => exact hempty.devicesLoop hloop
    · exact hempty
  unfold mtdpartsInit
  split
  next s' heq =>
    rw [heq] at hparse
    exact hparse
  next s' heq =>
    rw [heq] at hparse
    exact hparse.of_eq (by simp) (by simp)

theorem TableOk.mtdpartsAdd {s t : State} (h : TableOk ids getMtdInfo s)
    {mtdDev size name : List Char} {ro : Option (List Char)}
    (hadd : mtdpartsAdd ids getMtdInfo s mtdDev size name ro = some t) :
    TableOk ids getMtdInfo t := by
  simp only [Mtdparts.mtdpartsAdd, Option.bind_eq_bind, Option.bind_eq_some_iff] at hadd
  obtain ⟨⟨type, num, r⟩, -, id, -, hadd⟩ := hadd
  split_ifs at hadd
  all_goals
    simp only [Option.bind_eq_some_iff] at hadd
    obtain ⟨⟨dev, rest⟩, hparse, hadd⟩ := hadd
    simp only at hadd
    split at hadd
    next hfind =>
      obtain rfl := Option.some.inj hadd
      have heq := deviceAdd_devices (s.allocated dev) dev
      exact (h.append hparse hfind).of_eq heq.1 heq.2
    next old hfind =>
      obtain ⟨part, hpart, hadd⟩ := Option.bind_eq_some_iff.mp hadd
      obtain ⟨part', hvalid, hsort⟩ := Option.bind_eq_some_iff.mp hadd
      obtain ⟨parts, next, hsort', hnext, hdevices⟩ := partSortAdd_devices hsort
      have hold : old ∈ s.devices := List.mem_of_find?_eq_some hfind
      obtain ⟨hok, -, hptrs, -, hge⟩ := deviceParse_ok hparse
      have hmem : part ∈ dev.parts := List.mem_of_mem_head? hpart
      have hkeep := partValidate_keeps hvalid
      have w : Written part' := by
        obtain ⟨rfl, -⟩ := partValidate_eq_some_iff.mp hvalid
        exact ⟨(hok.written part hmem).name, (hok.written part hmem).flags⟩
      have hmono : s.nextPtr ≤ (s.allocated dev).nextPtr := by
        simp only [State.allocated]
        omega
      have hinsert := (h.device old hold).insert w (valid_of_partValidate hvalid) hsort'
      have hptrs' : PtrsOk (s.allocated dev).nextPtr
          { old with numParts := old.numParts + 1, parts := parts } :=
        (h.ptrs old hold).insert hsort' (by rw [hkeep.1]; exact hge part hmem)
          (by rw [hkeep.1]; exact hptrs.partFresh part hmem)
      have hne : parts ≠ [] := by
        obtain ⟨front, back, -, rfl, -⟩ := sortAdd_split hsort'
        simp
      have hset := h.setDevice { old with numParts := old.numParts + 1, parts := parts } hold rfl
        rfl hmono hinsert hne hptrs'
      exact hset.of_eq hdevices hnext

theorem TableOk.deviceDel {s : State} (h : TableOk ids getMtdInfo s) (dev : MtdDevice) :
    TableOk ids getMtdInfo (deviceDel s dev) := by
  obtain ⟨hdevices, hnext⟩ := deviceDel_devices s dev
  have hsub : (s.devices.filter (·.ptr ≠ dev.ptr)).Sublist s.devices := List.filter_sublist
  have hfiltered : TableOk ids getMtdInfo
      { s with devices := s.devices.filter (·.ptr ≠ dev.ptr) } :=
    ⟨fun d hd => h.device d (hsub.subset hd), fun d hd => h.nonempty d (hsub.subset hd),
      h.numbers.sublist (hsub.map _), h.devPtrs.sublist (hsub.map _),
      fun d hd => h.ptrs d (hsub.subset hd)⟩
  exact hfiltered.of_eq hdevices hnext

/-- Taking one partition out of several. -/
theorem DeviceOk.remove {dev : MtdDevice} (h : DeviceOk ids getMtdInfo dev)
    {front back : List PartInfo} {part : PartInfo} (hsplit : dev.parts = front ++ part :: back) :
    DeviceOk ids getMtdInfo { dev with numParts := dev.numParts - 1, parts := front ++ back } := by
  have hsub : (front ++ back).Sublist dev.parts := by
    rw [hsplit]
    exact List.Sublist.append_left (List.sublist_cons_self part back) front
  refine ⟨h.found, h.colon, ?_, h.sorted.sublist (hsub.map _), h.zero.sublist (hsub.map _),
    fun p hp => h.written p (hsub.subset hp), fun p hp => h.valid p (hsub.subset hp)⟩
  have hlength : dev.parts.length = (front ++ back).length + 1 := by
    rw [hsplit]
    simp only [List.length_append, List.length_cons]
    omega
  simp only [h.count, hlength, UInt16.ofNat_add]
  exact UInt16.add_sub_cancel _ _

theorem TableOk.partDel {s : State} (h : TableOk ids getMtdInfo s) {dev : MtdDevice}
    {part : PartInfo} (hdev : dev ∈ s.devices) (hpart : part ∈ dev.parts) :
    TableOk ids getMtdInfo (partDel s dev part) := by
  by_cases hnum : dev.numParts = 1
  · have heq : Mtdparts.partDel s dev part = Mtdparts.deviceDel s dev := by
      simp [Mtdparts.partDel, hnum]
    rw [heq]
    exact h.deviceDel dev
  obtain ⟨front, back, hsplit⟩ := List.append_of_mem hpart
  have hptrs := h.ptrs dev hdev
  have hnodup := hptrs.nodup
  rw [hsplit] at hnodup
  obtain ⟨hnext, hdevices⟩ := partDel_devices s part hnum
  rw [hsplit, filter_ptr_ne hnodup] at hdevices
  have hsub : (front ++ back).Sublist dev.parts := by
    rw [hsplit]
    exact List.Sublist.append_left (List.sublist_cons_self part back) front
  have hne : front ++ back ≠ [] := by
    intro hnil
    obtain ⟨rfl, rfl⟩ := List.append_eq_nil_iff.mp hnil
    have hcount := (h.device dev hdev).count
    rw [hsplit] at hcount
    exact hnum hcount
  have hset := h.setDevice { dev with numParts := dev.numParts - 1, parts := front ++ back } hdev
    rfl rfl (Nat.le_refl _) ((h.device dev hdev).remove hsplit) hne
    ⟨hptrs.fresh, fun p hp => hptrs.partFresh p (hsub.subset hp), hptrs.nodup.sublist (hsub.map _)⟩
  exact hset.of_eq hdevices hnext

theorem findDevAndPart_mem {s : State} {id : List Char} {dev : MtdDevice} {pnum : UInt8}
    {part : PartInfo} (h : findDevAndPart s id = some (dev, pnum, part)) :
    dev ∈ s.devices ∧ part ∈ dev.parts := by
  unfold findDevAndPart at h
  simp only at h
  split at h
  next found hnamed =>
    obtain rfl : found = (dev, pnum, part) := Option.some.inj h
    obtain ⟨d, hd, hmap⟩ := List.exists_of_findSome?_eq_some hnamed
    obtain ⟨⟨n, p⟩, hname, heq⟩ := Option.map_eq_some_iff.mp hmap
    obtain ⟨rfl, rfl, rfl⟩ : d = dev ∧ n = pnum ∧ p = part := by simpa using heq
    obtain ⟨i, hi, -⟩ := findName_spec hname
    exact ⟨hd, List.mem_of_getElem? hi⟩
  next =>
    split at h
    next =>
      split_ifs at h
      obtain ⟨d, hd, hmap⟩ := Option.bind_eq_some_iff.mp h
      obtain ⟨q, hinfo, heq⟩ := Option.map_eq_some_iff.mp hmap
      simp only [Prod.mk.injEq] at heq
      obtain ⟨rfl, -, rfl⟩ := heq
      unfold mtdPartInfo at hinfo
      split_ifs at hinfo
      exact ⟨List.mem_of_find?_eq_some hd, List.mem_of_getElem? hinfo⟩
    next => simp at h

/-! ### Runs -/

/-- The commands that change the table. A changed `mtdparts` variable is read
before the next command. -/
inductive Cmd where
  | read (mtdparts : List Char)
  | add (mtdDev size name : List Char) (ro : Option (List Char))
  | del (id : List Char)
  deriving DecidableEq, Repr

/-- One command; a command that fails leaves the table as it was. -/
def State.exec (ids : List MtdIds) (getMtdInfo : MtdType → UInt8 → Option MtdInfo) (s : State) :
    Cmd → State
  | .read text => mtdpartsInit ids getMtdInfo s text
  | .add mtdDev size name ro => (mtdpartsAdd ids getMtdInfo s mtdDev size name ro).getD s
  | .del id => (deletePartition s id).getD s

theorem TableOk.exec {s : State} (h : TableOk ids getMtdInfo s) (cmd : Cmd) :
    TableOk ids getMtdInfo (s.exec ids getMtdInfo cmd) := by
  cases cmd with
  | read text => exact tableOk_mtdpartsInit s text
  | add mtdDev size name ro =>
    rw [State.exec]
    cases hadd : Mtdparts.mtdpartsAdd ids getMtdInfo s mtdDev size name ro with
    | none => exact h
    | some t => exact h.mtdpartsAdd hadd
  | del id =>
    rw [State.exec, deletePartition]
    cases hfind : findDevAndPart s id with
    | none => exact h
    | some found =>
      obtain ⟨dev, pnum, part⟩ := found
      obtain ⟨hdev, hpart⟩ := findDevAndPart_mem hfind
      exact h.partDel hdev hpart

theorem TableOk.run {s : State} (h : TableOk ids getMtdInfo s) (cmds : List Cmd) :
    TableOk ids getMtdInfo (run (State.exec ids getMtdInfo) s cmds) := by
  induction cmds generalizing s with
  | nil => exact h
  | cons cmd cmds ih => exact ih (h.exec cmd)

/-- `MTDPARTS_MAXLEN` -/
def mtdpartsMaxlen : Nat := 512

/-- For every table that can be reached and whose text fits the buffer, reading
the text gives the table back exactly when its sizes can be read and the
partitions at each offset read the same in both directions. -/
theorem read_generated_iff (ids : List MtdIds) (getMtdInfo : MtdType → UInt8 → Option MtdInfo)
    (cmds : List Cmd) (text : List Char)
    (hgen : generateMtdparts (run (State.exec ids getMtdInfo) State.init cmds).devices
      mtdpartsMaxlen = some text) :
    table (parseMtdparts ids getMtdInfo
        (run (State.exec ids getMtdInfo) State.init cmds) text).1.devices =
      table (run (State.exec ids getMtdInfo) State.init cmds).devices ↔
    ∀ dev ∈ (run (State.exec ids getMtdInfo) State.init cmds).devices, Rereadable dev := by
  have hok : TableOk ids getMtdInfo (run (State.exec ids getMtdInfo) State.init cmds) :=
    (tableOk_nil rfl).run cmds
  generalize Verification.run (State.exec ids getMtdInfo) State.init cmds = s at hgen hok
  by_cases hempty : s.devices = []
  · -- No device: the text is empty, and reading it leaves no device.
    have htext : text = [] := by
      simpa [generateMtdparts, hempty] using hgen.symm
    subst htext
    simp [hempty, parseMtdparts, mtdDevicesInit, table]
  · simp only [generateMtdparts, hempty, if_false] at hgen
    obtain ⟨out, hout, rfl⟩ := Option.map_eq_some_iff.mp hgen
    have hcount : ∀ dev ∈ s.devices, dev.numParts = UInt16.ofNat dev.parts.length :=
      fun dev hdev => (hok.device dev hdev).count
    rw [generateDevices_eq (by simp [mtdpartsMaxlen]) hcount hout]
    exact parseMtdparts_text hok.device hok.nonempty hok.numbers hempty s

/-- Three partitions with a gap, the last one added with the remaining size. -/
theorem read_generated_three :
    generateMtdparts (run (State.exec [nand0] smallBlocks) State.init
        [.read "mtdparts=f:1m(a),2m@4m(b)ro".toList,
          .add "nand0".toList ['-'] ['c'] none]).devices mtdpartsMaxlen =
      some "mtdparts=f:1m(a),2m@4m(b)ro,10m(c)".toList ∧
    (table (parseMtdparts [nand0] smallBlocks (run (State.exec [nand0] smallBlocks) State.init
        [.read "mtdparts=f:1m(a),2m@4m(b)ro".toList, .add "nand0".toList ['-'] ['c'] none])
          "mtdparts=f:1m(a),2m@4m(b)ro,10m(c)".toList).1.devices =
      table (run (State.exec [nand0] smallBlocks) State.init
        [.read "mtdparts=f:1m(a),2m@4m(b)ro".toList,
          .add "nand0".toList ['-'] ['c'] none]).devices ↔
    ∀ dev ∈ (run (State.exec [nand0] smallBlocks) State.init
        [.read "mtdparts=f:1m(a),2m@4m(b)ro".toList,
          .add "nand0".toList ['-'] ['c'] none]).devices, Rereadable dev) :=
  ⟨by decide, read_generated_iff [nand0] smallBlocks
    [.read "mtdparts=f:1m(a),2m@4m(b)ro".toList, .add "nand0".toList ['-'] ['c'] none]
    "mtdparts=f:1m(a),2m@4m(b)ro,10m(c)".toList (by decide)⟩

/-- Two partitions at one offset come back in the other order. -/
theorem read_generated_turned :
    ¬∀ (ids : List MtdIds) (getMtdInfo : MtdType → UInt8 → Option MtdInfo) (cmds : List Cmd)
      (text : List Char),
      generateMtdparts (run (State.exec ids getMtdInfo) State.init cmds).devices
        mtdpartsMaxlen = some text →
      table (parseMtdparts ids getMtdInfo
          (run (State.exec ids getMtdInfo) State.init cmds) text).1.devices =
        table (run (State.exec ids getMtdInfo) State.init cmds).devices := by
  intro h
  have := h [nand0] smallBlocks [.read "mtdparts=f:1m@1m(a),1m@1m(b)".toList]
    "mtdparts=f:1m@1m(b),1m@1m(a)".toList (by decide)
  exact absurd this (by decide)

end UBoot.Mtdparts
