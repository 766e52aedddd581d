import UBoot.Mtdparts.Table
import UBoot.Mtdparts.Text
import UBoot.Verification.Run

/-!
# Writing `mtdparts` and reading it again

The text that `generate_mtdparts` writes gives back the table, except for two
things. `part_sort_add` puts a partition in front of those at the same offset,
so that each reading turns the order of such partitions round. And a partition
that took a remaining size below `MIN_PART_SIZE` is written with that size,
which `part_parse` refuses.
-/

namespace UBoot.Mtdparts

open Verification

/-! ### The order in which a list is read -/

/-- `part_sort_add` on what is compared of the partitions. -/
def insertKey (k : PartKey) : List PartKey → List PartKey
  | [] => [k]
  | x :: xs => if k.offset ≤ x.offset then k :: x :: xs else x :: insertKey k xs

/-- The order in which a list of definitions ends up. -/
def readOrder (keys acc : List PartKey) : List PartKey :=
  keys.foldl (fun acc k => insertKey k acc) acc

def KeysSorted (keys : List PartKey) : Prop :=
  keys.Pairwise fun a b => a.offset ≤ b.offset

/-- At most one partition starts at offset 0. -/
def OneAtZero (keys : List PartKey) : Prop :=
  keys.Pairwise fun a b => ¬(a.offset = 0 ∧ b.offset = 0)

/-- The partitions at one offset. -/
def keysAt (offset : UInt64) (keys : List PartKey) : List PartKey :=
  keys.filter (·.offset = offset)

theorem mem_insertKey {k x : PartKey} {keys : List PartKey} :
    x ∈ insertKey k keys ↔ x = k ∨ x ∈ keys := by
  induction keys with
  | nil => simp [insertKey]
  | cons y ys ih =>
    rw [insertKey]
    split_ifs
    · simp
    · simp [ih, or_left_comm]

theorem KeysSorted.insertKey {keys : List PartKey} (sorted : KeysSorted keys) (k : PartKey) :
    KeysSorted (insertKey k keys) := by
  induction keys with
  | nil => exact List.pairwise_singleton _ _
  | cons x xs ih =>
    obtain ⟨hx, hxs⟩ := List.pairwise_cons.mp sorted
    rw [Mtdparts.insertKey]
    split_ifs with hle
    · refine List.pairwise_cons.mpr ⟨?_, sorted⟩
      intro y hy
      obtain rfl | hy := List.mem_cons.mp hy
      · exact hle
      · exact UInt64.le_trans hle (hx y hy)
    · refine List.pairwise_cons.mpr ⟨?_, ih hxs⟩
      intro y hy
      obtain rfl | hy := mem_insertKey.mp hy
      · exact UInt64.le_of_lt (UInt64.not_le.mp hle)
      · exact hx y hy

/-- A new partition goes in front of those at its offset. -/
theorem KeysSorted.keysAt_insertKey {keys : List PartKey} (sorted : KeysSorted keys) (k : PartKey)
    (o : UInt64) :
    keysAt o (Mtdparts.insertKey k keys) =
      if k.offset = o then k :: keysAt o keys else keysAt o keys := by
  induction keys with
  | nil =>
    split_ifs with ho <;> simp [Mtdparts.insertKey, keysAt, ho]
  | cons x xs ih =>
    obtain ⟨hx, hxs⟩ := List.pairwise_cons.mp sorted
    rw [Mtdparts.insertKey]
    split_ifs with hle ho ho
    · simp [keysAt, ho]
    · simp [keysAt, ho]
    · have hne : x.offset ≠ o := fun h => hle (by rw [ho, h]; exact UInt64.le_refl _)
      have := ih hxs
      simp only [ho, if_true] at this
      simpa [keysAt, hne] using this
    · have := ih hxs
      simp only [ho, if_false] at this
      simp only [keysAt, List.filter_cons] at this ⊢
      rw [this]

theorem KeysSorted.readOrder {acc : List PartKey} (sorted : KeysSorted acc) (keys : List PartKey) :
    KeysSorted (readOrder keys acc) := by
  induction keys generalizing acc with
  | nil => exact sorted
  | cons k keys ih => exact ih (sorted.insertKey k)

/-- The partitions at one offset are turned round. -/
theorem KeysSorted.keysAt_readOrder {acc : List PartKey} (sorted : KeysSorted acc)
    (keys : List PartKey) (o : UInt64) :
    keysAt o (Mtdparts.readOrder keys acc) = (keysAt o keys).reverse ++ keysAt o acc := by
  induction keys generalizing acc with
  | nil => simp [Mtdparts.readOrder, keysAt]
  | cons k keys ih =>
    have := ih (sorted.insertKey k)
    simp only [Mtdparts.readOrder, List.foldl_cons] at this ⊢
    rw [this, sorted.keysAt_insertKey]
    by_cases ho : k.offset = o <;> simp [keysAt, ho]

/-- A sorted list is known from its partitions at each offset. -/
theorem KeysSorted.eq_of_keysAt {a b : List PartKey} (ha : KeysSorted a) (hb : KeysSorted b)
    (h : ∀ o, keysAt o a = keysAt o b) : a = b := by
  have hmem : ∀ x, x ∈ a ↔ x ∈ b := by
    intro x
    have : x ∈ keysAt x.offset a ↔ x ∈ keysAt x.offset b := by rw [h]
    simpa [keysAt] using this
  induction a generalizing b with
  | nil =>
    obtain - | ⟨y, ys⟩ := b
    · rfl
    · exact absurd ((hmem y).mpr List.mem_cons_self) (List.not_mem_nil)
  | cons x xs ih =>
    obtain - | ⟨y, ys⟩ := b
    · exact absurd ((hmem x).mp List.mem_cons_self) (List.not_mem_nil)
    obtain ⟨hx, hxs⟩ := List.pairwise_cons.mp ha
    obtain ⟨hy, hys⟩ := List.pairwise_cons.mp hb
    -- Both heads have the least offset.
    have hoff : x.offset = y.offset := by
      apply UInt64.le_antisymm
      · obtain heq | hin := List.mem_cons.mp ((hmem y).mpr List.mem_cons_self)
        · rw [heq]
          exact UInt64.le_refl _
        · exact hx y hin
      · obtain heq | hin := List.mem_cons.mp ((hmem x).mp List.mem_cons_self)
        · rw [heq]
          exact UInt64.le_refl _
        · exact hy x hin
    have hhead := h x.offset
    simp only [keysAt, List.filter_cons, hoff, decide_true, if_true] at hhead
    obtain ⟨hxy, -⟩ := List.cons.inj hhead
    subst hxy
    have htails : ∀ o, keysAt o xs = keysAt o ys := by
      intro o
      have := h o
      simp only [keysAt, List.filter_cons] at this ⊢
      split_ifs at this
      · exact (List.cons.inj this).2
      · exact this
    have hmem' : ∀ z, z ∈ xs ↔ z ∈ ys := by
      intro z
      have : z ∈ keysAt z.offset xs ↔ z ∈ keysAt z.offset ys := by rw [htails]
      simpa [keysAt] using this
    rw [ih hxs hys htails hmem']

/-- Reading keeps a sorted list exactly when at each offset the partitions read
the same in both directions. -/
theorem KeysSorted.readOrder_eq_iff {keys : List PartKey} (sorted : KeysSorted keys) :
    Mtdparts.readOrder keys [] = keys ↔ ∀ o, (keysAt o keys).reverse = keysAt o keys := by
  have hnil : KeysSorted [] := List.Pairwise.nil
  have hat : ∀ o, keysAt o (Mtdparts.readOrder keys []) = (keysAt o keys).reverse := by
    intro o
    rw [hnil.keysAt_readOrder]
    simp [keysAt]
  constructor
  · intro h o
    rw [← hat, h]
  · intro h
    apply (hnil.readOrder keys).eq_of_keysAt sorted
    intro o
    rw [hat, h]

/-! ### Reading a device back -/

def keys (parts : List PartInfo) : List PartKey := parts.map PartInfo.key

/-- `part_sort_add` refuses a second partition at offset 0, and otherwise
inserts. -/
theorem sortAdd_keys {part : PartInfo} {parts : List PartInfo}
    (hzero : ∀ p ∈ parts, ¬(part.offset = 0 ∧ p.offset = 0)) :
    ∃ parts' next, sortAdd part parts = some (parts', next) ∧
      keys parts' = insertKey part.key (keys parts) := by
  induction parts with
  | nil => exact ⟨[part], none, rfl, rfl⟩
  | cons pi rest ih =>
    have hpi := hzero pi List.mem_cons_self
    obtain ⟨parts', next, hsort, hkeys⟩ := ih fun p hp => hzero p (List.mem_cons_of_mem _ hp)
    have hnot : ¬(part.offset = pi.offset ∧ pi.offset = 0) := by
      rintro ⟨heq, hz⟩
      exact hpi ⟨heq.trans hz, hz⟩
    rw [sortAdd, if_neg hnot]
    split_ifs with hle
    · exact ⟨_, _, rfl, by simp [keys, insertKey, PartInfo.key, hle]⟩
    · refine ⟨pi :: parts', next, by rw [hsort]; rfl, ?_⟩
      have hle' : ¬part.key.offset ≤ pi.key.offset := hle
      simp only [keys, List.map_cons, insertKey, hle', if_false] at hkeys ⊢
      rw [hkeys]

theorem oneAtZero_cons {k : PartKey} {ks : List PartKey} :
    OneAtZero (k :: ks) ↔ (∀ x ∈ ks, ¬(k.offset = 0 ∧ x.offset = 0)) ∧ OneAtZero ks :=
  List.pairwise_cons

/-- Adding the partitions of a table in turn. -/
theorem addAll_keys (parts : List PartInfo) (dev : MtdDevice)
    (hzero : OneAtZero (keys parts)) (hnew : ∀ p ∈ parts, ∀ q ∈ dev.parts,
      ¬(p.offset = 0 ∧ q.offset = 0)) :
    ∃ dev', addAll parts dev = some dev' ∧ dev'.id = dev.id ∧
      keys dev'.parts = readOrder (keys parts) (keys dev.parts) := by
  induction parts generalizing dev with
  | nil => exact ⟨dev, rfl, rfl, rfl⟩
  | cons part parts ih =>
    obtain ⟨hfirst, hrest⟩ := oneAtZero_cons.mp hzero
    obtain ⟨parts', next, hsort, hkeys⟩ :=
      sortAdd_keys (hnew part List.mem_cons_self)
    have hnew' : ∀ p ∈ parts, ∀ q ∈ parts', ¬(p.offset = 0 ∧ q.offset = 0) := by
      intro p hp q hq
      obtain ⟨front, back, hsplit, rfl, -⟩ := sortAdd_split hsort
      have hmem : q = part ∨ q ∈ dev.parts := by
        rw [hsplit]
        simp only [List.mem_append, List.mem_cons] at hq ⊢
        tauto
      obtain rfl | hq := hmem
      · rintro ⟨h1, h2⟩
        exact hfirst p.key (List.mem_map_of_mem hp) ⟨h2, h1⟩
      · exact hnew p (List.mem_cons_of_mem _ hp) q hq
    obtain ⟨dev', hadd, hid, hread⟩ :=
      ih { dev with numParts := dev.numParts + 1, parts := parts' } hrest hnew'
    refine ⟨dev', ?_, hid, ?_⟩
    · rw [addAll, hsort]
      exact hadd
    · rw [hread]
      simp only [hkeys]
      rfl

theorem allocate_keys (n : Nat) (parts : List PartInfo) : keys (allocate n parts) = keys parts := by
  induction parts generalizing n with
  | nil => rfl
  | cons part parts ih =>
    have := ih (n + 1)
    simp only [keys, allocate, List.map_cons] at this ⊢
    rw [this]
    rfl

variable {ids : List MtdIds} {getMtdInfo : MtdType → UInt8 → Option MtdInfo}

/-- What is known of a device of a reachable table, apart from pointers. -/
structure DeviceOk (ids : List MtdIds) (getMtdInfo : MtdType → UInt8 → Option MtdInfo)
    (dev : MtdDevice) : Prop where
  found : ids.find? (·.mtdId = dev.id.mtdId) = some dev.id
  colon : ':' ∉ dev.id.mtdId
  count : dev.numParts = UInt16.ofNat dev.parts.length
  sorted : KeysSorted (keys dev.parts)
  zero : OneAtZero (keys dev.parts)
  written : ∀ p ∈ dev.parts, Written p
  valid : ∀ p ∈ dev.parts, Valid getMtdInfo dev.id p

theorem partsText_length {parts : List PartInfo} (prev : Option PartInfo) :
    parts.length ≤ (partsText prev parts).length := by
  have hpart : ∀ prev part, 0 < (partText prev part).length := by
    intro prev part
    obtain ⟨d, cs, hcs, -⟩ := memsizeFormat_head part.size
    simp [partText, hcs]
  induction parts generalizing prev with
  | nil => simp
  | cons part rest ih =>
    have h := hpart prev part
    obtain - | ⟨next, rest⟩ := rest
    · simpa [partsText, Nat.succ_le_iff] using h
    · have := ih (some part)
      simp only [partsText, List.length_append, List.length_cons] at this ⊢
      omega

theorem DeviceOk.deviceParse {dev : MtdDevice} (h : DeviceOk ids getMtdInfo dev)
    (hne : dev.parts ≠ []) {s : State} (hnew : deviceFind s dev.id.type dev.id.num = none)
    {tail : List Char} (htail : DeviceEnds tail) :
    (SizesReadable dev.parts → ∃ dev', dev'.id = dev.id ∧
      keys dev'.parts = readOrder (keys dev.parts) [] ∧
      deviceParse ids getMtdInfo s
        (dev.id.mtdId ++ ':' :: (partsText none dev.parts ++ tail)) = some (dev', tail.drop 1)) ∧
    (¬SizesReadable dev.parts →
      deviceParse ids getMtdInfo s
        (dev.id.mtdId ++ ':' :: (partsText none dev.parts ++ tail)) = none) := by
  have hpos : ∀ c ∈ dev.id.mtdId, decide (c ≠ ':') = true := by
    intro c hc
    simpa using fun heq : c = ':' => h.colon (heq ▸ hc)
  have hspan : (dev.id.mtdId ++ ':' :: (partsText none dev.parts ++ tail)).span (· ≠ ':') =
      (dev.id.mtdId, ':' :: (partsText none dev.parts ++ tail)) := by
    rw [List.span_eq_takeWhile_dropWhile, List.takeWhile_append_of_pos hpos,
      List.dropWhile_append_of_pos hpos]
    simp
  have hstart : startOffset s dev.id = endOf none := by
    simp [startOffset, hnew, endOf]
  have hfuel : dev.parts.length ≤ (partsText none dev.parts ++ tail).length := by
    rw [List.length_append]
    exact Nat.le_trans (partsText_length none) (Nat.le_add_right _ _)
  obtain ⟨hread, hfail⟩ :=
    partsLoop_partsText hne h.written h.valid none htail hfuel
  unfold Mtdparts.deviceParse
  simp only [hspan, Option.bind_eq_bind, h.found, Option.bind_some, hstart]
  constructor
  · intro hreadable
    obtain ⟨read, hkeys, hloop⟩ := hread hreadable
    have hkeys' : keys (allocate (s.nextPtr + 1) read) = keys dev.parts := by
      rw [allocate_keys]
      exact hkeys
    obtain ⟨dev', hadd, hid, hparts⟩ := addAll_keys (allocate (s.nextPtr + 1) read)
      { ptr := s.nextPtr, id := dev.id, numParts := 0, parts := [] }
      (by rw [hkeys']; exact h.zero) (by simp)
    have hread_ne : read ≠ [] := by
      rintro rfl
      exact hne (List.map_eq_nil_iff.mp hkeys.symm)
    refine ⟨dev', hid, ?_, ?_⟩
    · rw [hparts, hkeys']
      rfl
    · simp only [hloop, Option.bind_some, hread_ne, if_false, hadd]
  · intro hnot
    simp only [hfail hnot, Option.bind_none]

/-! ### Reading the table back -/

/-- What is compared of a table: the devices in order, and for each one its
partitions in order. -/
def table (devices : List MtdDevice) : List (MtdIds × List PartKey) :=
  devices.map fun dev => (dev.id, keys dev.parts)

/-- The numbers by which `device_find` tells devices apart. -/
def MtdIds.number (id : MtdIds) : MtdType × UInt8 := (id.type, id.num)

theorem deviceFind_eq_none {s : State} {id : MtdIds}
    (h : ∀ dev ∈ s.devices, dev.id.number ≠ id.number) : deviceFind s id.type id.num = none := by
  apply List.find?_eq_none.mpr
  intro dev hdev hfound
  simp only [decide_eq_true_eq] at hfound
  exact h dev hdev (Prod.ext hfound.1 hfound.2)

theorem devicesLoop_text {devices : List MtdDevice} (ok : ∀ dev ∈ devices, DeviceOk ids getMtdInfo dev)
    (hne : ∀ dev ∈ devices, dev.parts ≠ []) (s : State)
    (hnodup : (devices.map (·.id.number)).Nodup)
    (hnew : ∀ d ∈ s.devices, ∀ dev ∈ devices, d.id.number ≠ dev.id.number) {fuel : Nat}
    (hfuel : devices.length ≤ fuel) :
    ((∀ dev ∈ devices, SizesReadable dev.parts) →
      ∃ s', devicesLoop ids getMtdInfo fuel s (devicesText devices) = some s' ∧
        table s'.devices = table s.devices ++
          devices.map fun dev => (dev.id, readOrder (keys dev.parts) [])) ∧
    (¬(∀ dev ∈ devices, SizesReadable dev.parts) →
      devicesLoop ids getMtdInfo fuel s (devicesText devices) = none) := by
  induction devices generalizing s fuel with
  | nil =>
    refine ⟨fun _ => ⟨s, ?_, by simp⟩, fun h => absurd (by simp) h⟩
    cases fuel <;> rfl
  | cons dev rest ih =>
    obtain - | fuel := fuel
    · simp at hfuel
    have okdev := ok dev List.mem_cons_self
    obtain ⟨hnodup_dev, hnodup_rest⟩ := List.nodup_cons.mp hnodup
    have hfind := deviceFind_eq_none fun d hd => hnew d hd dev List.mem_cons_self
    -- The text of the device, and what is left behind it.
    obtain ⟨tail, htail, htext, hdrop⟩ : ∃ tail, DeviceEnds tail ∧
        devicesText (dev :: rest) = dev.id.mtdId ++ ':' :: (partsText none dev.parts ++ tail) ∧
        tail.drop 1 = devicesText rest := by
      obtain - | ⟨next, rest⟩ := rest
      · exact ⟨[], .inl rfl, by simp [devicesText], rfl⟩
      · exact ⟨_, .inr ⟨_, rfl⟩, rfl, rfl⟩
    obtain ⟨hread, hfail⟩ :=
      okdev.deviceParse (hne dev List.mem_cons_self) hfind htail
    have hcons : ∃ c cs, devicesText (dev :: rest) = c :: cs := by
      rw [htext]
      cases dev.id.mtdId <;> simp
    obtain ⟨c, cs, hcons⟩ := hcons
    have hloop : devicesLoop ids getMtdInfo (fuel + 1) s (devicesText (dev :: rest)) =
        (deviceParse ids getMtdInfo s (devicesText (dev :: rest))).bind fun r =>
          if (deviceFind s r.1.id.type r.1.id.num).isSome then none
          else devicesLoop ids getMtdInfo fuel
            { s.allocated r.1 with devices := s.devices ++ [r.1] } r.2 := by
      rw [hcons, devicesLoop]
      · rfl
      · simp
    rw [hloop, htext]
    by_cases hreadable : SizesReadable dev.parts
    · obtain ⟨dev', hid, hkeys, hparse⟩ := hread hreadable
      have hnew' : ∀ d ∈ s.devices ++ [dev'], ∀ d' ∈ rest, d.id.number ≠ d'.id.number := by
        intro d hd d' hd'
        obtain hd | hd := List.mem_append.mp hd
        · exact hnew d hd d' (List.mem_cons_of_mem _ hd')
        · obtain rfl := List.mem_singleton.mp hd
          rw [hid]
          exact fun heq => hnodup_dev (List.mem_map.mpr ⟨d', hd', heq.symm⟩)
      obtain ⟨hrest, hrest_fail⟩ := ih (fun d hd => ok d (List.mem_cons_of_mem _ hd))
        (fun d hd => hne d (List.mem_cons_of_mem _ hd))
        { s.allocated dev' with devices := s.devices ++ [dev'] } hnodup_rest hnew'
        (Nat.le_of_succ_le_succ hfuel)
      rw [hparse]
      simp only [Option.bind_some, hid, hfind, Option.isSome_none, Bool.false_eq_true, if_false,
        hdrop]
      constructor
      · intro hall
        obtain ⟨s', hs', htable⟩ := hrest fun d hd => hall d (List.mem_cons_of_mem _ hd)
        refine ⟨s', hs', ?_⟩
        rw [htable]
        simp [table, hid, hkeys]
      · intro hnot
        apply hrest_fail
        intro hall
        apply hnot
        intro d hd
        obtain rfl | hd := List.mem_cons.mp hd
        · exact hreadable
        · exact hall d hd
    · rw [hfail hreadable]
      exact ⟨fun hall => absurd (hall dev List.mem_cons_self) hreadable, fun _ => rfl⟩

theorem devicesText_length (devices : List MtdDevice) :
    devices.length ≤ (devicesText devices).length := by
  induction devices with
  | nil => simp
  | cons dev rest ih =>
    obtain - | ⟨next, rest⟩ := rest
    · simp [devicesText]
      omega
    · simp only [devicesText, List.length_append, List.length_cons] at ih ⊢
      omega

/-- The partitions of a device can be written and read again: their sizes pass
the checks of `part_parse`, and at each offset they read the same in both
directions. -/
def Rereadable (dev : MtdDevice) : Prop :=
  SizesReadable dev.parts ∧ ∀ o, (keysAt o (keys dev.parts)).reverse = keysAt o (keys dev.parts)

/-- The table is read back from its text exactly when every device can be read
again. -/
theorem parseMtdparts_text {devices : List MtdDevice}
    (ok : ∀ dev ∈ devices, DeviceOk ids getMtdInfo dev) (hne : ∀ dev ∈ devices, dev.parts ≠ [])
    (hnodup : (devices.map (·.id.number)).Nodup) (hdevices : devices ≠ []) (s : State) :
    table (parseMtdparts ids getMtdInfo s ("mtdparts=".toList ++ devicesText devices)).1.devices =
      table devices ↔ ∀ dev ∈ devices, Rereadable dev := by
  have hlength := devicesText_length devices
  have htext : devicesText devices ≠ [] := by
    intro hnil
    rw [hnil] at hlength
    exact hdevices (List.length_eq_zero_iff.mp (Nat.le_zero.mp hlength))
  have hdrop : ("mtdparts=".toList ++ devicesText devices).drop 9 = devicesText devices := rfl
  have hstart : "mtdparts=".toList.isPrefixOf ("mtdparts=".toList ++ devicesText devices) = true :=
    List.isPrefixOf_iff_prefix.mpr (List.prefix_append _ _)
  obtain ⟨hread, hfail⟩ :=
    devicesLoop_text ok hne (mtdDevicesInit s) hnodup (by simp [mtdDevicesInit]) hlength
  unfold parseMtdparts
  simp only [hstart, hdrop, htext, ne_eq, not_false_eq_true, and_self, if_true]
  by_cases hreadable : ∀ dev ∈ devices, SizesReadable dev.parts
  · obtain ⟨s', hs', htable⟩ := hread hreadable
    simp only [hs', htable]
    have hnil : table (mtdDevicesInit s).devices = [] := rfl
    rw [hnil, List.nil_append, table, List.map_inj_left]
    constructor
    · intro h dev hdev
      have heq := h dev hdev
      simp only [Prod.mk.injEq, true_and] at heq
      exact ⟨hreadable dev hdev, (ok dev hdev).sorted.readOrder_eq_iff.mp heq⟩
    · intro h dev hdev
      rw [(ok dev hdev).sorted.readOrder_eq_iff.mpr (h dev hdev).2]
  · simp only [hfail hreadable]
    constructor
    · intro h
      have : devices = [] := List.map_eq_nil_iff.mp h.symm
      exact absurd this hdevices
    · intro h
      exact absurd (fun dev hdev => (h dev hdev).1) hreadable

end UBoot.Mtdparts
