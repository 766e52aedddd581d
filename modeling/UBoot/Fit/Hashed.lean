import UBoot.Fit.Signature

/-!
# What a signature of a configuration covers

The first half of `fit_config_check_sig` in `common/image-sig.c`: it counts the names in
`hashed-nodes` by their NULs and collects them with `strlen`, looks for the regions of the
nodes, and adds the region of the string table that `hashed-strings` gives.
-/

namespace UBoot.Fit

open Verification UBoot.Libfdt

/-! ### The list of names -/

/-- The loop that collects the names: the elements of `node_inc` it stores, as offsets into
the property. -/
def nameLoop (prop : Ptr) (propLen : Nat) : Nat → Nat → Option (List Nat)
  | 0, _ => none
  | fuel + 1, name =>
    if name < propLen then do
      let len ← strlenLoop (prop.add name) iterations 0
      let nodeInc ← nameLoop prop propLen fuel (name + len + 1)
      return name :: nodeInc
    else some []

/-- The names are collected: there are no more of them than were counted, and `strlen` reads
nothing behind the property. -/
def Collected (prop : Ptr) (propLen : Nat) : Prop :=
  ∃ nodeInc, nameLoop prop propLen (propLen + 1) 0 = some nodeInc ∧
    nodeInc.length ≤ (prop.bytes propLen).count 0 ∧
    ∀ name ∈ nodeInc, ∃ len, strlenLoop (prop.add name) iterations 0 = some len ∧
      name + len < propLen

section Names

variable {p prop : Ptr} {propLen : Nat}

theorem bytes_split {n k : Nat} (hn : n < k) (hzero : p n = 0) :
    p.bytes k = p.bytes n ++ 0 :: (p.add (n + 1)).bytes (k - (n + 1)) := by
  obtain ⟨d, rfl⟩ : ∃ d, k = n + 1 + d := ⟨k - (n + 1), by omega⟩
  rw [p.bytes_add, p.bytes_succ, hzero, List.append_assoc, List.singleton_append,
    Nat.add_sub_cancel_left]

theorem zero_not_mem_bytes {n : Nat} (h : ∀ j, 0 ≤ j → j < n → p j ≠ 0) : 0 ∉ p.bytes n := by
  intro hmem
  obtain ⟨j, hj, hzero⟩ := List.mem_map.mp hmem
  exact h j (Nat.zero_le j) (List.mem_range.mp hj) hzero

theorem splitOn_bytes {xs as : List UInt8} (hno : 0 ∉ xs) :
    (xs ++ 0 :: as).splitOn 0 = xs :: as.splitOn 0 := by
  apply List.splitOnP_append_cons_of_forall_mem
  · intro x hx
    exact beq_false_of_ne fun hzero => hno (hzero ▸ hx)
  · rfl

/-- From a property that ends with a NUL the loop collects the names that are counted, one
behind the other. -/
theorem nameLoop_spec (hlast : prop (propLen - 1) = 0) (hlen : propLen ≤ 2147483648) {fuel name : Nat}
    (hname : name ≤ propLen) (hfuel : propLen - name < fuel) :
    ∃ nodeInc, nameLoop prop propLen fuel name = some nodeInc ∧
      nodeInc.length = ((prop.add name).bytes (propLen - name)).count 0 ∧
      nodeInc.map (fun nm => cString (prop.add nm)) =
        (((prop.add name).bytes (propLen - name)).splitOn 0).dropLast.map some ∧
      ∀ nm ∈ nodeInc, ∃ len, strlenLoop (prop.add nm) iterations 0 = some len ∧
        nm + len < propLen := by
  induction fuel generalizing name with
  | zero => omega
  | succ fuel ih =>
    rw [nameLoop]
    by_cases hlt : name < propLen
    · have hstop : (prop.add name) (propLen - 1 - name) = 0 := by
        rw [Ptr.add, Nat.add_sub_cancel' (by omega)]
        exact hlast
      have hbound : propLen - 1 - name < 0 + iterations := by
        rw [iterations]
        omega
      obtain ⟨len, hstrlen, hle⟩ := strlenLoop_stops hstop (Nat.zero_le _) hbound
      obtain ⟨-, hzero, hbefore⟩ := strlenLoop_spec hstrlen
      obtain ⟨nodeInc, hloop, hcount, hnames, hinside⟩ :=
        @ih (name + len + 1) (by omega) (by omega)
      have hsplit := bytes_split (show len < propLen - name by omega) hzero
      rw [Ptr.add_add, ← Nat.add_assoc, Nat.sub_sub, ← Nat.add_assoc] at hsplit
      have hno := zero_not_mem_bytes hbefore
      rw [if_pos hlt, hstrlen, Option.bind_eq_bind, Option.bind_some, hloop, hsplit]
      refine ⟨name :: nodeInc, rfl, ?_, ?_, fun nm hmem => ?_⟩
      · rw [List.length_cons, hcount, List.count_append, List.count_cons_self,
          List.count_eq_zero.mpr hno, Nat.zero_add]
      · have hfirst : cString (prop.add name) = some ((prop.add name).bytes len) := by
          rw [cString, hstrlen, Option.map_some]
        have hne : (((prop.add (name + len + 1)).bytes (propLen - (name + len + 1))).splitOn 0) ≠
            [] := List.splitOnP_ne_nil _ _
        rw [List.map_cons, hnames, hfirst, splitOn_bytes hno, List.dropLast_cons_of_ne_nil hne,
          List.map_cons]
      · rcases List.mem_cons.mp hmem with rfl | hmem
        · exact ⟨len, hstrlen, by omega⟩
        · exact hinside nm hmem
    · rw [if_neg hlt, Nat.sub_eq_zero_of_le (by omega)]
      exact ⟨[], rfl, rfl, rfl, by simp⟩

/-- Where all names end in the property, so does the property. -/
theorem last_of_nameLoop {fuel name : Nat} {nodeInc : List Nat}
    (h : nameLoop prop propLen fuel name = some nodeInc) (hname : name < propLen)
    (hinside : ∀ nm ∈ nodeInc, ∃ len, strlenLoop (prop.add nm) iterations 0 = some len ∧
      nm + len < propLen) : prop (propLen - 1) = 0 := by
  induction fuel generalizing name nodeInc with
  | zero => simp [nameLoop] at h
  | succ fuel ih =>
    rw [nameLoop, if_pos hname] at h
    obtain ⟨len, hstrlen, h⟩ := Option.bind_eq_some_iff.mp h
    obtain ⟨rest, hrest, h⟩ := Option.bind_eq_some_iff.mp h
    obtain rfl := Option.some.inj h
    obtain ⟨len', hstrlen', hlt⟩ := hinside name List.mem_cons_self
    obtain rfl := Option.some.inj (hstrlen.symm.trans hstrlen')
    by_cases hend : name + len + 1 = propLen
    · have hzero := (strlenLoop_spec hstrlen).2.1
      rw [← hend, Nat.add_sub_cancel]
      exact hzero
    · exact ih hrest (by omega) fun nm hmem => hinside nm (List.mem_cons_of_mem _ hmem)

theorem collected_iff (hpos : 0 < propLen) (hlen : propLen ≤ 2147483648) :
    Collected prop propLen ↔ prop (propLen - 1) = 0 := by
  constructor
  · rintro ⟨nodeInc, hloop, -, hinside⟩
    exact last_of_nameLoop hloop hpos hinside
  · intro hlast
    obtain ⟨nodeInc, hloop, hcount, -, hinside⟩ :=
      @nameLoop_spec prop propLen hlast hlen _ 0 (Nat.zero_le _) (Nat.lt_succ_self _)
    rw [Nat.sub_zero, Ptr.add_zero] at hcount
    exact ⟨nodeInc, hloop, hcount.le, hinside⟩

/-- The names that are collected are those that `hashedNodes` gives. -/
theorem nameLoop_nodeNames (hlen : propLen ≤ 2147483648) {names : List (List UInt8)}
    (hnames : nodeNames (prop.bytes propLen) = some names) :
    ∃ nodeInc, nameLoop prop propLen (propLen + 1) 0 = some nodeInc ∧
      nodeInc.map (fun name => cString (prop.add name)) = names.map some := by
  rw [nodeNames] at hnames
  split_ifs at hnames with hlast
  obtain rfl := Option.some.inj hnames
  have hzero : prop (propLen - 1) = 0 := by
    cases propLen with
    | zero => cases hlast
    | succ n =>
      rw [Ptr.bytes_succ, List.getLast?_concat] at hlast
      exact Option.some.inj hlast
  obtain ⟨nodeInc, hloop, -, hmap, -⟩ :=
    @nameLoop_spec prop propLen hzero hlen _ 0 (Nat.zero_le _) (Nat.lt_succ_self _)
  rw [Nat.sub_zero, Ptr.add_zero] at hmap
  exact ⟨nodeInc, hloop, hmap⟩

end Names

/-! ### The regions of the structure block -/

/-- The offsets of the structure block are numbers that an `int` can hold, and
`fdt_offset_ptr` checks them. -/
structure BlockChecked (fdt : Fdt) : Prop where
  version : 0x11 ≤ fdtVersion fdt
  size : fdtOffDtStruct fdt + fdtSizeDtStruct fdt + 4 ≤ 2147483648

/-- The regions that the loop has stored begin and end before an offset, and the open region
begins there. -/
structure Covered (base offset : Int) (s : RegionState) : Prop where
  region : ∀ r ∈ s.region, ∃ a b, 0 ≤ a ∧ a ≤ b ∧ b ≤ offset ∧ r = ⟨s32 (base + a), s32 (b - a)⟩
  start : s.start = -1 ∨ 0 ≤ s.start ∧ s.start ≤ offset

section Regions

variable {fdt : Fdt} {inc excProp : List (List UInt8)} {maxRegions pathLen : Nat} {tag : Tag}
  {base offset next stopAt : Int} {included : Bool} {s s' : RegionState}

theorem fdtOffsetPtr_le (h : BlockChecked fdt) {len p : Nat}
    (hp : fdtOffsetPtr fdt offset len = some p) :
    u32 offset ≤ u32 (offset + len) ∧ u32 (offset + len) ≤ fdtSizeDtStruct fdt := by
  rw [fdtOffsetPtr] at hp
  split_ifs at hp with hbad
  have hgood := not_or.mp fun hor => hbad ⟨h.version, hor⟩
  exact ⟨not_lt.mp hgood.1, not_lt.mp hgood.2⟩

theorem s32_range (x : Int) : -2147483648 ≤ s32 x ∧ s32 x < 2147483648 := by
  rw [s32]
  omega

theorem skipName_range {fuel : Nat} {stop : Int} (h : skipName fdt fuel offset = some (some stop)) :
    -2147483648 ≤ stop ∧ stop < 2147483648 := by
  induction fuel generalizing offset with
  | zero => simp [skipName] at h
  | succ fuel ih =>
    rw [skipName] at h
    split at h
    · simp at h
    · split_ifs at h
      · rw [← Option.some.inj (Option.some.inj h)]
        exact s32_range _
      · exact ih h

theorem itemEnd_range {word : Nat} {stop : Int} (h : itemEnd fdt word offset = some (some (tag, stop)))
    (hoffset : -2147483648 ≤ offset ∧ offset < 2147483648) :
    -2147483648 ≤ stop ∧ stop < 2147483648 := by
  rw [itemEnd] at h
  split_ifs at h
  · obtain ⟨found, hfound, h⟩ := Option.bind_eq_some_iff.mp h
    obtain ⟨stop', hstop, h⟩ := Option.map_eq_some_iff.mp (Option.some.inj h)
    rw [← (Prod.mk.inj h).2]
    exact skipName_range (hfound.trans (congrArg some hstop))
  · split at h
    · simp at h
    · rw [← (Prod.mk.inj (Option.some.inj (Option.some.inj h))).2]
      exact s32_range _
  · rwa [← (Prod.mk.inj (Option.some.inj (Option.some.inj h))).2]
  · rwa [← (Prod.mk.inj (Option.some.inj (Option.some.inj h))).2]
  · rwa [← (Prod.mk.inj (Option.some.inj (Option.some.inj h))).2]
  · cases h

/-- A tag of the block ends in it, and the next one comes behind it; else the loop over the tags
ends. -/
theorem fdtNextTag_spec (h : BlockChecked fdt) (hoffset : 0 ≤ offset) (hmax : offset < 2147483648)
    (hnext : fdtNextTag fdt offset = some (tag, next)) :
    (tag = .fdtEnd ∧ -12 < next ∧ next < 0) ∨ offset ≤ next ∧ next < 2147483648 := by
  rw [fdtNextTag] at hnext
  split at hnext
  · obtain ⟨rfl, rfl⟩ := Prod.mk.inj (Option.some.inj hnext)
    exact Or.inl ⟨rfl, by decide, by decide⟩
  · obtain ⟨found, hfound, hnext⟩ := Option.bind_eq_some_iff.mp hnext
    split at hnext
    · obtain ⟨rfl, rfl⟩ := Prod.mk.inj (Option.some.inj hnext)
      exact Or.inl ⟨rfl, by decide, by decide⟩
    · rename_i tag' stop
      have hstop := itemEnd_range hfound (s32_range _)
      split at hnext
      · obtain ⟨rfl, rfl⟩ := Prod.mk.inj (Option.some.inj hnext)
        exact Or.inl ⟨rfl, by decide, by decide⟩
      · rename_i p hp
        obtain ⟨hle, hsize⟩ := fdtOffsetPtr_le h hp
        have hblock := h.size
        obtain ⟨-, rfl⟩ := Prod.mk.inj (Option.some.inj hnext)
        simp only [u32] at hle hsize
        refine Or.inr ?_
        simp only [fdtTagalign, s32, u32]
        omega

theorem regionSwitch_spec
    (h : regionSwitch fdt inc excProp pathLen tag offset next s = some (.ok (s', included, stopAt))) :
    s'.region = s.region ∧ s'.count = s.count ∧ s'.start = s.start ∧
      (stopAt = offset ∨ stopAt = next) ∧ (tag = .fdtEnd → included = true) := by
  cases tag with
  | prop =>
    obtain ⟨found, -, h⟩ := Option.bind_eq_some_iff.mp h
    obtain ⟨str, -, h⟩ := Option.bind_eq_some_iff.mp h
    obtain ⟨rfl, -, rfl⟩ : s = s' ∧ _ ∧ offset = stopAt := by
      simpa using Except.ok.inj (Option.some.inj h)
    exact ⟨rfl, rfl, rfl, Or.inl rfl, fun hend => Tag.noConfusion hend⟩
  | nop =>
    obtain ⟨rfl, -, rfl⟩ : s = s' ∧ _ ∧ offset = stopAt := by
      simpa using Except.ok.inj (Option.some.inj h)
    exact ⟨rfl, rfl, rfl, Or.inl rfl, fun hend => Tag.noConfusion hend⟩
  | beginNode =>
    rw [regionSwitch] at h
    split at h
    · simp at h
    · obtain ⟨found, -, h⟩ := Option.bind_eq_some_iff.mp h
      obtain ⟨addr, -, h⟩ := Option.bind_eq_some_iff.mp h
      obtain ⟨name, -, h⟩ := Option.bind_eq_some_iff.mp h
      split at h
      · simp at h
      · simp only [Option.pure_def, Option.some.injEq, Except.ok.injEq, Prod.mk.injEq] at h
        obtain ⟨rfl, -, hstop⟩ := h
        refine ⟨rfl, rfl, rfl, ?_, fun hend => Tag.noConfusion hend⟩
        rw [← hstop]
        exact ite_eq_or_eq _ _ _
  | endNode =>
    rw [regionSwitch] at h
    cases hstack : s.stack with
    | nil => rw [hstack] at h; cases h
    | cons want stack =>
      rw [hstack] at h
      simp only [Option.some.injEq, Except.ok.injEq, Prod.mk.injEq] at h
      obtain ⟨rfl, -, rfl⟩ := h
      exact ⟨rfl, rfl, rfl, Or.inr rfl, fun hend => Tag.noConfusion hend⟩
  | fdtEnd =>
    simp only [regionSwitch, Option.some.injEq, Except.ok.injEq, Prod.mk.injEq] at h
    obtain ⟨rfl, rfl, rfl⟩ := h
    exact ⟨rfl, rfl, rfl, Or.inr rfl, fun _ => rfl⟩

/-- The tests behind the switch. -/
theorem regionUpdate_covered (hs : Covered base offset s) (hoffset : 0 ≤ offset)
    (hmax : next < 2147483648) (hle : offset ≤ next) (hstop : stopAt = offset ∨ stopAt = next) :
    Covered base next (regionUpdate base maxRegions offset stopAt included s) := by
  have hregion : ∀ r ∈ s.region, ∃ a b, 0 ≤ a ∧ a ≤ b ∧ b ≤ next ∧
      r = ⟨s32 (base + a), s32 (b - a)⟩ := fun r hr =>
    let ⟨a, b, ha, hab, hb, heq⟩ := hs.region r hr
    ⟨a, b, ha, hab, hb.trans hle, heq⟩
  have hstart := hs.start
  rw [regionUpdate]
  split_ifs with hopen hclose
  · rw [openRegion]
    split
    · rename_i last hlast
      have hmem := List.mem_of_getLast? hlast
      split_ifs
      · obtain ⟨a, b, ha, hab, hb, heq⟩ := hs.region last hmem
        refine ⟨fun r hr => hregion r (List.mem_of_mem_dropLast hr), Or.inr ?_⟩
        rw [heq]
        simp only [s32]
        omega
      · exact ⟨hregion, Or.inr ⟨hoffset, hle⟩⟩
    · exact ⟨hregion, Or.inr ⟨hoffset, hle⟩⟩
  · rw [closeRegion]
    refine ⟨fun r hr => ?_, Or.inl rfl⟩
    have hnew : ∃ a b, 0 ≤ a ∧ a ≤ b ∧ b ≤ next ∧
        (⟨s32 (base + s.start), s32 (stopAt - s.start)⟩ : FdtRegion) =
          ⟨s32 (base + a), s32 (b - a)⟩ :=
      ⟨s.start, stopAt, by omega, by omega, by omega, rfl⟩
    split_ifs at hr
    · rcases List.mem_append.mp hr with hr | hr
      · exact hregion r hr
      · rwa [List.mem_singleton.mp hr]
    · exact hregion r hr
  · exact ⟨hregion, by omega⟩

theorem regionUpdate_start (hs : Covered base offset s) (hoffset : 0 ≤ offset)
    (hmax : offset < 2147483648) :
    0 ≤ (regionUpdate base maxRegions offset stopAt true s).start := by
  have hstart := hs.start
  rw [regionUpdate]
  split_ifs with hopen hclose
  · rw [openRegion]
    split
    · rename_i last hlast
      split_ifs
      · obtain ⟨a, b, ha, hab, hb, heq⟩ := hs.region last (List.mem_of_getLast? hlast)
        rw [heq]
        simp only [s32]
        omega
      · exact hoffset
    · exact hoffset
  · exact absurd hclose.1 (by decide)
  · have hne : s.start ≠ -1 := fun heq => hopen ⟨rfl, heq⟩
    omega

/-- The regions that the loop leaves, unless the block ends too early. -/
theorem regionLoop_spec (h : BlockChecked fdt) {fuel : Nat} {last : Int}
    (hloop : regionLoop fdt inc excProp maxRegions pathLen fuel offset s = some (.ok (s', last)))
    (hs : Covered (s32 (fdtOffDtStruct fdt)) offset s) (hoffset : 0 ≤ offset)
    (hmax : offset < 2147483648) :
    (-12 < last ∧ last < 0) ∨
      Covered (s32 (fdtOffDtStruct fdt)) last s' ∧ 0 ≤ s'.start ∧ last < 2147483648 := by
  induction fuel generalizing offset s with
  | zero => simp [regionLoop] at hloop
  | succ fuel ih =>
    rw [regionLoop] at hloop
    obtain ⟨⟨tag, next⟩, hnext, hloop⟩ := Option.bind_eq_some_iff.mp hloop
    obtain ⟨result, hswitch, hloop⟩ := Option.bind_eq_some_iff.mp hloop
    cases result with
    | error ret => simp at hloop
    | ok result =>
      obtain ⟨t, included, stopAt⟩ := result
      obtain ⟨hregion, -, hstart, hstop, hend⟩ := regionSwitch_spec hswitch
      have ht : Covered (s32 (fdtOffDtStruct fdt)) offset t :=
        ⟨hregion ▸ hs.region, hstart ▸ hs.start⟩
      simp only at hloop
      rcases fdtNextTag_spec h hoffset hmax hnext with ⟨rfl, hlow, hneg⟩ | ⟨hle, hlt⟩
      · rw [if_pos rfl] at hloop
        obtain ⟨-, rfl⟩ := Prod.mk.inj (Except.ok.inj (Option.some.inj hloop))
        exact Or.inl ⟨hlow, hneg⟩
      have hcover := @regionUpdate_covered maxRegions _ offset next stopAt included t ht hoffset
        hlt hle hstop
      by_cases htag : tag = .fdtEnd
      · rw [if_pos htag] at hloop
        obtain ⟨rfl, rfl⟩ := Prod.mk.inj (Except.ok.inj (Option.some.inj hloop))
        refine Or.inr ⟨hcover, ?_, hlt⟩
        rw [hend htag]
        exact regionUpdate_start ht hoffset hmax
      · rw [if_neg htag] at hloop
        exact ih hloop hcover (by omega) hlt

end Regions

/-! ### Regions inside of the FIT -/

/-- A region lies inside of the total size. -/
def Inside (fit : Fdt) (r : FdtRegion) : Prop := u32 r.offset + u32 r.size ≤ fdtTotalsize fit

theorem s32_of_lt {x : Int} (h : 0 ≤ x) (hlt : x < 2147483648) : s32 x = x := by
  rw [s32]
  omega

theorem u32_of_lt {x : Int} (h : 0 ≤ x) (hlt : x < 2147483648) : (u32 x : Int) = x := by
  rw [u32]
  omega

/-- A region of the structure block lies inside of the FIT when its end does. -/
theorem inside_block_iff {fit : Fdt} (h : BlockChecked fit) {a b : Int} (ha : 0 ≤ a) (hab : a ≤ b)
    (hb : b ≤ fdtSizeDtStruct fit) :
    Inside fit ⟨s32 (s32 (fdtOffDtStruct fit) + a), s32 (b - a)⟩ ↔
      fdtOffDtStruct fit + b ≤ fdtTotalsize fit := by
  have hsize := h.size
  have hbase : s32 (fdtOffDtStruct fit) = fdtOffDtStruct fit := s32_of_lt (by omega) (by omega)
  have hoffset : u32 (s32 (fdtOffDtStruct fit + a)) = (fdtOffDtStruct fit + a : Int) := by
    rw [s32_of_lt (by omega) (by omega), u32_of_lt (by omega) (by omega)]
  have hlen : u32 (s32 (b - a)) = (b - a : Int) := by
    rw [s32_of_lt (by omega) (by omega), u32_of_lt (by omega) (by omega)]
  rw [Inside, hbase]
  change u32 (s32 (fdtOffDtStruct fit + a)) + u32 (s32 (b - a)) ≤ fdtTotalsize fit ↔ _
  omega

/-- The regions that are found lie inside of the FIT exactly when the structure block does: the
last one ends with it. -/
theorem fdtFindRegions_inside_iff {fit : Fdt} (h : BlockChecked fit) {inc excProp : List (List UInt8)}
    {maxRegions pathLen count : Nat} {regions : List FdtRegion}
    (hfind : fdtFindRegions fit inc excProp maxRegions pathLen = some (.ok (regions, count)))
    (hcount : count < maxRegions) :
    (∀ r ∈ regions, Inside fit r) ↔ fdtOffDtStruct fit + fdtSizeDtStruct fit ≤ fdtTotalsize fit := by
  rw [fdtFindRegions] at hfind
  obtain ⟨result, hloop, hfind⟩ := Option.bind_eq_some_iff.mp hfind
  cases result with
  | error ret => simp at hfind
  | ok result =>
    obtain ⟨s, last⟩ := result
    have hsize := h.size
    simp only at hfind
    split_ifs at hfind with hlayout
    · simp at hfind
    have hstart : Covered (s32 (fdtOffDtStruct fit)) 0 ⟨[], 0, -1, 0, [], []⟩ :=
      ⟨fun r hr => absurd hr List.not_mem_nil, Or.inl rfl⟩
    have hcover := regionLoop_spec h hloop hstart (Int.le_refl 0) (by omega)
    obtain ⟨rfl, rfl⟩ := Prod.mk.inj (Except.ok.inj (Option.some.inj hfind))
    rw [not_not, u32] at hlayout
    rcases hcover with ⟨hlow, hneg⟩ | ⟨hcover, hopen, hlast⟩
    · omega
    have hbegin : s.start ≤ last := by
      have := hcover.start
      omega
    have hend : last = fdtSizeDtStruct fit := by omega
    have hroom : s.count < maxRegions := by
      simp only [closeRegion] at hcount
      omega
    rw [closeRegion, if_pos hroom]
    simp only [List.forall_mem_append, List.forall_mem_singleton]
    rw [inside_block_iff h hopen hbegin hend.le]
    constructor
    · rintro ⟨-, hinside⟩
      omega
    · intro hblock
      refine ⟨fun r hr => ?_, by omega⟩
      obtain ⟨a, b, ha, hab, hb, rfl⟩ := hcover.region r hr
      rw [inside_block_iff h ha hab (hb.trans hend.le)]
      omega

/-! ### What is safe -/

/-- A signature node gets to its `hashed-nodes`. -/
def Reaches (env : Env) (fit : Fdt) (noffset requiredKeynode : Int) : Prop :=
  ∃ info value, fitImageSetupVerify env fit noffset requiredKeynode = some (.ok info) ∧
    fitImageHashGetValue fit noffset = some (some value)

/-- The list of names is built, and the regions that are hashed lie inside of the FIT. -/
structure Safe (fit : Fdt) (noffset : Int) : Prop where
  names : ∀ prop propLen, fdtGetprop fit noffset (ascii "hashed-nodes") = some (.ok (prop, propLen)) →
    (prop.bytes propLen.toNat).count 0 ≠ 0 →
    (prop.bytes propLen.toNat).count 0 ≤ IMAGE_MAX_HASHED_NODES → Collected prop propLen.toNat
  regions : ∀ regions, configRegions fit noffset = some (.ok regions) → ∀ r ∈ regions, Inside fit r

/-- The structure block lies inside of the FIT; where nothing checks the offsets in it, the
regions that are found do. -/
def BlockInside (fit : Fdt) (regions : List FdtRegion) : Prop :=
  (BlockChecked fit → fdtOffDtStruct fit + fdtSizeDtStruct fit ≤ fdtTotalsize fit) ∧
    (¬BlockChecked fit → ∀ r ∈ regions, Inside fit r)

/-- The two words of `hashed-strings` give a part of the FIT. -/
def StringsInside (fit : Fdt) : Except Int (Ptr × Int) → Prop
  | .error _ => True
  | .ok (strings, _) =>
    (fdtOffDtStrings fit + beValue (strings.bytes 4)) % 4294967296 +
      beValue ((strings.add 4).bytes 4) ≤ fdtTotalsize fit

/-- The property of the names ends with a NUL, if it has a NUL at all and not too many. Where
regions are found, and not too many, they and the strings are parts of the FIT. -/
structure Sound (fit : Fdt) (noffset : Int) : Prop where
  terminated : ∀ prop propLen,
    fdtGetprop fit noffset (ascii "hashed-nodes") = some (.ok (prop, propLen)) →
    (prop.bytes propLen.toNat).count 0 ≠ 0 →
    (prop.bytes propLen.toNat).count 0 ≤ IMAGE_MAX_HASHED_NODES →
    prop (propLen.toNat - 1) = 0
  inside : ∀ nodeInc regions count strings, hashedNodes fit noffset = some (.ok nodeInc) →
    fdtFindRegions fit nodeInc [ascii "data"] (20 + nodeInc.length * 7 - 1) 200 =
      some (.ok (regions, count)) →
    count ≠ 0 → count < 20 + nodeInc.length * 7 - 1 →
    fdtGetprop fit noffset (ascii "hashed-strings") = some strings →
    BlockInside fit regions ∧ StringsInside fit strings

section Safety

variable {fit : Fdt} {noffset : Int}

theorem blockInside_iff {inc excProp : List (List UInt8)} {maxRegions pathLen count : Nat}
    {regions : List FdtRegion}
    (hfind : fdtFindRegions fit inc excProp maxRegions pathLen = some (.ok (regions, count)))
    (hcount : count < maxRegions) : (∀ r ∈ regions, Inside fit r) ↔ BlockInside fit regions := by
  rw [BlockInside]
  by_cases h : BlockChecked fit
  · rw [fdtFindRegions_inside_iff h hfind hcount]
    exact ⟨fun hblock => ⟨fun _ => hblock, fun hno => absurd h hno⟩, fun hinside => hinside.1 h⟩
  · exact ⟨fun hregions => ⟨fun hyes => absurd hyes h, fun _ => hregions⟩,
      fun hinside => hinside.2 h⟩

theorem propertyLoop_len {name : List UInt8} {fuel : Nat} {offset len : Int} {prop : Nat}
    (h : propertyLoop fit name fuel offset = some (.ok (prop, len))) : len < 2147483648 := by
  induction fuel generalizing offset with
  | zero => simp [propertyLoop] at h
  | succ fuel ih =>
    rw [propertyLoop] at h
    split_ifs at h
    · simp at h
    obtain ⟨checked, -, h⟩ := Option.bind_eq_some_iff.mp h
    split_ifs at h
    · simp at h
    simp only at h
    split_ifs at h
    · rw [← (Prod.mk.inj (Except.ok.inj (Option.some.inj h))).2]
      exact (s32_range _).2
    · obtain ⟨next, -, h⟩ := Option.bind_eq_some_iff.mp h
      exact ih h

/-- The length of a property is an `int`. -/
theorem fdtGetprop_len {name : List UInt8} {prop : Ptr} {propLen : Int}
    (h : fdtGetprop fit noffset name = some (.ok (prop, propLen))) : propLen < 2147483648 := by
  obtain ⟨offset, -, h⟩ := Option.bind_eq_some_iff.mp h
  obtain ⟨found, hfound, h⟩ := Option.bind_eq_some_iff.mp h
  cases found with
  | error ret => cases h
  | ok found =>
    obtain ⟨p, len⟩ := found
    obtain ⟨-, rfl⟩ := Prod.mk.inj (Except.ok.inj (Option.some.inj h))
    exact propertyLoop_len hfound

theorem hashedStrings_inside_iff {strings : Except Int (Ptr × Int)} {regions : List FdtRegion}
    (h : fdtGetprop fit noffset (ascii "hashed-strings") = some strings)
    (hregions : hashedStrings fit noffset = some regions) :
    (∀ r ∈ regions, Inside fit r) ↔ StringsInside fit strings := by
  rw [hashedStrings, h] at hregions
  cases strings with
  | error ret =>
    obtain rfl := Option.some.inj hregions
    exact iff_of_true (fun r hr => absurd hr List.not_mem_nil) trivial
  | ok found =>
    obtain ⟨p, len⟩ := found
    obtain rfl := Option.some.inj hregions
    have hlt := beValue_lt ((p.add 4).bytes 4)
    rw [Ptr.length_bytes] at hlt
    have hoffset : u32 (s32 (fdtOffDtStrings fit + beValue (p.bytes 4))) =
        (fdtOffDtStrings fit + beValue (p.bytes 4)) % 4294967296 := by
      rw [u32, s32]
      omega
    have hsize : u32 (s32 (beValue ((p.add 4).bytes 4))) = beValue ((p.add 4).bytes 4) := by
      rw [u32, s32]
      omega
    rw [List.forall_mem_singleton]
    change u32 (s32 _) + u32 (s32 _) ≤ _ ↔ _
    rw [hoffset, hsize]
    rfl

theorem configRegions_eq {nodeInc : List (List UInt8)} {regions strings : List FdtRegion} {count : Nat}
    (hnodes : hashedNodes fit noffset = some (.ok nodeInc))
    (hfind : fdtFindRegions fit nodeInc [ascii "data"] (20 + nodeInc.length * 7 - 1) 200 =
      some (.ok (regions, count)))
    (hpos : count ≠ 0) (hcount : count < 20 + nodeInc.length * 7 - 1)
    (hstrings : hashedStrings fit noffset = some strings) :
    configRegions fit noffset = some (.ok (regions ++ strings)) := by
  rw [configRegions, hnodes]
  simp only [Option.bind_eq_bind, Option.bind_some]
  rw [hfind]
  simp only [Option.bind_some, if_neg hpos, if_neg (not_le.mpr hcount), hstrings]
  rfl

theorem configRegions_cases {regions : List FdtRegion}
    (h : configRegions fit noffset = some (.ok regions)) :
    ∃ nodeInc found count strings, hashedNodes fit noffset = some (.ok nodeInc) ∧
      fdtFindRegions fit nodeInc [ascii "data"] (20 + nodeInc.length * 7 - 1) 200 =
        some (.ok (found, count)) ∧
      count ≠ 0 ∧ count < 20 + nodeInc.length * 7 - 1 ∧
      hashedStrings fit noffset = some strings ∧ regions = found ++ strings := by
  rw [configRegions] at h
  obtain ⟨nodes, hnodes, h⟩ := Option.bind_eq_some_iff.mp h
  cases nodes with
  | error msg => simp at h
  | ok nodeInc =>
    obtain ⟨result, hfind, h⟩ := Option.bind_eq_some_iff.mp h
    cases result with
    | error ret => simp at h
    | ok result =>
      obtain ⟨found, count⟩ := result
      simp only at h
      split_ifs at h with hzero hmany
      · simp at h
      · simp at h
      · obtain ⟨strings, hstrings, h⟩ := Option.bind_eq_some_iff.mp h
        obtain rfl := Except.ok.inj (Option.some.inj h)
        exact ⟨nodeInc, found, count, strings, hnodes, hfind, hzero, not_le.mp hmany, hstrings,
          rfl⟩

theorem hashedStrings_getprop {regions : List FdtRegion}
    (h : hashedStrings fit noffset = some regions) :
    ∃ strings, fdtGetprop fit noffset (ascii "hashed-strings") = some strings :=
  let ⟨strings, hstrings, _⟩ := Option.bind_eq_some_iff.mp h
  ⟨strings, hstrings⟩

theorem getprop_hashedStrings {strings : Except Int (Ptr × Int)}
    (h : fdtGetprop fit noffset (ascii "hashed-strings") = some strings) :
    ∃ regions, hashedStrings fit noffset = some regions := by
  rw [hashedStrings, h]
  cases strings with
  | error ret => exact ⟨_, rfl⟩
  | ok found => exact ⟨_, rfl⟩

theorem safe_iff_sound : Safe fit noffset ↔ Sound fit noffset := by
  have hlast : ∀ prop propLen,
      fdtGetprop fit noffset (ascii "hashed-nodes") = some (.ok (prop, propLen)) →
      (prop.bytes propLen.toNat).count 0 ≠ 0 →
      (Collected prop propLen.toNat ↔ prop (propLen.toNat - 1) = 0) := by
    intro prop propLen hprop hcount
    have hlen := fdtGetprop_len hprop
    refine collected_iff (Nat.pos_of_ne_zero fun hzero => hcount ?_) (by omega)
    rw [hzero]
    rfl
  constructor
  · rintro ⟨hnames, hregions⟩
    refine ⟨fun prop propLen hprop hcount hmax =>
      (hlast prop propLen hprop hcount).mp (hnames prop propLen hprop hcount hmax), ?_⟩
    intro nodeInc regions count strings hnodes hfind hpos hlt hget
    obtain ⟨extra, hextra⟩ := getprop_hashedStrings hget
    have hall := hregions _ (configRegions_eq hnodes hfind hpos hlt hextra)
    rw [List.forall_mem_append] at hall
    exact ⟨(blockInside_iff hfind hlt).mp hall.1, (hashedStrings_inside_iff hget hextra).mp hall.2⟩
  · rintro ⟨hterminated, hinside⟩
    refine ⟨fun prop propLen hprop hcount hmax =>
      (hlast prop propLen hprop hcount).mpr (hterminated prop propLen hprop hcount hmax), ?_⟩
    intro regions hregions
    obtain ⟨nodeInc, found, count, extra, hnodes, hfind, hpos, hlt, hextra, rfl⟩ :=
      configRegions_cases hregions
    obtain ⟨strings, hget⟩ := hashedStrings_getprop hextra
    obtain ⟨hblock, hstrings⟩ := hinside nodeInc found count strings hnodes hfind hpos hlt hget
    rw [List.forall_mem_append]
    exact ⟨(blockInside_iff hfind hlt).mpr hblock, (hashedStrings_inside_iff hget hextra).mpr hstrings⟩

end Safety

/-- A signature node whose properties are looked at is safe exactly when they are sound. -/
theorem reaches_safe_iff (env : Env) (fit : Fdt) (noffset requiredKeynode : Int) :
    (Reaches env fit noffset requiredKeynode → Safe fit noffset) ↔
      (Reaches env fit noffset requiredKeynode → Sound fit noffset) := by
  rw [safe_iff_sound]

/-! ### A property without a NUL at its end -/

/-- A FIT whose only node below the root is at offset 8, with the properties `algo`, `value` and
`hashed-nodes`; the last one holds a slash, a NUL and a letter. -/
def unterminatedFit : Fdt where
  addr := 0
  mem a := if a < 168 then UInt8.ofNat (0xd00dfeed000000a800000038000000900000002800000011000000100000000000000018000000580000000000000000000000000000000000000001000000000000000173696700000000030000000d00000000736861312c72736132303438000000000000000300000004000000050000000000000003000000030000000b2f006100000000020000000200000009616c676f0076616c7565006861736865642d6e6f64657300 / 256 ^ (167 - a)) else 0

/-- What the signature node holds. -/
theorem unterminatedFit_props :
    ((fdtGetprop unterminatedFit 8 (ascii "algo")).map fun r => match r with
      | .ok (p, _) => strcmpEq p (ascii "sha1,rsa2048")
      | .error _ => false) = some true ∧
    keyNameHint unterminatedFit 8 = some none ∧
    fitImageHashGetValue unterminatedFit 8 = some (some [0, 0, 0, 0]) ∧
    ((fdtGetprop unterminatedFit 8 (ascii "hashed-nodes")).map fun r => match r with
      | .ok (p, len) => (p.bytes 3, len)
      | .error _ => ([], 0)) = some ([47, 0, 97], 3) := by
  set_option maxRecDepth 8000 in decide

def unterminatedEnv : Env where
  fdtBlob := unterminatedFit
  sha1 _ := none
  sha256 _ := none
  stack _ _ := []

theorem unterminatedFit_reaches : Reaches unterminatedEnv unterminatedFit 8 0 := by
  obtain ⟨halgo, hhint, hvalue, -⟩ := unterminatedFit_props
  obtain ⟨r, hr, hname⟩ := Option.map_eq_some_iff.mp halgo
  cases r with
  | error e => cases hname
  | ok p =>
    obtain ⟨algo, len⟩ := p
    have hname : strcmpEq algo (ascii "sha1,rsa2048") = true := hname
    let info : Rsa.ImageSignInfo := {
      keyname := none
      fit := unterminatedFit
      checksum := checksumSha1Rsa2048 unterminatedEnv
      fdtBlob := unterminatedFit
      requiredKeynode := 0 }
    refine ⟨info, _, ?_, hvalue⟩
    rw [fitImageSetupVerify, hr]
    simp only [Option.bind_eq_bind, Option.bind_some, hhint, imageGetSigAlgo, if_pos hname]
    rfl

/-- One NUL is counted and two names are collected, and the second one does not end in the
property. -/
theorem not_reaches_safe :
    ¬∀ (env : Env) (fit : Fdt) (noffset requiredKeynode : Int),
      Reaches env fit noffset requiredKeynode → Safe fit noffset := by
  intro h
  obtain ⟨-, -, -, hnodes⟩ := unterminatedFit_props
  obtain ⟨r, hr, hbytes⟩ := Option.map_eq_some_iff.mp hnodes
  cases r with
  | error e =>
    have hlen : (0 : Int) = 3 := congrArg Prod.snd hbytes
    omega
  | ok found =>
    obtain ⟨p, len⟩ := found
    obtain ⟨hlist, rfl⟩ : p.bytes 3 = [47, 0, 97] ∧ len = 3 := Prod.mk.inj hbytes
    have hcount : (p.bytes (3 : Int).toNat).count 0 = 1 := by
      rw [show (3 : Int).toNat = 3 from rfl, hlist]
      decide
    have hcollected := (h _ _ _ _ unterminatedFit_reaches).names p 3 hr (by rw [hcount]; decide)
      (by rw [hcount]; decide)
    have hzero := (collected_iff (by decide) (by decide)).mp hcollected
    have hlast : p 2 = 97 := Option.some.inj
      ((p.getElem?_bytes (by decide : 2 < 3)).symm.trans (congrArg (·[2]?) hlist))
    exact absurd (hlast.symm.trans hzero) (by decide)

end UBoot.Fit
