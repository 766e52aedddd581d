import UBoot.Libfdt.Subnodes
import UBoot.Verification.FirstBest

/-!
# The configuration for a device tree

`fit_conf_find_compat` of `common/image-fit.c`. A configuration names the image of its
device tree; the one that is taken matches an entry of the control device tree's
`compatible` list as far to the front as possible. `check` stands for
`fdt_node_check_compatible` at the root node of a blob.
-/

namespace UBoot.Fit

open Verification UBoot.Libfdt

def FIT_CONFS_PATH : List UInt8 := ascii "/configurations"

def FIT_IMAGES_PATH : List UInt8 := ascii "/images"

def pathNames (path : List UInt8) : List (List UInt8) := (path.splitOn 47).filter (· ≠ [])

/-- The loop of `fdt_path_offset`. -/
def pathLoop (fdt : Fdt) : List (List UInt8) → Int → Option Int
  | [], offset => some offset
  | name :: names, offset => do
    let offset ← fdtSubnodeOffset fdt offset name
    if offset < 0 then return offset else pathLoop fdt names offset

/-- `fdt_path_offset`, for a path that begins with a slash. -/
def fdtPathOffset (fdt : Fdt) (path : List UInt8) : Option Int :=
  if fdtCheckHeader fdt ≠ 0 then some (fdtCheckHeader fdt) else pathLoop fdt (pathNames path) 0

/-- `fit_image_get_data`: the blob found in the data of an image. -/
def fitImageGetData (fit : Fdt) (noffset : Int) : Option (Option Ptr) := do
  match ← fdtGetprop fit noffset (ascii "data") with
  | .ok (data, _) => return some data
  | .error _ => return none

/-- The device tree of a configuration; none when the configuration names no device
tree, or an image that is not there or has no data. -/
def confFdt (fit : Fdt) (imagesNoffset noffset : Int) : Option (Option Ptr) := do
  match ← fdtGetprop fit noffset (ascii "fdt") with
  | .error _ => return none
  | .ok (kfdtName, _) =>
    let kfdtNoffset ← fdtSubnodeOffset fit imagesNoffset (← cString kfdtName)
    if kfdtNoffset < 0 then return none else fitImageGetData fit kfdtNoffset

section

variable (check : Ptr → List UInt8 → Int)

/-- The loop over the `compatible` list: the position of a match, when one is found before
the position that is the best so far. -/
def compatLoop (kfdt : Ptr) (bestMatchOffset bestMatchPos : Int) :
    Nat → Int → Ptr → Int → Option (Option Int)
  | 0, _, _, _ => none
  | fuel + 1, i, curFdtCompat, len =>
    if 0 < len ∧ (bestMatchOffset = 0 ∨ i < bestMatchPos) then do
      let cur ← cString curFdtCompat
      if check kfdt cur = 0 then return some i
      else
        compatLoop kfdt bestMatchOffset bestMatchPos fuel (i + 1)
          (curFdtCompat.add (cur.length + 1)) (len - (cur.length + 1))
    else return none

/-- What the loop over the configurations does for one of them: `best_match_offset` and
`best_match_pos` after it. -/
def confStep (fit : Fdt) (imagesNoffset : Int) (fdtCompat : Ptr) (fdtCompatLen : Int)
    (noffset : Int) (best : Int × Int) : Option (Int × Int) := do
  match ← confFdt fit imagesNoffset noffset with
  | none => return best
  | some kfdt =>
    match ← compatLoop check kfdt best.1 best.2 (fdtCompatLen.toNat + 1) 0 fdtCompat
      fdtCompatLen with
    | some i => return (noffset, i)
    | none => return best

/-- The loop over the nodes below the configurations node. Nodes within a configuration
are passed over. -/
def confLoop (fit : Fdt) (imagesNoffset : Int) (fdtCompat : Ptr) (fdtCompatLen : Int) :
    Nat → Int → Int → Int × Int → Option (Int × Int)
  | 0, _, _, _ => none
  | fuel + 1, noffset, ndepth, best =>
    if 0 ≤ noffset ∧ 0 < ndepth then do
      let best ← if 1 < ndepth then some best
        else confStep check fit imagesNoffset fdtCompat fdtCompatLen noffset best
      let (noffset, ndepth) ← fdtNextNode fit noffset ndepth
      confLoop fit imagesNoffset fdtCompat fdtCompatLen fuel noffset ndepth best
    else return best

/-- `fit_conf_find_compat` -/
def fitConfFindCompat (fit fdt : Fdt) : Option Int := do
  let confsNoffset ← fdtPathOffset fit FIT_CONFS_PATH
  let imagesNoffset ← fdtPathOffset fit FIT_IMAGES_PATH
  if confsNoffset < 0 ∨ imagesNoffset < 0 then return -1
  else
    match ← fdtGetprop fdt 0 (ascii "compatible") with
    | .error _ => return -1
    | .ok (fdtCompat, fdtCompatLen) =>
      let (noffset, ndepth) ← fdtNextNode fit confsNoffset 0
      let best ← confLoop check fit imagesNoffset fdtCompat fdtCompatLen iterations noffset
        ndepth (0, 0)
      return if best.1 = 0 then -1 else best.1

end

/-! ### A FIT and a list -/

/-- The nodes that the loop meets, with their depths. They lie behind the root. -/
inductive Walk (fit : Fdt) : Int → Int → List (Int × Int) → Prop
  | stop {noffset ndepth : Int} (h : ¬(0 ≤ noffset ∧ 0 < ndepth)) : Walk fit noffset ndepth []
  | node {noffset ndepth next depth : Int} {nodes : List (Int × Int)} (hpos : 0 < noffset)
      (hdepth : 0 < ndepth) (hnext : fdtNextNode fit noffset ndepth = some (next, depth))
      (rest : Walk fit next depth nodes) : Walk fit noffset ndepth ((noffset, ndepth) :: nodes)

/-- A FIT that libfdt can read: the loops over the blob end. -/
structure FitTree (fit : Fdt) where
  confs : Int
  images : Int
  nodes : List (Int × Int)
  confs_eq : fdtPathOffset fit FIT_CONFS_PATH = some confs
  images_eq : fdtPathOffset fit FIT_IMAGES_PATH = some images
  walk : 0 ≤ confs → ∃ first depth, fdtNextNode fit confs 0 = some (first, depth) ∧
    Walk fit first depth nodes
  count : nodes.length < iterations
  readable : ∀ node ∈ nodes, node.2 = 1 → ∃ kfdt, confFdt fit images node.1 = some kfdt

/-- The configurations among the nodes that the loop meets. -/
def configsOf (nodes : List (Int × Int)) : List Int :=
  (nodes.filter fun node => node.2 = 1).map (·.1)

/-- The configurations, in their order. -/
def FitTree.configurations {fit : Fdt} (tree : FitTree fit) : List Int :=
  if tree.confs < 0 ∨ tree.images < 0 then []
  else configsOf tree.nodes

/-- A `compatible` property that is a list of strings. -/
structure CompatList (fdt : Fdt) where
  value : Ptr
  len : Int
  strings : List (List UInt8)
  found : fdtGetprop fdt 0 (ascii "compatible") = some (.ok (value, len))
  len_nonneg : 0 ≤ len
  len_lt : len < 2 ^ 31
  bytes : value.bytes len.toNat = strings.flatMap (· ++ [0])
  noNul : ∀ s ∈ strings, 0 ∉ s
  nonempty : strings ≠ []

/-- The device tree of the configuration is compatible with entry `i` of the list. -/
def MatchesAt (check : Ptr → List UInt8 → Int) (fit : Fdt) (images : Int)
    (strings : List (List UInt8)) (conf : Int) (i : Nat) : Prop :=
  ∃ kfdt s, confFdt fit images conf = some (some kfdt) ∧ strings[i]? = some s ∧
    check kfdt s = 0

/-- The first entry that the device tree of a configuration is compatible with. -/
def matchRank (check : Ptr → List UInt8 → Int) (fit : Fdt) (images : Int)
    (strings : List (List UInt8)) (conf : Int) : Option Nat :=
  (confFdt fit images conf).join.bind fun kfdt => strings.findIdx? fun s => check kfdt s = 0

/-! ### Strings -/

theorem cString_eq {p : Ptr} {s : List UInt8} (hbytes : p.bytes (s.length + 1) = s ++ [0])
    (hnul : 0 ∉ s) (hlen : s.length < iterations) : cString p = some s := by
  rw [Ptr.bytes_succ] at hbytes
  obtain ⟨hs, hzero⟩ := List.append_inj hbytes (Ptr.length_bytes _ _)
  have hstop : p s.length = 0 := (List.cons.inj hzero).1
  obtain ⟨n, hn, hle⟩ := strlenLoop_stops hstop (Nat.zero_le _) (by omega : s.length < 0 + iterations)
  obtain ⟨-, hnzero, -⟩ := strlenLoop_spec hn
  have hn' : n = s.length := by
    by_contra hne
    have hmem : p n ∈ p.bytes s.length :=
      List.mem_map.mpr ⟨n, List.mem_range.mpr (by omega), rfl⟩
    rw [hs, hnzero] at hmem
    exact hnul hmem
  rw [cString, hn, Option.map_some, hn', hs]

def listLength (strings : List (List UInt8)) : Nat := (strings.flatMap (· ++ [0])).length

theorem listLength_cons (s : List UInt8) (strings : List (List UInt8)) :
    listLength (s :: strings) = s.length + 1 + listLength strings := by
  rw [listLength, List.flatMap_cons, List.length_append, List.length_append, List.length_singleton,
    listLength]

theorem length_le_listLength (strings : List (List UInt8)) :
    strings.length ≤ listLength strings := by
  induction strings with
  | nil => exact Nat.le_refl 0
  | cons s strings ih =>
    rw [List.length_cons, listLength_cons]
    omega

/-- The loop finds the first entry that matches, unless it is not before the best one. -/
theorem compatLoop_eq (check : Ptr → List UInt8 → Int) (kfdt : Ptr) (best : Int × Int)
    {strings : List (List UInt8)} {p : Ptr} (fuel i : Nat)
    (hbytes : p.bytes (listLength strings) = strings.flatMap (· ++ [0]))
    (hnul : ∀ s ∈ strings, 0 ∉ s) (hlen : listLength strings < iterations)
    (hfuel : strings.length < fuel) :
    compatLoop check kfdt best.1 best.2 fuel i p (listLength strings) =
      some ((strings.findIdx? fun s => check kfdt s = 0).bind fun k =>
        if best.1 = 0 ∨ ((i + k : Nat) : Int) < best.2 then some ((i + k : Nat) : Int) else none) := by
  induction strings generalizing p fuel i with
  | nil =>
    obtain ⟨fuel, rfl⟩ := Nat.exists_eq_add_of_lt hfuel
    rw [compatLoop, if_neg (by simp [listLength])]
    rfl
  | cons s strings ih =>
    obtain ⟨fuel, rfl⟩ := Nat.exists_eq_add_of_le' (Nat.lt_of_le_of_lt (Nat.zero_le _) hfuel)
    rw [listLength_cons] at hbytes hlen
    rw [List.flatMap_cons, Ptr.bytes_add] at hbytes
    obtain ⟨hfirst, hrest⟩ := List.append_inj hbytes (by simp)
    have hcur := cString_eq hfirst (hnul s List.mem_cons_self) (by omega)
    have hnext := ih (p := p.add (s.length + 1)) fuel (i + 1) hrest
      (fun t ht => hnul t (List.mem_cons_of_mem s ht)) (by omega)
      (by rw [List.length_cons] at hfuel; omega)
    rw [compatLoop]
    by_cases hgo : best.1 = 0 ∨ (i : Int) < best.2
    · rw [if_pos ⟨by rw [listLength_cons]; omega, hgo⟩, hcur, Option.bind_eq_bind,
        Option.bind_some, List.findIdx?_cons]
      by_cases hmatch : check kfdt s = 0
      · rw [if_pos hmatch, if_pos (decide_eq_true hmatch), Option.bind_some, Nat.add_zero,
          if_pos hgo]
        rfl
      · have hrestLen : ((listLength (s :: strings) : Nat) : Int) - (s.length + 1) =
            (listLength strings : Nat) := by
          rw [listLength_cons]
          omega
        rw [if_neg hmatch, if_neg (by simpa using hmatch), hrestLen, ← Nat.cast_succ, hnext,
          Option.bind_map]
        congr 2
        funext k
        rw [Function.comp_apply, Nat.add_right_comm, Nat.add_assoc]
    · rw [if_neg (fun h => hgo h.2)]
      -- an entry farther back is no better
      have hnone : ∀ k : Nat, ¬(best.1 = 0 ∨ ((i + k : Nat) : Int) < best.2) := by
        intro k hk
        exact hgo (hk.imp_right fun hlt => by omega)
      simp only [if_neg (hnone _), Option.bind_fun_none]
      rfl

/-! ### The search -/

theorem Walk.pos_of_mem_configsOf {fit : Fdt} {noffset ndepth : Int} {nodes : List (Int × Int)}
    (h : Walk fit noffset ndepth nodes) {conf : Int} (hconf : conf ∈ configsOf nodes) :
    0 < conf := by
  obtain ⟨node, hnode, rfl⟩ := List.mem_map.mp hconf
  have hmem := (List.mem_filter.mp hnode).1
  clear hnode hconf
  induction h with
  | stop _ => cases hmem
  | node hpos _ _ _ ih =>
    obtain rfl | hmem := List.mem_cons.mp hmem
    · exact hpos
    · exact ih hmem

/-- `best_match_offset` and `best_match_pos` for the best configuration so far. -/
def bestMatch : Option (Int × Nat) → Int × Int
  | none => (0, 0)
  | some (noffset, pos) => (noffset, pos)

section Search

variable {check : Ptr → List UInt8 → Int} {fit fdt : Fdt} {images : Int} (compat : CompatList fdt)

theorem CompatList.len_eq : compat.len = listLength compat.strings := by
  have h := congrArg List.length compat.bytes
  rw [Ptr.length_bytes] at h
  rw [listLength, ← h, Int.toNat_of_nonneg compat.len_nonneg]

/-- A configuration that is looked at takes the place of the best one when its device tree
matches an earlier entry. -/
theorem confStep_eq {noffset : Int} {kfdt : Option Ptr} (hread : confFdt fit images noffset = some kfdt)
    {best : Option (Int × Nat)} (hbest : ∀ c ∈ best, 0 < c.1) :
    confStep check fit images compat.value compat.len noffset (bestMatch best) =
      some (bestMatch (improve (matchRank check fit images compat.strings) best noffset)) := by
  have hlen := compat.len_eq
  have hlt := compat.len_lt
  have hcount := length_le_listLength compat.strings
  rw [confStep, hread, Option.bind_eq_bind, Option.bind_some, improve, matchRank, hread,
    Option.join_some]
  cases kfdt with
  | none => rfl
  | some kfdt =>
    have hbytes := compat.bytes
    rw [hlen, Int.toNat_natCast] at hbytes
    have hloop := compatLoop_eq check kfdt (bestMatch best) (listLength compat.strings + 1) 0 hbytes
      compat.noNul (by simp only [iterations]; omega) (by omega)
    rw [Nat.cast_zero] at hloop
    dsimp only
    rw [hlen, Int.toNat_natCast, hloop, Option.bind_eq_bind, Option.bind_some,
      Option.bind_some]
    cases hrank : compat.strings.findIdx? fun s => decide (check kfdt s = 0) with
    | none => rfl
    | some k =>
      rw [Option.bind_some, Nat.zero_add]
      cases best with
      | none =>
        have hzero : (bestMatch none).1 = 0 ∨ (k : Int) < (bestMatch none).2 := .inl rfl
        rw [if_pos hzero]
        rfl
      | some b =>
        obtain ⟨o, r⟩ := b
        have hpos : 0 < o := hbest (o, r) rfl
        have hiff : ((bestMatch (some (o, r))).1 = 0 ∨
            (k : Int) < (bestMatch (some (o, r))).2) ↔ k < r := by
          simp only [bestMatch]
          omega
        simp only [hiff]
        split_ifs <;> rfl

theorem improve_pos {rank : Int → Option Nat} {best : Option (Int × Nat)} {noffset : Int}
    (hpos : 0 < noffset) (hbest : ∀ c ∈ best, 0 < c.1) :
    ∀ c ∈ improve rank best noffset, 0 < c.1 := by
  intro c hc
  unfold improve at hc
  split at hc
  · exact hbest c hc
  · split at hc
    · obtain rfl := Option.some.inj hc
      exact hpos
    · split_ifs at hc
      · obtain rfl := Option.some.inj hc
        exact hpos
      · obtain rfl := Option.some.inj hc
        exact hbest _ rfl

/-- The loop over the configurations is the search for the first of the best. -/
theorem confLoop_eq {noffset ndepth : Int} {nodes : List (Int × Int)}
    (hwalk : Walk fit noffset ndepth nodes)
    (hread : ∀ node ∈ nodes, node.2 = 1 → ∃ kfdt, confFdt fit images node.1 = some kfdt)
    {fuel : Nat} (hfuel : nodes.length < fuel) {best : Option (Int × Nat)}
    (hbest : ∀ c ∈ best, 0 < c.1) :
    confLoop check fit images compat.value compat.len fuel noffset ndepth (bestMatch best) =
        some (bestMatch ((configsOf nodes).foldl
          (improve (matchRank check fit images compat.strings)) best)) ∧
      ∀ c ∈ (configsOf nodes).foldl (improve (matchRank check fit images compat.strings)) best,
        0 < c.1 := by
  induction hwalk generalizing fuel best with
  | stop h =>
    obtain ⟨fuel, rfl⟩ := Nat.exists_eq_add_of_lt hfuel
    rw [confLoop, if_neg h]
    exact ⟨rfl, hbest⟩
  | @node noffset ndepth next depth nodes hpos hdepth hnext rest ih =>
    obtain ⟨fuel, rfl⟩ := Nat.exists_eq_add_of_le' (Nat.lt_of_le_of_lt (Nat.zero_le _) hfuel)
    have hfuel' : nodes.length < fuel := by
      rw [List.length_cons] at hfuel
      omega
    have hread' := fun node (hmem : node ∈ nodes) =>
      hread node (List.mem_cons_of_mem _ hmem)
    rw [confLoop, if_pos ⟨hpos.le, hdepth⟩, Option.bind_eq_bind]
    by_cases hdeep : 1 < ndepth
    · rw [if_pos hdeep, Option.bind_some]
      beta_reduce
      rw [hnext, Option.bind_some, configsOf, List.filter_cons_of_neg (by simp; omega)]
      exact ih hread' hfuel' hbest
    · have hone : ndepth = 1 := by omega
      obtain ⟨kfdt, hkfdt⟩ := hread (noffset, ndepth) List.mem_cons_self hone
      rw [if_neg hdeep, confStep_eq compat hkfdt hbest, Option.bind_some]
      beta_reduce
      rw [hnext, Option.bind_some, configsOf, List.filter_cons_of_pos (by simpa using hone),
        List.map_cons, List.foldl_cons]
      exact ih hread' hfuel' (improve_pos hpos hbest)

end Search

/-! ### What is found -/

theorem matchRank_eq_some_iff {check : Ptr → List UInt8 → Int} {fit : Fdt} {images : Int}
    {strings : List (List UInt8)} {conf : Int} {i : Nat} :
    matchRank check fit images strings conf = some i ↔
      MatchesAt check fit images strings conf i ∧
        ∀ j < i, ¬MatchesAt check fit images strings conf j := by
  have hmatch : ∀ kfdt j, confFdt fit images conf = some (some kfdt) →
      (MatchesAt check fit images strings conf j ↔
        ∃ h : j < strings.length, check kfdt strings[j] = 0) := by
    intro kfdt j hread
    constructor
    · rintro ⟨kfdt', s, hread', hs, hcheck⟩
      rw [hread, Option.some.injEq, Option.some.injEq] at hread'
      obtain ⟨h, rfl⟩ := List.getElem?_eq_some_iff.mp hs
      exact ⟨h, hread' ▸ hcheck⟩
    · rintro ⟨h, hcheck⟩
      exact ⟨kfdt, strings[j], hread, List.getElem?_eq_getElem h, hcheck⟩
  have hskipped : (∀ kfdt, confFdt fit images conf ≠ some (some kfdt)) →
      ¬MatchesAt check fit images strings conf i := fun hread ⟨kfdt, _, h, _⟩ => hread kfdt h
  rw [matchRank]
  obtain hread | ⟨_ | kfdt, hread⟩ := Option.eq_none_or_eq_some (confFdt fit images conf)
  · rw [hread]
    simp [hskipped fun kfdt h => by rw [hread] at h; cases h]
  · rw [hread]
    simp [hskipped fun kfdt h => by rw [hread] at h; cases h]
  · simp only [hmatch kfdt _ hread]
    rw [hread, Option.join_some, Option.bind_some, List.findIdx?_eq_some_iff_getElem]
    simp only [decide_eq_true_eq]
    constructor
    · rintro ⟨hlt, hi, hbefore⟩
      exact ⟨⟨hlt, hi⟩, fun j hj ⟨_, hcheck⟩ => hbefore j hj hcheck⟩
    · rintro ⟨⟨hlt, hi⟩, hbefore⟩
      exact ⟨hlt, hi, fun j hj hcheck => hbefore j hj ⟨by omega, hcheck⟩⟩

theorem matchRank_eq_none_iff {check : Ptr → List UInt8 → Int} {fit : Fdt} {images : Int}
    {strings : List (List UInt8)} {conf : Int} :
    matchRank check fit images strings conf = none ↔
      ∀ i, ¬MatchesAt check fit images strings conf i := by
  constructor
  · intro h i
    -- the first match, if there were one
    induction i using Nat.strong_induction_on with
    | _ i ih =>
      intro hi
      have := matchRank_eq_some_iff.mpr ⟨hi, ih⟩
      rw [h] at this
      cases this
  · intro h
    by_contra hsome
    obtain ⟨i, hi⟩ := Option.ne_none_iff_exists'.mp hsome
    exact h i (matchRank_eq_some_iff.mp hi).1

/-- The value that is returned, for the best configuration. -/
def returned : Option (Int × Nat) → Int
  | none => -1
  | some (noffset, _) => noffset

theorem fitConfFindCompat_eq (check : Ptr → List UInt8 → Int) {fit fdt : Fdt} (tree : FitTree fit)
    (compat : CompatList fdt) : fitConfFindCompat check fit fdt = some (returned
      (tree.configurations.foldl (improve (matchRank check fit tree.images compat.strings)) none)) ∧
    ∀ conf ∈ tree.configurations, 0 < conf := by
  rw [fitConfFindCompat, tree.confs_eq, tree.images_eq, Option.bind_eq_bind, Option.bind_some,
    Option.bind_eq_bind, Option.bind_some, FitTree.configurations]
  by_cases hmissing : tree.confs < 0 ∨ tree.images < 0
  · rw [if_pos hmissing, if_pos hmissing]
    exact ⟨rfl, by simp⟩
  · obtain ⟨first, depth, hfirst, hwalk⟩ := tree.walk (by omega)
    obtain ⟨hloop, hpos⟩ := @confLoop_eq check fit fdt tree.images compat first depth tree.nodes hwalk
      tree.readable iterations tree.count none (by simp)
    rw [if_neg hmissing, if_neg hmissing, compat.found, Option.bind_some]
    dsimp only
    have hloop : confLoop check fit tree.images compat.value compat.len iterations first depth
        (0, 0) = some (bestMatch ((configsOf tree.nodes).foldl
          (improve (matchRank check fit tree.images compat.strings)) none)) := hloop
    rw [hfirst, Option.bind_eq_bind, Option.bind_some, hloop, Option.bind_some]
    refine ⟨?_, fun conf hconf => hwalk.pos_of_mem_configsOf hconf⟩
    cases hbest : (configsOf tree.nodes).foldl
        (improve (matchRank check fit tree.images compat.strings)) none with
    | none => rfl
    | some best =>
      have hne : (bestMatch (some best)).1 ≠ 0 := (hpos best hbest).ne'
      rw [if_neg hne]
      rfl

/-- For every FIT and every list of strings a configuration is found exactly when the
device tree of one is compatible with an entry. It is the first of those that match the
entry farthest to the front. -/
theorem fitConfFindCompat_first (check : Ptr → List UInt8 → Int) {fit fdt : Fdt}
    (tree : FitTree fit) (compat : CompatList fdt) :
    ∃ ret, fitConfFindCompat check fit fdt = some ret ∧
      (ret = -1 ↔ ∀ conf ∈ tree.configurations, ∀ i,
        ¬MatchesAt check fit tree.images compat.strings conf i) ∧
      (ret ≠ -1 → ∃ i before after, tree.configurations = before ++ ret :: after ∧
        MatchesAt check fit tree.images compat.strings ret i ∧
        (∀ conf ∈ tree.configurations, ∀ j < i,
          ¬MatchesAt check fit tree.images compat.strings conf j) ∧
        ∀ conf ∈ before, ¬MatchesAt check fit tree.images compat.strings conf i) := by
  obtain ⟨hret, hpos⟩ := fitConfFindCompat_eq check tree compat
  refine ⟨_, hret, ?_, ?_⟩
  · cases hbest : tree.configurations.foldl
        (improve (matchRank check fit tree.images compat.strings)) none with
    | none =>
      refine iff_of_true rfl fun conf hconf => ?_
      exact matchRank_eq_none_iff.mp (foldl_improve_eq_none.mp hbest conf hconf)
    | some best =>
      obtain ⟨conf, i⟩ := best
      have hfirst := firstBest_of_foldl_improve hbest
      obtain ⟨before, after, hsplit, -⟩ := hfirst.first
      have hmem : conf ∈ tree.configurations := by simp [hsplit]
      refine iff_of_false ?_ fun h => h conf hmem i (matchRank_eq_some_iff.mp hfirst.rank_eq).1
      have := hpos conf hmem
      change conf ≠ -1
      omega
  · cases hbest : tree.configurations.foldl
        (improve (matchRank check fit tree.images compat.strings)) none with
    | none => exact fun h => absurd rfl h
    | some best =>
      obtain ⟨conf, i⟩ := best
      have hfirst := firstBest_of_foldl_improve hbest
      obtain ⟨before, after, hsplit, hbefore⟩ := hfirst.first
      -- a match has a first one, whose position is the rank
      have hrank : ∀ {c j}, MatchesAt check fit tree.images compat.strings c j →
          ∃ r ≤ j, matchRank check fit tree.images compat.strings c = some r := by
        intro c j hj
        cases hr : matchRank check fit tree.images compat.strings c with
        | none => exact absurd hj (matchRank_eq_none_iff.mp hr j)
        | some r =>
          refine ⟨r, ?_, rfl⟩
          by_contra hlt
          exact (matchRank_eq_some_iff.mp hr).2 j (by omega) hj
      refine fun _ => ⟨i, before, after, hsplit, (matchRank_eq_some_iff.mp hfirst.rank_eq).1,
        fun c hc j hlt hj => ?_, fun c hc hi => ?_⟩
      · obtain ⟨r, hle, hr⟩ := hrank hj
        have := hfirst.le c hc r hr
        omega
      · obtain ⟨r, hle, hr⟩ := hrank hi
        have := hbefore c hc r hr
        omega

/-! ### Two configurations -/

/-- A FIT with the images `fdt@1` and `fdt@2`, whose data are one byte each, and the
configurations `conf@1` at offset 108 and `conf@2` at offset 144. -/
def twoConfsFit : Fdt where
  addr := 0
  mem a := if a < 257 then UInt8.ofNat (0xd00dfeed0000010100000038000000f80000002800000011000000100000000000000009000000c000000000000000000000000000000000000000010000000000000001696d616765730000000000016664744031000000000000030000000100000000010000000000000200000001666474403200000000000003000000010000000002000000000000020000000200000001636f6e66696775726174696f6e73000000000001636f6e664031000000000003000000060000000566647440310000000000000200000001636f6e6640320000000000030000000600000005666474403200000000000002000000020000000200000009646174610066647400 / 256 ^ (256 - a)) else 0

/-- A device tree whose root is compatible with `a` and with `b`. -/
def twoStringsFdt : Fdt where
  addr := 0
  mem a := if a < 99 then UInt8.ofNat (0xd00dfeed000000630000003800000058000000280000001100000010000000000000000b00000020000000000000000000000000000000000000000100000000000000030000000400000000610062000000000200000009636f6d70617469626c6500 / 256 ^ (98 - a)) else 0

/-- The image of `conf@1` is compatible with `b` and that of `conf@2` with both. -/
def twoCheck (kfdt : Ptr) (s : List UInt8) : Int := if kfdt 0 = 2 ∨ s = ascii "b" then 0 else 1

example : fitConfFindCompat twoCheck twoConfsFit twoStringsFdt = some 144 := by
  decide +kernel

/-- The FIT with what libfdt finds in it. -/
def twoConfsTree : FitTree twoConfsFit where
  confs := 88
  images := 8
  nodes := [(108, 1), (144, 1)]
  confs_eq := by decide +kernel
  images_eq := by decide +kernel
  walk _ := ⟨108, 1, by decide +kernel,
    .node (by decide) (by decide) (show _ = some (144, 1) by decide +kernel)
      (.node (by decide) (by decide) (show _ = some (184, -1) by decide +kernel)
        (.stop (by decide)))⟩
  count := by decide
  readable := by
    have hread : (confFdt twoConfsFit 8 108).isSome ∧ (confFdt twoConfsFit 8 144).isSome := by
      decide +kernel
    intro node hnode _
    simp only [List.mem_cons, List.not_mem_nil, or_false] at hnode
    obtain rfl | rfl := hnode
    · exact Option.isSome_iff_exists.mp hread.1
    · exact Option.isSome_iff_exists.mp hread.2

/-- The list of the device tree. -/
def twoStrings : CompatList twoStringsFdt where
  value := twoStringsFdt.ptr 76
  len := 4
  strings := [ascii "a", ascii "b"]
  found := by
    have hfirst : fdtFirstPropertyOffset twoStringsFdt 0 = some 8 := by decide +kernel
    have hloop : (propertyLoop twoStringsFdt (ascii "compatible") iterations 8).map
        Except.toOption = some (some (64, 4)) := by
      decide +kernel
    obtain ⟨found, hfound, hsome⟩ := Option.map_eq_some_iff.mp hloop
    cases found with
    | error e => cases hsome
    | ok prop =>
      obtain rfl := Option.some.inj hsome
      rw [fdtGetprop, hfirst, Option.bind_eq_bind, Option.bind_some, hfound]
      rfl
  len_nonneg := by decide
  len_lt := by decide
  bytes := by decide +kernel
  noNul := by decide
  nonempty := by decide

theorem fitConfFindCompat_two :
    ∃ ret, fitConfFindCompat twoCheck twoConfsFit twoStringsFdt = some ret ∧ ret ≠ -1 := by
  obtain ⟨ret, hret, hnone, -⟩ := fitConfFindCompat_first twoCheck twoConfsTree twoStrings
  refine ⟨ret, hret, fun h => ?_⟩
  have hread : ((confFdt twoConfsFit 8 144).map fun kfdt => kfdt.map fun p => p 0) =
      some (some 2) := by
    decide +kernel
  obtain ⟨found, hfound, hsome⟩ := Option.map_eq_some_iff.mp hread
  obtain ⟨kfdt, rfl, hbyte⟩ := Option.map_eq_some_iff.mp hsome
  exact hnone.mp h 144 (by decide) 0 ⟨kfdt, _, hfound, rfl, if_pos (.inl hbyte)⟩

end UBoot.Fit
