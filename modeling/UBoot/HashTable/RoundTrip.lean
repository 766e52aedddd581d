import UBoot.HashTable.Parse
import UBoot.HashTable.Table

/-!
# Importing what was exported

The import creates a new table with room for all entries and no deleted slots,
and enters what it parses one entry after another.
-/

namespace UBoot.HashTable

open OpenAddressing

/-! ### Filling a new table -/

/-- Allocations succeed and all changes are accepted. -/
structure Accepts (ctx : Context) (htab : HsearchData) : Prop where
  strdupKey : ctx.strdupKey = true
  strdupData : ctx.strdupData = true
  changeOk : ∀ f, htab.changeOk = some f → ∀ entry value op flag, f entry value op flag = false
  callback : ∀ entry cb, ctx.callbackInit entry = some cb →
    ∀ name value op flag, cb name value op flag = false

/-- A table into which exactly these entries were put, and nothing was deleted. -/
structure Grown (htab : HsearchData) (entries : List (Str × Str)) : Prop where
  consistent : Consistent htab
  noDeleted : ∀ i, (htab.table i).used ≠ -1
  filled : htab.filled = entries.length
  holds : ∀ k v, Holds htab.cells k v ↔ (k, v) ∈ entries

theorem enterNew_accepted {ctx : Context} {htab : HsearchData} (h : Accepts ctx htab)
    (key value : Str) (flag : Int) (hval idx : Nat) :
    ∃ entry found : Entry, entry.key = some key ∧ entry.data = some value ∧
      entry.callback = ctx.callbackInit found ∧
      enterNew ctx key (some value) htab flag hval idx =
        ⟨{ htab.set idx ⟨hval, entry⟩ with filled := incr32 htab.filled }, 1, some idx, none⟩ := by
  simp only [enterNew, h.strdupKey, h.strdupData, if_true]
  rw [if_neg (by simp), if_neg, if_neg]
  · exact ⟨_, _, rfl, rfl, rfl, rfl⟩
  · rw [Option.any_eq_true]
    rintro ⟨cb, hcb, hrej⟩
    rw [h.callback _ cb hcb] at hrej
    cases hrej
  · rw [Option.any_eq_true]
    rintro ⟨f, hf, hrej⟩
    rw [h.changeOk f hf] at hrej
    cases hrej

/-- Fewer entries than slots leave a slot that was never used. -/
theorem Grown.exists_unused {htab : HsearchData} {entries : List (Str × Str)}
    (h : Grown htab entries) (hlt : entries.length < htab.size) :
    ∃ i, 1 ≤ i ∧ i ≤ htab.size ∧ (htab.table i).used = 0 := by
  by_contra hnone
  simp only [not_exists, not_and] at hnone
  -- every slot is live, so its key is among the entries
  have hlive : ∀ i, 1 ≤ i → i ≤ htab.size → ∃ k v, htab.cells i = .live k v ∧
      (htab.table i).entry.key = some k := by
    intro i h1 h2
    rcases h.consistent.valid i with h0 | hdel | ⟨k, v, hk, hv, hu⟩
    · exact absurd h0 (hnone i h1 h2)
    · exact absurd hdel (h.noDeleted i)
    · exact ⟨k, v, cell_of_live hk hv hu, hk⟩
  have hcard := Finset.card_le_card_of_injOn (s := Finset.Icc 1 htab.size)
    (t := (entries.map Prod.fst).toFinset) (fun i => (htab.table i).entry.key.getD []) ?_ ?_
  · have := List.toFinset_card_le (entries.map Prod.fst)
    rw [List.length_map] at this
    simp only [Nat.card_Icc, Nat.add_sub_cancel] at hcard
    omega
  · intro i hi
    obtain ⟨h1, h2⟩ := Finset.mem_Icc.mp hi
    obtain ⟨k, v, hc, hk⟩ := hlive i h1 h2
    have hmem := (h.holds k v).mp ⟨i, hc⟩
    simp only [Finset.mem_coe, List.mem_toFinset, hk, Option.getD_some]
    exact List.mem_map.mpr ⟨(k, v), hmem, rfl⟩
  · intro i hi j hj heq
    obtain ⟨hi1, hi2⟩ := Finset.mem_Icc.mp hi
    obtain ⟨hj1, hj2⟩ := Finset.mem_Icc.mp hj
    obtain ⟨k, v, hc, hk⟩ := hlive i hi1 hi2
    obtain ⟨k', v', hc', hk'⟩ := hlive j hj1 hj2
    simp only [hk, hk', Option.getD_some] at heq
    subst heq
    exact h.consistent.sound.slot_unique hc hc'

theorem Grown.enter {ctx : Context} {htab : HsearchData} {entries : List (Str × Str)}
    (h : Grown htab entries) (hacc : Accepts ctx htab) {key : Str} (value : Str) (flag : Int)
    (hnew : ∀ v, (key, v) ∉ entries) (hlt : entries.length < htab.size) :
    ∃ r, hsearchR ctx key (some value) .enter htab flag = some r ∧
      Grown r.htab (entries ++ [(key, value)]) ∧ r.htab.size = htab.size ∧
      r.htab.changeOk = htab.changeOk := by
  have hcons := h.consistent
  have habs : Absent htab.cells key := fun i v hi => hnew v ((h.holds key v).mp ⟨i, hi⟩)
  have hunused := h.exists_unused hlt
  have hsmall : htab.size < 268435456 := by
    rcases hcons.size with hone | ⟨-, -, hlt⟩ <;> omega
  -- there is room, and the table does not count as full
  obtain ⟨idx, hidx1, hidx2, hr, hfree, hsound⟩ : ∃ idx, 1 ≤ idx ∧ idx ≤ htab.size ∧
      hsearchR ctx key (some value) .enter htab flag =
        some (enterNew ctx key (some value) htab flag (firstIndex htab.size key) idx) ∧
      (∀ k v, htab.cells idx ≠ .live k v) ∧
      Sound (path htab.size) (Function.update htab.cells idx (.live key value)) := by
    rcases hcons.enter_cases ctx flag (fun _ => Or.inr (Or.inl hunused)) value with
      ⟨i, v, hc, -⟩ | ⟨-, hfull, -⟩ | ⟨-, -, idx, hidx1, hidx2, hr, hslot⟩
    · exact absurd hc (habs i v)
    · rw [h.filled] at hfull
      omega
    · obtain ⟨-, hfree, hsound⟩ := hslot.resolve_right fun hno => hno.1 (Or.inl hunused)
      exact ⟨idx, hidx1, hidx2, hr, hfree, hsound⟩
  obtain ⟨entry, -, hk, hv, -, hresult⟩ :=
    enterNew_accepted hacc key value flag (firstIndex htab.size key) idx
  have hcell : Slot.cell ⟨firstIndex htab.size key, entry⟩ = .live key value :=
    cell_of_live hk hv rfl
  have hone := one_le_firstIndex htab.size key
  rw [hresult] at hr
  refine ⟨_, hr, ?_, rfl, rfl⟩
  · refine ⟨(hcons.set (.inr (.inr ⟨key, value, hk, hv, rfl⟩)) ⟨hidx1, hidx2⟩
        (by rwa [hcell])).filled,
      fun i => ?_, ?_, fun k v => ?_⟩
    · by_cases hi : i = idx
      · subst hi
        simp [HsearchData.set]
      · simpa [HsearchData.set, hi] using h.noDeleted i
    · simp only [incr32, h.filled, List.length_append, List.length_singleton]
      omega
    · rw [HsearchData.cells_filled, HsearchData.cells_set, hcell, holds_enter_iff hsound
        (fun k' v' hc => absurd hc (hfree k' v')), List.mem_append, List.mem_singleton, Prod.mk.injEq, ← h.holds]
      constructor
      · intro hif
        split at hif
        · rename_i hkk
          exact .inr ⟨hkk, hif⟩
        · exact .inl hif
      · rintro (hold | ⟨rfl, rfl⟩)
        · rw [if_neg]
          · exact hold
          · rintro rfl
            obtain ⟨i, hi⟩ := hold
            exact habs i v hi
        · rw [if_pos rfl]

/-! ### The whole text -/

theorem new_of_nodup {done rest : List (Str × Str)} {entry : Str × Str}
    (h : ((done ++ entry :: rest).map Prod.fst).Nodup) (v : Str) : (entry.1, v) ∉ done := by
  intro hmem
  rw [List.map_append, List.map_cons, List.nodup_append] at h
  exact h.2.2 entry.1 (List.mem_map.mpr ⟨_, hmem, rfl⟩) entry.1 List.mem_cons_self rfl

theorem importLoop_turn {ctx : Context} {sep : UInt8} (hsep : sep = 0 ∨ sep = chLf)
    (flag size : Nat) {key value : Str} (hkey : GoodKey sep key) (hvalue : GoodValue value)
    {htab : HsearchData} {done : List (Str × Str)} (hgrown : Grown htab done)
    (hacc : Accepts ctx htab) (hnew : ∀ v, (key, v) ∉ done) (hfit : done.length < htab.size)
    (fuel : Nat) (front : List UInt8) (c : UInt8) (tail : List UInt8)
    (hsize : front.length + (exportEntry sep (key, value)).length < size) :
    ∃ htab' front', Grown htab' (done ++ [(key, value)]) ∧ Accepts ctx htab' ∧
      htab'.size = htab.size ∧
      front'.length = front.length + (exportEntry sep (key, value)).length ∧
      importLoop ctx sep flag size (fuel + 1) htab []
          (front ++ (exportEntry sep (key, value) ++ c :: tail)) front.length =
        if c ≠ 0 then importLoop ctx sep flag size fuel htab' [] (front' ++ c :: tail) front'.length
        else some (.ok htab' []) := by
  obtain ⟨front', hlen, hparse⟩ := parseEntry_export hsep hkey hvalue front (c :: tail)
  obtain ⟨r, hr, hgrown', hrsize, hrok⟩ := hgrown.enter hacc value flag hnew hfit
  refine ⟨r.htab, front', hgrown', ⟨hacc.strdupKey, hacc.strdupData, ?_, hacc.callback⟩, hrsize,
    hlen, ?_⟩
  · rw [hrok]
    exact hacc.changeOk
  · rw [importLoop, hparse]
    simp only [Option.bind_eq_bind, Option.bind_some, applyParsed, dropVarFromSet, if_true, hr,
      Option.pure_def]
    rw [if_pos (by omega), getElem?_front, Option.bind_some]

/-- The loop of the import over the entries that are still to come. -/
theorem importLoop_export {ctx : Context} {sep : UInt8} (hsep : sep = 0 ∨ sep = chLf)
    (flag size : Nat) (entry : Str × Str) (rest : List (Str × Str))
    (hgood : ∀ e ∈ entry :: rest, GoodKey sep e.1 ∧ GoodValue e.2)
    {htab : HsearchData} {done : List (Str × Str)} (hgrown : Grown htab done)
    (hacc : Accepts ctx htab) (hkeys : ((done ++ entry :: rest).map Prod.fst).Nodup)
    (hfit : (done ++ entry :: rest).length ≤ htab.size) (fuel : Nat) (hfuel : rest.length < fuel)
    (front pad : List UInt8)
    (hsize : front.length + ((entry :: rest).flatMap (exportEntry sep)).length < size) :
    ∃ htab', importLoop ctx sep flag size fuel htab []
        (front ++ ((entry :: rest).flatMap (exportEntry sep) ++ 0 :: pad)) front.length =
          some (.ok htab' []) ∧ Grown htab' (done ++ entry :: rest) := by
  induction rest generalizing entry htab done fuel front with
  | nil =>
    obtain ⟨fuel, rfl⟩ : ∃ m, fuel = m + 1 := ⟨fuel - 1, by simp at hfuel; omega⟩
    obtain ⟨hkey, hvalue⟩ := hgood entry List.mem_cons_self
    simp only [List.flatMap_cons, List.flatMap_nil, List.append_nil] at hsize ⊢
    obtain ⟨htab', front', hgrown', -, -, -, hturn⟩ := importLoop_turn hsep flag size hkey
      hvalue hgrown hacc (new_of_nodup hkeys) (by simpa using hfit) fuel front 0 pad hsize
    exact ⟨htab', by rw [hturn, if_neg (by simp)], hgrown'⟩
  | cons next rest ih =>
    obtain ⟨fuel, rfl⟩ : ∃ m, fuel = m + 1 := ⟨fuel - 1, by simp at hfuel; omega⟩
    obtain ⟨key, value⟩ := entry
    have hkey : GoodKey sep key := (hgood _ List.mem_cons_self).1
    have hvalue : GoodValue value := (hgood _ List.mem_cons_self).2
    -- the text goes on with the key of the next entry
    obtain ⟨c, tail, htail, hc⟩ : ∃ c tail,
        (next :: rest).flatMap (exportEntry sep) ++ 0 :: pad = c :: tail ∧ c ≠ 0 := by
      obtain ⟨hkey', -⟩ := hgood next (by simp)
      obtain ⟨c, cs, hcs⟩ := List.exists_cons_of_ne_nil hkey'.nonempty
      refine ⟨c, _, by rw [List.flatMap_cons, exportEntry, hcs]; rfl, ?_⟩
      rintro rfl
      exact hkey'.noNul (by rw [hcs]; exact List.mem_cons_self)
    rw [List.flatMap_cons, List.length_append] at hsize
    obtain ⟨htab', front', hgrown', hacc', hsame, hlen, hturn⟩ := importLoop_turn
      hsep flag size hkey hvalue hgrown hacc (new_of_nodup hkeys) (by simp at hfit; omega) fuel
      front c tail (by omega)
    rw [List.flatMap_cons, List.append_assoc, htail, hturn, if_pos hc, ← htail]
    have happ : done ++ (key, value) :: next :: rest =
        (done ++ [(key, value)]) ++ next :: rest := by simp
    rw [happ]
    exact ih next (fun e he => hgood e (List.mem_cons_of_mem _ he)) hgrown' hacc'
      (by rwa [← happ]) (by rw [← happ, hsame]; exact hfit) fuel (by simp at hfuel; omega)
      front' (by omega)

/-- The text of a table without entries is parsed as the deletion of a variable
with an empty name. -/
theorem parseEntry_empty (sep : UInt8) (pad : List UInt8) :
    parseEntry sep (0 :: pad) 0 = some (0 :: pad, 1, .delete []) := by
  have hscan : ∀ p : UInt8 → Bool, p 0 = false → scanWhile p (0 :: pad) 0 = some 0 :=
    fun p hp => scanWhile_append [] [] 0 pad (by simp) hp
  have hname : stringAt (0 :: pad) 0 = some [] := stringAt_append [] [] pad (by simp)
  have hput : putByte (0 :: pad) 0 0 = some (0 :: pad) := putByte_front [] 0 0 pad
  rw [parseEntry, hscan _ (by decide)]
  simp only [Option.bind_eq_bind, Option.bind_some, List.getElem?_cons_zero]
  rw [if_neg (by decide), hscan _ (by simp)]
  simp [show ¬(0 : UInt8) = chEquals by decide, hput, hname]

/-- Such a text leaves the new table as it is. -/
theorem importLoop_empty {ctx : Context} (sep : UInt8) (flag size fuel : Nat)
    {htab : HsearchData} (hgrown : Grown htab []) {pad : List UInt8} (hpad : ∀ c ∈ pad, c = 0)
    (hsize : size = (0 :: pad).length) :
    importLoop ctx sep flag size (fuel + 1) htab [] (0 :: pad) 0 = some (.ok htab []) := by
  have hdelete : hdeleteR ctx [] htab flag = some (.failed htab .esrch) := by
    rcases hgrown.consistent.find_eq ctx [] none 0 with ⟨i, v, hc, -, -⟩ | ⟨-, hfind⟩
    · exact absurd ((hgrown.holds [] v).mp ⟨i, hc⟩) List.not_mem_nil
    · rw [hdeleteR, hfind]
      rfl
  rw [importLoop, parseEntry_empty]
  simp only [Option.bind_eq_bind, Option.bind_some, applyParsed, dropVarFromSet, if_true, hdelete,
    Option.pure_def, Result.failed]
  split
  · rename_i hlt
    obtain ⟨c, pad, rfl⟩ : ∃ c tail, pad = c :: tail := by
      cases pad with
      | nil => simp [hsize] at hlt
      | cons c tail => exact ⟨c, tail, rfl⟩
    rw [List.getElem?_cons_succ, List.getElem?_cons_zero, Option.bind_some,
      if_neg (by simp [hpad c])]
  · rfl

/-! ### The map of a table -/

/-- The table maps a key to a value. -/
def Stores (htab : HsearchData) (key value : Str) : Prop :=
  ∃ i, 1 ≤ i ∧ i ≤ htab.size ∧ 0 < (htab.table i).used ∧
    (htab.table i).entry.key = some key ∧ (htab.table i).entry.data = some value

/-- An environment whose names and values can be written as text. -/
structure EnvTable (sep : UInt8) (htab : HsearchData) : Prop where
  good : ∀ i, 1 ≤ i → i ≤ htab.size → 0 < (htab.table i).used → ∃ key value,
    (htab.table i).entry.key = some key ∧ (htab.table i).entry.data = some value ∧
      GoodKey sep key ∧ GoodValue value
  unique : ∀ i j, 1 ≤ i → i ≤ htab.size → 1 ≤ j → j ≤ htab.size →
    0 < (htab.table i).used → 0 < (htab.table j).used →
      (htab.table i).entry.key = (htab.table j).entry.key → i = j

/-- The slots in use, in the order of the table. -/
def HsearchData.liveSlots (htab : HsearchData) : List Nat :=
  ((List.range htab.size).map (· + 1)).filter fun i => 0 < (htab.table i).used

def HsearchData.pairAt (htab : HsearchData) (i : Nat) : Str × Str :=
  ((htab.table i).entry.key.getD [], (htab.table i).entry.data.getD [])

/-- The pairs in a table. -/
def HsearchData.entries (htab : HsearchData) : List (Str × Str) := htab.liveSlots.map htab.pairAt

theorem mem_liveSlots {htab : HsearchData} {i : Nat} :
    i ∈ htab.liveSlots ↔ 1 ≤ i ∧ i ≤ htab.size ∧ 0 < (htab.table i).used := by
  simp only [HsearchData.liveSlots, List.mem_filter, List.mem_map, List.mem_range,
    decide_eq_true_eq]
  constructor
  · rintro ⟨⟨j, hj, rfl⟩, hused⟩
    exact ⟨by omega, by omega, hused⟩
  · rintro ⟨h1, h2, hused⟩
    exact ⟨⟨i - 1, by omega, by omega⟩, hused⟩

theorem nodup_liveSlots (htab : HsearchData) : htab.liveSlots.Nodup :=
  (List.nodup_range.map fun _ _ h => Nat.succ.inj h).filter _

/-- Every slot in use holds a name and a value without NUL. -/
def Strings (htab : HsearchData) : Prop :=
  ∀ i ∈ htab.liveSlots, ∃ key value, (htab.table i).entry.key = some key ∧
    (htab.table i).entry.data = some value ∧ 0 ∉ value

/-- The variables that pass the filter and are not hidden. -/
def HsearchData.chosen (htab : HsearchData) (flag : Nat) (matched : Option (Entry → Bool)) :
    List (Str × Str) :=
  ((htab.liveSlots.filter fun i => matched.all (· (htab.table i).entry)).map htab.pairAt).filter
    fun entry => ¬(flag &&& H_HIDE_DOT ≠ 0 ∧ entry.1.head? = some chDot)

theorem Strings.pairAt {htab : HsearchData} (h : Strings htab) {i : Nat} (hi : i ∈ htab.liveSlots) :
    entryText (htab.table i) = some (htab.pairAt i) ∧ 0 ∉ (htab.pairAt i).2 := by
  obtain ⟨key, value, hk, hv, hnul⟩ := h i hi
  constructor
  · simp [entryText, HsearchData.pairAt, hk, hv]
  · simpa [HsearchData.pairAt, hv] using hnul

theorem Strings.collectEntries {htab : HsearchData} {flag : Nat}
    {matched : Option (Entry → Bool)} (h : Strings htab) :
    HashTable.collectEntries htab flag matched = some (htab.chosen flag matched) := by
  have hused : ((List.range htab.size).map fun i => htab.table (i + 1)).filter
      (fun slot => 0 < slot.used ∧ matched.all (· slot.entry)) =
        (htab.liveSlots.filter fun i => matched.all (· (htab.table i).entry)).map htab.table := by
    rw [HsearchData.liveSlots, List.filter_map, List.filter_map, List.filter_map, List.map_map,
      List.filter_filter]
    congr 1
    apply List.filter_congr
    intro i _
    simp [Bool.and_comm]
  have htext : ∀ slots : List Nat, (∀ i ∈ slots, i ∈ htab.liveSlots) →
      (slots.map htab.table).mapM entryText = some (slots.map htab.pairAt) := by
    intro slots
    induction slots with
    | nil => intro _; rfl
    | cons i slots ih =>
      intro hmem
      rw [List.map_cons, List.mapM_cons, (h.pairAt (hmem i List.mem_cons_self)).1,
        ih fun j hj => hmem j (List.mem_cons_of_mem _ hj)]
      rfl
  rw [HashTable.collectEntries]
  simp only [hused, htext _ (fun _ hi => List.mem_of_mem_filter hi), Option.bind_eq_bind,
    Option.bind_some]
  rfl

namespace EnvTable

variable {sep : UInt8} {htab : HsearchData}

theorem pairAt_spec (h : EnvTable sep htab) {i : Nat} (hi : i ∈ htab.liveSlots) :
    (htab.table i).entry.key = some (htab.pairAt i).1 ∧
      (htab.table i).entry.data = some (htab.pairAt i).2 ∧
      GoodKey sep (htab.pairAt i).1 ∧ GoodValue (htab.pairAt i).2 := by
  obtain ⟨h1, h2, hused⟩ := mem_liveSlots.mp hi
  obtain ⟨key, value, hk, hv, hkey, hvalue⟩ := h.good i h1 h2 hused
  simp only [HsearchData.pairAt, hk, hv, Option.getD_some]
  exact ⟨trivial, trivial, hkey, hvalue⟩

theorem mem_entries (h : EnvTable sep htab) {key value : Str} :
    (key, value) ∈ htab.entries ↔ Stores htab key value := by
  rw [HsearchData.entries, List.mem_map]
  constructor
  · rintro ⟨i, hi, hpair⟩
    obtain ⟨hk, hv, -, -⟩ := h.pairAt_spec hi
    obtain ⟨h1, h2, hused⟩ := mem_liveSlots.mp hi
    rw [hpair] at hk hv
    exact ⟨i, h1, h2, hused, hk, hv⟩
  · rintro ⟨i, h1, h2, hused, hk, hv⟩
    refine ⟨i, mem_liveSlots.mpr ⟨h1, h2, hused⟩, ?_⟩
    simp only [HsearchData.pairAt, hk, hv, Option.getD_some]

theorem good_entries (h : EnvTable sep htab) :
    ∀ e ∈ htab.entries, GoodKey sep e.1 ∧ GoodValue e.2 := by
  intro e he
  obtain ⟨i, hi, rfl⟩ := List.mem_map.mp he
  exact (h.pairAt_spec hi).2.2

theorem nodup_keys (h : EnvTable sep htab) : (htab.entries.map Prod.fst).Nodup := by
  rw [HsearchData.entries, List.map_map]
  refine List.Nodup.map_on ?_ (nodup_liveSlots htab)
  intro i hi j hj heq
  obtain ⟨hi1, hi2, hui⟩ := mem_liveSlots.mp hi
  obtain ⟨hj1, hj2, huj⟩ := mem_liveSlots.mp hj
  apply h.unique i j hi1 hi2 hj1 hj2 hui huj
  rw [(h.pairAt_spec hi).1, (h.pairAt_spec hj).1]
  exact congrArg some heq

/-- Pass 1 of the export collects the pairs in the table whose names are matched. -/
theorem collectEntries_matched (h : EnvTable sep htab) (matched : Option (Entry → Bool))
    (p : Str → Bool)
    (hmatched : ∀ entry key, entry.key = some key → matched.all (fun f => f entry) = p key) :
    collectEntries htab 0 matched = some (htab.entries.filter fun e => p e.1) := by
  have hmatch : ∀ i ∈ htab.liveSlots,
      matched.all (fun f => f (htab.table i).entry) = p (htab.pairAt i).1 :=
    fun i hi => hmatched _ _ (h.pairAt_spec hi).1
  have hstrings : Strings htab := fun i hi =>
    ⟨_, _, (h.pairAt_spec hi).1, (h.pairAt_spec hi).2.1, (h.pairAt_spec hi).2.2.2.noNul⟩
  rw [hstrings.collectEntries, HsearchData.chosen, List.filter_congr hmatch]
  simp [HsearchData.entries, List.filter_map, Function.comp_def]

/-- Without patterns all pairs are collected. -/
theorem collectEntries_eq (h : EnvTable sep htab) :
    collectEntries htab 0 none = some htab.entries := by
  rw [h.collectEntries_matched none (fun _ => true) (by simp), List.filter_true]

end EnvTable

/-! ### The round trip -/

/-- The size of the new table is found, and it is small. -/
theorem primeLoop_env : ∀ n < CONFIG_ENV_MAX_ENTRIES + 1, CONFIG_ENV_MIN_ENTRIES ≤ n →
    (primeLoop iterations (n ||| 1)).any (· < 1024) = true := by
  decide +kernel

/-- The table that the import of a buffer of `size` bytes creates. -/
def created (target : HsearchData) (size : Nat) : Option (Nat × HsearchData) :=
  hcreateR (min (CONFIG_ENV_MIN_ENTRIES + size / 8) CONFIG_ENV_MAX_ENTRIES) (hdestroyR target) true

theorem exists_created (target : HsearchData) (size : Nat) :
    ∃ htab, created target size = some (1, htab) := by
  obtain ⟨n, hn⟩ : ∃ n, min (CONFIG_ENV_MIN_ENTRIES + size / 8) CONFIG_ENV_MAX_ENTRIES = n :=
    ⟨_, rfl⟩
  have hbounds : n < CONFIG_ENV_MAX_ENTRIES + 1 ∧ CONFIG_ENV_MIN_ENTRIES ≤ n := by
    simp only [CONFIG_ENV_MIN_ENTRIES, CONFIG_ENV_MAX_ENTRIES] at hn ⊢
    omega
  obtain ⟨m, hm, hlt⟩ := (Option.any_eq_true ..).mp (primeLoop_env n hbounds.1 hbounds.2)
  rw [decide_eq_true_eq] at hlt
  rw [created, hn, hcreateR, if_neg (by simp [hdestroyR]), hm]
  simp only [Option.bind_eq_bind, Option.bind_some, Option.pure_def]
  rw [if_pos ⟨trivial, by simp only [ENTRY_BYTES]; omega⟩]
  exact ⟨_, rfl⟩

theorem Grown.created {target htab : HsearchData} {size : Nat}
    (h : created target size = some (1, htab)) : Grown htab [] := by
  obtain ⟨-, hfilled, -, hzero⟩ := hcreateR_sizeOk h
  refine ⟨consistent_created h, fun i => ?_, hfilled, fun k v => ⟨?_, ?_⟩⟩
  · rw [hzero]
    decide
  · rintro ⟨i, hi⟩
    rw [cells_created h] at hi
    cases hi
  · intro hmem
    cases hmem

theorem Accepts.created {ctx : Context} {target htab : HsearchData} {size : Nat}
    (hacc : Accepts ctx target) (h : created target size = some (1, htab)) : Accepts ctx htab := by
  obtain ⟨-, -, hsame, -⟩ := hcreateR_sizeOk h
  refine ⟨hacc.strdupKey, hacc.strdupData, ?_, hacc.callback⟩
  rw [hsame]
  exact hacc.changeOk

theorem Consistent.live_slot {htab : HsearchData} (h : Consistent htab) {i : Nat}
    (hused : 0 < (htab.table i).used) : ∃ k v, (htab.table i).entry.key = some k ∧
      (htab.table i).entry.data = some v ∧ htab.cells i = .live k v := by
  rcases h.valid i with h0 | hdel | ⟨k, v, hk, hv, hu⟩
  · omega
  · omega
  · exact ⟨k, v, hk, hv, cell_of_live hk hv hu⟩

theorem Consistent.unique_keys {htab : HsearchData} (h : Consistent htab) {i j : Nat}
    (hi : 0 < (htab.table i).used) (hj : 0 < (htab.table j).used)
    (heq : (htab.table i).entry.key = (htab.table j).entry.key) : i = j := by
  obtain ⟨k, v, hk, -, hc⟩ := h.live_slot hi
  obtain ⟨k', v', hk', -, hc'⟩ := h.live_slot hj
  obtain rfl : k = k' := by simpa [hk, hk'] using heq
  exact h.sound.slot_unique hc hc'

theorem Consistent.stores_iff {htab : HsearchData} (h : Consistent htab) {k v : Str} :
    Stores htab k v ↔ Holds htab.cells k v := by
  constructor
  · rintro ⟨i, -, -, hused, hk, hv⟩
    obtain ⟨k', v', hk', hv', hc⟩ := h.live_slot hused
    obtain rfl : k = k' := by simpa [hk] using hk'
    obtain rfl : v = v' := by simpa [hv] using hv'
    exact ⟨i, hc⟩
  · rintro ⟨i, hc⟩
    obtain ⟨hk, hv, hu⟩ := (h.valid i).live hc
    have hone := one_le_firstIndex htab.size k
    obtain ⟨h1, h2⟩ := h.inside i (by omega)
    exact ⟨i, h1, h2, by omega, hk, hv⟩

/-- A table grown from an environment is an environment with the same pairs. -/
theorem Grown.envTable {sep : UInt8} {htab : HsearchData} {entries : List (Str × Str)}
    (h : Grown htab entries) (hgood : ∀ e ∈ entries, GoodKey sep e.1 ∧ GoodValue e.2) :
    EnvTable sep htab ∧ ∀ k v, Stores htab k v ↔ (k, v) ∈ entries := by
  refine ⟨⟨fun i _ _ hused => ?_, fun i j _ _ _ _ => h.consistent.unique_keys⟩, fun k v => ?_⟩
  · obtain ⟨k, v, hk, hv, hc⟩ := h.consistent.live_slot hused
    exact ⟨k, v, hk, hv, hgood (k, v) ((h.holds k v).mp ⟨i, hc⟩)⟩
  · rw [h.consistent.stores_iff, h.holds]

/-- The length of the buffer that the export fills. -/
def bufferSize (sep : UInt8) (entries : List (Str × Str)) (size : Nat) : Nat :=
  if size = 0 then (entries.map (reservedLength sep)).sum + 1 else size

/-- A buffer that takes the text and satisfies the check in pass 1. -/
def LargeEnough (sep : UInt8) (entries : List (Str × Str)) (size : Nat) : Prop :=
  (entries.map (reservedLength sep)).sum < bufferSize sep entries size ∧
    (exportText sep entries).length ≤ bufferSize sep entries size

theorem hexportR_eq {sep : UInt8} {htab : HsearchData} (h : EnvTable sep htab) {size : Nat}
    (hlarge : LargeEnough sep htab.entries size) :
    hexportR htab sep 0 none size true = some (.ok (exportText sep htab.entries ++
      List.replicate (bufferSize sep htab.entries size - (exportText sep htab.entries).length)
        0)) := by
  obtain ⟨hreserved, htext⟩ := hlarge
  simp only [bufferSize] at hreserved htext ⊢
  rw [hexportR, h.collectEntries_eq]
  simp only [Option.bind_eq_bind, Option.bind_some, Option.pure_def, Bool.not_true]
  rw [if_neg (by rintro ⟨hne, hlt⟩; rw [if_neg hne] at hreserved; omega), if_neg (by simp),
    if_pos htext]

theorem length_le_flatMap (sep : UInt8) (entries : List (Str × Str)) :
    entries.length ≤ (entries.flatMap (exportEntry sep)).length := by
  induction entries with
  | nil => simp
  | cons entry entries ih =>
    have hpos : 0 < (exportEntry sep entry).length := by simp [exportEntry]
    rw [List.flatMap_cons, List.length_append, List.length_cons]
    omega

theorem importLoop_text {ctx : Context} {sep : UInt8} (hsep : sep = 0 ∨ sep = chLf) (flag : Nat)
    {new : HsearchData} (hgrown : Grown new []) (hacc : Accepts ctx new)
    {entries : List (Str × Str)} (hgood : ∀ e ∈ entries, GoodKey sep e.1 ∧ GoodValue e.2)
    (hkeys : (entries.map Prod.fst).Nodup) (hfit : entries.length ≤ new.size)
    (pad : List UInt8) (hpad : entries = [] → ∀ c ∈ pad, c = 0) (size : Nat)
    (hsize : size = (entries.flatMap (exportEntry sep) ++ 0 :: pad).length) :
    ∃ htab', importLoop ctx sep flag size (size + 1) new []
        (entries.flatMap (exportEntry sep) ++ 0 :: pad) 0 = some (.ok htab' []) ∧
      Grown htab' entries := by
  cases entries with
  | nil => exact ⟨new, importLoop_empty sep flag size size hgrown (hpad rfl) hsize, hgrown⟩
  | cons entry rest =>
    have hlen := length_le_flatMap sep rest
    rw [List.flatMap_cons, List.append_assoc, List.length_append, List.length_append,
      List.length_cons] at hsize
    exact importLoop_export hsep flag size entry rest hgood hgrown hacc hkeys hfit (size + 1)
      (by omega) [] pad (by rw [List.flatMap_cons, List.length_append, List.length_nil]; omega)

/-- Importing an exported text, whatever follows it when it has an entry. -/
theorem himportR_text {sep : UInt8} (hsep : sep = 0 ∨ sep = chLf) {entries : List (Str × Str)}
    (hgood : ∀ e ∈ entries, GoodKey sep e.1 ∧ GoodValue e.2)
    (hkeys : (entries.map Prod.fst).Nodup) (pad : List UInt8)
    (hpad : entries = [] → ∀ c ∈ pad, c = 0) {ctx : Context} {target : HsearchData}
    (hacc : Accepts ctx target) {flag : Nat} (hflag : flag &&& H_NOCLEAR = 0)
    (hfit : ∀ new, created target (exportText sep entries ++ pad).length = some (1, new) →
      entries.length ≤ new.size) :
    ∃ htab', himportR ctx target (exportText sep entries ++ pad) sep flag false [] true true =
        some (1, htab') ∧ EnvTable sep htab' ∧
      ∀ key value, Stores htab' key value ↔ (key, value) ∈ entries := by
  obtain ⟨new, hnew⟩ := exists_created target (exportText sep entries ++ pad).length
  obtain ⟨sorted, hsorted⟩ : ∃ l, qsort (fun a b => strcmp a.1 b.1) entries = l := ⟨_, rfl⟩
  have hperm : sorted.Perm entries := hsorted ▸ qsort_perm _ _
  have hgood' : ∀ e ∈ sorted, GoodKey sep e.1 ∧ GoodValue e.2 :=
    fun e he => hgood e (hperm.mem_iff.mp he)
  have hbuf : exportText sep entries ++ pad = sorted.flatMap (exportEntry sep) ++ 0 :: pad := by
    simp [exportText, hsorted]
  have hfit' := hfit new hnew
  obtain ⟨htab', hloop, hgrown⟩ := importLoop_text hsep flag (Grown.created hnew)
    (hacc.created hnew) hgood' ((hperm.map Prod.fst).nodup_iff.mpr hkeys)
    (by rw [hperm.length_eq]; exact hfit') pad
    (fun h => hpad (List.perm_nil.mp (h ▸ hperm.symm))) _ rfl
  obtain ⟨henv', hstores⟩ := hgrown.envTable hgood'
  refine ⟨htab', ?_, henv', fun key value => ?_⟩
  · have hcreate := hnew
    rw [created] at hcreate
    rw [himportR]
    simp only [Bool.not_true, hflag, if_true, Option.pure_def, Option.bind_eq_bind]
    rw [if_neg (by simp), if_neg (by simp [hdestroyR]), hcreate]
    simp only [Option.bind_some]
    rw [if_neg (by simp), if_neg (by rw [hbuf]; simp), if_neg (by simp)]
    simp only [List.map_nil, Nat.sub_zero, hbuf, hloop, Option.bind_some]
    simp [deleteRest]
  · rw [hstores, hperm.mem_iff]

/-- Importing what was exported gives the same map. -/
theorem himportR_hexportR (sep : UInt8) (hsep : sep = 0 ∨ sep = chLf) (htab : HsearchData)
    (henv : EnvTable sep htab) (size : Nat) (hlarge : LargeEnough sep htab.entries size)
    (ctx : Context) (target : HsearchData) (hacc : Accepts ctx target) (flag : Nat)
    (hflag : flag &&& H_NOCLEAR = 0)
    (hfit : ∀ new, created target (bufferSize sep htab.entries size) = some (1, new) →
      htab.entries.length ≤ new.size) :
    ∃ buf htab', hexportR htab sep 0 none size true = some (.ok buf) ∧
      himportR ctx target buf sep flag false [] true true = some (1, htab') ∧
      EnvTable sep htab' ∧ ∀ key value, Stores htab' key value ↔ Stores htab key value := by
  obtain ⟨pad, hpad⟩ : ∃ pad, List.replicate (bufferSize sep htab.entries size -
    (exportText sep htab.entries).length) (0 : UInt8) = pad := ⟨_, rfl⟩
  have hlength : (exportText sep htab.entries ++ pad).length = bufferSize sep htab.entries size := by
    have htext := hlarge.2
    rw [← hpad, List.length_append, List.length_replicate]
    omega
  have hexport := hexportR_eq henv hlarge
  rw [hpad] at hexport
  obtain ⟨htab', himport, henv', hstores⟩ := himportR_text hsep henv.good_entries henv.nodup_keys
    pad (fun _ c hc => List.eq_of_mem_replicate (hpad ▸ hc)) hacc hflag (by rwa [hlength])
  refine ⟨_, htab', hexport, himport, henv', fun key value => ?_⟩
  rw [hstores, henv.mem_entries]

/-- Two variables; the first value has both bytes that are escaped. -/
def twoVariables : HsearchData where
  active := true
  table i :=
    if i = 1 then ⟨1, some [97], some [chLf, chBackslash], none, 0⟩
    else if i = 3 then ⟨3, some [98], some [chEquals], none, 0⟩
    else Slot.zero
  size := 5
  filled := 2
  changeOk := none

def acceptAll : Context := ⟨true, true, fun _ => none, fun _ => 0⟩

theorem twoVariables_live {i : Nat} (h : 0 < (twoVariables.table i).used) : i = 1 ∨ i = 3 := by
  by_contra hne
  rw [not_or] at hne
  simp [twoVariables, hne.1, hne.2, Slot.zero] at h

theorem himportR_hexportR_two : ∃ buf htab',
    hexportR twoVariables chLf 0 none 0 true = some (.ok buf) ∧
      himportR acceptAll twoVariables buf chLf 0 false [] true true = some (1, htab') ∧
      EnvTable chLf htab' ∧
      ∀ key value, Stores htab' key value ↔ Stores twoVariables key value := by
  refine himportR_hexportR chLf (.inr rfl) twoVariables ⟨?_, ?_⟩ 0
    ⟨by decide, by decide⟩ acceptAll twoVariables ⟨rfl, rfl, ?_, ?_⟩ 0 rfl ?_
  · intro i _ _ hused
    rcases twoVariables_live hused with rfl | rfl
    · exact ⟨[97], [chLf, chBackslash], rfl, rfl, ⟨by decide, by decide, by decide, by decide,
        by simp; decide⟩, by decide, by decide⟩
    · exact ⟨[98], [chEquals], rfl, rfl, ⟨by decide, by decide, by decide, by decide,
        by simp; decide⟩, by decide, by decide⟩
  · intro i j _ _ _ _ hi hj heq
    rcases twoVariables_live hi with rfl | rfl <;> rcases twoVariables_live hj with rfl | rfl
    · rfl
    · cases heq
    · cases heq
    · rfl
  · intro f hf
    cases hf
  · intro entry cb hcb
    cases hcb
  · have hsize : ((created twoVariables (bufferSize chLf twoVariables.entries 0)).all
        fun p => twoVariables.entries.length ≤ p.2.size) = true := by decide
    intro new hnew
    rw [hnew] at hsize
    simpa using hsize

end UBoot.HashTable
