import UBoot.HashTable.Refinement

/-!
# Walking over the matches

`hmatch_r` gives the next entry whose key starts with a string. It looks at the
slots below `size`, where the searches, `hwalk_r` and `hexport_r` use the slots
from 1 to `size`: an entry that its probe sequence has put into the last slot is
never matched.
-/

namespace UBoot.HashTable

open History Verification

/-- `strncmp(a, b, n) == 0` -/
def strncmpEq (a b : Str) (n : Nat) : Bool := a.take n = b.take n

/-- The loop of `hmatch_r`. -/
def hmatchLoop (text : Str) (htab : HsearchData) : Nat → Nat → Option Result
  | 0, _ => none
  | fuel + 1, idx =>
    if idx < htab.size then
      if (htab.table idx).used ≤ 0 then hmatchLoop text htab fuel (idx + 1)
      else do
        let key ← (htab.table idx).entry.key
        if strncmpEq text key text.length then return ⟨htab, idx, some idx, none⟩
        else hmatchLoop text htab fuel (idx + 1)
    else some (.failed htab .esrch)

/-- `hmatch_r` -/
def hmatchR (text : Str) (lastIdx : Nat) (htab : HsearchData) : Option Result :=
  hmatchLoop text htab (htab.size + 1) (lastIdx + 1)

/-- The loop over the matches after a slot, as in `env_complete`: the slots it
comes to. -/
def matchesFrom (text : Str) (htab : HsearchData) : Nat → Nat → Option (List Nat)
  | 0, _ => none
  | fuel + 1, idx => do
    let idx := (← hmatchR text idx htab).ret
    if idx = 0 then return []
    else return idx :: (← matchesFrom text htab fuel idx)

/-- The slot holds an entry whose key starts with the text. -/
def Matches (text : Str) (htab : HsearchData) (i : Nat) : Prop :=
  1 ≤ i ∧ i ≤ htab.size ∧ 0 < (htab.table i).used ∧
    ∃ key, (htab.table i).entry.key = some key ∧ text <+: key

/-- The iteration from 0 on ends, and visits every match once and nothing else. -/
def VisitsMatches (text : Str) (htab : HsearchData) : Prop :=
  ∃ fuel visited, matchesFrom text htab fuel 0 = some visited ∧ visited.Nodup ∧
    ∀ i, i ∈ visited ↔ Matches text htab i

variable {text : Str} {htab : HsearchData} {fuel idx : Nat}

theorem strncmpEq_iff (text key : Str) :
    strncmpEq text key text.length = true ↔ text <+: key := by
  rw [strncmpEq, decide_eq_true_eq, List.take_length, List.prefix_iff_eq_take]

/-! ### One call -/

theorem hmatchLoop_end (h : htab.size ≤ idx) :
    hmatchLoop text htab (fuel + 1) idx = some (.failed htab .esrch) := by
  rw [hmatchLoop, if_neg (Nat.not_lt.mpr h)]

theorem hmatchLoop_unused (h : idx < htab.size) (hused : (htab.table idx).used ≤ 0) :
    hmatchLoop text htab (fuel + 1) idx = hmatchLoop text htab fuel (idx + 1) := by
  rw [hmatchLoop, if_pos h, if_pos hused]

theorem hmatchLoop_noKey (h : idx < htab.size) (hused : 0 < (htab.table idx).used)
    (hkey : (htab.table idx).entry.key = none) :
    hmatchLoop text htab (fuel + 1) idx = none := by
  rw [hmatchLoop, if_pos h, if_neg (Int.not_le.mpr hused), hkey]
  rfl

theorem hmatchLoop_key (h : idx < htab.size) (hused : 0 < (htab.table idx).used) {key : Str}
    (hkey : (htab.table idx).entry.key = some key) :
    hmatchLoop text htab (fuel + 1) idx =
      if text <+: key then some ⟨htab, idx, some idx, none⟩
      else hmatchLoop text htab fuel (idx + 1) := by
  rw [hmatchLoop, if_pos h, if_neg (Int.not_le.mpr hused), hkey]
  simp only [strncmpEq_iff, Option.bind_eq_bind, Option.bind_some, Option.pure_def]

/-- The slots in use from `idx` on, without the last one, have keys. -/
def KeyedFrom (htab : HsearchData) (idx : Nat) : Prop :=
  ∀ i, idx ≤ i → i < htab.size → 0 < (htab.table i).used → (htab.table i).entry.key ≠ none

/-- The slot is passed over. -/
def Passed (text : Str) (htab : HsearchData) (i : Nat) : Prop :=
  0 < (htab.table i).used → ∃ key, (htab.table i).entry.key = some key ∧ ¬text <+: key

theorem Passed.not_matches {i : Nat} (h : Passed text htab i) : ¬Matches text htab i := by
  rintro ⟨-, -, hused, key, hkey, hstart⟩
  obtain ⟨key', hkey', hnot⟩ := h hused
  obtain rfl : key = key' := Option.some.inj (hkey.symm.trans hkey')
  exact hnot hstart

theorem Passed.key {i : Nat} (h : Passed text htab i) (hused : 0 < (htab.table i).used) :
    (htab.table i).entry.key ≠ none := by
  obtain ⟨key, hkey, -⟩ := h hused
  rw [hkey]
  exact Option.some_ne_none key

/-- A call gives the first match from the slot after `lastIdx` on, or 0. -/
theorem hmatchLoop_spec {r : Result} (h : hmatchLoop text htab fuel idx = some r) (hidx : 1 ≤ idx) :
    (r = .failed htab .esrch ∧ ∀ i, idx ≤ i → i < htab.size → Passed text htab i) ∨
      ∃ i, r = ⟨htab, i, some i, none⟩ ∧ idx ≤ i ∧ i < htab.size ∧ Matches text htab i ∧
        ∀ j, idx ≤ j → j < i → Passed text htab j := by
  induction fuel generalizing idx with
  | zero => cases h
  | succ fuel ih =>
    -- a slot that is passed over joins those that the rest of the loop passes over
    have hpass : Passed text htab idx → hmatchLoop text htab fuel (idx + 1) = some r →
        (r = .failed htab .esrch ∧ ∀ i, idx ≤ i → i < htab.size → Passed text htab i) ∨
          ∃ i, r = ⟨htab, i, some i, none⟩ ∧ idx ≤ i ∧ i < htab.size ∧ Matches text htab i ∧
            ∀ j, idx ≤ j → j < i → Passed text htab j := by
      intro hp h
      obtain ⟨hr, hrest⟩ | ⟨i, hr, hi, hlt, hmatch, hrest⟩ := ih h (Nat.le_succ_of_le hidx)
      · refine Or.inl ⟨hr, fun i hi hlt => ?_⟩
        rcases Nat.eq_or_lt_of_le hi with rfl | hi
        · exact hp
        · exact hrest i hi hlt
      · refine Or.inr ⟨i, hr, Nat.le_of_succ_le hi, hlt, hmatch, fun j hj hji => ?_⟩
        rcases Nat.eq_or_lt_of_le hj with rfl | hj
        · exact hp
        · exact hrest j hj hji
    by_cases hlt : idx < htab.size
    · by_cases hused : 0 < (htab.table idx).used
      · cases hkey : (htab.table idx).entry.key with
        | none =>
          rw [hmatchLoop_noKey hlt hused hkey] at h
          cases h
        | some key =>
          rw [hmatchLoop_key hlt hused hkey] at h
          by_cases hstart : text <+: key
          · rw [if_pos hstart, Option.some.injEq] at h
            exact Or.inr ⟨idx, h.symm, Nat.le_refl _, hlt,
              ⟨hidx, hlt.le, hused, key, hkey, hstart⟩, fun j hj hji => by omega⟩
          · rw [if_neg hstart] at h
            exact hpass (fun _ => ⟨key, hkey, hstart⟩) h
      · rw [hmatchLoop_unused hlt (Int.not_lt.mp hused)] at h
        exact hpass (fun hpos => absurd hpos hused) h
    · rw [hmatchLoop_end (Nat.not_lt.mp hlt), Option.some.injEq] at h
      exact Or.inl ⟨h.symm, fun i hi hi' => by omega⟩

/-- With keys in the slots in use, a call ends. -/
theorem hmatchLoop_isSome (hfuel : htab.size < idx + fuel) (hpos : 1 ≤ fuel)
    (hkeys : KeyedFrom htab idx) : ∃ r, hmatchLoop text htab fuel idx = some r := by
  induction fuel generalizing idx with
  | zero => cases hpos
  | succ fuel ih =>
    by_cases hlt : idx < htab.size
    · have hrest : ∃ r, hmatchLoop text htab fuel (idx + 1) = some r :=
        ih (by omega) (by omega) fun i hi => hkeys i (Nat.le_of_succ_le hi)
      by_cases hused : 0 < (htab.table idx).used
      · obtain ⟨key, hkey⟩ := Option.ne_none_iff_exists'.mp (hkeys idx (Nat.le_refl _) hlt hused)
        rw [hmatchLoop_key hlt hused hkey]
        split
        · exact ⟨_, rfl⟩
        · exact hrest
      · rw [hmatchLoop_unused hlt (Int.not_lt.mp hused)]
        exact hrest
    · exact ⟨_, hmatchLoop_end (Nat.not_lt.mp hlt)⟩

/-! ### The iteration -/

theorem matchesFrom_end (h : hmatchR text idx htab = some (.failed htab .esrch)) :
    matchesFrom text htab (fuel + 1) idx = some [] := by
  rw [matchesFrom, h]
  rfl

theorem matchesFrom_next {i : Nat} (h : hmatchR text idx htab = some ⟨htab, i, some i, none⟩)
    (hi : 1 ≤ i) :
    matchesFrom text htab (fuel + 1) idx = (matchesFrom text htab fuel i).map (i :: ·) := by
  rw [matchesFrom, h]
  simp only [Option.bind_eq_bind, Option.bind_some, if_neg (Nat.ne_of_gt hi), Option.pure_def]
  cases matchesFrom text htab fuel i <;> rfl

/-- An iteration that ends has visited the matches below the last slot, each once. -/
theorem matchesFrom_spec {visited : List Nat}
    (h : matchesFrom text htab fuel idx = some visited) :
    KeyedFrom htab (idx + 1) ∧ visited.Nodup ∧
      ∀ i, i ∈ visited ↔ idx < i ∧ i < htab.size ∧ Matches text htab i := by
  induction fuel generalizing idx visited with
  | zero => cases h
  | succ fuel ih =>
    cases hcall : hmatchR text idx htab with
    | none =>
      rw [matchesFrom, hcall] at h
      cases h
    | some r =>
      obtain ⟨rfl, hpassed⟩ | ⟨i, rfl, hi, hlt, hmatch, hpassed⟩ :=
        hmatchLoop_spec hcall (Nat.succ_pos idx)
      · rw [matchesFrom_end hcall, Option.some.injEq] at h
        subst h
        refine ⟨fun i hi hlt hused => (hpassed i hi hlt).key hused, List.nodup_nil,
          fun i => ⟨fun hmem => absurd hmem List.not_mem_nil, ?_⟩⟩
        rintro ⟨hi, hlt, hmatch⟩
        exact absurd hmatch (hpassed i hi hlt).not_matches
      · rw [matchesFrom_next hcall hmatch.1, Option.map_eq_some_iff] at h
        obtain ⟨rest, hrest, rfl⟩ := h
        obtain ⟨hkeys, hnodup, hmem⟩ := ih hrest
        refine ⟨fun j hj hlt hused => ?_, List.nodup_cons.mpr ⟨fun hin => ?_, hnodup⟩,
          fun j => ?_⟩
        · rcases Nat.lt_trichotomy j i with hji | rfl | hji
          · exact (hpassed j hj hji).key hused
          · obtain ⟨-, -, -, key, hkey, -⟩ := hmatch
            rw [hkey]
            exact Option.some_ne_none key
          · exact hkeys j hji hlt hused
        · exact absurd ((hmem i).mp hin).1 (Nat.lt_irrefl i)
        · rw [List.mem_cons, hmem]
          constructor
          · rintro (rfl | ⟨hij, hlt, hmatch'⟩)
            · exact ⟨hi, hlt, hmatch⟩
            · exact ⟨by omega, hlt, hmatch'⟩
          · rintro ⟨hj, hlt', hmatch'⟩
            rcases Nat.lt_trichotomy j i with hji | hji | hji
            · exact absurd hmatch' (hpassed j hj hji).not_matches
            · exact Or.inl hji
            · exact Or.inr ⟨hji, hlt', hmatch'⟩

theorem matchesFrom_isSome (hfuel : htab.size < idx + fuel) (hpos : 1 ≤ fuel)
    (hkeys : KeyedFrom htab (idx + 1)) :
    ∃ visited, matchesFrom text htab fuel idx = some visited := by
  induction fuel generalizing idx with
  | zero => cases hpos
  | succ fuel ih =>
    obtain ⟨r, hcall⟩ : ∃ r, hmatchR text idx htab = some r :=
      hmatchLoop_isSome (by omega) (by omega) hkeys
    obtain ⟨rfl, -⟩ | ⟨i, rfl, hi, hlt, hmatch, -⟩ := hmatchLoop_spec hcall (Nat.succ_pos idx)
    · exact ⟨[], matchesFrom_end hcall⟩
    · obtain ⟨rest, hrest⟩ : ∃ rest, matchesFrom text htab fuel i = some rest :=
        ih (by omega) (by omega) fun j hj => hkeys j (by omega)
      rw [matchesFrom_next hcall hmatch.1, hrest]
      exact ⟨_, rfl⟩

/-- The iteration visits every match once, exactly when the last slot is not one of
them and no slot before it is in use without a key. -/
theorem hmatch_visits_iff (text : Str) (htab : HsearchData) :
    VisitsMatches text htab ↔ KeyedFrom htab 1 ∧ ¬Matches text htab htab.size := by
  constructor
  · rintro ⟨fuel, visited, h, -, hall⟩
    obtain ⟨hkeys, -, hmem⟩ := matchesFrom_spec h
    refine ⟨hkeys, fun hlast => ?_⟩
    exact absurd ((hmem _).mp ((hall _).mpr hlast)).2.1 (Nat.lt_irrefl _)
  · rintro ⟨hkeys, hlast⟩
    obtain ⟨visited, h⟩ := @matchesFrom_isSome text htab (htab.size + 1) 0 (by omega)
      (by omega) hkeys
    obtain ⟨-, hnodup, hmem⟩ := matchesFrom_spec h
    refine ⟨_, visited, h, hnodup, fun i => ?_⟩
    rw [hmem]
    constructor
    · exact fun hi => hi.2.2
    · intro hi
      refine ⟨hi.1, Nat.lt_of_le_of_ne hi.2.1 ?_, hi⟩
      rintro rfl
      exact hlast hi

/-- Three keys with the same first slot: the probe sequence of the last one ends in
the last slot. -/
theorem hmatch_misses_last_slot :
    ¬∀ (calls : List Call) (htab : HsearchData) (text : Str),
      (run step (start fiveSlots) calls).htab = some htab →
        VisitsMatches text htab := by
  intro hall
  have hrun : ((run step (start fiveSlots)
      [letter 103, letter 108, letter 113]).htab.map fun htab =>
        (htab.size, (htab.table 5).used, (htab.table 5).entry.key)) = some (5, 4, some [113]) := by
    decide
  obtain ⟨htab, hhtab, hlast⟩ := Option.map_eq_some_iff.mp hrun
  simp only [Prod.mk.injEq] at hlast
  obtain ⟨hsize, hused, hkey⟩ := hlast
  obtain ⟨fuel, visited, h, -, hmem⟩ := hall _ htab [113] hhtab
  have hmatch : Matches [113] htab 5 :=
    ⟨by decide, hsize.ge, by omega, [113], hkey, List.prefix_refl _⟩
  have hlt := ((matchesFrom_spec h).2.2 5).mp ((hmem 5).mpr hmatch)
  omega

end UBoot.HashTable
