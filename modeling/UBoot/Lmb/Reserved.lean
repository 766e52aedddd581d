import UBoot.Lmb.Operations
import UBoot.Verification.Run

/-!
# The reserved table over histories of `lmb_reserve` and `lmb_free`

The abstract state is the set of addresses that have been reserved and not
freed since. The table refines it along every history that never reserves on
an emptied table: once the last region is gone, `cnt` is 0 instead of the 1 of
the dummy region, and `lmb_add_region` compares the block with stale entries.
-/

namespace UBoot.Lmb

open Verification

/-- The regions a reader of the table sees; the dummy of `lmb_init` is none. -/
def LmbRegion.regions (rgn : LmbRegion) : List LmbProperty :=
  if rgn.cnt = 1 ∧ (rgn.region 0).size = 0 then [] else (List.range rgn.cnt).map rgn.region

inductive Call where
  | reserve (base size : Nat)
  | free (base size : Nat)

def Call.perform (rgn : LmbRegion) : Call → Option (Int × LmbRegion)
  | .reserve base size => lmbReserve rgn base size
  | .free base size => lmbFree rgn base size

/-- The table, `none` after an access out of bounds, and the reserved set. -/
structure History where
  table : Option LmbRegion
  reserved : Nat → Prop

def History.step (h : History) (call : Call) : History where
  table := h.table.bind fun rgn => (call.perform rgn).map Prod.snd
  reserved :=
    match call with
    | .reserve base size => fun a => h.reserved a ∨ (base ≤ a ∧ a < base + size)
    | .free base size => fun a => h.reserved a ∧ ¬(base ≤ a ∧ a < base + size)

def History.start : History where
  table := some lmbInit
  reserved := fun _ => False

/-- Blocks that are reserved are new and do not wrap; blocks that are freed
are reserved. -/
def Legal (h : History) : Call → Prop
  | .reserve base size => 0 < size ∧ base + size < 4294967296 ∧
      ∀ a, base ≤ a → a < base + size → ¬h.reserved a
  | .free base size => base < 4294967296 ∧ ∀ a, base ≤ a → a < base + size → h.reserved a

/-- The call does not report -1. -/
def NoError (h : History) (call : Call) : Prop :=
  ∀ rgn ret rgn', h.table = some rgn → call.perform rgn = some (ret, rgn') → ret ≠ -1

/-- A block reserved on an emptied table starts below the region that stood in
its first entry, and the first two stale entries do not touch each other. -/
def Recordable (h : History) : Call → Prop
  | .reserve base _ => ∀ rgn, h.table = some rgn → rgn.cnt ≠ 0 ∨
      (base < (rgn.region 0).base ∧ lmbRegionsAdjacent rgn.region 0 1 = 0)
  | .free _ _ => True

/-- The table shows the reserved set. -/
structure Shows (rgn : LmbRegion) (reserved : Nat → Prop) : Prop where
  good : Good rgn.regions
  covers : ∀ a, Covers rgn.regions a ↔ reserved a

theorem Table.regions_eq {rgn : LmbRegion} {L : List LmbProperty} (ht : Table rgn L)
    (hg : Good L) : rgn.regions = L := by
  rw [LmbRegion.regions, if_neg (ht.not_dummy hg)]
  apply List.ext_getElem?
  intro i
  by_cases hi : i < L.length
  · simp [ht.cnt, hi, ht.entry i _ (List.getElem?_eq_getElem hi)]
  · simp [ht.cnt, hi]

/-- The state of the table along a history. -/
inductive State (rgn : LmbRegion) (reserved : Nat → Prop) : Prop where
  | dummy (cnt : rgn.cnt = 1) (entry : rgn.region 0 = ⟨0, 0⟩) (none : ∀ a, ¬reserved a)
  | regions (L : List LmbProperty) (table : Table rgn L) (good : Good L)
      (max : L.length ≤ MAX_LMB_REGIONS) (covers : ∀ a, Covers L a ↔ reserved a)

theorem State.shows {rgn : LmbRegion} {reserved : Nat → Prop} (h : State rgn reserved) :
    Shows rgn reserved := by
  cases h with
  | dummy cnt entry none =>
    have : rgn.regions = [] := by simp [LmbRegion.regions, cnt, entry]
    exact ⟨this ▸ Good.nil, by simp [this, none]⟩
  | regions L table good max covers =>
    have := table.regions_eq good
    exact ⟨this ▸ good, this ▸ covers⟩

theorem Leaves.state {result : Option (Int × LmbRegion)} {covered : Nat → Prop}
    (h : Leaves result covered) (noError : ∀ ret rgn, result = some (ret, rgn) → ret ≠ -1) :
    ∃ rgn, result.map Prod.snd = some rgn ∧ State rgn covered := by
  obtain ⟨ret, rgn, rfl, hleaves⟩ := h
  obtain ⟨L, table, good, max, covers⟩ := hleaves (noError ret rgn rfl)
  exact ⟨rgn, rfl, .regions L table good max covers⟩

theorem Leaves.congr {result : Option (Int × LmbRegion)} {covered covered' : Nat → Prop}
    (h : Leaves result covered) (iff : ∀ a, covered a ↔ covered' a) : Leaves result covered' := by
  obtain ⟨ret, rgn, hresult, hleaves⟩ := h
  refine ⟨ret, rgn, hresult, fun hret => ?_⟩
  obtain ⟨L, table, good, max, covers⟩ := hleaves hret
  exact ⟨L, table, good, max, fun a => (covers a).trans (iff a)⟩

/-- Two blocks without a common address lie apart. -/
theorem free_of_uncovered {L : List LmbProperty} {base size : Nat} (hg : Good L)
    (hsize : 0 < size) (h : ∀ a, base ≤ a → a < base + size → ¬Covers L a) :
    Free L base size := by
  intro x hx
  have hpos := hg.pos x hx
  by_contra hcon
  exact h (max base x.base) (by omega) (by omega) ⟨x, hx, by omega, by omega⟩

theorem reserve_state {rgn : LmbRegion} {reserved : Nat → Prop} (h : State rgn reserved)
    {base size : Nat} (hsize : 0 < size) (hblock : base + size < 4294967296)
    (hnew : ∀ a, base ≤ a → a < base + size → ¬reserved a)
    (hrec : rgn.cnt ≠ 0 ∨
      (base < (rgn.region 0).base ∧ lmbRegionsAdjacent rgn.region 0 1 = 0)) :
    Leaves (lmbReserve rgn base size)
      (fun a => reserved a ∨ (base ≤ a ∧ a < base + size)) := by
  cases h with
  | dummy cnt entry none =>
    refine ⟨0, rgn.set 0 ⟨base, size⟩, by simp [lmbReserve, lmbAddRegion, cnt, entry],
      fun _ => ⟨[⟨base, size⟩], ⟨by simpa [LmbRegion.set] using cnt, ?_⟩,
        ⟨by simp, by simpa using hsize, by simpa using hblock⟩, by simp [MAX_LMB_REGIONS],
        by simp [none]⟩⟩
    intro i x hx
    cases i with
    | zero => simpa [LmbRegion.set] using hx
    | succ i => simp at hx
  | regions L table good max covers =>
    by_cases hne : L = []
    · subst hne
      obtain ⟨hbase, hstale⟩ := hrec.resolve_left (by simpa using table.cnt)
      exact (add_to_empty table hbase hstale hsize hblock).congr
        (fun a => by simp [← covers a])
    · have hfree := free_of_uncovered good hsize
        (fun a h1 h2 => (not_congr (covers a)).mpr (hnew a h1 h2))
      exact (lmbAddRegion_spec table good hne max hfree hsize hblock).congr
        (fun a => by simp only [covers a])

theorem free_state {rgn : LmbRegion} {reserved : Nat → Prop} (h : State rgn reserved)
    {base size : Nat} (hbase : base < 4294967296)
    (hold : ∀ a, base ≤ a → a < base + size → reserved a) :
    Leaves (lmbFree rgn base size)
      (fun a => reserved a ∧ ¬(base ≤ a ∧ a < base + size)) := by
  cases h with
  | dummy cnt entry none =>
    have hsize : size = 0 := by
      by_contra hne
      exact none base (hold base (Nat.le_refl _) (by omega))
    subst hsize
    by_cases h0 : base = 0
    · subst h0
      refine ⟨0, ⟨0, rgn.region⟩, ?_, fun _ => ⟨[], ⟨rfl, by simp⟩, Good.nil, by simp,
        by simp [none]⟩⟩
      simp [lmbFree, findRegion, cnt, entry, add32, sub32, lmbRemoveRegion, removeLoop]
    · refine ⟨-1, rgn, ?_, fun h => absurd rfl h⟩
      simp [lmbFree, findRegion, cnt, entry, add32, Nat.mod_eq_of_lt hbase, h0]
  | regions L table good max covers =>
    have hblock : base + size < 4294967296 := by
      by_cases h0 : size = 0
      · omega
      · obtain ⟨x, hx, -, hlt⟩ := (covers _).mpr (hold (base + size - 1) (by omega) (by omega))
        have := good.fits x hx
        omega
    exact (lmbFree_spec table good max hblock).congr (fun a => by simp only [covers a])

/-- One call keeps the table in step with the reserved set. -/
theorem step_state {h : History} {call : Call}
    (hs : ∃ rgn, h.table = some rgn ∧ State rgn h.reserved)
    (ok : Legal h call ∧ NoError h call ∧ Recordable h call) :
    ∃ rgn, (h.step call).table = some rgn ∧ State rgn (h.step call).reserved := by
  obtain ⟨rgn, htable, hstate⟩ := hs
  obtain ⟨legal, noError, recordable⟩ := ok
  have hstep : (h.step call).table = (call.perform rgn).map Prod.snd := by
    simp [History.step, htable]
  rw [hstep]
  cases call with
  | reserve base size =>
    exact (reserve_state hstate legal.1 legal.2.1 legal.2.2 (recordable rgn htable)).state
      (fun ret rgn' hr => noError rgn ret rgn' htable hr)
  | free base size =>
    exact (free_state hstate legal.1 legal.2).state
      (fun ret rgn' hr => noError rgn ret rgn' htable hr)

/-- Along every history of legal calls without an error and without a
reservation lost on an emptied table, the table is sorted, its regions are
disjoint and non-empty, and they hold exactly the reserved addresses. -/
theorem reserved_table_exact (calls : List Call)
    (ok : Guarded History.step (fun h call => Legal h call ∧ NoError h call ∧ Recordable h call)
      History.start calls) :
    ∃ rgn, (run History.step History.start calls).table = some rgn ∧
      Shows rgn (run History.step History.start calls).reserved := by
  obtain ⟨rgn, htable, hstate⟩ := ok.invariant
    (I := fun h => ∃ rgn, h.table = some rgn ∧ State rgn h.reserved)
    (fun _ _ hs hok => step_state hs hok)
    ⟨lmbInit, rfl, .dummy rfl rfl (fun _ h => h)⟩
  exact ⟨rgn, htable, hstate.shows⟩

/-- The value a call returns on the table of a history. -/
def Call.ret (call : Call) (h : History) : Option Int :=
  h.table.bind fun rgn => (call.perform rgn).map Prod.fst

theorem NoError.of_ret {h : History} {call : Call} (ret : Int) (hret : call.ret h = some ret)
    (hne : ret ≠ -1) : NoError h call := by
  intro rgn ret' rgn' htable hperform
  simp only [Call.ret, htable, Option.bind_some, hperform, Option.map_some,
    Option.some.injEq] at hret
  rw [hret]
  exact hne

/-- Two touching blocks are coalesced, and the merged region is split again. -/
theorem reserved_table_split :
    ∃ rgn, (run History.step History.start
        [.reserve 4096 256, .reserve 4352 256, .free 4224 256]).table = some rgn ∧
      Shows rgn (run History.step History.start
        [.reserve 4096 256, .reserve 4352 256, .free 4224 256]).reserved := by
  apply reserved_table_exact
  refine ⟨⟨?_, NoError.of_ret 0 (by decide) (by decide), ?_⟩,
    ⟨?_, NoError.of_ret 1 (by decide) (by decide), ?_⟩,
    ⟨?_, NoError.of_ret 0 (by decide) (by decide), trivial⟩, trivial⟩
  · simp [Legal, History.start]
  · rintro rgn ⟨⟩
    exact Or.inl (by decide)
  · simp only [Legal, History.step, History.start, false_or]
    exact ⟨by decide, by decide, fun a h1 h2 => by omega⟩
  · rintro rgn ⟨⟩
    exact Or.inl (by decide)
  · simp only [Legal, History.step, History.start]
    exact ⟨by decide, fun a h1 h2 => by omega⟩

/-- After the only region is freed, a block above it is not recorded: the table
shows the freed region again. -/
theorem reserve_lost_after_last_free :
    ¬∀ calls, Guarded History.step (fun h call => Legal h call ∧ NoError h call)
        History.start calls →
      ∃ rgn, (run History.step History.start calls).table = some rgn ∧
        Shows rgn (run History.step History.start calls).reserved := by
  intro h
  obtain ⟨rgn, htable, hshows⟩ := h
    [.reserve 4096 256, .free 4096 256, .reserve 8192 256] (by
      refine ⟨⟨?_, NoError.of_ret 0 (by decide) (by decide)⟩,
        ⟨?_, NoError.of_ret 0 (by decide) (by decide)⟩,
        ⟨?_, NoError.of_ret 0 (by decide) (by decide)⟩, trivial⟩
      · simp [Legal, History.start]
      · simp only [Legal, History.step, History.start]
        exact ⟨by decide, fun a h1 h2 => by omega⟩
      · simp only [Legal, History.step, History.start, false_or]
        exact ⟨by decide, by decide, fun a h1 h2 => by omega⟩)
  have hregions : rgn.regions = [⟨4096, 256⟩] := by
    have : (run History.step History.start
        [.reserve 4096 256, .free 4096 256, .reserve 8192 256]).table.map LmbRegion.regions =
        some [⟨4096, 256⟩] := by decide
    rw [htable] at this
    simpa using this
  have hmem : Covers rgn.regions 8192 := (hshows.covers 8192).mpr (Or.inr (by omega))
  simp [hregions] at hmem

end UBoot.Lmb
