import UBoot.Env.Flags.Basic
import UBoot.Verification.Run

/-!
# Flags and the current lists

The flags of a variable are to be those that its name has in the value of `.flags`, or
else in the static list. The callback of `.flags` brings this about for all variables.
A variable that is created gets the flags of the list cached at the first call, which
are the right ones as long as that list has the entry that `.flags` has.
-/

namespace UBoot.Env.Flags

open HashTable (Str EnvOp)
open Verification

/-! ### The flags a name is given -/

/-- What a list has for a name. -/
def entryFor (name : Str) (list : Option Str) : Option (Option Str) :=
  list.bind fun list => lastOf name (envAttrWalk list)

/-- The flags for the attributes of an entry. -/
def flagsOf (attributes : Option Str) : Nat :=
  if attributes.getD [] = [] then 0 else envParseFlagsToBin (attributes.getD [])

/-- The flags of a name in a list, or else in the static list. -/
def givenFlags (config : Config) (list : Option Str) (name : Str) : Nat :=
  (((entryFor name list).or (entryFor name (some config.staticList))).map flagsOf).getD 0

/-- Every variable has the flags that the current value of `.flags` gives to its name. -/
def FlagsAgree (config : Config) (env : State) : Prop :=
  ∀ name var, env.vars name = some var → var.flags = givenFlags config env.flagsText name

/-- A list of the form that `env_attr.h` describes, with flags for attributes. -/
structure Documented (list : Str) : Prop where
  plain : PlainList list
  nul : 0 ∉ list
  short : ∀ entry ∈ envAttrWalk list, (entry.2.getD []).length ≤ ATTR_MAX_LEN

theorem documented_iff {list : Str} :
    (list.all (!isspace ·) ∧ 0 ∉ list ∧
        (envAttrWalk list).all fun entry => (entry.2.getD []).length ≤ ATTR_MAX_LEN) ↔
      Documented list := by
  simp only [List.all_eq_true, Bool.not_eq_true', decide_eq_true_eq]
  exact ⟨fun h => ⟨h.1, h.2.1, h.2.2⟩, fun h => ⟨h.plain, h.nul, h.short⟩⟩

instance (list : Str) : Decidable (Documented list) := decidable_of_iff _ documented_iff

instance (name : Str) : Decidable (PlainName name) :=
  decidable_of_iff (name ≠ [] ∧ comma ∉ name ∧ colon ∉ name)
    ⟨fun h => ⟨h.1, h.2.1, h.2.2⟩, fun h => ⟨h.ne_nil, h.comma, h.colon⟩⟩

/-- A variable is created only under a name that an entry can have, while the list
behind `flags_list` is well formed and has the same for that name as `.flags` has. -/
def CachedCurrent (env : State) : Surroundings × Op → Prop
  | (sur, .set name value _) => env.vars name = none →
      PlainName name ∧ (∀ list ∈ (env.entered name value).cachedText sur, Documented list) ∧
        (name ≠ flagsVar →
          entryFor name ((env.entered name value).cachedText sur) = entryFor name env.flagsText)
  | (_, .delete _ _) => True

instance (env : State) : (act : Surroundings × Op) → Decidable (CachedCurrent env act)
  | (sur, .set name value _) => inferInstanceAs (Decidable (env.vars name = none →
      PlainName name ∧ (∀ list ∈ (env.entered name value).cachedText sur, Documented list) ∧
        (name ≠ flagsVar →
          entryFor name ((env.entered name value).cachedText sur) = entryFor name env.flagsText)))
  | (_, .delete _ _) => .isTrue trivial

/-! ### The callback -/

section Callback

variable {config : Config} {vars : Str → Option Var} {name : Str}

theorem foldl_setFlags (entries : List (Str × Option Str)) (vars : Str → Option Var) :
    (entries.foldl setFlags vars) name =
      (vars name).map fun var =>
        { var with flags := ((lastOf name entries).map flagsOf).getD var.flags } := by
  induction entries generalizing vars with
  | nil => cases h : vars name <;> simp [lastOf, h]
  | cons entry entries ih =>
    obtain ⟨key, attributes⟩ := entry
    rw [List.foldl_cons, ih, setFlags, Option.map_map]
    congr 1
    funext var
    by_cases hkey : name = key
    · subst hkey
      cases h : lastOf name entries <;> simp [lastOf, h, flagsOf]
    · cases h : lastOf name entries <;> simp [lastOf, h, hkey, Ne.symm hkey]

theorem onFlags_apply (value : Option Str) :
    onFlags config vars value name =
      (vars name).map fun var => { var with flags := givenFlags config value name } := by
  have hstatic : ((envAttrWalk config.staticList).foldl setFlags (clearFlags vars)) name =
      (vars name).map fun var =>
        { var with
          flags := ((lastOf name (envAttrWalk config.staticList)).map flagsOf).getD 0 } := by
    rw [foldl_setFlags, clearFlags, Option.map_map]
    rfl
  cases value with
  | none => exact hstatic
  | some value =>
    rw [onFlags, foldl_setFlags, hstatic, Option.map_map]
    congr 1
    funext var
    cases h : lastOf name (envAttrWalk value) <;> simp [givenFlags, entryFor, h]

end Callback

/-! ### A new variable -/

section Lookup

variable {config : Config} {list name : Str}

theorem lastOf_mem {entries : List (Str × Option Str)} {attributes : Option Str}
    (h : lastOf name entries = some attributes) : (name, attributes) ∈ entries := by
  induction entries with
  | nil => simp [lastOf] at h
  | cons entry entries ih =>
    obtain ⟨key, value⟩ := entry
    rw [lastOf] at h
    cases hrest : lastOf name entries with
    | some found =>
      rw [hrest, Option.some_or] at h
      exact List.mem_cons_of_mem _ (ih (hrest.trans h))
    | none =>
      rw [hrest, Option.none_or] at h
      split at h
      · next hkey =>
        obtain rfl := Option.some.inj h
        exact hkey ▸ List.mem_cons_self
      · cases h

theorem Documented.lookup (h : Documented list) (hname : PlainName name) (before : UInt8) :
    envAttrLookup before list name = (entryFor name (some list)).map (·.getD []) :=
  envAttrLookup_eq h.plain h.nul hname before

theorem Documented.entry_short (h : Documented list) {attributes : Option Str}
    (hentry : entryFor name (some list) = some attributes) :
    (attributes.getD []).length ≤ ATTR_MAX_LEN :=
  h.short _ (lastOf_mem hentry)

/-- `env_flags_init` finds the flags that the cached list gives. -/
theorem initialFlags_eq (hstatic : Documented config.staticList) (sur : Surroundings)
    {cached : Option Str} (hcached : ∀ list ∈ cached, Documented list) (hname : PlainName name) :
    initialFlags config sur cached name = some (givenFlags config cached name) := by
  have hlookup : envFlagsLookup config sur cached name =
      ((entryFor name cached).or (entryFor name (some config.staticList))).map (·.getD []) := by
    rw [envFlagsLookup, hstatic.lookup hname]
    cases cached with
    | none => rfl
    | some list =>
      rw [Option.bind_some, (hcached list rfl).lookup hname]
      cases entryFor name (some list) <;> simp
  have hshort : ∀ attributes,
      (entryFor name cached).or (entryFor name (some config.staticList)) = some attributes →
      (attributes.getD []).length ≤ ATTR_MAX_LEN := by
    intro attributes h
    rcases Option.or_eq_some_iff.mp h with h | ⟨-, h⟩
    · cases cached with
      | none => cases h
      | some list => exact (hcached list rfl).entry_short h
    · exact hstatic.entry_short h
  rw [initialFlags, hlookup, givenFlags]
  cases h : (entryFor name cached).or (entryFor name (some config.staticList)) with
  | none => rfl
  | some attributes =>
    have hle := hshort attributes h
    simp only [Option.map_some, Option.getD_some]
    rw [if_neg (Nat.not_lt.mpr hle), flagsOf]
    split <;> rfl

end Lookup

/-! ### Steps and runs -/

section Step

variable {config : Config} {env env' : State} {name value : Str}

theorem givenFlags_congr {list list' : Option Str}
    (h : entryFor name list = entryFor name list') :
    givenFlags config list name = givenFlags config list' name := by
  rw [givenFlags, givenFlags, h]

/-- The table after the callback of `.flags`, with the new value or without `.flags`. -/
theorem agree_of_onFlags (firstCall : Bool) (flagsList : FlagsList) {vars : Str → Option Var}
    (value : Option Str) (hvars : ∀ name var, vars name = some var →
      var.flags = givenFlags config value name) (htext : (vars flagsVar).map (·.value) = value) :
    FlagsAgree config ⟨vars, firstCall, flagsList⟩ := by
  intro name var hvar
  rw [State.flagsText, htext]
  exact hvars name var hvar

theorem onFlags_flags {vars : Str → Option Var} {value : Option Str} {var : Var}
    (h : onFlags config vars value name = some var) :
    var.flags = givenFlags config value name := by
  rw [onFlags_apply] at h
  obtain ⟨old, -, rfl⟩ := Option.map_eq_some_iff.mp h
  rfl

/-- The table after a change of another variable. -/
theorem agree_of_update (firstCall : Bool) (flagsList : FlagsList)
    (hagree : FlagsAgree config env) (hne : name ≠ flagsVar) {new : Option Var}
    (hnew : ∀ var ∈ new, var.flags = givenFlags config env.flagsText name) :
    FlagsAgree config ⟨Function.update env.vars name new, firstCall, flagsList⟩ := by
  intro other var hvar
  have htext : State.flagsText ⟨Function.update env.vars name new, firstCall, flagsList⟩ =
      env.flagsText := by
    simp only [State.flagsText]
    rw [Function.update_of_ne (Ne.symm hne)]
  rw [htext]
  by_cases hother : other = name
  · subst hother
    simp only [Function.update_self] at hvar
    exact hnew var hvar
  · simp only [Function.update_of_ne hother] at hvar
    exact hagree other var hvar

theorem create_agree (hstatic : Documented config.staticList) (hagree : FlagsAgree config env)
    (sur : Surroundings) (force : Bool) (hnew : env.vars name = none)
    (hok : CachedCurrent env (sur, .set name value force)) :
    ∃ env', create config sur env name value force = some env' ∧ FlagsAgree config env' := by
  obtain ⟨hname, hdoc, hsame⟩ := hok hnew
  rw [create]
  by_cases hroom : sur.room = true
  · rw [if_pos hroom, initialFlags_eq hstatic sur hdoc hname]
    dsimp only
    split
    · refine ⟨_, rfl, ?_⟩
      by_cases hflags : name = flagsVar
      · subst hflags
        rw [callback, if_pos rfl]
        refine agree_of_onFlags _ _ (some value) (fun _ _ h => onFlags_flags h) ?_
        rw [onFlags_apply, Function.update_self]
        rfl
      · rw [callback, if_neg hflags]
        refine agree_of_update _ _ hagree hflags ?_
        rintro var ⟨⟩
        exact givenFlags_congr (hsame hflags)
    · exact ⟨_, rfl, hagree⟩
  · rw [if_neg hroom]
    exact ⟨env, rfl, hagree⟩

theorem overwrite_agree (hagree : FlagsAgree config env) (sur : Surroundings) (force : Bool)
    {var : Var} (hvar : env.vars name = some var) :
    FlagsAgree config (overwrite config sur env name value var force) := by
  rw [overwrite]
  split
  · by_cases hflags : name = flagsVar
    · subst hflags
      rw [callback, if_pos rfl]
      refine agree_of_onFlags _ _ (some value) (fun other new h => ?_) ?_
      · by_cases hother : other = flagsVar
        · subst hother
          rw [Function.update_self, onFlags_apply, hvar] at h
          obtain rfl := Option.some.inj h
          rfl
        · rw [Function.update_of_ne hother] at h
          exact onFlags_flags h
      · rw [Function.update_self, onFlags_apply, hvar]
        rfl
    · rw [callback, if_neg hflags]
      refine agree_of_update _ _ hagree hflags ?_
      rw [hvar]
      rintro new ⟨⟩
      exact hagree name var hvar
  · exact hagree

theorem delete_agree (hagree : FlagsAgree config env) (sur : Surroundings) (force : Bool)
    (var : Var) : FlagsAgree config (delete config sur env name var force) := by
  rw [delete]
  split
  · by_cases hflags : name = flagsVar
    · subst hflags
      rw [callback, if_pos rfl]
      refine agree_of_onFlags _ _ none (fun other new h => ?_) ?_
      · by_cases hother : other = flagsVar
        · subst hother
          simp at h
        · rw [Function.update_of_ne hother] at h
          exact onFlags_flags h
      · rw [Function.update_self]
        rfl
    · rw [callback, if_neg hflags]
      exact agree_of_update _ _ hagree hflags (by simp)
  · exact hagree

theorem step_agree (hstatic : Documented config.staticList) (hagree : FlagsAgree config env)
    (act : Surroundings × Op) (hok : CachedCurrent env act) :
    ∃ env', step config env act = some env' ∧ FlagsAgree config env' := by
  obtain ⟨sur, op⟩ := act
  cases op with
  | set name value force =>
    cases hvar : env.vars name with
    | none =>
      obtain ⟨env', hstep, hagree'⟩ := create_agree hstatic hagree sur force hvar hok
      exact ⟨env', by simp only [step, hvar, hstep], hagree'⟩
    | some var =>
      exact ⟨overwrite config sur env name value var force, by simp only [step, hvar],
        overwrite_agree hagree sur force hvar⟩
  | delete name force =>
    cases hvar : env.vars name with
    | none => exact ⟨env, by simp only [step, hvar], hagree⟩
    | some var =>
      exact ⟨delete config sur env name var force, by simp only [step, hvar],
        delete_agree hagree sur force var⟩

end Step

/-- Operations one after another, from the first call of `env_flags_init` on. -/
def runOps (config : Config) (acts : List (Surroundings × Op)) : Option State :=
  run (fun s act => s.bind fun env => step config env act) (some State.initial) acts

/-- Every creation in the run finds a cached list with the current entry. -/
def RunCurrent (config : Config) (acts : List (Surroundings × Op)) : Prop :=
  Guarded (fun s act => s.bind fun env => step config env act)
    (fun s act => ∀ env, s = some env → CachedCurrent env act) (some State.initial) acts

/-- The flags agree with the lists after every operation. -/
theorem flags_agree_of_cached_current (config : Config) (hstatic : Documented config.staticList)
    (acts : List (Surroundings × Op)) (hrun : RunCurrent config acts) :
    ∃ env, runOps config acts = some env ∧ FlagsAgree config env := by
  refine Guarded.invariant (I := fun s => ∃ env, s = some env ∧ FlagsAgree config env) ?_ hrun
    ⟨State.initial, rfl, fun name var h => by cases h⟩
  rintro s act ⟨env, rfl, hagree⟩ hok
  exact step_agree hstatic hagree act (hok env rfl)

/-- `ethaddr:ma,` as the static list. -/
def overwriteConfig : Config :=
  ⟨[101, 116, 104, 97, 100, 100, 114, 58, 109, 97, 44], fun _ => none, false⟩

/-- After relocation, with room in the table and no callback that objects. -/
def relocated : Surroundings := ⟨true, false, [], 0, 0, true, true⟩

/-- `.flags` is set to `b:so`. -/
def setWriteOnce : Op := .set flagsVar [98, 58, 115, 111] false

/-- `.flags` is set before or after the first other variable. -/
def listFirst : List (Surroundings × Op) :=
  [(relocated, setWriteOnce), (relocated, .set [98] [120] false)]
def listLater : List (Surroundings × Op) :=
  [(relocated, .set [97] [49] false), (relocated, setWriteOnce), (relocated, .set [98] [120] false)]

/-- `.flags` is the first variable: `b` is created write-once. -/
theorem flags_agree_list_first :
    RunCurrent overwriteConfig listFirst ∧
      ∃ env, runOps overwriteConfig listFirst = some env ∧ FlagsAgree overwriteConfig env := by
  have hrun : RunCurrent overwriteConfig listFirst := by
    refine ⟨fun env h => ?_, fun env h => ?_, trivial⟩
    · obtain rfl := Option.some.inj h
      decide
    · obtain rfl := Option.some.inj h
      decide
  exact ⟨hrun, flags_agree_of_cached_current _ (by decide) _ hrun⟩

/-- `.flags` is set after another variable: `b` is created without flags. -/
theorem flags_disagree_list_later :
    ∃ env, runOps overwriteConfig listLater = some env ∧
      env.vars [98] = some ⟨[120], 0⟩ ∧
      givenFlags overwriteConfig env.flagsText [98] = PREVENT_DELETE ||| PREVENT_OVERWR ∧
      ¬FlagsAgree overwriteConfig env := by
  have hvar : ((runOps overwriteConfig listLater).bind fun env => env.vars [98]) =
      some ⟨[120], 0⟩ := by decide
  obtain ⟨env, henv, hvar⟩ := Option.bind_eq_some_iff.mp hvar
  have hgiven : ((runOps overwriteConfig listLater).map fun env =>
      givenFlags overwriteConfig env.flagsText [98]) =
        some (PREVENT_DELETE ||| PREVENT_OVERWR) := by decide
  rw [henv, Option.map_some] at hgiven
  have hgiven := Option.some.inj hgiven
  refine ⟨env, henv, hvar, hgiven, fun hagree => ?_⟩
  have := hagree [98] _ hvar
  rw [hgiven] at this
  exact absurd this (by decide)

end UBoot.Env.Flags
