import UBoot.Env.Fw.Shared
import UBoot.Env.Fw.Write

/-!
# `fw_setenv`

The tool opens the environment, checks the type of the value, lets `fw_env_write` edit
`environment.data`, and closes the environment, which writes it back. What
`fw_env_write` returns is not looked at.
-/

namespace UBoot.Env.Fw.Setenv

open HashTable (Str)
open Flags (flagsVar envAttrLookup envFlagsParseVaraccess envFlagsParseVartype validateType)
open Write

/-! ### Access and type -/

/-- The checks of the tool: those of `fw_env_write`, and
`env_flags_validate_env_set_params` with the value of `.flags`, the name and the values,
`true` where it reports no error. -/
structure SetChecks extends Checks where
  setParams : Option Str → Str → List Str → Bool

/-- `env_flags_lookup`. In front of the value of `.flags` there is the equals sign;
`beforeStatic` is the byte in front of the static list. -/
def envFlagsLookup (config : Flags.Config) (beforeStatic : UInt8) (flags : Option Str)
    (name : Str) : Option Str :=
  (flags.bind fun list => envAttrLookup equals list name).or
    (envAttrLookup beforeStatic config.staticList name)

/-- `env_flags_get_type` -/
def envFlagsGetType (config : Flags.Config) (beforeStatic : UInt8) (flags : Option Str)
    (name : Str) : Flags.VarType :=
  match envFlagsLookup config beforeStatic flags name with
  | none => .string
  | some attributes => envFlagsParseVartype attributes

/-- `env_flags_get_varaccess` -/
def envFlagsGetVaraccess (config : Flags.Config) (beforeStatic : UInt8) (flags : Option Str)
    (name : Str) : Flags.VarAccess :=
  match envFlagsLookup config beforeStatic flags name with
  | none => .any
  | some attributes => envFlagsParseVaraccess attributes

/-- `env_flags_validate_varaccess` -/
def envFlagsValidateVaraccess (config : Flags.Config) (beforeStatic : UInt8) (flags : Option Str)
    (name : Str) (checkMask : Nat) : Bool :=
  checkMask &&& (envFlagsGetVaraccess config beforeStatic flags name).mask ≠ 0

/-- `env_flags_validate_env_set_params` -/
def envFlagsValidateEnvSetParams (config : Flags.Config) (beforeStatic : UInt8)
    (flags : Option Str) (name : Str) : List Str → Bool
  | [] => true
  | value :: more =>
    let type := envFlagsGetType config beforeStatic flags name
    if type ≠ .string ∧ more ≠ [] then false else validateType value type

/-- The checks of `common/env_flags.c`, for attributes that fit its buffer. -/
def flagChecks (config : Flags.Config) (beforeStatic : UInt8) : SetChecks where
  varaccess := envFlagsValidateVaraccess config beforeStatic
  getdefenv := config.getenvDefault
  setParams := envFlagsValidateEnvSetParams config beforeStatic

/-! ### The tool -/

/-- The devices with the environment: what `fw_env_open` loads, if it succeeds, and what
`flash_io` leaves when it writes and when it fails. What was written is loaded again. -/
structure Device (σ : Type) where
  load : σ → Option Str
  works : σ → Bool
  stored : Str → σ → σ
  broken : σ → σ
  load_stored : ∀ data s, (load s).isSome → load (stored data s) = some data

section Tool

variable {σ : Type}

/-- `fw_env_close` -/
def fwEnvClose (device : Device σ) (data : Str) (s : σ) : Int × σ :=
  if device.works s then (0, device.stored data s) else (-1, device.broken s)

/-- `parse_aes_key` of an argument: does it succeed? -/
def parseAesKey (key : Str) : Bool := min key.length 64 = 32

def joinLoop : Option Str → List Str → Option Str
  | value, [] => value
  | none, val :: values => joinLoop (some val) values
  | some value, val :: values => joinLoop (some (value ++ 32 :: val)) values

/-- The key, the name and the values, where the arguments are accepted. `args` are the
arguments behind the name of the program. -/
def request (args : List Str) : Option (Option Str × Str × List Str) :=
  match args with
  | [] => none
  | [45, 97] :: [] => none
  | [45, 97] :: key :: rest =>
    if parseAesKey key then
      match rest with
      | [] => none
      | name :: values => some (some key, name, values)
    else none
  | name :: values => some (none, name, values)

/-- `fw_setenv`. `devices` are the devices as they are read and written with a key. -/
def fwSetenv (checks : SetChecks) (devices : Option Str → Device σ) (args : List Str) (s : σ) :
    Option (Int × σ) :=
  match request args with
  | none => some (-1, s)
  | some (aesKey, name, values) =>
    match (devices aesKey).load s with
    | none => some (-1, s)
    | some data => do
      let flags ← fwGetenv data flagsVar
      if !checks.setParams flags name values then some (1, s)
      else
        let (_, data) ← fwEnvWrite checks.toChecks data name (joinLoop none values)
        some (fwEnvClose (devices aesKey) data s)

/-! ### What it should do -/

/-- The requested value; an empty one stands for the removal of the variable. -/
def requested (values : List Str) : Str := (joinLoop none values).getD []

def Refused (checks : SetChecks) (vars : List (Str × Str)) (name : Str) (values : List Str) :
    Prop :=
  checks.setParams (vars.lookup flagsVar) name values = false ∨
    Denied checks.toChecks vars name (requested values)

/-- The change fits the environment. -/
def Fits (size : Nat) (vars : List (Str × Str)) (name : Str) (values : List Str) : Prop :=
  requested values = [] ∨
    (envText (without (key name) vars)).length + defLen name (requested values) ≤ size

/-- The stored environment still has the old value of the variable. -/
def KeepsOld (device : Device σ) (data name : Str) (s : σ) : Prop :=
  ∃ data', device.load s = some data' ∧ fwGetenv data' name = fwGetenv data name

/-- A result of 0 means that exactly the requested change was stored; a change that is
refused or does not fit gives another result and leaves the old value. -/
def Meets (checks : SetChecks) (device : Device σ) (vars : List (Str × Str)) (data name : Str)
    (values : List Str) (rc : Int) (s : σ) : Prop :=
  (rc = 0 → ∃ data', device.load s = some data' ∧
    Image data' (update vars name (requested values)) ∧
    WellFormed (update vars name (requested values))) ∧
  (Refused checks vars name values ∨ ¬Fits data.length vars name values →
    rc ≠ 0 ∧ KeepsOld device data name s)

/-- The invocation does what it should. -/
def Honest (checks : SetChecks) (devices : Option Str → Device σ) (vars : List (Str × Str))
    (data : Str) (args : List Str) (s : σ) : Prop :=
  ∃ rc s', fwSetenv checks devices args s = some (rc, s') ∧
    match request args with
    | none => rc ≠ 0 ∧ s' = s
    | some (aesKey, name, values) =>
      Meets checks (devices aesKey) vars data name values rc s'

/-- The name can be defined, or there is no variable that would be deleted in its place. -/
def NameOk (vars : List (Str × Str)) (name : Str) (values : List Str) : Prop :=
  if requested values = [] then equals ∈ name → key name ∉ vars.map Prod.fst
  else name ≠ [] ∧ equals ∉ name

/-- When the tool does what it should. -/
def Sound (checks : SetChecks) (device : Device σ) (vars : List (Str × Str)) (data name : Str)
    (values : List Str) (s : σ) : Prop :=
  checks.setParams (vars.lookup flagsVar) name values = false ∨
    if device.works s then
      ¬Denied checks.toChecks vars name (requested values) ∧
        Fits data.length vars name values ∧ NameOk vars name values
    else
      Denied checks.toChecks vars name (requested values) ∨ ¬Fits data.length vars name values →
        KeepsOld device data name (device.broken s)

section Run

variable {checks : SetChecks} {device : Device σ} {devices : Option Str → Device σ}
variable {vars : List (Str × Str)} {data name : Str} {values : List Str} {s : σ}

theorem key_key (name : Str) : key (key name) = key name := by
  rw [key, key, List.takeWhile_takeWhile]
  simp

theorem not_mem_key {c : UInt8} (h : c ∉ name) : c ∉ key name :=
  fun hc => h ((List.takeWhile_prefix _).subset hc)

/-- No variable has a name with an equals sign. -/
theorem without_of_equals (h : WellFormed vars) (heq : equals ∈ name) :
    without name vars = vars := by
  apply without_of_not_mem
  intro hmem
  obtain ⟨x, hx, rfl⟩ := List.mem_map.mp hmem
  exact h.noEquals x hx heq

/-- An allowed change that fits stores the requested one exactly for a name that is ok. -/
theorem update_stored_iff (h : WellFormed vars) (hdata : Ended data vars) (hname : 0 ∉ name)
    (hvalue : 0 ∉ requested values)
    (hallowed : ¬Denied checks.toChecks vars name (requested values))
    (hfits : Fits data.length vars name values) :
    ∃ data', fwEnvWrite checks.toChecks data name (joinLoop none values) = some (0, data') ∧
      (Image data' (update vars name (requested values)) ∧
        WellFormed (update vars name (requested values)) ↔ NameOk vars name values) := by
  obtain ⟨data', -, hcases⟩ := fwEnvWrite_spec h hdata hname hallowed
  have hwithout := h.without (key name)
  rw [show (joinLoop none values).getD [] = requested values from rfl] at hcases
  rw [NameOk]
  by_cases hempty : requested values = []
  · rw [if_pos hempty] at hcases
    obtain ⟨hwrite, rest, hrest, -⟩ := hcases
    refine ⟨data', hwrite, ?_⟩
    rw [if_pos hempty, update, if_pos hempty, List.append_nil]
    constructor
    · rintro ⟨himage, -⟩ heq hmem
      rw [without_of_equals h heq] at himage
      have hzero : 0 ∉ key name := not_mem_key hname
      have hgone := fwGetenv_spec hwithout hzero ⟨rest, hrest⟩
      rw [fwGetenv_spec h hzero himage, key_key, lookup_without, Option.some_inj,
        List.lookup_eq_none_iff] at hgone
      obtain ⟨x, hx, hk⟩ := List.mem_map.mp hmem
      exact absurd (hgone x hx) (by rw [hk, bne_self_eq_false]; decide)
    · intro hok
      have hsame : without name vars = without (key name) vars := by
        by_cases heq : equals ∈ name
        · rw [without_of_equals h heq, without_of_not_mem (hok heq)]
        · rw [key_eq heq]
      rw [hsame]
      exact ⟨⟨rest, hrest⟩, hwithout⟩
  · rw [if_neg hempty, if_pos (hfits.resolve_left hempty)] at hcases
    obtain ⟨hwrite, rest, hrest, -⟩ := hcases
    refine ⟨data', hwrite, ?_⟩
    rw [if_neg hempty]
    constructor
    · rintro ⟨-, hwf⟩
      rw [update, if_neg hempty] at hwf
      have hmem : (name, requested values) ∈ without name vars ++ [(name, requested values)] :=
        List.mem_append_right _ List.mem_cons_self
      exact ⟨hwf.name_ne _ hmem, hwf.noEquals _ hmem⟩
    · rintro ⟨hne, heq⟩
      rw [key_eq heq] at hrest
      refine ⟨⟨rest, ?_⟩, h.update hne heq hname hvalue⟩
      rw [update, if_neg hempty]
      exact hrest

/-- A run whose arguments are accepted and whose environment can be opened. -/
theorem fwSetenv_eq {args : List Str} {aesKey : Option Str}
    (hrequest : request args = some (aesKey, name, values)) (h : WellFormed vars)
    (hdata : Image data vars) (hload : (devices aesKey).load s = some data) :
    fwSetenv checks devices args s =
      if checks.setParams (vars.lookup flagsVar) name values = false then some (1, s)
      else (fwEnvWrite checks.toChecks data name (joinLoop none values)).map fun r =>
        fwEnvClose (devices aesKey) r.2 s := by
  have hflags := fwGetenv_spec h (show (0 : UInt8) ∉ flagsVar by decide) hdata
  rw [show key flagsVar = flagsVar from rfl] at hflags
  rw [fwSetenv, hrequest]
  simp only [hload, bind, Option.bind, hflags]
  cases checks.setParams (vars.lookup flagsVar) name values with
  | false => rfl
  | true =>
    simp only [Bool.not_true, Bool.false_eq_true, if_false, Bool.true_eq_false]
    cases fwEnvWrite checks.toChecks data name (joinLoop none values) <;> rfl

/-- The edit always has a result; without a change it leaves the old value. -/
theorem fwEnvWrite_some (h : WellFormed vars) (hdata : Ended data vars) (hname : 0 ∉ name)
    (value : Option Str) : ∃ rc data', fwEnvWrite checks.toChecks data name value = some (rc, data') := by
  have himage : Image data vars := by
    obtain ⟨rest, hrest, -⟩ := hdata
    exact ⟨rest, hrest⟩
  by_cases hdenied : Denied checks.toChecks vars name (value.getD [])
  · by_cases hidle : vars.lookup (key name) = none ∧ value.getD [] = []
    · exact ⟨0, data, fwEnvWrite_idle h himage hname hidle.1 hidle.2⟩
    · obtain ⟨data', -, -, hwrite⟩ :=
        @fwEnvWrite_edit checks.toChecks vars data name value h himage hname fun hnone hvalue =>
          hidle ⟨hnone, hvalue⟩
      rw [if_pos hdenied] at hwrite
      exact ⟨-1, data, hwrite⟩
  · obtain ⟨data', -, hcases⟩ := fwEnvWrite_spec h hdata hname hdenied
    split_ifs at hcases
    · exact ⟨0, data', hcases.1⟩
    · exact ⟨0, data', hcases.1⟩
    · exact ⟨-1, data', hcases.1⟩

/-- The run of an accepted invocation meets its specification exactly when the tool is
sound there. -/
theorem meets_iff {args : List Str} {aesKey : Option Str}
    (hrequest : request args = some (aesKey, name, values)) (h : WellFormed vars)
    (hdata : Ended data vars) (hload : (devices aesKey).load s = some data) (hname : 0 ∉ name)
    (hvalue : 0 ∉ requested values) :
    (∃ rc s', fwSetenv checks devices args s = some (rc, s') ∧
      Meets checks (devices aesKey) vars data name values rc s') ↔
      Sound checks (devices aesKey) vars data name values s := by
  have himage : Image data vars := by
    obtain ⟨rest, hrest, -⟩ := hdata
    exact ⟨rest, hrest⟩
  rw [fwSetenv_eq hrequest h himage hload, Sound]
  by_cases hparams : checks.setParams (vars.lookup flagsVar) name values = false
  · -- the value has the wrong type
    rw [if_pos hparams]
    have hmeets : Meets checks (devices aesKey) vars data name values 1 s :=
      ⟨fun hrc => absurd hrc (by decide), fun _ => ⟨by decide, data, hload, rfl⟩⟩
    exact iff_of_true ⟨1, s, rfl, hmeets⟩ (.inl hparams)
  rw [if_neg hparams, or_iff_right hparams]
  obtain ⟨rcw, data', hwrite⟩ := @fwEnvWrite_some checks vars data name h hdata hname
    (joinLoop none values)
  simp only [hwrite, Option.map_some, Option.some.injEq, fwEnvClose]
  have hrefused : Refused checks vars name values ↔
      Denied checks.toChecks vars name (requested values) := or_iff_right hparams
  by_cases hworks : (devices aesKey).works s
  · rw [if_pos hworks, if_pos hworks]
    have hstored := (devices aesKey).load_stored data' s (by rw [hload]; rfl)
    by_cases hgood : ¬Denied checks.toChecks vars name (requested values) ∧
        Fits data.length vars name values
    · obtain ⟨data'', hwrite', hiff⟩ := update_stored_iff h hdata hname hvalue hgood.1 hgood.2
      obtain ⟨rfl, rfl⟩ := Prod.mk.inj (Option.some.inj (hwrite.symm.trans hwrite'))
      rw [← and_assoc, and_iff_right hgood, ← hiff]
      constructor
      · rintro ⟨rc, s', hrun, hmeets, -⟩
        obtain ⟨rfl, rfl⟩ := Prod.mk.inj hrun
        obtain ⟨data'', hload', hupdate⟩ := hmeets rfl
        rwa [Option.some.inj (hstored.symm.trans hload')]
      · intro hupdate
        refine ⟨0, _, rfl, fun _ => ⟨data', hstored, hupdate⟩, fun hbad => ?_⟩
        rw [hrefused] at hbad
        exact absurd hbad (not_or.mpr ⟨hgood.1, not_not_intro hgood.2⟩)
    · refine iff_of_false ?_ fun hall => hgood ⟨hall.1, hall.2.1⟩
      rintro ⟨rc, s', hrun, -, hmeets⟩
      obtain ⟨rfl, rfl⟩ := Prod.mk.inj hrun
      refine (hmeets ?_).1 rfl
      rw [hrefused]
      by_contra hbad
      rw [not_or, not_not] at hbad
      exact hgood hbad
  · rw [if_neg hworks, if_neg hworks]
    constructor
    · rintro ⟨rc, s', hrun, -, hmeets⟩ hbad
      obtain ⟨rfl, rfl⟩ := Prod.mk.inj hrun
      rw [hrefused] at hmeets
      exact (hmeets hbad).2
    · intro hkeeps
      refine ⟨-1, _, rfl, ⟨fun hrc => absurd hrc (by decide), fun hbad => ⟨by decide, ?_⟩⟩⟩
      rw [hrefused] at hbad
      exact hkeeps hbad

end Run

theorem mem_of_request {args : List Str} {aesKey : Option Str} {name : Str} {values : List Str}
    (h : request args = some (aesKey, name, values)) :
    name ∈ args ∧ ∀ value ∈ values, value ∈ args := by
  rw [request.eq_def] at h
  split at h
  · cases h
  · cases h
  · rename_i aesArg rest
    split_ifs at h
    cases rest with
    | nil => cases h
    | cons first more =>
      simp only [Option.some.injEq, Prod.mk.injEq] at h
      obtain ⟨-, rfl, rfl⟩ := h
      exact ⟨by simp, fun value hvalue => by simp [hvalue]⟩
  · simp only [Option.some.injEq, Prod.mk.injEq] at h
    obtain ⟨-, rfl, rfl⟩ := h
    exact ⟨List.mem_cons_self, fun value hvalue => List.mem_cons_of_mem _ hvalue⟩

theorem noNul_joinLoop {values : List Str} (h : ∀ value ∈ values, 0 ∉ value) {first : Option Str}
    (hfirst : 0 ∉ first.getD []) : 0 ∉ (joinLoop first values).getD [] := by
  induction values generalizing first with
  | nil =>
    cases first <;> exact hfirst
  | cons val values ih =>
    have hval := h val List.mem_cons_self
    have hrest := fun value hvalue => h value (List.mem_cons_of_mem _ hvalue)
    cases first with
    | none => exact ih hrest hval
    | some value =>
      apply ih hrest
      rw [Option.getD_some, List.mem_append, List.mem_cons, not_or, not_or]
      exact ⟨hfirst, by decide, hval⟩

/-- The condition on an invocation. -/
def SoundFor (checks : SetChecks) (devices : Option Str → Device σ) (vars : List (Str × Str))
    (data : Str) (args : List Str) (s : σ) : Prop :=
  match request args with
  | none => True
  | some (aesKey, name, values) => Sound checks (devices aesKey) vars data name values s

/-- For every stored environment, as the key of the invocation opens it, the invocation
does what it should exactly when it is sound. -/
theorem honest_iff (checks : SetChecks) (devices : Option Str → Device σ)
    (vars : List (Str × Str)) (data : Str) (args : List Str) (s : σ) (h : WellFormed vars)
    (hdata : Ended data vars) (hargs : ∀ arg ∈ args, 0 ∉ arg)
    (hload : ∀ r ∈ request args, (devices r.1).load s = some data) :
    Honest checks devices vars data args s ↔ SoundFor checks devices vars data args s := by
  rw [Honest, SoundFor]
  cases hrequest : request args with
  | none => exact iff_of_true ⟨-1, s, by rw [fwSetenv, hrequest], by decide, rfl⟩ trivial
  | some r =>
    obtain ⟨aesKey, name, values⟩ := r
    obtain ⟨hname, hvalues⟩ := mem_of_request hrequest
    exact meets_iff hrequest h hdata (hload _ hrequest) (hargs name hname)
      (noNul_joinLoop (fun value hvalue => hargs value (hvalues value hvalue)) (by simp))

end Tool

/-! ### Two copies -/

/-- The contents opened from the two copies of an MMC card. -/
def loadCopies (useDefault : Str → Str) (s : Mmc.State Str) : Option Str :=
  (fwEnvOpen .absent .absent useDefault s).map Environment.data

/-- The card after the copy that is not the current one was written. -/
def storeCopies (useDefault : Str → Str) (data : Str) (s : Mmc.State Str) : Mmc.State Str :=
  (Fw.fwSetenv .absent .absent useDefault (fun _ => data) s).getD s

theorem loadCopies_storeCopies (useDefault : Str → Str) (data : Str) (s : Mmc.State Str) :
    loadCopies useDefault (storeCopies useDefault data s) = some data := by
  by_cases hvalid : SomeValid s
  · rw [storeCopies, fwSetenv_eq_store useDefault _ hvalid, Option.getD_some, loadCopies,
      fwEnvOpen_eq_newest useDefault (someValid_store _ _ _ _), newest_store_other, copyAt_store]
    rfl
  · rw [SomeValid, not_or, Bool.not_eq_true, Bool.not_eq_true] at hvalid
    simp [storeCopies, loadCopies, Fw.fwSetenv, fwEnvOpen, flagScheme, flashWrite,
      FlagScheme.next, FlagScheme.retire, hvalid.1, hvalid.2]

/-- A card that can be written, without encryption. -/
def twoCopies (_ : Option Str) : Device (Mmc.State Str) where
  load := loadCopies id
  works _ := true
  stored := storeCopies id
  broken := id
  load_stored data s _ := loadCopies_storeCopies id data s

/-- A card with `a=1` in the first copy, and no room for much more. -/
def smallCard : Mmc.State Str where
  env1 := ⟨true, 0, [97, 61, 49, 0, 0, 0, 0, 0]⟩
  env2 := ⟨false, 0, []⟩
  envFlags := 0
  envValid := 1

/-- No flags are used. -/
def noChecks : SetChecks := ⟨anyAccess, fun _ _ _ => true⟩

/-- `fw_setenv a 2` on the small card. -/
theorem honest_small :
    Honest noChecks twoCopies [([97], [49])] [97, 61, 49, 0, 0, 0, 0, 0] [[97], [50]] smallCard ↔
      SoundFor noChecks twoCopies [([97], [49])] [97, 61, 49, 0, 0, 0, 0, 0] [[97], [50]]
        smallCard := by
  apply honest_iff
  · exact ⟨by decide, by decide, by decide, by decide⟩
  · exact ⟨[0, 0, 0], rfl, fun h => by cases h⟩
  · decide
  · intro r hr
    obtain rfl := Option.some.inj hr
    rfl

/-- `fw_setenv a 12345` does not fit the small card: `a` is deleted, and 0 is returned. -/
theorem not_honest_overflow :
    ¬Honest noChecks twoCopies [([97], [49])] [97, 61, 49, 0, 0, 0, 0, 0]
      [[97], [49, 50, 51, 52, 53]] smallCard := by
  rintro ⟨rc, s', hrun, hmeets⟩
  have hzero : (fwSetenv noChecks twoCopies [[97], [49, 50, 51, 52, 53]] smallCard).map Prod.fst =
      some 0 := by decide
  rw [hrun] at hzero
  refine (hmeets.2 (.inr ?_)).1 (Option.some.inj hzero)
  rintro (hempty | hfits)
  · exact absurd hempty (by decide)
  · exact absurd hfits (by decide)

end UBoot.Env.Fw.Setenv
