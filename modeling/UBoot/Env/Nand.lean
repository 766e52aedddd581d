import UBoot.Env.Mmc.Saved

/-!
# The redundant environment in NAND

`common/env_nand.c` keeps two copies as `common/env_mmc.c` does, with the same
serials and the same choice at boot. `saveenv` differs: when the copy that is not
in use cannot be erased and written, the same contents with the same serial go
to the copy in use. An attempt that fails leaves its copy as it was or with a
wrong CRC.
-/

namespace UBoot.Env.Nand

open Verification UBoot.Env.Mmc

universe u

variable {α : Type u}

/-- How a call of `erase_and_write_env` turns out. -/
inductive Attempt where
  | written
  | failed (damaged : Bool)
  deriving DecidableEq, Repr

/-- How the calls below `saveenv` turn out; the second attempt is made when the
first one has failed. -/
inductive SaveResult where
  | exportFail
  | attempts (first second : Attempt)
  deriving DecidableEq, Repr

/-- Copy 1 or copy 2 is replaced. -/
def setCopy (s : State α) (copy : Nat) (env : EnvCopy α) : State α :=
  if copy = 1 then { s with env1 := env } else { s with env2 := env }

def getCopy (s : State α) (copy : Nat) : EnvCopy α := if copy = 1 then s.env1 else s.env2

/-- `erase_and_write_env` for one of the copies; the second component is its
return value. -/
def eraseAndWriteEnv (s : State α) (copy : Nat) (envNew : EnvCopy α) :
    Attempt → State α × Nat
  | .written => (setCopy s copy envNew, 0)
  | .failed damaged => (setCopy s copy ((getCopy s copy).damage damaged), 1)

/-- `saveenv` with the exported contents `data`; the second component is its
return value. -/
def saveenv (data : α) (result : SaveResult) (s : State α) : State α × Nat :=
  match result with
  | .exportFail => (s, 1)
  | .attempts first second =>
    let s := { s with envFlags := s.envFlags + 1 }
    let envNew : EnvCopy α := { crcOk := true, flags := s.envFlags, data := data }
    let copy := if s.envValid = 1 then 2 else 1
    let (s, ret) := eraseAndWriteEnv s copy envNew first
    if ret = 0 then ({ s with envValid := if s.envValid = 2 then 1 else 2 }, 0)
    else eraseAndWriteEnv s (if copy = 1 then 2 else 1) envNew second

/-- How the calls below `env_relocate_spec` turn out. -/
structure BootResult where
  mallocFail : Bool := false
  read1Fail : Bool := false
  read2Fail : Bool := false

/-- `env_relocate_spec`, which chooses as the one for MMC does. -/
def envRelocateSpec (result : BootResult) (s : State α) : State α × Option α :=
  Mmc.envRelocateSpec {
    initFail := result.mallocFail
    read1Fail := result.read1Fail
    read2Fail := result.read2Fail } s

/-- A boot in which both copies can be read. -/
def boot (s : State α) : State α × Option α := envRelocateSpec {} (reset s)

theorem boot_eq (s : State α) : boot s = Mmc.boot s := rfl

/-! ### Histories -/

/-- The state, and the last save that returned 0. A save that fails in both
attempts leaves nothing to be expected. -/
structure History (α : Type u) where
  state : State α
  saved : Option α

inductive Event (α : Type u) where
  | boot
  | save (data : α) (result : SaveResult)

def History.step (h : History α) : Event α → History α
  | .boot => { h with state := (boot h.state).1 }
  | .save data result =>
    let r := saveenv data result h.state
    { state := r.1
      saved := if r.2 = 0 then some data
        else match result with
          | .attempts (.failed _) (.failed _) => none
          | _ => h.saved }

/-- The first boot of a device with arbitrary contents. -/
def History.start (env1 env2 : EnvCopy α) : History α where
  state := (boot { env1 := env1, env2 := env2, envFlags := 0, envValid := 1 }).1
  saved := none

/-- The serial that the next save stores in `copy` wins against the one that is
kept in the other copy. -/
def Ahead (envFlags : UInt8) (copy : Nat) (kept : EnvCopy α) : Prop :=
  kept.crcOk = false ∨ envFlags = kept.flags ∨
    (kept.flags ≤ envFlags ∧ envFlags ≠ 255 ∧ ¬(kept.flags = 0 ∧ envFlags = 254)) ∨
    (envFlags + 1 = kept.flags ∧ copy = 1)

/-- A save that succeeds does so with its serial ahead of the one in the copy
that it does not write. -/
def SaveAhead (h : History α) : Event α → Prop
  | .save _ (.attempts .written _) =>
    Ahead h.state.envFlags (if h.state.envValid = 1 then 2 else 1) h.state.current
  | .save _ (.attempts (.failed damaged) .written) =>
    Ahead h.state.envFlags h.state.envValid (h.state.target.damage damaged)
  | _ => True

theorem ahead_of_serialAhead {s : State α} (hs : s.envValid = 1 ∨ s.envValid = 2) :
    Ahead s.envFlags (if s.envValid = 1 then 2 else 1) s.current ↔ SerialAhead s := by
  obtain h | h := hs <;> simp [Ahead, SerialAhead, h]

/-- A save whose first attempt succeeds is one to MMC. -/
theorem saveenv_first (data : α) (second : Attempt) (s : State α) :
    saveenv data (.attempts .written second) s = Mmc.saveenv data .written s := by
  by_cases h : s.envValid = 1 <;> simp [saveenv, Mmc.saveenv, eraseAndWriteEnv, setCopy, h]

/-- A save whose second attempt succeeds replaces the copy in use. -/
theorem saveenv_second (data : α) (damaged : Bool) (s : State α) :
    saveenv data (.attempts (.failed damaged) .written) s =
      (let envNew : EnvCopy α := { crcOk := true, flags := s.envFlags + 1, data := data }
       if s.envValid = 1 then
         { s with env1 := envNew, env2 := s.env2.damage damaged, envFlags := s.envFlags + 1 }
       else
         { s with env1 := s.env1.damage damaged, env2 := envNew, envFlags := s.envFlags + 1 },
       0) := by
  by_cases h : s.envValid = 1 <;> simp [saveenv, eraseAndWriteEnv, setCopy, getCopy, h]

theorem saveenv_both_failed (data : α) (damaged damaged' : Bool) (s : State α) :
    (saveenv data (.attempts (.failed damaged) (.failed damaged')) s).1.envValid = s.envValid ∧
      (saveenv data (.attempts (.failed damaged) (.failed damaged')) s).2 = 1 := by
  by_cases h : s.envValid = 1 <;> simp [saveenv, eraseAndWriteEnv, setCopy, h]

/-- The second attempt is what the next boot selects exactly when its serial is
ahead of the one in the copy that could not be written. -/
theorem saveenv_second_selected_iff (data : α) (damaged : Bool) {s : State α}
    (hs : s.envValid = 1 ∨ s.envValid = 2) :
    Selected (saveenv data (.attempts (.failed damaged) .written) s).1 data ↔
      Ahead s.envFlags s.envValid (s.target.damage damaged) := by
  rw [saveenv_second]
  obtain ⟨env1, env2, envFlags, envValid⟩ := s
  simp only at hs
  obtain rfl | rfl := hs
  · have hone := checkSerial_eq_one_iff envFlags (env2.damage damaged).flags
    simp only [if_true, State.target, Ahead]
    constructor
    · rintro ⟨-, -, older⟩
      simp only [State.target, if_true] at older
      cases hc : (env2.damage damaged).crcOk <;> simp_all
    · intro ahead
      refine ⟨rfl, rfl, ?_⟩
      intro hc
      simp only [State.target, if_true] at hc ⊢
      simp_all
  · have htwo := checkSerial_eq_two_iff envFlags (env1.damage damaged).flags
    simp only [State.target, Ahead]
    constructor
    · rintro ⟨-, -, older⟩
      simp only [State.target] at older
      cases hc : (env1.damage damaged).crcOk <;> simp_all
    · intro ahead
      refine ⟨rfl, rfl, ?_⟩
      intro hc
      simp only [State.target] at hc ⊢
      simp_all

/-- The invariant of a run: the save that counts is selected. -/
structure Sound (h : History α) : Prop where
  envValid : h.state.envValid = 1 ∨ h.state.envValid = 2
  selected : ∀ c, h.saved = some c → Selected h.state c

theorem Sound.start (env1 env2 : EnvCopy α) : Sound (History.start env1 env2) where
  envValid := boot_envValid _
  selected := nofun

theorem Sound.boot {h : History α} (sound : Sound h) : Sound (h.step .boot) := by
  refine ⟨boot_envValid _, ?_⟩
  intro c hc
  have hsel := sound.selected c hc
  change Selected (Mmc.boot h.state).1 c
  rw [hsel.boot_eq sound.envValid]
  exact ⟨hsel.crcOk, hsel.contents, hsel.older⟩

theorem Sound.first {h : History α} (sound : Sound h) {data : α} {second : Attempt}
    (ahead : SaveAhead h (.save data (.attempts .written second))) :
    Sound (h.step (.save data (.attempts .written second))) := by
  simp only [History.step, saveenv_first, (saveenv_returns_zero_iff data .written _).mpr rfl]
  refine ⟨saveenv_envValid data .written h.state sound.envValid, ?_⟩
  rintro c ⟨⟩
  exact (saveenv_written_selected_iff data sound.envValid).mpr
    ((ahead_of_serialAhead sound.envValid).mp ahead)

theorem Sound.second {h : History α} (sound : Sound h) {data : α} {damaged : Bool}
    (ahead : SaveAhead h (.save data (.attempts (.failed damaged) .written))) :
    Sound (h.step (.save data (.attempts (.failed damaged) .written))) := by
  have hsel := (saveenv_second_selected_iff data damaged sound.envValid).mpr ahead
  simp only [History.step]
  refine ⟨?_, ?_⟩
  · rw [saveenv_second]
    obtain hv | hv := sound.envValid <;> simp [hv]
  · intro c hc
    rw [saveenv_second, if_pos rfl] at hc
    obtain rfl := Option.some.inj hc
    exact hsel

theorem Sound.step {h : History α} (sound : Sound h) {event : Event α}
    (ahead : SaveAhead h event) : Sound (h.step event) := by
  match event, ahead with
  | .boot, _ => exact sound.boot
  | .save data .exportFail, _ => exact ⟨sound.envValid, sound.selected⟩
  | .save data (.attempts .written _), ahead => exact sound.first ahead
  | .save data (.attempts (.failed _) .written), ahead => exact sound.second ahead
  | .save data (.attempts (.failed damaged) (.failed damaged')), _ =>
    obtain ⟨hvalid, hret⟩ := saveenv_both_failed data damaged damaged' h.state
    refine ⟨hvalid ▸ sound.envValid, ?_⟩
    intro c hc
    simp [History.step, hret] at hc

/-- Over every sequence of boots and saves in which each save that succeeds has
its serial ahead, the next boot selects what the last save that returned 0 has
written, unless a later one failed in both attempts. -/
theorem boot_selects_saved_in_nand (env1 env2 : EnvCopy α) (events : List (Event α))
    (ahead : Guarded History.step SaveAhead (History.start env1 env2) events)
    (c : α) (hc : (run History.step (History.start env1 env2) events).saved = some c) :
    (boot (run History.step (History.start env1 env2) events).state).2 = some c := by
  have sound := ahead.invariant (fun _ _ hs ok => Sound.step hs ok) (Sound.start env1 env2)
  rw [boot_eq, (sound.selected c hc).boot_eq sound.envValid]

/-- A first attempt fails and spoils its copy, the second one succeeds under
serial 0; the next save writes the spoiled copy. -/
theorem boot_selects_saved_in_nand_wrap :
    (boot (run History.step (History.start ⟨true, 255, 10⟩ ⟨true, 254, 20⟩)
      [.save 30 (.attempts (.failed true) .written), .boot,
        .save 40 (.attempts .written .written)]).state).2 = some 40 :=
  boot_selects_saved_in_nand ⟨true, 255, 10⟩ ⟨true, 254, 20⟩
    [.save 30 (.attempts (.failed true) .written), .boot,
      .save 40 (.attempts .written .written)]
    ⟨.inl rfl, trivial, .inr (.inl (by decide)), trivial⟩ 40 (by decide)

/-- Serials 255 and 254 are stored. The first attempt of a save leaves serial 254
where it is, the second one stores serial 0, and the boot prefers serial 254. -/
theorem boot_selects_unerased_copy :
    ¬∀ (env1 env2 : EnvCopy Nat) (events : List (Event Nat)) (c : Nat),
      (run History.step (History.start env1 env2) events).saved = some c →
        (boot (run History.step (History.start env1 env2) events).state).2 = some c := by
  intro h
  have := h ⟨true, 255, 10⟩ ⟨true, 254, 20⟩
    [.save 30 (.attempts (.failed false) .written)] 30 (by decide)
  exact absurd this (by decide)

end UBoot.Env.Nand
