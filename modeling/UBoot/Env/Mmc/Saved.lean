import Mathlib.Tactic.Common
import UBoot.Env.Mmc.Basic
import UBoot.Verification.Run

/-!
# What a boot selects after a successful save

The ghost component of a `History` is the contents of the last `saveenv` that
returned 0. `SerialAhead` is the condition under which the serial that the
next save stores is taken as the newer one at boot. It can only fail after a
failed save: each one advances `env_flags` without storing it, so the serial
may jump over the single wrap-around `checkSerial` knows about.
-/

namespace UBoot.Env.Mmc

open Verification

universe u

variable {α : Type u}

/-- The actual state together with the last reported-successful save. -/
structure History (α : Type u) where
  state : State α
  saved : Option α

inductive Event (α : Type u) where
  | boot
  | save (data : α) (result : SaveResult)

def History.step (h : History α) : Event α → History α
  | .boot => { h with state := (boot h.state).1 }
  | .save data result =>
    let r := saveenv data result h.state
    { state := r.1, saved := if r.2 = 0 then some data else h.saved }

/-- The first boot of a card with arbitrary contents. -/
def History.start (env1 env2 : EnvCopy α) : History α where
  state := (Mmc.boot { env1 := env1, env2 := env2, envFlags := 0, envValid := 1 }).1
  saved := none

/-- The serial in memory has not left the one stored in the copy in use, or
has moved past it without wrapping. After a complete turn the serials tie, and
the tie goes to the first copy. -/
def SerialAhead (s : State α) : Prop :=
  s.current.crcOk = false ∨ s.envFlags = s.current.flags ∨
    (s.current.flags ≤ s.envFlags ∧ s.envFlags ≠ 255 ∧
      ¬(s.current.flags = 0 ∧ s.envFlags = 254)) ∨
    (s.envFlags + 1 = s.current.flags ∧ s.envValid = 2)

/-- A save that gets as far as completing its write does so with the serial
ahead; boots and failing saves are not restricted. -/
def SaveAhead (h : History α) : Event α → Prop
  | .save _ .written => SerialAhead h.state
  | _ => True

theorem saveenv_returns_zero_iff (data : α) (result : SaveResult) (s : State α) :
    (saveenv data result s).2 = 0 ↔ result = .written := by
  cases result <;> simp [saveenv]
  split <;> simp

/-- The comparison in terms of the serials as numbers. -/
theorem checkSerial_toNat (f g : UInt8) : checkSerial f g =
    if f.toNat = 255 ∧ g.toNat = 0 then 2 else if g.toNat = 255 ∧ f.toNat = 0 then 1
    else if g.toNat < f.toNat then 1 else if f.toNat < g.toNat then 2 else 1 := by
  simp only [checkSerial, ← UInt8.toNat_inj, gt_iff_lt, UInt8.lt_iff_toNat_lt]
  rfl

/-- The second copy wins the comparison exactly when its serial is ahead. -/
theorem checkSerial_eq_two_iff (f g : UInt8) :
    checkSerial g (f + 1) = 2 ↔ f = g ∨ (g ≤ f ∧ f ≠ 255 ∧ ¬(g = 0 ∧ f = 254)) := by
  rw [checkSerial_toNat]
  simp only [ne_eq, ← UInt8.toNat_inj, UInt8.le_iff_toNat_le, UInt8.toNat_add]
  have hf := f.toNat_lt
  have hg := g.toNat_lt
  simp only [UInt8.reduceToNat]
  split_ifs <;> omega

/-- The first copy also wins a tie. -/
theorem checkSerial_eq_one_iff (f g : UInt8) :
    checkSerial (f + 1) g = 1 ↔
      f = g ∨ (g ≤ f ∧ f ≠ 255 ∧ ¬(g = 0 ∧ f = 254)) ∨ f + 1 = g := by
  rw [checkSerial_toNat]
  simp only [ne_eq, ← UInt8.toNat_inj, UInt8.le_iff_toNat_le, UInt8.toNat_add]
  have hf := f.toNat_lt
  have hg := g.toNat_lt
  simp only [UInt8.reduceToNat]
  split_ifs <;> omega

/-- A boot always leaves one of the two copies in use. -/
theorem boot_envValid (s : State α) :
    (boot s).1.envValid = 1 ∨ (boot s).1.envValid = 2 := by
  have both : checkSerial s.env1.flags s.env2.flags = 1 ∨
      checkSerial s.env1.flags s.env2.flags = 2 := by
    unfold checkSerial
    split_ifs <;> simp
  cases h1 : s.env1.crcOk <;> cases h2 : s.env2.crcOk <;>
    simp [boot, reset, envRelocateSpec, h1, h2, both]

theorem saveenv_envValid (data : α) (result : SaveResult) (s : State α)
    (hs : s.envValid = 1 ∨ s.envValid = 2) :
    (saveenv data result s).1.envValid = 1 ∨ (saveenv data result s).1.envValid = 2 := by
  cases result <;> simp only [saveenv]
  case written => split_ifs <;> simp
  all_goals (try split) <;> exact hs

/-- The copy in use is CRC-valid, and the other one does not win against it. -/
structure Selected (s : State α) (data : α) : Prop where
  crcOk : s.current.crcOk = true
  contents : s.current.data = data
  older : s.target.crcOk = true → checkSerial s.env1.flags s.env2.flags = s.envValid

/-- Under `Selected` a boot finds the same copy again, whatever the volatile
variables were. -/
theorem Selected.boot_eq {s : State α} {data : α} (h : Selected s data)
    (hs : s.envValid = 1 ∨ s.envValid = 2) :
    boot s = ({ s with envFlags := s.current.flags }, some data) := by
  obtain ⟨crcOk, contents, older⟩ := h
  obtain ⟨env1, env2, envFlags, envValid⟩ := s
  simp only [State.current, State.target] at *
  rcases hs with rfl | rfl
  · cases h2 : env2.crcOk <;> simp_all [boot, reset, envRelocateSpec]
  · cases h1 : env1.crcOk <;> simp_all [boot, reset, envRelocateSpec]

/-- A failing save touches the older copy only. -/
theorem Selected.saveenv_fail {s : State α} {c : α} (h : Selected s c) (data : α)
    {result : SaveResult} (fails : result ≠ .written) :
    Selected (saveenv data result s).1 c := by
  obtain ⟨crcOk, contents, older⟩ := h
  obtain ⟨env1, env2, envFlags, envValid⟩ := s
  simp only [State.current, State.target] at crcOk contents older
  cases result with
  | written => exact absurd rfl fails
  | initFail => exact ⟨crcOk, contents, older⟩
  | exportFail => exact ⟨crcOk, contents, older⟩
  | addrFail => exact ⟨crcOk, contents, older⟩
  | writeFail damaged =>
    by_cases hv : envValid = 1
    · subst hv
      cases damaged <;> constructor <;>
        simp_all [saveenv, State.current, State.target, EnvCopy.damage]
    · cases damaged <;> constructor <;>
        simp_all [saveenv, State.current, State.target, EnvCopy.damage]

/-- A completed save is what the next boot selects exactly when the serial was
ahead of the copy that was in use. -/
theorem saveenv_written_selected_iff (data : α) {s : State α}
    (hs : s.envValid = 1 ∨ s.envValid = 2) :
    Selected (saveenv data .written s).1 data ↔ SerialAhead s := by
  obtain ⟨env1, env2, envFlags, envValid⟩ := s
  simp only at hs
  rcases hs with rfl | rfl
  · have := checkSerial_eq_two_iff envFlags env1.flags
    constructor
    · rintro ⟨-, -, older⟩
      simp only [saveenv, State.target, SerialAhead, State.current] at older ⊢
      cases hc : env1.crcOk <;> simp_all
    · intro ahead
      refine ⟨by simp [saveenv, State.current], by simp [saveenv, State.current], ?_⟩
      intro hc
      simp_all [saveenv, State.target, SerialAhead, State.current]
  · have := checkSerial_eq_one_iff envFlags env2.flags
    constructor
    · rintro ⟨-, -, older⟩
      simp only [saveenv, State.target, SerialAhead, State.current] at older ⊢
      cases hc : env2.crcOk <;> simp_all
    · intro ahead
      refine ⟨by simp [saveenv, State.current], by simp [saveenv, State.current], ?_⟩
      intro hc
      simp_all [saveenv, State.target, SerialAhead, State.current]

/-- The invariant of a run: the last reported-successful save is selected. -/
structure Sound (h : History α) : Prop where
  envValid : h.state.envValid = 1 ∨ h.state.envValid = 2
  selected : ∀ c, h.saved = some c → Selected h.state c

theorem Sound.start (env1 env2 : EnvCopy α) : Sound (History.start env1 env2) where
  envValid := boot_envValid _
  selected := by
    intro c hc
    simp [History.start] at hc

theorem Sound.step {h : History α} (sound : Sound h) {event : Event α}
    (ahead : SaveAhead h event) : Sound (h.step event) := by
  cases event with
  | boot =>
    refine ⟨boot_envValid _, ?_⟩
    intro c hc
    have hsel := sound.selected c hc
    change Selected (boot h.state).1 c
    rw [hsel.boot_eq sound.envValid]
    exact ⟨hsel.crcOk, hsel.contents, hsel.older⟩
  | save data result =>
    refine ⟨saveenv_envValid data result h.state sound.envValid, ?_⟩
    intro c hc
    by_cases hr : result = .written
    · subst hr
      have hdata : data = c := by
        simpa [History.step, (saveenv_returns_zero_iff data .written h.state).mpr rfl] using hc
      subst hdata
      exact (saveenv_written_selected_iff data sound.envValid).mpr ahead
    · have hret : (saveenv data result h.state).2 ≠ 0 :=
        fun h0 => hr ((saveenv_returns_zero_iff _ _ _).mp h0)
      have hsaved : h.saved = some c := by
        simpa [History.step, hret] using hc
      exact (sound.selected c hsaved).saveenv_fail data hr

/-- Over every sequence of boots and saves in which each completed save starts
with the serial ahead, the next boot imports what the last save that reported
success has written. -/
theorem boot_selects_last_saved (env1 env2 : EnvCopy α) (events : List (Event α))
    (ahead : Guarded History.step SaveAhead (History.start env1 env2) events)
    (c : α) (hc : (run History.step (History.start env1 env2) events).saved = some c) :
    (boot (run History.step (History.start env1 env2) events).state).2 = some c := by
  have sound := ahead.invariant (fun _ _ hs ok => Sound.step hs ok) (Sound.start env1 env2)
  rw [(sound.selected c hc).boot_eq sound.envValid]

/-- Serials 254 and 253 are stored, copy 1 is in use. One save fails before it
touches the card, the next one succeeds under serial 0, and the boot after it
still prefers serial 254. -/
theorem boot_superseded_by_older :
    ¬∀ (env1 env2 : EnvCopy Nat) (events : List (Event Nat)) (c : Nat),
      (run History.step (History.start env1 env2) events).saved = some c →
        (boot (run History.step (History.start env1 env2) events).state).2 = some c := by
  intro h
  have := h ⟨true, 254, 10⟩ ⟨true, 253, 20⟩
    [.save 30 (.writeFail false), .save 40 .written] 40 (by decide)
  exact absurd this (by decide)

/-- A run over the wrap-around: the save under serial 0 follows one stored
under serial 255, and a later failing save damages the older copy. -/
theorem boot_selects_saved_across_wrap :
    (boot (run History.step (History.start ⟨true, 255, 10⟩ ⟨true, 254, 20⟩)
      [.save 30 .written, .boot, .save 40 (.writeFail true)]).state).2 = some 30 :=
  boot_selects_last_saved ⟨true, 255, 10⟩ ⟨true, 254, 20⟩
    [.save 30 .written, .boot, .save 40 (.writeFail true)]
    ⟨Or.inr (Or.inl (by decide)), trivial, trivial, trivial⟩ 30 (by decide)

end UBoot.Env.Mmc
