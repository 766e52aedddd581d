import Mathlib.Tactic.Common
import UBoot.Env.Fw.Basic
import UBoot.Env.Mmc.Saved

/-!
# One environment, two writers

U-Boot and the Linux tools write the same two copies under the incremental
scheme. Both choose by the serials, and both write the copy they did not
choose under the next serial. The tools look at the card in every run; U-Boot
looks at it at boot and then follows its own `env_flags` and `gd->env_valid`.
It therefore stays in step as long as the tools have written at most once
since it last booted or saved: a second run stores a serial it does not know.
-/

namespace UBoot.Env.Fw

open Mmc Verification

universe u

variable {α : Type u}

/-- The number of the copy with the newest right contents. -/
def newest (s : State α) : Nat :=
  if s.env1.crcOk && !s.env2.crcOk then 1
  else if !s.env1.crcOk && s.env2.crcOk then 2
  else checkSerial s.env1.flags s.env2.flags

/-- The copy with the given number. -/
def copyAt (s : State α) (copy : Nat) : EnvCopy α :=
  if copy = 1 then s.env1 else s.env2

/-- Store a copy that has a right CRC. -/
def store (s : State α) (copy : Nat) (flags : UInt8) (data : α) : State α :=
  if copy = 1 then { s with env1 := ⟨true, flags, data⟩ }
  else { s with env2 := ⟨true, flags, data⟩ }

/-- The number of the copy that is not the given one. -/
def other (copy : Nat) : Nat :=
  if copy = 1 then 2 else 1

/-- At least one copy has a right CRC. -/
def SomeValid (s : State α) : Prop :=
  s.env1.crcOk = true ∨ s.env2.crcOk = true

theorem checkSerial_eq_or (f g : UInt8) : checkSerial f g = 1 ∨ checkSerial f g = 2 := by
  unfold checkSerial
  split_ifs <;> simp

/-- The two comparisons agree, the tie included. -/
theorem checkFlags_incremental (f g : UInt8) :
    checkFlags .incremental f g + 1 = checkSerial f g := by
  rw [checkSerial_toNat]
  simp only [checkFlags, ← UInt8.toNat_inj, ge_iff_le, UInt8.le_iff_toNat_le, UInt8.reduceToNat]
  split_ifs <;> omega

theorem newest_eq_or (s : State α) : newest s = 1 ∨ newest s = 2 := by
  unfold newest
  split_ifs
  · exact .inl rfl
  · exact .inr rfl
  · exact checkSerial_eq_or _ _

/-- The newest copy has a right CRC as soon as one of them has. -/
theorem SomeValid.crcOk {s : State α} (valid : SomeValid s) :
    (copyAt s (newest s)).crcOk = true := by
  unfold SomeValid at valid
  cases h1 : s.env1.crcOk <;> cases h2 : s.env2.crcOk
  · simp [h1, h2] at valid
  · simp [newest, copyAt, h1, h2]
  · simp [newest, copyAt, h1, h2]
  · obtain h | h := newest_eq_or s <;> simp [copyAt, h, h1, h2]

/-- U-Boot's choice at boot, and what it remembers of it. -/
theorem boot_eq_newest {s : State α} (valid : SomeValid s) :
    boot s = ({ s with envValid := newest s, envFlags := (copyAt s (newest s)).flags },
      some (copyAt s (newest s)).data) := by
  unfold SomeValid at valid
  cases h1 : s.env1.crcOk <;> cases h2 : s.env2.crcOk
  · simp [h1, h2] at valid
  · simp [boot, reset, envRelocateSpec, newest, copyAt, h1, h2]
  · simp [boot, reset, envRelocateSpec, newest, copyAt, h1, h2]
  · simp [boot, reset, envRelocateSpec, newest, copyAt, h1, h2]

/-- The choice of the tools on two devices without an MTD type. -/
theorem fwEnvOpen_eq_newest (useDefault : α → α) {s : State α} (valid : SomeValid s) :
    fwEnvOpen .absent .absent useDefault s =
      some ⟨newest s - 1, .incremental, (copyAt s (newest s)).flags,
        (copyAt s (newest s)).data⟩ := by
  unfold SomeValid at valid
  have hflags := checkFlags_incremental s.env1.flags s.env2.flags
  cases h1 : s.env1.crcOk <;> cases h2 : s.env2.crcOk
  · simp [h1, h2] at valid
  · simp [fwEnvOpen, flagScheme, newest, copyAt, h1, h2]
  · simp [fwEnvOpen, flagScheme, newest, copyAt, h1, h2]
  · obtain h | h := checkSerial_eq_or s.env1.flags s.env2.flags
    · have h0 : checkFlags .incremental s.env1.flags s.env2.flags = 0 := by omega
      simp [fwEnvOpen, flagScheme, newest, copyAt, h1, h2, h, h0]
    · have h0 : checkFlags .incremental s.env1.flags s.env2.flags = 1 := by omega
      simp [fwEnvOpen, flagScheme, newest, copyAt, h1, h2, h, h0]

/-- A completed save stores one copy and updates what U-Boot remembers. -/
theorem saveenv_eq_store (data : α) {s : State α} (hs : s.envValid = 1 ∨ s.envValid = 2) :
    (saveenv data .written s).1 =
      { store s (other s.envValid) (s.envFlags + 1) data with
        envFlags := s.envFlags + 1, envValid := other s.envValid } := by
  obtain h | h := hs <;> simp [saveenv, store, other, h]

/-- A run of the tools stores the copy that is not the newest. -/
theorem fwSetenv_eq_store (useDefault edit : α → α) {s : State α} (valid : SomeValid s) :
    fwSetenv .absent .absent useDefault edit s =
      some (store s (other (newest s)) ((copyAt s (newest s)).flags + 1)
        (edit (copyAt s (newest s)).data)) := by
  rw [fwSetenv, fwEnvOpen_eq_newest useDefault valid]
  obtain h | h := newest_eq_or s <;>
    simp [flashWrite, FlagScheme.next, FlagScheme.retire, store, other, h]

theorem someValid_store (s : State α) (copy : Nat) (flags : UInt8) (data : α) :
    SomeValid (store s copy flags data) := by
  unfold store
  split
  · exact .inl rfl
  · exact .inr rfl

@[simp] theorem copyAt_store (s : State α) (copy : Nat) (flags : UInt8) (data : α) :
    copyAt (store s copy flags data) copy = ⟨true, flags, data⟩ := by
  by_cases h : copy = 1 <;> simp [copyAt, store, h]

/-- The next serial in the copy that is not the newest makes it the newest. -/
theorem newest_store_other (s : State α) (data : α) :
    newest (store s (other (newest s)) ((copyAt s (newest s)).flags + 1) data) =
      other (newest s) := by
  obtain h | h := newest_eq_or s
  · rw [h]
    have := (checkSerial_eq_two_iff s.env1.flags s.env1.flags).mpr (.inl rfl)
    cases h1 : s.env1.crcOk <;> simp [newest, store, other, copyAt, h1, this]
  · rw [h]
    have := (checkSerial_eq_one_iff s.env2.flags s.env2.flags).mpr (.inl rfl)
    cases h2 : s.env2.crcOk <;> simp [newest, store, other, copyAt, h2, this]

/-- Contents stored over the newest copy under its own serial. -/
theorem newest_store_same {s : State α} (valid : SomeValid s) (data : α) :
    newest (store s (newest s) (copyAt s (newest s)).flags data) = newest s := by
  have hcrc := valid.crcOk
  obtain h | h := newest_eq_or s
  · rw [h] at hcrc ⊢
    have hcrc1 : s.env1.crcOk = true := by simpa [copyAt] using hcrc
    simpa [newest, store, copyAt, hcrc1] using h
  · rw [h] at hcrc ⊢
    have hcrc2 : s.env2.crcOk = true := by simpa [copyAt] using hcrc
    simpa [newest, store, copyAt, hcrc2] using h

/-- A boot, or a call that writes and reports success. -/
inductive Access (α : Type u) where
  | boot
  | saveenv (data : α)
  | fwSetenv (edit : α → α)

/-- The card and U-Boot's variables, with two ghost components: the number and
contents of the copy written last, and how often the tools have written since
U-Boot last booted or saved, `none` before the first boot. -/
structure Shared (α : Type u) where
  state : State α
  written : Option (Nat × α)
  behind : Option Nat

/-- One access. A save writes the copy `gd->env_valid` does not name, the
tools the one that is not `dev_current`. -/
def Shared.step (useDefault : α → α) (s : Shared α) : Access α → Shared α
  | .boot => { s with state := (Mmc.boot s.state).1, behind := some 0 }
  | .saveenv data =>
    { state := (Mmc.saveenv data .written s.state).1
      written := some (if s.state.envValid = 1 then 2 else 1, data)
      behind := s.behind.map fun _ => 0 }
  | .fwSetenv edit =>
    match fwEnvOpen .absent .absent useDefault s.state,
      Fw.fwSetenv .absent .absent useDefault edit s.state with
    | some env, some state =>
      { state := state
        written := some (if env.devCurrent = 0 then 2 else 1, edit env.data)
        behind := s.behind.map fun n => n + 1 }
    | _, _ => s

/-- A card with the two copies, nothing written yet and U-Boot not booted. -/
def Shared.start (env1 env2 : EnvCopy α) : Shared α where
  state := { env1 := env1, env2 := env2, envFlags := 0, envValid := 1 }
  written := none
  behind := none

/-- `saveenv` runs in a U-Boot that has booted, and the tools have written at
most once since it last booted or saved. -/
def InStep (s : Shared α) : Access α → Prop
  | .saveenv _ => s.behind = some 0 ∨ s.behind = some 1
  | _ => True

/-- What the next boot and the next run of the tools select. -/
structure SelectsLast (useDefault : α → α) (s : Shared α) (env : Environment α) : Prop where
  opened : fwEnvOpen .absent .absent useDefault s.state = some env
  sameCopy : (boot s.state).1.envValid = env.devCurrent + 1
  sameData : (boot s.state).2 = some env.data
  last : ∀ copy data, s.written = some (copy, data) → env.devCurrent + 1 = copy ∧ env.data = data

/-- The invariant of a run. U-Boot's variables describe the newest copy, or
the one that was the newest before the tools wrote. -/
structure Consistent (s : Shared α) : Prop where
  valid : SomeValid s.state
  last : ∀ copy data, s.written = some (copy, data) →
    newest s.state = copy ∧ (copyAt s.state copy).data = data
  inStep : s.behind = some 0 →
    s.state.envValid = newest s.state ∧ s.state.envFlags = (copyAt s.state (newest s.state)).flags
  oneBehind : s.behind = some 1 →
    s.state.envValid = other (newest s.state) ∧
      s.state.envFlags + 1 = (copyAt s.state (newest s.state)).flags

theorem other_other {copy : Nat} (h : copy = 1 ∨ copy = 2) : other (other copy) = copy := by
  obtain rfl | rfl := h <;> rfl

theorem Consistent.start {env1 env2 : EnvCopy α}
    (valid : env1.crcOk = true ∨ env2.crcOk = true) : Consistent (Shared.start env1 env2) where
  valid := valid
  last := by simp [Shared.start]
  inStep := by simp [Shared.start]
  oneBehind := by simp [Shared.start]

theorem Consistent.boot {s : Shared α} (h : Consistent s) (useDefault : α → α) :
    Consistent (s.step useDefault .boot) := by
  simp only [Shared.step, boot_eq_newest h.valid]
  exact ⟨h.valid, h.last, fun _ => ⟨rfl, rfl⟩, by simp⟩

/-- Where U-Boot writes while in step: the copy it stores becomes the newest. -/
theorem Consistent.newest_saveenv {s : Shared α} (h : Consistent s) {data : α}
    (ok : InStep s (.saveenv data)) :
    (s.state.envValid = 1 ∨ s.state.envValid = 2) ∧
      newest (store s.state (other s.state.envValid) (s.state.envFlags + 1) data) =
        other s.state.envValid := by
  have hnewest := newest_eq_or s.state
  obtain h0 | h1 := ok
  · obtain ⟨hvalid, hflags⟩ := h.inStep h0
    rw [hvalid, hflags]
    exact ⟨hnewest, newest_store_other s.state data⟩
  · -- The tools have written the copy U-Boot is about to write, under the same serial.
    obtain ⟨hvalid, hflags⟩ := h.oneBehind h1
    rw [hvalid, hflags, other_other hnewest]
    refine ⟨?_, newest_store_same h.valid data⟩
    obtain hn | hn := hnewest <;> simp [hn, other]

theorem Consistent.saveenv {s : Shared α} (h : Consistent s) (useDefault : α → α) {data : α}
    (ok : InStep s (.saveenv data)) : Consistent (s.step useDefault (.saveenv data)) := by
  obtain ⟨henvValid, hnewest⟩ := h.newest_saveenv ok
  simp only [Shared.step, saveenv_eq_store data henvValid]
  refine ⟨someValid_store s.state _ _ data, ?_, ?_, ?_⟩
  · rintro copy contents hwritten
    obtain ⟨rfl, rfl⟩ : other s.state.envValid = copy ∧ data = contents := by
      simpa [other] using hwritten
    exact ⟨hnewest, congrArg EnvCopy.data (copyAt_store s.state _ _ data)⟩
  · intro _
    refine ⟨hnewest.symm, ?_⟩
    change s.state.envFlags + 1 = (copyAt (store s.state _ _ data) (newest (store s.state _ _ data))).flags
    rw [hnewest, copyAt_store]
  · cases s.behind <;> simp

theorem Consistent.fwSetenv {s : Shared α} (h : Consistent s) (useDefault edit : α → α) :
    Consistent (s.step useDefault (.fwSetenv edit)) := by
  have hnewest := newest_store_other s.state (edit (copyAt s.state (newest s.state)).data)
  simp only [Shared.step, fwEnvOpen_eq_newest useDefault h.valid,
    fwSetenv_eq_store useDefault edit h.valid]
  refine ⟨someValid_store s.state _ _ _, ?_, ?_, ?_⟩
  · rintro copy contents hwritten
    have htarget : (if newest s.state - 1 = 0 then 2 else 1) = other (newest s.state) := by
      obtain hn | hn := newest_eq_or s.state <;> simp [hn, other]
    rw [htarget] at hwritten
    obtain ⟨rfl, rfl⟩ : other (newest s.state) = copy ∧ _ = contents := by
      simpa using hwritten
    exact ⟨hnewest, congrArg EnvCopy.data (copyAt_store s.state _ _ _)⟩
  · cases s.behind <;> simp
  · intro hbehind
    have h0 : s.behind = some 0 := by
      cases hb : s.behind <;> simp [hb] at hbehind ⊢
      exact hbehind
    obtain ⟨hvalid, hflags⟩ := h.inStep h0
    simp only [hnewest, copyAt_store]
    rw [other_other (newest_eq_or s.state)]
    refine ⟨?_, ?_⟩
    · rw [← hvalid]
      unfold store
      split <;> rfl
    · rw [← hflags]
      unfold store
      split <;> rfl

theorem Consistent.step {s : Shared α} (h : Consistent s) (useDefault : α → α) {access : Access α}
    (ok : InStep s access) : Consistent (s.step useDefault access) := by
  cases access with
  | boot => exact h.boot useDefault
  | saveenv data => exact h.saveenv useDefault ok
  | fwSetenv edit => exact h.fwSetenv useDefault edit

/-- Both sides read the choice off the card alone. -/
theorem Consistent.selectsLast {s : Shared α} (h : Consistent s) (useDefault : α → α) :
    ∃ env, SelectsLast useDefault s env := by
  have hnewest := newest_eq_or s.state
  refine ⟨_, fwEnvOpen_eq_newest useDefault h.valid, ?_, ?_, ?_⟩
  · rw [boot_eq_newest h.valid]
    change newest s.state = newest s.state - 1 + 1
    omega
  · rw [boot_eq_newest h.valid]
  · intro copy data hwritten
    obtain ⟨rfl, rfl⟩ := h.last copy data hwritten
    refine ⟨?_, rfl⟩
    change newest s.state - 1 + 1 = newest s.state
    omega

/-- Over every sequence of boots, saves and runs of the tools that starts with
a right copy and in which U-Boot saves in step, the next boot and the next run
of the tools select the same copy, and it is the one written last. -/
theorem selects_written_last (useDefault : α → α) (env1 env2 : EnvCopy α)
    (valid : env1.crcOk = true ∨ env2.crcOk = true) (accesses : List (Access α))
    (inStep : Guarded (Shared.step useDefault) InStep (Shared.start env1 env2) accesses) :
    ∃ env, SelectsLast useDefault
      (run (Shared.step useDefault) (Shared.start env1 env2) accesses) env := by
  have consistent := inStep.invariant
    (fun _ _ hs ok => Consistent.step hs useDefault ok) (Consistent.start valid)
  exact consistent.selectsLast useDefault

/-- A boot, a save under serial 255, a run of the tools over the wrap-around
and another save. -/
theorem selects_written_last_wrap :
    ∃ env, SelectsLast id
      (run (Shared.step id) (Shared.start ⟨true, 254, 10⟩ ⟨false, 7, 20⟩)
        [.boot, .saveenv 30, .fwSetenv (· + 1), .boot, .saveenv 40]) env :=
  selects_written_last id ⟨true, 254, 10⟩ ⟨false, 7, 20⟩ (by decide)
    [.boot, .saveenv 30, .fwSetenv (· + 1), .boot, .saveenv 40]
    ⟨trivial, .inl rfl, trivial, trivial, .inl rfl, trivial⟩

/-- The tools write twice while U-Boot stays at its prompt, as with `ums`. The
save that follows stores serial 6 beside serial 7 and is not selected. -/
theorem save_lost_after_two_tool_writes :
    ¬∀ (useDefault : Nat → Nat) (env1 env2 : EnvCopy Nat),
      env1.crcOk = true ∨ env2.crcOk = true → ∀ accesses : List (Access Nat),
        ∃ env, SelectsLast useDefault
          (run (Shared.step useDefault) (Shared.start env1 env2) accesses) env := by
  intro h
  obtain ⟨env, selects⟩ := h id ⟨true, 5, 10⟩ ⟨true, 4, 20⟩ (by decide)
    [.boot, .fwSetenv (· + 1), .fwSetenv (· + 1), .saveenv 40]
  have hdata := (selects.last 2 40 (by decide)).2
  have hboot := selects.sameData
  rw [hdata] at hboot
  exact absurd hboot (by decide)

end UBoot.Env.Fw
