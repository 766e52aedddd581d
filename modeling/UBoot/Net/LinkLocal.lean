import Mathlib.Data.UInt
import UBoot.Verification.Run

/-!
# Link-local addresses

`net/link_local.c`. An event is a timeout or an ARP packet, with the time in
milliseconds at which it comes and the random numbers that the code draws then.
The log of a run holds, newest first, the addresses that were picked, the ARP
packets that were sent and the conflicts that were received.
-/

namespace UBoot.Net.LinkLocal

open Verification

def LINKLOCAL_ADDR : UInt32 := 0xa9fe0000
def IN_CLASSB_NET : UInt32 := 0xffff0000
def PROBE_WAIT : Nat := 1
def PROBE_MIN : Nat := 1
def PROBE_MAX : Nat := 2
def PROBE_NUM : Nat := 3
def MAX_CONFLICTS : UInt32 := 10
def RATE_LIMIT_INTERVAL : Nat := 60
def ANNOUNCE_NUM : Nat := 2
def ANNOUNCE_INTERVAL : Nat := 2
def DEFEND_INTERVAL : Nat := 10
def ARPOP_REQUEST : Nat := 1
def ARPOP_REPLY : Nat := 2

/-- `enum ll_state_t` -/
inductive State where
  | probe
  | rateLimitProbe
  | announce
  | monitor
  | defend
  | disabled
  deriving DecidableEq, Repr

/-- The static variables, and the timer of `NetSetTimeout` with its start and
length. -/
structure Vars where
  state : State
  ip : UInt32
  timeoutMs : Int
  deadlineMs : UInt32
  conflicts : UInt32
  nprobes : Nat
  nclaims : Nat
  ready : Bool
  ourIp : UInt32
  timer : Option (Nat × Nat)
  deriving DecidableEq, Repr

/-- What `rand_r` gives: the first number that `pick` takes, and a delay. -/
structure Rand where
  tmp : Fin 0xfe00
  delay : Nat
  deriving DecidableEq, Repr

/-- The fields of an ARP packet. -/
structure Arp where
  op : Nat
  sha : List UInt8
  spa : UInt32
  tpa : UInt32
  deriving DecidableEq, Repr

/-- A timeout has no packet. -/
structure Event where
  now : Nat
  rand : Rand
  arp : Option Arp
  deriving DecidableEq, Repr

/-- What happens in a run. -/
inductive Entry where
  | picked (ip : UInt32)
  | probe (ip : UInt32) (now : Nat)
  | announce (ip : UInt32) (now : Nat)
  | defence (ip : UInt32) (now : Nat)
  | assigned (ip : UInt32)
  /-- A conflicting packet, and `conflicts` after it. -/
  | conflict (ip : UInt32) (now : Nat) (conflicts : UInt32)
  deriving DecidableEq, Repr

/-- `pick` -/
def pick (rand : Rand) : UInt32 := LINKLOCAL_ADDR + 0x0100 + UInt32.ofNat rand.tmp

/-- `random_delay_ms` -/
def randomDelayMs (rand : Rand) (secs : Nat) : Nat := rand.delay % (secs * 1000)

/-- `configure_wait` -/
def configureWait (now : Nat) (rand : Rand) (s : Vars) : Vars :=
  if s.timeoutMs = -1 then s
  else
    let timeoutMs : Int :=
      if s.timeoutMs = 0 then (randomDelayMs rand PROBE_WAIT : Nat) else s.timeoutMs
    { s with
      timeoutMs := timeoutMs
      deadlineMs := UInt32.ofNat now + UInt32.ofInt timeoutMs
      -- `NetSetTimeout` with 0 cancels the timer
      timer := if timeoutMs = 0 then none else some (now, timeoutMs.toNat) }

/-- The protocol is restarted with a new address. -/
def restart (rand : Rand) (s : Vars) : Vars :=
  { s with ip := pick rand, timeoutMs := 0, nprobes := 0, nclaims := 0 }

/-- A run: the variables and the log. -/
structure History where
  ll : Vars
  log : List Entry
  deriving DecidableEq, Repr

/-- `link_local_start` with the address from the environment. -/
def linkLocalStart (llipaddr ourIp : UInt32) (now : Nat) (rand : Rand) : Option History :=
  if llipaddr ≠ 0 ∧ llipaddr &&& IN_CLASSB_NET ≠ LINKLOCAL_ADDR then none
  else
    let ip := if llipaddr = 0 then pick rand else llipaddr
    some {
      ll := configureWait now rand {
        state := .probe, ip := ip, timeoutMs := 0, deadlineMs := 0, conflicts := 0, nprobes := 0
        nclaims := 0, ready := false, ourIp := ourIp, timer := none }
      log := [.picked ip] }

def announceFirst (now : Nat) (h : History) : History where
  ll := { h.ll with state := .announce, nclaims := 0, timeoutMs := ANNOUNCE_INTERVAL * 1000 }
  log := .announce h.ll.ip now :: h.log

/-- `link_local_timeout` up to `configure_wait`. -/
def onTimeout (now : Nat) (rand : Rand) (h : History) : History :=
  match h.ll.state with
  | .probe =>
    if h.ll.nprobes < PROBE_NUM then
      { ll := { h.ll with
          nprobes := h.ll.nprobes + 1
          timeoutMs := PROBE_MIN * 1000 + randomDelayMs rand (PROBE_MAX - PROBE_MIN) }
        log := .probe h.ll.ip now :: h.log }
    else announceFirst now h
  | .rateLimitProbe => announceFirst now h
  | .announce =>
    if h.ll.nclaims < ANNOUNCE_NUM then
      { ll := { h.ll with
          nclaims := h.ll.nclaims + 1
          timeoutMs := ANNOUNCE_INTERVAL * 1000 }
        log := .announce h.ll.ip now :: h.log }
    else
      { ll := { h.ll with
          state := .monitor, ourIp := h.ll.ip, ready := true, conflicts := 0, timeoutMs := -1
          timer := none }
        log := .assigned h.ll.ip :: h.log }
  | .defend => { h with ll := { h.ll with state := .monitor, timeoutMs := -1, conflicts := 0 } }
  | _ =>
    { ll := restart rand { h.ll with state := .probe }
      log := .picked (pick rand) :: h.log }

/-- `link_local_timeout`; the timer is cleared before it is called. -/
def linkLocalTimeout (now : Nat) (rand : Rand) (h : History) : History :=
  let h := onTimeout now rand { h with ll := { h.ll with timer := none } }
  { h with ll := configureWait now rand h.ll }

/-- The time that is left of the timeout. -/
def adjustTimeout (now : Nat) (s : Vars) : Vars :=
  if s.timeoutMs > 0 then
    let diff := s.deadlineMs - UInt32.ofNat now
    { s with timeoutMs := if diff.toNat ≥ 2 ^ 31 then 0 else ((diff ||| 1).toNat : Int) }
  else s

def sourceIpConflict (ourEther : List UInt8) (s : Vars) (arp : Arp) : Bool :=
  arp.spa = s.ip && arp.sha ≠ ourEther

def targetIpConflict (ourEther : List UInt8) (s : Vars) (arp : Arp) : Bool :=
  arp.op = ARPOP_REQUEST && arp.spa = 0 && arp.tpa = s.ip && arp.sha ≠ ourEther

/-- A request or a reply that conflicts with the address. -/
def conflicting (ourEther : List UInt8) (s : Vars) (arp : Arp) : Bool :=
  (arp.op = ARPOP_REQUEST || arp.op = ARPOP_REPLY) &&
    (sourceIpConflict ourEther s arp || targetIpConflict ourEther s arp)

/-- A conflict while probing or announcing. -/
def countConflict (rand : Rand) (s : Vars) : Vars :=
  let conflicts := s.conflicts + 1
  let s := { s with conflicts := conflicts, state := .probe }
  let s :=
    if conflicts ≥ MAX_CONFLICTS then
      { s with timeoutMs := RATE_LIMIT_INTERVAL * 1000, state := .rateLimitProbe }
    else s
  restart rand s

/-- The `switch` of `link_local_receive_arp`, with the entries for what it does. -/
def onArp (ourEther : List UInt8) (now : Nat) (rand : Rand) (arp : Arp) (s : Vars) :
    Vars × List Entry :=
  let source := sourceIpConflict ourEther s arp
  match s.state with
  | .probe | .announce =>
    if source || targetIpConflict ourEther s arp then
      (countConflict rand s, [.picked (pick rand)])
    else (s, [])
  | .monitor =>
    if source then
      ({ s with state := .defend, timeoutMs := DEFEND_INTERVAL * 1000 }, [.defence s.ip now])
    else (s, [])
  | .defend =>
    if source then
      (restart rand { s with state := .probe, ready := false, ourIp := 0 },
        [.picked (pick rand)])
    else (s, [])
  | _ => (restart rand { s with state := .probe }, [.picked (pick rand)])

/-- The run after a packet, with its conflict if it is one. -/
def logArp (conflict : Bool) (ip : UInt32) (now : Nat) (log : List Entry)
    (result : Vars × List Entry) : History where
  ll := result.1
  log := result.2 ++ ((if conflict then [.conflict ip now result.1.conflicts] else []) ++ log)

/-- `link_local_receive_arp` -/
def linkLocalReceiveArp (ourEther : List UInt8) (now : Nat) (rand : Rand) (arp : Arp)
    (h : History) : History :=
  if h.ll.state = .disabled then h
  else
    let s := adjustTimeout now h.ll
    if arp.op ≠ ARPOP_REQUEST ∧ arp.op ≠ ARPOP_REPLY then { h with ll := configureWait now rand s }
    else
      let h := logArp (conflicting ourEther s arp) s.ip now h.log (onArp ourEther now rand arp s)
      { h with ll := configureWait now rand h.ll }

def step (ourEther : List UInt8) (h : History) (e : Event) : History :=
  match e.arp with
  | none => linkLocalTimeout e.now e.rand h
  | some arp => linkLocalReceiveArp ourEther e.now e.rand arp h

/-- The event can come: no timeout before its time. -/
def Timely (h : History) (e : Event) : Prop :=
  e.arp = none → ∃ timer ∈ h.ll.timer, timer.2 < e.now - timer.1

instance (h : History) (e : Event) : Decidable (Timely h e) :=
  inferInstanceAs (Decidable (_ → ∃ timer ∈ h.ll.timer, _))

/-! ### What a log has to look like -/

namespace Entry

/-- The time at which a packet was sent. -/
def sentAt : Entry → Option Nat
  | probe _ now | announce _ now | defence _ now => some now
  | _ => none

/-- The address that is announced or assigned. -/
def claims : Entry → Option UInt32
  | announce ip _ | assigned ip => some ip
  | _ => none

/-- A new address, or a conflict about the old one. -/
def disturbs : Entry → Bool
  | picked _ | conflict _ _ _ => true
  | _ => false

def isProbe (ip : UInt32) : Entry → Bool
  | probe target _ => target = ip
  | _ => false

end Entry

/-- Since the address was picked there was no conflict, and at least `n` probes
for it were sent. -/
def Probed (ip : UInt32) (n : Nat) (log : List Entry) : Prop :=
  ∃ since older, log = since ++ .picked ip :: older ∧ (∀ e ∈ since, e.disturbs = false) ∧
    n ≤ since.countP (Entry.isProbe ip)

/-- An address is announced and assigned after all its probes only. -/
def ProbedFirst : List Entry → Prop
  | [] => True
  | e :: log => (∀ ip ∈ e.claims, Probed ip PROBE_NUM log) ∧ ProbedFirst log

/-- After the last conflict that is allowed, the next packet waits. -/
def RateLimited : List Entry → Prop
  | [] => True
  | e :: log =>
    (∀ sent ∈ e.sentAt, ∀ since ip now conflicts older,
      log = since ++ .conflict ip now conflicts :: older →
      (∀ e' ∈ since, e'.sentAt = none) → MAX_CONFLICTS ≤ conflicts →
      now + RATE_LIMIT_INTERVAL * 1000 ≤ sent) ∧
    RateLimited log

/-- The log of a run is right. -/
def Right (log : List Entry) : Prop := ProbedFirst log ∧ RateLimited log

/-! ### Runs without too many conflicts -/

/-- The packet is not the conflict that makes it `MAX_CONFLICTS`. -/
def BelowLimit (ourEther : List UInt8) (h : History) (e : Event) : Prop :=
  ∀ arp ∈ e.arp, h.ll.state = .probe ∨ h.ll.state = .announce →
    conflicting ourEther h.ll arp = true → h.ll.conflicts + 1 < MAX_CONFLICTS

instance (ourEther : List UInt8) (h : History) (e : Event) : Decidable (BelowLimit ourEther h e) :=
  inferInstanceAs (Decidable (∀ arp ∈ e.arp, _))

/-- What the state says about the log. -/
def Phase (s : Vars) (log : List Entry) : Prop :=
  match s.state with
  | .probe => Probed s.ip s.nprobes log
  | .announce => Probed s.ip PROBE_NUM log
  | .monitor | .defend => True
  | _ => False

/-- Every conflict in the log was below the limit. -/
def Few (log : List Entry) : Prop :=
  ∀ ip now conflicts, .conflict ip now conflicts ∈ log → conflicts < MAX_CONFLICTS

structure Inv (h : History) : Prop where
  phase : Phase h.ll h.log
  first : ProbedFirst h.log
  few : Few h.log
  count : h.ll.conflicts < MAX_CONFLICTS

theorem Probed.picked (ip : UInt32) (log : List Entry) : Probed ip 0 (.picked ip :: log) :=
  ⟨[], log, rfl, fun _ h => absurd h List.not_mem_nil, Nat.zero_le _⟩

theorem Probed.cons {ip : UInt32} {n : Nat} {log : List Entry} (h : Probed ip n log) {e : Entry}
    (he : e.disturbs = false) : Probed ip n (e :: log) := by
  obtain ⟨since, older, rfl, hquiet, hcount⟩ := h
  refine ⟨e :: since, older, rfl, ?_, ?_⟩
  · rintro e' (_ | ⟨_, hmem⟩)
    · exact he
    · exact hquiet e' hmem
  · rw [List.countP_cons]
    exact Nat.le_add_right_of_le hcount

theorem Probed.probe {ip : UInt32} {n : Nat} {log : List Entry} (h : Probed ip n log)
    (now : Nat) : Probed ip (n + 1) (.probe ip now :: log) := by
  obtain ⟨since, older, rfl, hquiet, hcount⟩ := h
  refine ⟨.probe ip now :: since, older, rfl, ?_, ?_⟩
  · rintro e' (_ | ⟨_, hmem⟩)
    · rfl
    · exact hquiet e' hmem
  · rw [List.countP_cons_of_pos (by simp [Entry.isProbe])]
    exact Nat.succ_le_succ hcount

theorem Probed.mono {ip : UInt32} {m n : Nat} {log : List Entry} (h : Probed ip n log)
    (hle : m ≤ n) : Probed ip m log := by
  obtain ⟨since, older, hlog, hquiet, hcount⟩ := h
  exact ⟨since, older, hlog, hquiet, hle.trans hcount⟩

theorem ProbedFirst.cons {log : List Entry} (h : ProbedFirst log) {e : Entry}
    (he : e.claims = none) : ProbedFirst (e :: log) :=
  ⟨fun ip hip => by simp [he] at hip, h⟩

theorem ProbedFirst.claim {log : List Entry} (h : ProbedFirst log) {ip : UInt32}
    (hprobed : Probed ip PROBE_NUM log) {e : Entry} (he : e.claims = some ip) :
    ProbedFirst (e :: log) := by
  refine ⟨fun ip' hip => ?_, h⟩
  obtain rfl := Option.some.inj (he.symm.trans hip)
  exact hprobed

theorem Few.cons {log : List Entry} (h : Few log) {e : Entry}
    (he : ∀ ip now conflicts, e = .conflict ip now conflicts → conflicts < MAX_CONFLICTS) :
    Few (e :: log) := by
  rintro ip now conflicts (_ | ⟨_, hmem⟩)
  · exact he ip now conflicts rfl
  · exact h ip now conflicts hmem

theorem RateLimited.of_few {log : List Entry} (h : Few log) : RateLimited log := by
  induction log with
  | nil => trivial
  | cons e log ih =>
    refine ⟨?_, ih fun ip now conflicts hmem => h ip now conflicts (List.mem_cons_of_mem e hmem)⟩
    rintro sent - since ip now conflicts older rfl - hmax
    have hlt := h ip now conflicts
      (List.mem_cons_of_mem e (List.mem_append_right since List.mem_cons_self))
    exact absurd hmax (UInt32.not_le.mpr hlt)

/-- `configure_wait` is about the timer only. -/
theorem Phase.configureWait {s : Vars} {log : List Entry} (h : Phase s log) (now : Nat)
    (rand : Rand) : Phase (configureWait now rand s) log := by
  rw [LinkLocal.configureWait]
  by_cases hnever : s.timeoutMs = -1
  · rw [if_pos hnever]
    exact h
  · rw [if_neg hnever]
    exact h

@[simp] theorem configureWait_conflicts (now : Nat) (rand : Rand) (s : Vars) :
    (configureWait now rand s).conflicts = s.conflicts := by
  rw [configureWait]
  by_cases hnever : s.timeoutMs = -1
  · rw [if_pos hnever]
  · rw [if_neg hnever]

theorem adjustTimeout_eq (now : Nat) (s : Vars) :
    ∃ timeoutMs, adjustTimeout now s = { s with timeoutMs := timeoutMs } := by
  rw [adjustTimeout]
  split_ifs
  · exact ⟨_, rfl⟩
  · exact ⟨s.timeoutMs, rfl⟩

theorem Inv.configureWait {h : History} (inv : Inv h) (now : Nat) (rand : Rand) :
    Inv { h with ll := configureWait now rand h.ll } where
  phase := inv.phase.configureWait now rand
  first := inv.first
  few := inv.few
  count := by
    rw [configureWait_conflicts]
    exact inv.count

theorem Inv.announceFirst {h : History} (inv : Inv h) (hprobed : Probed h.ll.ip PROBE_NUM h.log)
    (now : Nat) : Inv (announceFirst now h) where
  phase := hprobed.cons rfl
  first := inv.first.claim hprobed rfl
  few := inv.few.cons fun _ _ _ h => by cases h
  count := inv.count

theorem Inv.onTimeout {h : History} (inv : Inv h) (now : Nat) (rand : Rand) :
    Inv (onTimeout now rand h) := by
  have phase := inv.phase
  rw [Phase] at phase
  cases hstate : h.ll.state with
  | probe =>
    simp only [hstate] at phase
    by_cases hfew : h.ll.nprobes < PROBE_NUM
    · simp only [LinkLocal.onTimeout, hstate, if_pos hfew]
      exact ⟨phase.probe now, inv.first.cons rfl, inv.few.cons (fun _ _ _ h => by cases h),
        inv.count⟩
    · simp only [LinkLocal.onTimeout, hstate, if_neg hfew]
      exact inv.announceFirst (phase.mono (Nat.le_of_not_lt hfew)) now
  | rateLimitProbe => simp only [hstate] at phase
  | announce =>
    simp only [hstate] at phase
    by_cases hfew : h.ll.nclaims < ANNOUNCE_NUM
    · simp only [LinkLocal.onTimeout, hstate, if_pos hfew]
      exact ⟨phase.cons rfl, inv.first.claim phase rfl,
        inv.few.cons (fun _ _ _ h => by cases h), inv.count⟩
    · simp only [LinkLocal.onTimeout, hstate, if_neg hfew]
      exact ⟨trivial, inv.first.claim phase rfl, inv.few.cons (fun _ _ _ h => by cases h),
        show (0 : UInt32) < MAX_CONFLICTS by decide⟩
  | monitor =>
    simp only [LinkLocal.onTimeout, hstate]
    exact ⟨Probed.picked _ _, inv.first.cons rfl, inv.few.cons (fun _ _ _ h => by cases h),
      inv.count⟩
  | defend =>
    simp only [LinkLocal.onTimeout, hstate]
    exact ⟨trivial, inv.first, inv.few, show (0 : UInt32) < MAX_CONFLICTS by decide⟩
  | disabled => simp only [hstate] at phase

theorem Few.conflict {log : List Entry} (h : Few log) {conflicts : UInt32}
    (hlt : conflicts < MAX_CONFLICTS) (ip : UInt32) (now : Nat) :
    Few (.conflict ip now conflicts :: log) :=
  h.cons fun _ _ _ heq => by
    cases heq
    exact hlt

theorem countConflict_of_lt (rand : Rand) {s : Vars} (h : s.conflicts + 1 < MAX_CONFLICTS) :
    countConflict rand s = restart rand { s with conflicts := s.conflicts + 1, state := .probe } := by
  simp only [countConflict]
  rw [if_neg (UInt32.not_le.mpr h)]

theorem Few.logArp {log : List Entry} (h : Few log) {count : UInt32}
    (hlt : count < MAX_CONFLICTS) (conflict : Bool) (ip : UInt32) (now : Nat) :
    Few ((if conflict then [.conflict ip now count] else []) ++ log) := by
  cases conflict with
  | false => exact h
  | true => exact h.conflict hlt ip now

theorem ProbedFirst.logArp {log : List Entry} (h : ProbedFirst log) (count : UInt32)
    (conflict : Bool) (ip : UInt32) (now : Nat) :
    ProbedFirst ((if conflict then [.conflict ip now count] else []) ++ log) := by
  cases conflict with
  | false => exact h
  | true => exact h.cons rfl

theorem Inv.logArp_picked {h : History} (inv : Inv h) {s : Vars} (rand : Rand)
    (hcount : s.conflicts < MAX_CONFLICTS) (hstate : s.state = .probe) (conflict : Bool)
    (ip : UInt32) (now : Nat) :
    Inv (logArp conflict ip now h.log (restart rand s, [.picked (pick rand)])) where
  phase := by
    simp only [Phase, logArp, restart, hstate]
    exact Probed.picked _ _
  first := (inv.first.logArp s.conflicts conflict ip now).cons rfl
  few := (inv.few.logArp hcount conflict ip now).cons fun _ _ _ h => by cases h
  count := hcount

/-- A packet that comes after the address was assigned. -/
theorem Inv.logArp_assigned {h : History} (inv : Inv h) {s : Vars} {entries : List Entry}
    (hcount : s.conflicts < MAX_CONFLICTS) (hstate : s.state = .monitor ∨ s.state = .defend)
    (hentries : entries = [] ∨ ∃ ip now, entries = [.defence ip now]) (conflict : Bool)
    (ip : UInt32) (now : Nat) : Inv (logArp conflict ip now h.log (s, entries)) := by
  have phase (log : List Entry) : Phase s log := by
    rw [Phase]
    rcases hstate with h | h
    · simp only [h]
    · simp only [h]
  have first := inv.first.logArp s.conflicts conflict ip now
  have few := inv.few.logArp hcount conflict ip now
  rcases hentries with rfl | ⟨ip', now', rfl⟩
  · exact ⟨phase _, first, few, hcount⟩
  · exact ⟨phase _, first.cons rfl, few.cons (fun _ _ _ h => by cases h), hcount⟩

theorem Inv.onArp {ourEther : List UInt8} {h : History} (inv : Inv h) (now : Nat) (rand : Rand)
    {arp : Arp} (hop : arp.op = ARPOP_REQUEST ∨ arp.op = ARPOP_REPLY)
    (hok : h.ll.state = .probe ∨ h.ll.state = .announce → conflicting ourEther h.ll arp = true →
      h.ll.conflicts + 1 < MAX_CONFLICTS) :
    Inv (logArp (conflicting ourEther h.ll arp) h.ll.ip now h.log
      (LinkLocal.onArp ourEther now rand arp h.ll)) := by
  have hconflicting : (sourceIpConflict ourEther h.ll arp || targetIpConflict ourEther h.ll arp) =
      conflicting ourEther h.ll arp := by
    rw [conflicting]
    rcases hop with h | h
    · simp [h]
    · simp [h]
  have phase := inv.phase
  rw [Phase] at phase
  -- a conflict before the address is assigned starts the protocol again
  have claiming (hstate : h.ll.state = .probe ∨ h.ll.state = .announce) :
      Inv (logArp (conflicting ourEther h.ll arp) h.ll.ip now h.log
        (if conflicting ourEther h.ll arp then
          (countConflict rand h.ll, [.picked (pick rand)]) else (h.ll, []))) := by
    by_cases hc : conflicting ourEther h.ll arp = true
    · rw [if_pos hc, countConflict_of_lt rand (hok hstate hc)]
      exact inv.logArp_picked rand (hok hstate hc) rfl _ _ _
    · rw [if_neg hc, Bool.eq_false_of_not_eq_true hc]
      exact inv
  cases hstate : h.ll.state with
  | probe =>
    simp only [LinkLocal.onArp, hstate, hconflicting]
    exact claiming (.inl hstate)
  | announce =>
    simp only [LinkLocal.onArp, hstate, hconflicting]
    exact claiming (.inr hstate)
  | monitor =>
    simp only [LinkLocal.onArp, hstate]
    split_ifs
    · refine inv.logArp_assigned ?_ (.inr rfl) (.inr ⟨_, _, rfl⟩) _ _ _
      exact inv.count
    · exact inv.logArp_assigned inv.count (.inl hstate) (.inl rfl) _ _ _
  | defend =>
    simp only [LinkLocal.onArp, hstate]
    split_ifs
    · refine inv.logArp_picked rand ?_ rfl _ _ _
      exact inv.count
    · exact inv.logArp_assigned inv.count (.inr hstate) (.inl rfl) _ _ _
  | rateLimitProbe => simp only [hstate] at phase
  | disabled => simp only [hstate] at phase

/-- One event keeps the invariant unless it is the conflict at the limit. -/
theorem Inv.step {ourEther : List UInt8} {h : History} (inv : Inv h) {e : Event}
    (hok : BelowLimit ourEther h e) : Inv (step ourEther h e) := by
  rw [LinkLocal.step]
  cases harp : e.arp with
  | none =>
    have hcleared : Inv { h with ll := { h.ll with timer := none } } :=
      ⟨inv.phase, inv.first, inv.few, inv.count⟩
    exact (hcleared.onTimeout e.now e.rand).configureWait e.now e.rand
  | some arp =>
    simp only [linkLocalReceiveArp]
    by_cases hdisabled : h.ll.state = .disabled
    · rw [if_pos hdisabled]
      exact inv
    obtain ⟨timeoutMs, hadjust⟩ := adjustTimeout_eq e.now h.ll
    have hadjusted : Inv { h with ll := adjustTimeout e.now h.ll } := by
      rw [hadjust]
      exact ⟨inv.phase, inv.first, inv.few, inv.count⟩
    rw [if_neg hdisabled]
    by_cases hop : arp.op ≠ ARPOP_REQUEST ∧ arp.op ≠ ARPOP_REPLY
    · rw [if_pos hop]
      exact hadjusted.configureWait e.now e.rand
    · rw [if_neg hop]
      have hop : arp.op = ARPOP_REQUEST ∨ arp.op = ARPOP_REPLY := by omega
      refine (hadjusted.onArp e.now e.rand hop ?_).configureWait e.now e.rand
      rw [hadjust]
      exact hok arp harp

theorem inv_start {llipaddr ourIp : UInt32} {now : Nat} {rand : Rand} {start : History}
    (hstart : linkLocalStart llipaddr ourIp now rand = some start) : Inv start := by
  rw [linkLocalStart] at hstart
  by_cases hinvalid : llipaddr ≠ 0 ∧ llipaddr &&& IN_CLASSB_NET ≠ LINKLOCAL_ADDR
  · rw [if_pos hinvalid] at hstart
    cases hstart
  · rw [if_neg hinvalid] at hstart
    obtain rfl := Option.some.inj hstart
    refine Inv.configureWait (h := ⟨_, [.picked _]⟩) ⟨?_, ?_, ?_, ?_⟩ now rand
    · exact Probed.picked _ _
    · exact ProbedFirst.cons (show ProbedFirst [] from trivial) rfl
    · exact Few.cons (fun _ _ _ h => absurd h List.not_mem_nil) fun _ _ _ h => by cases h
    · exact show (0 : UInt32) < MAX_CONFLICTS by decide

/-- Every state that a run reaches has a right log as long as the conflict counter
does not reach its limit. -/
theorem right_of_belowLimit {ourEther : List UInt8} {llipaddr ourIp : UInt32} {now : Nat}
    {rand : Rand} {start : History} {events : List Event}
    (hstart : linkLocalStart llipaddr ourIp now rand = some start)
    (hevents : Guarded (step ourEther) (BelowLimit ourEther) start events) :
    Right (run (step ourEther) start events).log := by
  have inv := Guarded.invariant (I := Inv) (fun _ _ inv hok => inv.step hok) hevents
    (inv_start hstart)
  exact ⟨inv.first, .of_few inv.few⟩

/-! ### The limit -/

/-- A timeout, and a packet of another host with our address. -/
def timeoutAt (now : Nat) : Event := ⟨now, ⟨0, 500⟩, none⟩

def conflictAt (now : Nat) (ip : UInt32) : Event :=
  ⟨now, ⟨0, 500⟩, some ⟨ARPOP_REQUEST, [2, 0, 0, 0, 0, 2], ip, 0⟩⟩

/-- The address is picked at time 0. -/
def startAtZero : History :=
  (linkLocalStart 0 0 0 ⟨0, 500⟩).getD ⟨⟨.disabled, 0, 0, 0, 0, 0, 0, false, 0, none⟩, []⟩

theorem startAtZero_eq : linkLocalStart 0 0 0 ⟨0, 500⟩ = some startAtZero := by decide

/-- After a probe another host has the address, and another one is picked. Three probes for it,
three announcements, and it is ours. -/
def assignment : List Event :=
  [timeoutAt 501, { conflictAt 600 0xa9fe0100 with rand := ⟨5, 500⟩ }, timeoutAt 1101,
    timeoutAt 2602, timeoutAt 4103, timeoutAt 5604, timeoutAt 7605, timeoutAt 9606, timeoutAt 11607]

theorem right_assignment :
    (run (step []) startAtZero assignment).ll.ourIp = 0xa9fe0105 ∧
      Right (run (step []) startAtZero assignment).log :=
  ⟨by decide, right_of_belowLimit startAtZero_eq (by decide)⟩

/-- Ten conflicts in a row, and a timeout. -/
def tenConflicts : List Event :=
  (List.range 10).map (fun i => conflictAt (i + 1) 0xa9fe0100) ++ [timeoutAt 511]

/-- The wait of 60 seconds is overwritten with 0, and a timeout without a probe
announces the address. -/
theorem announced_without_probes :
    ¬∀ (ourEther : List UInt8) (llipaddr ourIp : UInt32) (now : Nat) (rand : Rand)
      (start : History) (events : List Event),
      linkLocalStart llipaddr ourIp now rand = some start →
      Guarded (step ourEther) Timely start events → Right (run (step ourEther) start events).log := by
  intro claim
  have right := claim [] 0 0 0 ⟨0, 500⟩ startAtZero tenConflicts startAtZero_eq (by decide)
  have hlog : (run (step []) startAtZero tenConflicts).log =
      .announce 0xa9fe0100 511 ::
        (run (step []) startAtZero (tenConflicts.take 10)).log := by decide
  rw [hlog] at right
  obtain ⟨since, older, hsince, -, hcount⟩ := right.1.1 0xa9fe0100 rfl
  have hnone : (run (step []) startAtZero (tenConflicts.take 10)).log.countP
      (Entry.isProbe 0xa9fe0100) = 0 := by decide
  rw [hsince, List.countP_append] at hnone
  rw [PROBE_NUM] at hcount
  omega

end UBoot.Net.LinkLocal
