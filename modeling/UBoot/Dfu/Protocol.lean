import UBoot.Dfu.Download

/-!
# The DFU gadget

`drivers/usb/gadget/f_dfu.c` with the part of `composite_setup` that it relies on: one
request of the host after the other is answered, and what was announced to the host is
completed before the next request. Entities are raw areas of one medium. Queueing on the
endpoint succeeds, and every request has the direction that belongs to it. There is no
result where a null pointer is used, the host sends more than the buffer of the endpoint
takes, or the buffer of the transfer is misused.
-/

namespace UBoot.Dfu

open Verification

/-- `enum dfu_state` -/
inductive DfuState where
  | appIdle
  | appDetach
  | dfuIdle
  | dfuDnloadSync
  | dfuDnbusy
  | dfuDnloadIdle
  | dfuManifestSync
  | dfuManifest
  | dfuManifestWaitRst
  | dfuUploadIdle
  | dfuError
  deriving DecidableEq, Repr

/-- The value on the wire. -/
def DfuState.code : DfuState → UInt8
  | .appIdle => 0
  | .appDetach => 1
  | .dfuIdle => 2
  | .dfuDnloadSync => 3
  | .dfuDnbusy => 4
  | .dfuDnloadIdle => 5
  | .dfuManifestSync => 6
  | .dfuManifest => 7
  | .dfuManifestWaitRst => 8
  | .dfuUploadIdle => 9
  | .dfuError => 10

/-- The values of `dfu_status` that are used. -/
inductive DfuStatus where
  | ok
  | errUnknown
  deriving DecidableEq, Repr

def DfuStatus.code : DfuStatus → UInt8
  | .ok => 0x00
  | .errUnknown => 0x0e

/-- `bRequest` -/
inductive Request where
  | detach
  | dnload
  | upload
  | getStatus
  | clrStatus
  | getState
  | abort
  | other
  deriving DecidableEq, Repr

/-- A request of the class, with `wValue` and `wLength`. -/
structure Ctrl where
  bRequest : Request
  wValue : Nat
  wLength : Nat

/-- The completion that a request leaves behind. -/
inductive Complete where
  | composite
  | dnloadRequestComplete
  | dnloadRequestFlush
  deriving DecidableEq, Repr

/-- What the host sees: an error, or the bytes that are sent to it. -/
inductive Reply where
  | stall
  | bytes (bs : List UInt8)
  deriving DecidableEq, Repr

/-- `struct f_dfu`, with the entities and what they share. -/
structure Gadget where
  state : DfuState
  status : DfuStatus
  blkSeqNum : Nat
  altsetting : Nat
  detached : Bool
  dev : Device
  entities : Nat → Entity

/-- What is fixed: the areas of `dfu_list`, `DFU_DEFAULT_POLL_TIMEOUT`, and
`DFU_MANIFEST_POLL_TIMEOUT`. -/
structure Setup where
  config : Config
  areas : List Area
  pollTimeout : Nat
  manifestTimeout : Nat

def USB_BUFSIZ : Nat := 4096
def DFU_USB_BUFSIZ : Nat := 4096

variable (s : Setup)

/-! ### Answers -/

/-- `dfu_set_poll_timeout` -/
def dfuSetPollTimeout (ms : Nat) : List UInt8 :=
  if ms = 0 ∨ 16777216 ≤ ms then [0, 0, 0] else leBytes 3 ms

/-- The switch of `handle_getstatus`: the next state, and the timeout. -/
def statusSwitch (g : Gadget) : Option (DfuState × Nat) :=
  match g.state with
  | .dfuDnloadSync | .dfuDnbusy => some (.dfuDnloadIdle, 0)
  | .dfuManifestSync => some (.dfuManifest, 0)
  | .dfuManifest =>
    -- `dfu_get_manifest_timeout` looks into the entity
    if g.altsetting < s.areas.length then some (.dfuManifest, s.manifestTimeout) else none
  | state => some (state, 0)

/-- The timeout in `handle_getstatus`, after a division by the number of blocks that fill the
buffer. -/
def pollDelay (g : Gadget) (ms : Nat) : Option Nat :=
  let perBuf := g.dev.bufSize / DFU_USB_BUFSIZ
  if s.pollTimeout = 0 then some ms
  else if perBuf = 0 then none
  else some (if g.blkSeqNum % perBuf = 0 then s.pollTimeout else ms)

/-- `handle_getstatus` -/
def handleGetstatus (g : Gadget) : Option (Gadget × List UInt8) := do
  let (state, ms) ← statusSwitch s g
  let ms ← pollDelay s g ms
  let g := { g with state := state }
  return (g, g.status.code :: dfuSetPollTimeout ms ++ [state.code, 0])

/-- A state function that answers `DFU_GETSTATUS`. -/
def answerStatus (g : Gadget) : Option (Gadget × Reply × Complete) := do
  let (g, bs) ← handleGetstatus s g
  return (g, .bytes bs, .composite)

/-- A state function that returns 0; `handle_getstate` writes to the buffer, but the length
of what is sent remains 0. -/
def answerNothing (g : Gadget) : Option (Gadget × Reply × Complete) :=
  some (g, .bytes [], .composite)

/-- A state function that returns `RET_STALL`. -/
def answerStall (g : Gadget) (state : DfuState) : Option (Gadget × Reply × Complete) :=
  some ({ g with state := state }, .stall, .composite)

/-- `handle_upload`: `req->length` is the length of the buffer. -/
def handleUpload (g : Gadget) (call : Call) : Option (Gadget × Option (List UInt8)) := do
  let area ← s.areas[g.altsetting]?
  let (dev, dfu, read) ← dfuRead s.config area call g.dev (g.entities g.altsetting) USB_BUFSIZ
    g.blkSeqNum
  return ({ g with dev := dev, entities := Function.update g.entities g.altsetting dfu }, read)

/-- What `dfu_handle` makes of the value of `handle_upload`. -/
def uploadReply (g : Gadget) : Option (List UInt8) → Option (Gadget × Reply × Complete)
  | none => some (g, .stall, .composite)
  | some bs => some (g, .bytes bs, .composite)

/-- `handle_dnload` -/
def handleDnload (g : Gadget) (len : Nat) : Option (Gadget × Reply × Complete) :=
  let g := if len = 0 then { g with state := .dfuManifestSync } else g
  some (g, .bytes [], .dnloadRequestComplete)

/-! ### State functions -/

def stateAppIdle (g : Gadget) (ctrl : Ctrl) : Option (Gadget × Reply × Complete) :=
  match ctrl.bRequest with
  | .getStatus => answerStatus s g
  | .getState => answerNothing g
  -- `to_dfu_mode`
  | .detach => answerNothing { g with state := .dfuIdle }
  | _ => answerStall g g.state

def stateAppDetach (g : Gadget) (ctrl : Ctrl) : Option (Gadget × Reply × Complete) :=
  match ctrl.bRequest with
  | .getStatus => answerStatus s g
  | .getState => answerNothing g
  | _ => answerStall g .appIdle

def stateDfuIdle (g : Gadget) (ctrl : Ctrl) (call : Call) : Option (Gadget × Reply × Complete) :=
  match ctrl.bRequest with
  | .dnload =>
    if ctrl.wLength = 0 then answerStall g .dfuError
    else
      handleDnload { g with state := .dfuDnloadSync, blkSeqNum := ctrl.wValue } ctrl.wLength
  | .upload => do
    let (g, read) ← handleUpload s { g with state := .dfuUploadIdle, blkSeqNum := 0 } call
    uploadReply g read
  | .abort => answerNothing g
  | .getStatus => answerStatus s g
  | .getState => answerNothing g
  -- `to_runtime_mode` and `g_dnl_trigger_detach`
  | .detach => answerNothing { g with state := .appIdle, detached := true }
  | _ => answerStall g .dfuError

def stateDfuDnloadSync (g : Gadget) (ctrl : Ctrl) : Option (Gadget × Reply × Complete) :=
  match ctrl.bRequest with
  | .getStatus => answerStatus s g
  | .getState => answerNothing g
  | _ => answerStall g .dfuError

def stateDfuDnbusy (g : Gadget) (ctrl : Ctrl) : Option (Gadget × Reply × Complete) :=
  match ctrl.bRequest with
  | .getStatus => answerStatus s g
  | _ => answerStall g .dfuError

def stateDfuDnloadIdle (g : Gadget) (ctrl : Ctrl) : Option (Gadget × Reply × Complete) :=
  match ctrl.bRequest with
  | .dnload =>
    handleDnload { g with state := .dfuDnloadSync, blkSeqNum := ctrl.wValue } ctrl.wLength
  | .abort => answerNothing { g with state := .dfuIdle }
  | .getStatus => answerStatus s g
  | .getState => answerNothing g
  | _ => answerStall g .dfuError

def stateDfuManifestSync (g : Gadget) (ctrl : Ctrl) : Option (Gadget × Reply × Complete) :=
  match ctrl.bRequest with
  | .getStatus => do
    let (g, bs) ← handleGetstatus s { g with state := .dfuManifest }
    return ({ g with blkSeqNum := 0 }, .bytes bs, .dnloadRequestFlush)
  | .getState => answerNothing g
  | _ => answerStall g .dfuError

def stateDfuManifest (g : Gadget) (ctrl : Ctrl) : Option (Gadget × Reply × Complete) :=
  match ctrl.bRequest with
  | .getStatus => do
    let (g, bs) ← handleGetstatus s { g with state := .dfuIdle }
    return ({ g with blkSeqNum := 0 }, .bytes bs, .composite)
  | .getState => answerNothing g
  | _ => answerStall g .dfuError

def stateDfuUploadIdle (g : Gadget) (ctrl : Ctrl) (call : Call) :
    Option (Gadget × Reply × Complete) :=
  match ctrl.bRequest with
  | .upload => do
    let (g, read) ← handleUpload s { g with blkSeqNum := ctrl.wValue } call
    -- less than the host has asked for
    let short := read.any fun bs => bs.length < ctrl.wLength
    uploadReply (if short then { g with state := .dfuIdle } else g) read
  | .abort => answerNothing { g with state := .dfuIdle }
  | .getStatus => answerStatus s g
  | .getState => answerNothing g
  | _ => answerStall g .dfuError

def stateDfuError (g : Gadget) (ctrl : Ctrl) : Option (Gadget × Reply × Complete) :=
  match ctrl.bRequest with
  | .getStatus => answerStatus s g
  | .getState => answerNothing g
  | .clrStatus => answerNothing { g with state := .dfuIdle, status := .ok }
  | _ => answerStall g .dfuError

/-- The table `dfu_state`. -/
def dfuStateFn (g : Gadget) (ctrl : Ctrl) (call : Call) : Option (Gadget × Reply × Complete) :=
  match g.state with
  | .appIdle => stateAppIdle s g ctrl
  | .appDetach => stateAppDetach s g ctrl
  | .dfuIdle => stateDfuIdle s g ctrl call
  | .dfuDnloadSync => stateDfuDnloadSync s g ctrl
  | .dfuDnbusy => stateDfuDnbusy s g ctrl
  | .dfuDnloadIdle => stateDfuDnloadIdle s g ctrl
  | .dfuManifestSync => stateDfuManifestSync s g ctrl
  | .dfuManifest => stateDfuManifest s g ctrl
  | .dfuManifestWaitRst => none
  | .dfuUploadIdle => stateDfuUploadIdle s g ctrl call
  | .dfuError => stateDfuError s g ctrl

/-! ### Completions -/

/-- The end of both completions. -/
def settle (g : Gadget) (dev : Device) (dfu : Entity) (ok : Bool) : Gadget :=
  let g := { g with dev := dev, entities := Function.update g.entities g.altsetting dfu }
  if ok then g else { g with status := .errUnknown, state := .dfuError }

/-- `dnload_request_complete`; `data` is what the buffer of the endpoint holds then. -/
def dnloadRequestComplete (g : Gadget) (call : Call) (data : List UInt8) : Option Gadget := do
  let area ← s.areas[g.altsetting]?
  let (dev, dfu, ok) ← dfuWrite s.config (.raw area) call g.dev (g.entities g.altsetting) data
    g.blkSeqNum
  return settle g dev dfu ok

/-- `dnload_request_flush` -/
def dnloadRequestFlush (g : Gadget) (call : Call) : Option Gadget := do
  let area ← s.areas[g.altsetting]?
  let (dev, dfu, ok) ← dfuFlush s.config (.raw area) call g.dev (g.entities g.altsetting)
  return settle g dev dfu ok

/-! ### Runs -/

/-- What reaches the gadget: a request of the class, with what the buffer of the endpoint
holds after the host has sent its data and what the calls of the medium meet, or the choice
of an entity by `SET_INTERFACE`, or by `SET_CONFIGURATION`, which chooses the first one. -/
inductive Input where
  | request (ctrl : Ctrl) (data : Ptr) (call : Call)
  | setAlt (alt : Nat)

/-- `dfu_set_alt`; `altsetting` is a `u8`. -/
def dfuSetAlt (g : Gadget) (alt : Nat) : Gadget :=
  { g with altsetting := alt % 256, state := .dfuIdle, status := .ok }

/-- `dfu_handle`, and the completion. -/
def dfuHandle (g : Gadget) (ctrl : Ctrl) (data : Ptr) (call : Call) : Option (Gadget × Reply) := do
  let (g, reply, complete) ← dfuStateFn s g ctrl call
  match complete with
  | .composite => return (g, reply)
  | .dnloadRequestComplete =>
    if USB_BUFSIZ < ctrl.wLength then none
    else return (← dnloadRequestComplete s g call (data.bytes ctrl.wLength), reply)
  | .dnloadRequestFlush => return (← dnloadRequestFlush s g call, reply)

def step (g : Gadget) : Input → Option (Gadget × Reply)
  | .request ctrl data call => dfuHandle s g ctrl data call
  | .setAlt alt => some (dfuSetAlt g alt, .bytes [])

/-- The gadget after a sequence of events, and what it replies to each of them. -/
def run (g : Gadget) : List Input → Option (Gadget × List Reply)
  | [] => some (g, [])
  | input :: inputs => do
    let (g, reply) ← step s g input
    let (g, replies) ← run g inputs
    return (g, reply :: replies)

/-- The gadget after `dfu_bind` and the first `SET_CONFIGURATION`, for entities that have not
been used yet. -/
def bound (disk : Ptr) : Gadget where
  state := .dfuIdle
  status := .ok
  blkSeqNum := 0
  altsetting := 0
  detached := false
  dev := ⟨fun _ => 0, none, 0, s.config.dataBufSize, [], disk, fun _ => []⟩
  entities _ := ⟨0, 0, none, 0, 0, 0, 0, false⟩

/-! ### What the calls keep -/

section Calls

variable {config : Config} {area : Area} {dev : Device} {dfu : Entity}

/-- Two media that differ in an area at most. -/
def SameOutside (area : Area) (disk disk' : Ptr) : Prop :=
  ∀ a, a < area.start ∨ area.start + area.size ≤ a → disk' a = disk a

theorem SameOutside.trans {disk disk' disk'' : Ptr} (h : SameOutside area disk disk')
    (h' : SameOutside area disk' disk'') : SameOutside area disk disk'' :=
  fun a ha => (h' a ha).trans (h a ha)

/-- The position of an entity is a block of its area, or its end. -/
structure Placed (area : Area) (dfu : Entity) : Prop where
  dvd : area.blk ∣ dfu.offset
  le : dfu.offset ≤ area.size

theorem mmcBlockWrite_keeps {offset len : Nat} (hdvd : area.blk ∣ offset)
    (hle : offset ≤ area.size) (hlen : area.blk ∣ len) (disk buf : Ptr) (outcome : Outcome) :
    SameOutside area disk (mmcBlockWrite area disk offset buf len outcome).1 ∧
      ((mmcBlockWrite area disk offset buf len outcome).2 = true → offset + len ≤ area.size) := by
  rw [mmcBlockWrite, blockRange_eq hdvd hle hlen]
  by_cases hfit : offset + len ≤ area.size
  · rw [if_pos hfit]
    have hwrite : ∀ n ≤ len, SameOutside area disk (disk.write (area.start + offset) n buf) :=
      fun n hn a ha => if_neg (by omega)
    simp only [blockStart_eq hdvd]
    cases outcome with
    | done => exact ⟨hwrite len le_rfl, fun _ => hfit⟩
    | failed n =>
      refine ⟨hwrite _ ?_, fun h => by cases h⟩
      exact (Nat.mul_le_mul_right _ (min_le_right _ _)).trans (Nat.div_mul_le_self _ _)
  · rw [if_neg hfit]
    exact ⟨fun _ _ => rfl, fun h => by cases h⟩

/-- A result, if there is one, differs from before in the area at most. -/
def Keeps (area : Area) (dev : Device) (P : Entity → Bool → Prop)
    (result : Option (Device × Entity × Bool)) : Prop :=
  ∀ dev' dfu' ok, result = some (dev', dfu', ok) →
    SameOutside area dev.disk dev'.disk ∧ P dfu' ok

theorem drain_keeps (h : Placed area dfu) (outcome : Outcome) :
    Keeps area dev (fun dfu' ok => ok = true → Placed area dfu' ∧ dfu'.fill = 0)
      (dfuWriteBufferDrain config (.raw area) outcome dev dfu) := by
  intro dev' dfu' ok hrun
  rw [dfuWriteBufferDrain] at hrun
  split_ifs at hrun with hfill hstart
  · cases hrun
    exact ⟨fun _ _ => rfl, fun _ => ⟨h, hfill⟩⟩
  · obtain ⟨hsame, hok⟩ := mmcBlockWrite_keeps h.dvd h.le (area.dvd_align dfu.fill) dev.disk
      dev.buf outcome
    simp only [writeMedium, Option.some.injEq, Prod.mk.injEq] at hrun
    obtain ⟨rfl, rfl, rfl⟩ := hrun
    exact ⟨hsame, fun hdone => ⟨⟨Nat.dvd_add h.dvd (area.dvd_align _), hok hdone⟩, rfl⟩⟩

/-- After the clean-up of a transfer the position is the start of the area. -/
theorem cleanup_placed (dev : Device) : Placed area (dfuWriteTransactionCleanup dev dfu).2 :=
  ⟨Nat.dvd_zero _, Nat.zero_le _⟩

theorem drainIf_keeps (h : Placed area dfu) (needed : Bool) (outcome : Outcome)
    {P : Entity → Bool → Prop} {next : Device → Entity → Option (Device × Entity × Bool)}
    (hfail : ∀ dfu', Placed area dfu' → P dfu' false)
    (hnext : ∀ dev' dfu', Placed area dfu' → (needed = true → dfu'.fill = 0) →
      Keeps area dev' P (next dev' dfu')) :
    Keeps area dev P (drainIf needed config (.raw area) outcome dev dfu next) := by
  cases needed with
  | false => exact hnext dev dfu h (by simp)
  | true =>
    intro dev' dfu' ok hrun
    rw [drainIf, if_pos rfl] at hrun
    cases hdrain : dfuWriteBufferDrain config (.raw area) outcome dev dfu with
    | none =>
      rw [hdrain] at hrun
      cases hrun
    | some result =>
      obtain ⟨dev₁, dfu₁, ok₁⟩ := result
      obtain ⟨hsame, hplaced⟩ := drain_keeps h outcome _ _ _ hdrain
      simp only [hdrain] at hrun
      cases ok₁ with
      | false =>
        simp only [failWrite, Bool.false_eq_true, if_false, Option.some.injEq,
          Prod.mk.injEq] at hrun
        obtain ⟨rfl, rfl, rfl⟩ := hrun
        exact ⟨hsame, hfail _ ⟨Nat.dvd_zero _, Nat.zero_le _⟩⟩
      | true =>
        obtain ⟨hplaced₁, hfill⟩ := hplaced rfl
        rw [if_pos rfl] at hrun
        obtain ⟨hsame', hp⟩ := hnext dev₁ dfu₁ hplaced₁ (fun _ => hfill) _ _ _ hrun
        exact ⟨hsame.trans hsame', hp⟩

theorem dfuGetBuf_disk {call : Call} {dev' : Device} {n : Nat}
    (h : dfuGetBuf config call dev = some (dev', n)) : dev'.disk = dev.disk := by
  rw [dfuGetBuf] at h
  split at h
  · cases h
    rfl
  · split_ifs at h
    cases h
    rfl

theorem startWrite_keeps (h : Placed area dfu) {call : Call} {dev' : Device} {dfu' : Entity}
    (hstart : startWrite config call dev dfu = some (dev', dfu')) :
    dev'.disk = dev.disk ∧ Placed area dfu' := by
  rw [startWrite] at hstart
  split_ifs at hstart
  · cases hstart
    exact ⟨rfl, h⟩
  · cases hbuf : dfuGetBuf config call dev with
    | none => simp [hbuf] at hstart
    | some found =>
      simp only [hbuf, Option.some.injEq, Prod.mk.injEq] at hstart
      obtain ⟨rfl, rfl⟩ := hstart
      exact ⟨dfuGetBuf_disk hbuf, Nat.dvd_zero _, Nat.zero_le _⟩

/-- What a block leaves behind; an empty one drains the buffer. -/
def Written (area : Area) (data : List UInt8) (dfu' : Entity) (ok : Bool) : Prop :=
  Placed area dfu' ∧ (ok = true → data = [] → dfu'.fill = 0)

theorem failWrite_keeps (data : List UInt8) :
    Keeps area dev (Written area data) (failWrite dev dfu) := by
  intro dev' dfu' ok hrun
  cases hrun
  exact ⟨fun _ _ => rfl, cleanup_placed dev, fun h => by cases h⟩

theorem putBlock_keeps (h : Placed area dfu) (outcome : Outcome) (data : List UInt8) :
    Keeps area dev (Written area data)
      (putBlock config (.raw area) outcome data dev dfu) := by
  rw [putBlock]
  split
  · exact failWrite_keeps data
  split
  · intro dev' dfu' ok hrun
    cases hrun
  · apply drainIf_keeps
    · exact ⟨h.dvd, h.le⟩
    · exact fun dfu' hplaced => ⟨hplaced, fun h => by cases h⟩
    · intro dev₁ dfu₁ hplaced hdrained dev' dfu' ok hrun
      cases hrun
      refine ⟨fun _ _ => rfl, hplaced, fun _ hempty => hdrained ?_⟩
      simp [hempty]

/-- `dfu_write`: the entity remains in its area. -/
theorem dfuWrite_keeps (h : Placed area dfu) (call : Call) (data : List UInt8) (seqNum : Nat) :
    Keeps area dev (Written area data)
      (dfuWrite config (.raw area) call dev dfu data seqNum) := by
  rw [dfuWrite]
  cases hstart : startWrite config call dev dfu with
  | none =>
    intro dev' dfu' ok hrun
    cases hrun
    exact ⟨fun _ _ => rfl, ⟨Nat.dvd_zero _, Nat.zero_le _⟩, fun h => by cases h⟩
  | some result =>
    obtain ⟨dev₁, dfu₁⟩ := result
    obtain ⟨hdisk, hplaced⟩ := startWrite_keeps h hstart
    have hrest : Keeps area dev₁ (Written area data) (if dfu₁.seqNum ≠ seqNum then
          failWrite dev₁ dfu₁
        else drainIf (dfu₁.fill + data.length > dfu₁.room) config (.raw area) (call.outcome 0)
          dev₁ { dfu₁ with seqNum := (dfu₁.seqNum + 1) % 65536 }
          (putBlock config (.raw area) (call.outcome 1) data)) := by
      split
      · exact failWrite_keeps data
      · apply drainIf_keeps
        · exact ⟨hplaced.dvd, hplaced.le⟩
        · exact fun dfu' hplaced => ⟨hplaced, fun h => by cases h⟩
        · exact fun dev' dfu' hplaced' _ => putBlock_keeps hplaced' _ data
    intro dev' dfu' ok hrun
    obtain ⟨hsame, hwritten⟩ := hrest dev' dfu' ok hrun
    exact ⟨fun a ha => by rw [hsame a ha, hdisk], hwritten⟩

/-- `dfu_flush` of a raw area whose buffer has been drained only ends the transfer. -/
theorem dfuFlush_drained (hfill : dfu.fill = 0) (call : Call) :
    dfuFlush config (.raw area) call dev dfu =
      some ({ dev with live := none }, (dfuWriteTransactionCleanup dev dfu).2, true) := by
  rw [dfuFlush, dfuWriteBufferDrain, if_pos hfill]
  rfl

theorem mmcBlockRead_disk {offset len : Nat} {outcome : Outcome} {dev' : Device} {n : Nat}
    {ok : Bool} (h : mmcBlockRead area dev offset len outcome = some (dev', n, ok))
    (hdvd : area.blk ∣ offset) (hle : offset ≤ area.size) :
    dev'.disk = dev.disk ∧ n = area.align len ∧ (ok = true → offset + n ≤ area.size) := by
  rw [mmcBlockRead, blockRange_eq hdvd hle (area.dvd_align len)] at h
  by_cases hfit : offset + area.align len ≤ area.size
  · simp only [if_pos hfit] at h
    split_ifs at h
    cases outcome with
    | done =>
      cases h
      exact ⟨rfl, rfl, fun _ => hfit⟩
    | failed n =>
      cases h
      exact ⟨rfl, rfl, fun h => by cases h⟩
  · simp only [if_neg hfit] at h
    cases h
    exact ⟨rfl, rfl, fun h => by cases h⟩

theorem dfuReadBufferFill_keeps {call : Call} {fuel size : Nat} (h : Placed area dfu)
    {dev' : Device} {dfu' : Entity} {read : Option (List UInt8)}
    (hrun : dfuReadBufferFill area call fuel dev dfu size = some (dev', dfu', read)) :
    dev'.disk = dev.disk ∧ Placed area dfu' := by
  induction fuel generalizing dev dfu size read with
  | zero => cases hrun
  | succ fuel ih =>
    rw [dfuReadBufferFill] at hrun
    simp only at hrun
    split at hrun
    · cases hrun
      exact ⟨rfl, h⟩
    split at hrun
    · cases hrun
    split at hrun
    · cases hrun
      exact ⟨rfl, h.dvd, h.le⟩
    split at hrun
    · cases hrun
      exact ⟨rfl, h.dvd, h.le⟩
    split at hrun
    · cases hrun
    next dev₁ len ok hread =>
      obtain ⟨hdisk, hlen, hfit⟩ := mmcBlockRead_disk hread h.dvd h.le
      split at hrun
      · cases hrun
        exact ⟨hdisk, h.dvd, h.le⟩
      next hok =>
        split at hrun
        · cases hrun
        next hrest =>
          cases hrun
          have hplaced : area.blk ∣ dfu.offset + len ∧ dfu.offset + len ≤ area.size :=
            ⟨Nat.dvd_add h.dvd (hlen ▸ area.dvd_align _), hfit (by simpa using hok)⟩
          obtain ⟨hdisk', hplaced'⟩ := ih ⟨hplaced.1, hplaced.2⟩ hrest
          exact ⟨hdisk'.trans hdisk, hplaced'⟩

/-- `dfu_read`: the medium is the same, and the entity remains in its area. -/
theorem dfuRead_keeps (h : Placed area dfu) {call : Call} {size seqNum : Nat} {dev' : Device}
    {dfu' : Entity} {read : Option (List UInt8)}
    (hrun : dfuRead config area call dev dfu size seqNum = some (dev', dfu', read)) :
    dev'.disk = dev.disk ∧ Placed area dfu' := by
  rw [dfuRead] at hrun
  cases hstart : startRead config area call dev dfu with
  | none =>
    rw [hstart] at hrun
    cases hrun
    exact ⟨rfl, h.dvd, h.le⟩
  | some result =>
    obtain ⟨dev₁, dfu₁⟩ := result
    have hfirst : dev₁.disk = dev.disk ∧ Placed area dfu₁ := by
      rw [startRead] at hstart
      split_ifs at hstart
      · cases hstart
        exact ⟨rfl, h⟩
      · cases hbuf : dfuGetBuf config call dev with
        | none => simp [hbuf] at hstart
        | some found =>
          simp only [hbuf, Option.some.injEq, Prod.mk.injEq] at hstart
          obtain ⟨rfl, rfl⟩ := hstart
          exact ⟨dfuGetBuf_disk hbuf, Nat.dvd_zero _, Nat.zero_le _⟩
    simp only [hstart] at hrun
    split_ifs at hrun with hseq
    · cases hrun
      exact hfirst
    · have hnext : Placed area { dfu₁ with seqNum := (dfu₁.seqNum + 1) % 65536 } :=
        ⟨hfirst.2.dvd, hfirst.2.le⟩
      split at hrun
      · cases hrun
      · next hfill =>
          cases hrun
          obtain ⟨hdisk, hplaced⟩ := dfuReadBufferFill_keeps hnext hfill
          exact ⟨hdisk.trans hfirst.1, hplaced⟩
      · next hfill =>
          obtain ⟨hdisk, hplaced⟩ := dfuReadBufferFill_keeps hnext hfill
          split_ifs at hrun with hshort
          · cases hrun
            exact ⟨hdisk.trans hfirst.1, Nat.dvd_zero _, Nat.zero_le _⟩
          · cases hrun
            exact ⟨hdisk.trans hfirst.1, hplaced⟩

end Calls

/-! ### What a request changes -/

section Steps

variable {s : Setup} {g g' : Gadget} {ctrl : Ctrl} {call : Call} {reply : Reply}
variable {complete : Complete}

/-- The states that occur; the others have no way in. -/
def Legal : DfuState → Prop
  | .appDetach | .dfuDnbusy | .dfuManifestWaitRst => False
  | _ => True

/-- The state after `DFU_GETSTATUS`, before the state function changes it. -/
def DfuState.polled : DfuState → DfuState
  | .dfuDnloadSync | .dfuDnbusy => .dfuDnloadIdle
  | .dfuManifestSync => .dfuManifest
  | state => state

theorem handleGetstatus_some {bs : List UInt8} (h : handleGetstatus s g = some (g', bs)) :
    g' = { g with state := g.state.polled } := by
  obtain ⟨⟨state, ms⟩, hswitch, h⟩ := Option.bind_eq_some_iff.mp h
  obtain ⟨delay, -, h⟩ := Option.bind_eq_some_iff.mp h
  have hstate : state = g.state.polled := by
    rw [statusSwitch] at hswitch
    split at hswitch
    · rename_i heq
      rw [heq]
      cases hswitch
      rfl
    · rename_i heq
      rw [heq]
      cases hswitch
      rfl
    · rename_i heq
      rw [heq]
      cases hswitch
      rfl
    · rename_i heq
      rw [heq]
      split_ifs at hswitch
      cases hswitch
      rfl
    · rename_i h1 h2 h3 h4
      cases hswitch
      cases hg : g.state <;> simp_all [DfuState.polled]
  cases h
  rw [← hstate]

/-- A request that leaves the transfer alone. -/
structure Quiet (g g' : Gadget) : Prop where
  dev : g'.dev = g.dev
  entities : g'.entities = g.entities
  altsetting : g'.altsetting = g.altsetting
  legal : Legal g'.state
  sync : g'.state = .dfuManifestSync → g.state = .dfuManifestSync
  status : g'.status = .ok ∨ g'.status = g.status ∧ (g.state = .dfuError → g'.state = .dfuError)

/-- A request that reads from the entity. -/
structure Reads (s : Setup) (g g' : Gadget) (call : Call) : Prop where
  read : ∃ area seqNum read dev dfu, s.areas[g.altsetting]? = some area ∧
    dfuRead s.config area call g.dev (g.entities g.altsetting) USB_BUFSIZ seqNum =
      some (dev, dfu, read) ∧
    g'.dev = dev ∧ g'.entities = Function.update g.entities g.altsetting dfu
  altsetting : g'.altsetting = g.altsetting
  state : g'.state = .dfuUploadIdle ∨ g'.state = .dfuIdle
  status : g'.status = g.status
  noError : g.state ≠ .dfuError

/-- What a state function does, by the completion that it leaves behind. -/
def Effect (s : Setup) (g g' : Gadget) (ctrl : Ctrl) (call : Call) : Complete → Prop
  | .composite => Quiet g g' ∨ Reads s g g' call
  | .dnloadRequestComplete =>
    ∃ state, g' = { g with state := state, blkSeqNum := ctrl.wValue } ∧
      ctrl.bRequest = .dnload ∧ (g.state = .dfuIdle ∨ g.state = .dfuDnloadIdle) ∧
      (state = .dfuDnloadSync ∨ state = .dfuManifestSync ∧ ctrl.wLength = 0)
  | .dnloadRequestFlush =>
    g' = { g with state := .dfuManifest, blkSeqNum := 0 } ∧ g.state = .dfuManifestSync

theorem answerStatus_effect (h : answerStatus s g = some (g', reply, complete))
    (hlegal : Legal g.state) : complete = .composite ∧ Quiet g g' := by
  obtain ⟨⟨g₁, bs⟩, hstatus, h⟩ := Option.bind_eq_some_iff.mp h
  cases h
  rw [handleGetstatus_some hstatus]
  refine ⟨rfl, rfl, rfl, rfl, ?_, ?_, .inr ⟨rfl, ?_⟩⟩
  · cases hg : g.state <;> simp_all [DfuState.polled, Legal]
  · cases hg : g.state <;> simp [DfuState.polled]
  · rintro hg
    simp only [hg, DfuState.polled]

/-- A change of the state only. -/
theorem quiet_state {state : DfuState} (hlegal : Legal state) (hsync : state ≠ .dfuManifestSync)
    (hstatus : g.state = .dfuError → state = .dfuError) : Quiet g { g with state := state } :=
  ⟨rfl, rfl, rfl, hlegal, fun h => absurd h hsync, .inr ⟨rfl, hstatus⟩⟩

theorem quiet_rfl (hlegal : Legal g.state) : Quiet g g :=
  ⟨rfl, rfl, rfl, hlegal, id, .inr ⟨rfl, id⟩⟩

theorem handleUpload_effect {seqNum : Nat} {state : DfuState} {g₁ : Gadget}
    {read : Option (List UInt8)}
    (h : handleUpload s { g with state := state, blkSeqNum := seqNum } call = some (g₁, read))
    (hstate : state = .dfuUploadIdle ∨ state = .dfuIdle) (hnoError : g.state ≠ .dfuError) :
    Reads s g g₁ call := by
  obtain ⟨area, harea, h⟩ := Option.bind_eq_some_iff.mp h
  obtain ⟨⟨dev, dfu, r⟩, hread, h⟩ := Option.bind_eq_some_iff.mp h
  cases h
  exact ⟨⟨area, seqNum, read, dev, dfu, harea, hread, rfl, rfl⟩, rfl, hstate, rfl, hnoError⟩

theorem uploadReply_effect {read : Option (List UInt8)} {g₁ : Gadget}
    (h : uploadReply g₁ read = some (g', reply, complete)) : g' = g₁ ∧ complete = .composite := by
  cases read <;> cases h <;> exact ⟨rfl, rfl⟩

theorem Reads.idle (h : Reads s g g' call) : Reads s g { g' with state := .dfuIdle } call :=
  ⟨h.read, h.altsetting, .inr rfl, h.status, h.noError⟩

theorem dfuStateFn_effect (h : dfuStateFn s g ctrl call = some (g', reply, complete))
    (hlegal : Legal g.state) : Effect s g g' ctrl call complete := by
  have hpoll : answerStatus s g = some (g', reply, complete) →
      Effect s g g' ctrl call complete := by
    intro h
    obtain ⟨rfl, hquiet⟩ := answerStatus_effect h hlegal
    exact .inl hquiet
  have hnothing : answerNothing g = some (g', reply, complete) →
      Effect s g g' ctrl call complete := by
    intro h
    cases h
    exact .inl (quiet_rfl hlegal)
  have hstall : ∀ state, Legal state → state ≠ .dfuManifestSync →
      (g.state = .dfuError → state = .dfuError) →
        answerStall g state = some (g', reply, complete) → Effect s g g' ctrl call complete := by
    intro state hstate hsync herror h
    cases h
    exact .inl (quiet_state hstate hsync herror)
  have herror : answerStall g .dfuError = some (g', reply, complete) →
      Effect s g g' ctrl call complete := hstall _ trivial (by simp) fun _ => rfl
  rw [dfuStateFn] at h
  split at h
  case h_1 hg =>
    rw [stateAppIdle] at h
    split at h
    · exact hpoll h
    · exact hnothing h
    · cases h
      exact .inl (quiet_state trivial (by simp) (by simp [hg]))
    · exact hstall _ hlegal (by simp [hg]) id h
  case h_2 hg => simp [hg, Legal] at hlegal
  case h_3 hg =>
    rw [stateDfuIdle] at h
    split at h
    · split_ifs at h with hzero
      · exact herror h
      · rw [handleDnload, if_neg hzero] at h
        cases h
        exact ⟨.dfuDnloadSync, rfl, by assumption, .inl hg, .inl rfl⟩
    · obtain ⟨⟨g₁, read⟩, hupload, h⟩ := Option.bind_eq_some_iff.mp h
      obtain ⟨rfl, rfl⟩ := uploadReply_effect h
      exact .inr (handleUpload_effect hupload (.inl rfl) (by simp [hg]))
    · exact hnothing h
    · exact hpoll h
    · exact hnothing h
    · cases h
      exact .inl ⟨rfl, rfl, rfl, trivial, by simp, .inr ⟨rfl, by simp [hg]⟩⟩
    · exact herror h
  case h_4 hg =>
    rw [stateDfuDnloadSync] at h
    split at h
    · exact hpoll h
    · exact hnothing h
    · exact herror h
  case h_5 hg => simp [hg, Legal] at hlegal
  case h_6 hg =>
    rw [stateDfuDnloadIdle] at h
    split at h
    · rw [handleDnload] at h
      split_ifs at h with hzero
      · cases h
        exact ⟨.dfuManifestSync, rfl, by assumption, .inr hg, .inr ⟨rfl, hzero⟩⟩
      · cases h
        exact ⟨.dfuDnloadSync, rfl, by assumption, .inr hg, .inl rfl⟩
    · cases h
      exact .inl (quiet_state trivial (by simp) (by simp [hg]))
    · exact hpoll h
    · exact hnothing h
    · exact herror h
  case h_7 hg =>
    rw [stateDfuManifestSync] at h
    split at h
    · obtain ⟨⟨g₁, bs⟩, hstatus, h⟩ := Option.bind_eq_some_iff.mp h
      cases h
      rw [handleGetstatus_some hstatus]
      exact ⟨rfl, hg⟩
    · exact hnothing h
    · exact herror h
  case h_8 hg =>
    rw [stateDfuManifest] at h
    split at h
    · obtain ⟨⟨g₁, bs⟩, hstatus, h⟩ := Option.bind_eq_some_iff.mp h
      cases h
      rw [handleGetstatus_some hstatus]
      exact .inl ⟨rfl, rfl, rfl, trivial, by simp [DfuState.polled], .inr ⟨rfl, by simp [hg]⟩⟩
    · exact hnothing h
    · exact herror h
  case h_9 => cases h
  case h_10 hg =>
    rw [stateDfuUploadIdle] at h
    split at h
    · obtain ⟨⟨g₁, read⟩, hupload, h⟩ := Option.bind_eq_some_iff.mp h
      have hreads : Reads s g g₁ call := handleUpload_effect hupload
        (.inl hg) (by simp [hg])
      obtain ⟨rfl, rfl⟩ := uploadReply_effect h
      split
      · exact .inr hreads.idle
      · exact .inr hreads
    · cases h
      exact .inl (quiet_state trivial (by simp) (by simp [hg]))
    · exact hpoll h
    · exact hnothing h
    · exact herror h
  case h_11 hg =>
    rw [stateDfuError] at h
    split at h
    · exact hpoll h
    · exact hnothing h
    · cases h
      exact .inl ⟨rfl, rfl, rfl, trivial, by simp, .inl rfl⟩
    · exact herror h

/-! ### What holds in every state -/

/-- The areas that the entities cover. -/
def InSomeArea (s : Setup) (a : Nat) : Prop :=
  ∃ area ∈ s.areas, area.start ≤ a ∧ a < area.start + area.size

/-- What every sequence of requests keeps. -/
structure Sound (s : Setup) (g : Gadget) : Prop where
  legal : Legal g.state
  status : g.status = .errUnknown → g.state = .dfuError
  placed : ∀ alt area, s.areas[alt]? = some area → Placed area (g.entities alt)
  drained : g.state = .dfuManifestSync → (g.entities g.altsetting).fill = 0

theorem sound_bound (disk : Ptr) : Sound s (bound s disk) :=
  ⟨trivial, by simp [bound], fun _ _ _ => ⟨Nat.dvd_zero _, Nat.zero_le _⟩, fun _ => rfl⟩

theorem placed_update (h : Sound s g) {alt : Nat} {area : Area} (harea : s.areas[alt]? = some area)
    {dfu : Entity} (hplaced : Placed area dfu) (alt' : Nat) (area' : Area)
    (harea' : s.areas[alt']? = some area') :
    Placed area' (Function.update g.entities alt dfu alt') := by
  by_cases halt : alt' = alt
  · subst halt
    rw [harea, Option.some.injEq] at harea'
    subst harea'
    rwa [Function.update_self]
  · rw [Function.update_of_ne halt]
    exact h.placed alt' area' harea'

theorem outside_of_same {alt : Nat} {area : Area} (harea : s.areas[alt]? = some area)
    {disk disk' : Ptr} (h : SameOutside area disk disk') {a : Nat} (ha : ¬InSomeArea s a) :
    disk' a = disk a := by
  refine h a ?_
  by_contra hin
  exact ha ⟨area, List.mem_of_getElem? harea, by omega, by omega⟩

theorem Quiet.sound (h : Sound s g) (hquiet : Quiet g g') : Sound s g' := by
  refine ⟨hquiet.legal, fun herr => ?_, by rw [hquiet.entities]; exact h.placed, fun hsync => ?_⟩
  · rcases hquiet.status with hok | ⟨hsame, herror⟩
    · rw [hok] at herr
      cases herr
    · exact herror (h.status (hsame ▸ herr))
  · rw [hquiet.entities, hquiet.altsetting]
    exact h.drained (hquiet.sync hsync)

theorem Reads.sound (h : Sound s g) (hreads : Reads s g g' call) :
    Sound s g' ∧ g'.dev.disk = g.dev.disk := by
  obtain ⟨area, seqNum, read, dev, dfu, harea, hread, hdev, hentities⟩ := hreads.read
  obtain ⟨hdisk, hplaced⟩ := dfuRead_keeps (h.placed _ _ harea) hread
  refine ⟨⟨?_, fun herr => ?_, ?_, fun hsync => ?_⟩, by rw [hdev, hdisk]⟩
  · rcases hreads.state with hg | hg <;> rw [hg] <;> trivial
  · exact absurd (h.status (hreads.status ▸ herr)) hreads.noError
  · rw [hentities]
    exact placed_update h harea hplaced
  · rcases hreads.state with hg | hg <;> rw [hg] at hsync <;> cases hsync

/-- The end of a completion. -/
theorem settle_sound (h : Sound s g) {area : Area} (harea : s.areas[g.altsetting]? = some area)
    {dev : Device} {dfu : Entity} {ok : Bool} (hplaced : Placed area dfu) {g₁ : Gadget}
    (hdrained : ok = true → g₁.state = .dfuManifestSync → dfu.fill = 0) (hlegal : Legal g₁.state)
    (hstatus : g₁.status = .ok) (hentities : g₁.entities = g.entities)
    (halt : g₁.altsetting = g.altsetting) : Sound s (settle g₁ dev dfu ok) := by
  have hupdate := placed_update h harea hplaced
  cases ok with
  | true =>
    simp only [settle, if_true, hentities, halt]
    refine ⟨hlegal, fun herr => ?_, hupdate, fun hsync => ?_⟩
    · rw [hstatus] at herr
      cases herr
    · simp only [Function.update_self]
      exact hdrained rfl hsync
  | false =>
    simp only [settle, hentities, halt]
    exact ⟨trivial, fun _ => rfl, hupdate, fun hsync => by cases hsync⟩

/-- One request keeps the invariant, and the medium outside the areas. -/
theorem Sound.step (h : Sound s g) {input : Input} (hstep : step s g input = some (g', reply)) :
    Sound s g' ∧ ∀ a, ¬InSomeArea s a → g'.dev.disk a = g.dev.disk a := by
  cases input with
  | setAlt alt =>
    cases hstep
    exact ⟨⟨trivial, fun herr => (by cases herr), h.placed, fun hsync => (by cases hsync)⟩,
      fun _ _ => rfl⟩
  | request ctrl data call =>
    obtain ⟨⟨g₁, reply₁, complete⟩, hfn, hstep⟩ := Option.bind_eq_some_iff.mp hstep
    have heffect := dfuStateFn_effect hfn h.legal
    have hok : ∀ {st : DfuState}, g.state = st → st ≠ .dfuError → g.status = .ok := by
      intro st hst hne
      cases hg : g.status with
      | ok => rfl
      | errUnknown => exact absurd (hst ▸ h.status hg) hne
    cases complete with
    | composite =>
      cases hstep
      rcases heffect with hquiet | hreads
      · exact ⟨hquiet.sound h, fun a _ => by rw [hquiet.dev]⟩
      · obtain ⟨hsound, hdisk⟩ := hreads.sound h
        exact ⟨hsound, fun a _ => by rw [hdisk]⟩
    | dnloadRequestComplete =>
      simp only at hstep
      split_ifs at hstep with hlong
      obtain ⟨state, rfl, -, hfrom, hto⟩ := heffect
      obtain ⟨g₂, hcomplete, hstep⟩ := Option.bind_eq_some_iff.mp hstep
      cases hstep
      obtain ⟨area, harea, hcomplete⟩ := Option.bind_eq_some_iff.mp hcomplete
      obtain ⟨⟨dev, dfu, ok⟩, hwrite, hcomplete⟩ := Option.bind_eq_some_iff.mp hcomplete
      cases hcomplete
      obtain ⟨hsame, hplaced, hfill⟩ := dfuWrite_keeps (h.placed _ _ harea) call
        (data.bytes ctrl.wLength) ctrl.wValue dev dfu ok hwrite
      constructor
      · refine settle_sound h harea hplaced (fun htrue hsync => ?_) ?_ ?_ rfl rfl
        · rcases hto with hto | ⟨-, hzero⟩
          · rw [show state = _ from hsync] at hto
            cases hto
          · exact hfill htrue (by rw [hzero]; rfl)
        · rcases hto with rfl | ⟨rfl, -⟩ <;> trivial
        · rcases hfrom with hfrom | hfrom <;> exact hok hfrom (by simp)
      · intro a ha
        have := outside_of_same harea hsame ha
        cases ok <;> exact this
    | dnloadRequestFlush =>
      obtain ⟨rfl, hfrom⟩ := heffect
      obtain ⟨g₂, hcomplete, hstep⟩ := Option.bind_eq_some_iff.mp hstep
      cases hstep
      obtain ⟨area, harea, hcomplete⟩ := Option.bind_eq_some_iff.mp hcomplete
      obtain ⟨⟨dev, dfu, ok⟩, hflush, hcomplete⟩ := Option.bind_eq_some_iff.mp hcomplete
      cases hcomplete
      rw [dfuFlush_drained (h.drained hfrom)] at hflush
      cases hflush
      constructor
      · exact settle_sound h harea (cleanup_placed g.dev)
          (fun _ hsync => by cases hsync) trivial (hok hfrom (by simp)) rfl rfl
      · exact fun _ _ => rfl

/-- What holds after every sequence of requests that has a result. -/
theorem Sound.run (h : Sound s g) {inputs : List Input} {replies : List Reply}
    (hrun : run s g inputs = some (g', replies)) :
    Sound s g' ∧ ∀ a, ¬InSomeArea s a → g'.dev.disk a = g.dev.disk a := by
  induction inputs generalizing g replies with
  | nil =>
    cases hrun
    exact ⟨h, fun _ _ => rfl⟩
  | cons input inputs ih =>
    obtain ⟨⟨g₁, reply⟩, hstep, hrun⟩ := Option.bind_eq_some_iff.mp hrun
    obtain ⟨⟨g₂, rest⟩, hrest, hrun⟩ := Option.bind_eq_some_iff.mp hrun
    cases hrun
    obtain ⟨hsound, hsame⟩ := h.step hstep
    obtain ⟨hsound', hsame'⟩ := ih hsound hrest
    exact ⟨hsound', fun a ha => (hsame' a ha).trans (hsame a ha)⟩

end Steps

end UBoot.Dfu
