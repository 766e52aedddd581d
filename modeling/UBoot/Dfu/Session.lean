import UBoot.Dfu.Protocol
import UBoot.Dfu.Upload

/-!
# Hosts that use one entity at a time

A host that finishes with one entity before it chooses another one, and never sends more
than the buffer of the endpoint takes, always gets an answer. When it sends a file, with
polls in between as it likes, the gadget does what `download` says.
-/

namespace UBoot.Dfu

open Verification

/-! ### The buffer -/

section Calls

variable {config : Config} {area : Area} {dev : Device} {dfu : Entity}

/-- A transfer is under way. -/
structure Opened (config : Config) (dev : Device) (dfu : Entity) : Prop where
  inited : dfu.inited = true
  start : dfu.start = dev.live
  room : dfu.room = config.bufsiz
  bufSize : dev.bufSize = config.bufsiz

/-- The entity that is used: it is idle, or has the buffer. -/
def Transfer (config : Config) (dev : Device) (dfu : Entity) : Prop :=
  Idle dev dfu ∧ (dev.bufSize = config.dataBufSize ∨ dev.bufSize = config.bufsiz) ∨
    Opened config dev dfu

/-- A call has a result, after which the entity still has the buffer or is idle. -/
def Defined (config : Config) (result : Option (Device × Entity × Bool)) : Prop :=
  ∃ dev' dfu' ok, result = some (dev', dfu', ok) ∧ Transfer config dev' dfu'

theorem drain_defined (h : Opened config dev dfu) (outcome : Outcome) :
    ∃ dev' dfu' ok, dfuWriteBufferDrain config (.raw area) outcome dev dfu =
      some (dev', dfu', ok) ∧ Opened config dev' dfu' := by
  rw [dfuWriteBufferDrain]
  split
  · exact ⟨dev, dfu, true, rfl, h⟩
  · rw [if_neg (not_not.mpr h.start)]
    exact ⟨_, _, _, rfl, h.inited, h.start, h.room, h.bufSize⟩

theorem failWrite_defined (h : Opened config dev dfu) : Defined config (failWrite dev dfu) :=
  ⟨_, _, false, rfl, .inl ⟨⟨rfl, rfl, rfl⟩, .inr h.bufSize⟩⟩

theorem drainIf_defined (h : Opened config dev dfu) (needed : Bool) (outcome : Outcome)
    {next : Device → Entity → Option (Device × Entity × Bool)}
    (hnext : ∀ dev' dfu', Opened config dev' dfu' → Defined config (next dev' dfu')) :
    Defined config (drainIf needed config (.raw area) outcome dev dfu next) := by
  cases needed with
  | false => exact hnext dev dfu h
  | true =>
    obtain ⟨dev', dfu', ok, hdrain, hopened⟩ :=
      @drain_defined config area dev dfu h outcome
    simp only [drainIf, if_true, hdrain]
    cases ok with
    | true => exact hnext dev' dfu' hopened
    | false => exact failWrite_defined hopened

theorem putBlock_defined (h : Opened config dev dfu) (outcome : Outcome) (data : List UInt8) :
    Defined config (putBlock config (.raw area) outcome data dev dfu) := by
  rw [putBlock]
  simp only
  split
  · exact failWrite_defined h
  rw [if_neg fun hno => hno.2 h.start]
  apply drainIf_defined
  · exact ⟨h.inited, h.start, h.room, h.bufSize⟩
  · exact fun dev' dfu' hopened => ⟨dev', dfu', true, rfl, .inr hopened⟩

theorem dfuGetBuf_idle (h : dev.live = none) {call : Call} {dev' : Device} {n : Nat}
    (hbuf : dfuGetBuf config call dev = some (dev', n)) :
    dev'.live = some n ∧ dev'.bufSize = config.bufsiz := by
  simp only [dfuGetBuf, h] at hbuf
  split_ifs at hbuf
  cases hbuf
  exact ⟨rfl, rfl⟩

theorem dfuWrite_defined (h : Transfer config dev dfu) (call : Call) (data : List UInt8)
    (seqNum : Nat) :
    Defined config (dfuWrite config (.raw area) call dev dfu data seqNum) := by
  have hopened : ∀ dev₁ dfu₁, Opened config dev₁ dfu₁ →
      Defined config (if dfu₁.seqNum ≠ seqNum then failWrite dev₁ dfu₁
        else drainIf (dfu₁.fill + data.length > dfu₁.room) config (.raw area) (call.outcome 0)
          dev₁ { dfu₁ with seqNum := (dfu₁.seqNum + 1) % 65536 }
          (putBlock config (.raw area) (call.outcome 1) data)) := by
    intro dev₁ dfu₁ h₁
    split
    · exact failWrite_defined h₁
    · apply drainIf_defined
      · exact ⟨h₁.inited, h₁.start, h₁.room, h₁.bufSize⟩
      · exact fun dev' dfu' h' => putBlock_defined h' _ data
  rw [dfuWrite, startWrite]
  rcases h with ⟨hidle, hsize⟩ | h
  · rw [if_neg (by simp [hidle.inited])]
    cases hbuf : dfuGetBuf config call dev with
    | none => exact ⟨_, _, false, rfl, .inl ⟨⟨hidle.inited, hidle.fill, hidle.live⟩, .inr rfl⟩⟩
    | some found =>
      obtain ⟨hlive, hsize'⟩ := dfuGetBuf_idle hidle.live hbuf
      exact hopened _ _ ⟨rfl, hlive.symm, hsize', hsize'⟩
  · rw [if_pos h.inited]
    exact hopened dev dfu h

theorem Area.align_le {len n : Nat} (h : len ≤ n) (hdvd : area.blk ∣ n) : area.align len ≤ n := by
  have hpos := area.blk_pos
  obtain ⟨k, rfl⟩ := hdvd
  have hdiv : (len + (area.blk - 1)) / area.blk < k + 1 := by
    rw [Nat.div_lt_iff_lt_mul hpos, Nat.add_mul, Nat.one_mul, Nat.mul_comm k]
    omega
  rw [Area.align, Nat.mul_comm area.blk]
  exact Nat.mul_le_mul_right _ (Nat.le_of_lt_succ hdiv)

/-- A read into a buffer of whole blocks stays in the buffer. -/
theorem mmcBlockRead_defined (h : Opened config dev dfu) (hdvd : area.blk ∣ config.bufsiz)
    {offset len : Nat} (hlen : len ≤ config.bufsiz) (outcome : Outcome) :
    ∃ dev' ok, mmcBlockRead area dev offset len outcome = some (dev', area.align len, ok) ∧
      dev'.live = dev.live ∧ dev'.bufSize = dev.bufSize := by
  have hfit := area.align_le hlen hdvd
  rw [mmcBlockRead]
  split
  · exact ⟨dev, false, rfl, rfl, rfl⟩
  · rw [if_neg (by rw [h.bufSize]; omega)]
    cases outcome with
    | done => exact ⟨_, true, rfl, rfl, rfl⟩
    | failed n => exact ⟨_, false, rfl, rfl, rfl⟩

/-- Every turn but the first one yields a byte, so the turns suffice. -/
theorem dfuReadBufferFill_defined (hdvd : area.blk ∣ config.bufsiz) (call : Call)
    {fuel size : Nat} (h : Opened config dev dfu)
    (hfuel : size < fuel ∨ 0 < fuel ∧ 0 < dfu.bLeft ∧ size ≤ fuel) :
    ∃ dev' dfu' read, dfuReadBufferFill area call fuel dev dfu size = some (dev', dfu', read) ∧
      Opened config dev' dfu' := by
  induction fuel generalizing dev dfu size with
  | zero => omega
  | succ fuel ih =>
    obtain ⟨chunk, hchunk⟩ : ∃ chunk, min size dfu.bLeft = chunk := ⟨_, rfl⟩
    simp only [dfuReadBufferFill, hchunk]
    split
    · exact ⟨dev, dfu, some [], rfl, h⟩
    next hsize =>
      rw [if_neg fun hno => hno.2 h.start]
      split
      · exact ⟨_, _, _, rfl, h.inited, h.start, h.room, h.bufSize⟩
      split
      · exact ⟨_, _, _, rfl, h.inited, h.start, h.room, h.bufSize⟩
      next hmore hleft =>
        have hpos := config.bufsiz_pos
        obtain ⟨dev₁, ok, hread, hlive, hbufSize⟩ := mmcBlockRead_defined h hdvd
          (show min dfu.room dfu.rLeft ≤ config.bufsiz by rw [h.room]; exact min_le_left _ _)
          (call.outcome fuel)
        rw [hread]
        have hopened : ∀ offset bLeft rLeft, Opened config dev₁
            { dfu with fill := 0, bLeft := bLeft, offset := offset, rLeft := rLeft } :=
          fun _ _ _ => ⟨h.inited, h.start.trans hlive.symm, h.room, hbufSize.trans h.bufSize⟩
        cases ok with
        | false => exact ⟨_, _, none, rfl, hopened dfu.offset _ dfu.rLeft⟩
        | true =>
          have hsome : 0 < area.align (min dfu.room dfu.rLeft) := by
            have := area.le_align (min dfu.room dfu.rLeft)
            rw [h.room] at this ⊢
            omega
          obtain ⟨dev₂, dfu₂, read, hrest, hopened₂⟩ := @ih dev₁ _ (size - chunk)
            (hopened (dfu.offset + area.align (min dfu.room dfu.rLeft))
              (area.align (min dfu.room dfu.rLeft))
              (dfu.rLeft - area.align (min dfu.room dfu.rLeft)))
            (.inr ⟨by omega, hsome, by omega⟩)
          simp only [Bool.not_true, Bool.false_eq_true, if_false, hrest]
          exact ⟨_, _, _, rfl, hopened₂⟩

theorem startRead_opened (h : Transfer config dev dfu) (call : Call) :
    startRead config area call dev dfu = none ∧
        Transfer config { dev with bufSize := config.bufsiz } { dfu with start := none } ∨
      ∃ dev₁ dfu₁, startRead config area call dev dfu = some (dev₁, dfu₁) ∧
        Opened config dev₁ dfu₁ := by
  rw [startRead]
  rcases h with ⟨hidle, hsize⟩ | h
  · rw [if_neg (by simp [hidle.inited])]
    cases hbuf : dfuGetBuf config call dev with
    | none => exact .inl ⟨rfl, .inl ⟨⟨hidle.inited, hidle.fill, hidle.live⟩, .inr rfl⟩⟩
    | some found =>
      obtain ⟨hlive, hsize'⟩ := dfuGetBuf_idle hidle.live hbuf
      exact .inr ⟨_, _, rfl, rfl, hlive.symm, hsize', hsize'⟩
  · exact .inr ⟨dev, dfu, if_pos h.inited, h⟩

theorem dfuRead_started {call : Call} {dev₁ : Device} {dfu₁ : Entity}
    (hstarted : startRead config area call dev dfu = some (dev₁, dfu₁))
    (h : Opened config dev₁ dfu₁) (hdvd : area.blk ∣ config.bufsiz) (size seqNum : Nat) :
    ∃ dev' dfu' read, dfuRead config area call dev dfu size seqNum = some (dev', dfu', read) ∧
      Transfer config dev' dfu' := by
  rw [dfuRead, hstarted]
  dsimp only
  split
  · exact ⟨dev₁, dfu₁, none, rfl, .inr h⟩
  have hnext : Opened config dev₁ { dfu₁ with seqNum := (dfu₁.seqNum + 1) % 65536 } :=
    ⟨h.inited, h.start, h.room, h.bufSize⟩
  obtain ⟨dev₂, dfu₂, read, hfill, h₂⟩ := dfuReadBufferFill_defined hdvd call hnext
    (.inl (Nat.lt_succ_self size))
  rw [hfill]
  cases read with
  | none => exact ⟨_, _, none, rfl, .inr h₂⟩
  | some data =>
    dsimp only
    split
    · exact ⟨_, _, some data, rfl, .inl ⟨⟨rfl, rfl, rfl⟩, .inr h₂.bufSize⟩⟩
    · exact ⟨_, _, some data, rfl, .inr h₂⟩

theorem dfuRead_defined (h : Transfer config dev dfu) (hdvd : area.blk ∣ config.bufsiz)
    (call : Call) (size seqNum : Nat) :
    ∃ dev' dfu' read, dfuRead config area call dev dfu size seqNum = some (dev', dfu', read) ∧
      Transfer config dev' dfu' := by
  rcases @startRead_opened config area dev dfu h call with ⟨hnone, hidle⟩ | ⟨dev₁, dfu₁, hsome, h₁⟩
  · exact ⟨_, _, none, by rw [dfuRead, hnone], hidle⟩
  · exact dfuRead_started hsome h₁ hdvd size seqNum

end Calls

/-! ### One entity at a time -/

section Hosts

variable {s : Setup} {g g' : Gadget} {reply : Reply}

/-- What the board must provide: buffers of whole blocks, and of a block of the endpoint when
there is a timeout to be computed. -/
structure Fits (s : Setup) : Prop where
  blocks : ∀ area ∈ s.areas, area.blk ∣ s.config.bufsiz
  poll : s.pollTimeout = 0 ∨
    DFU_USB_BUFSIZ ≤ s.config.dataBufSize ∧ DFU_USB_BUFSIZ ≤ s.config.bufsiz

/-- At most the chosen entity has a transfer under way. -/
structure Steady (s : Setup) (g : Gadget) : Prop where
  alt : g.altsetting < s.areas.length
  others : ∀ alt, alt ≠ g.altsetting → (g.entities alt).inited = false ∧ (g.entities alt).fill = 0
  current : Transfer s.config g.dev (g.entities g.altsetting)

/-- What such a host may send: no more than the buffer takes, and another entity is chosen
only when the transfer of the one before is complete. -/
def Admissible (s : Setup) (g : Gadget) : Input → Prop
  | .request ctrl _ _ => ctrl.bRequest = .dnload → ctrl.wLength ≤ USB_BUFSIZ
  | .setAlt alt => alt % 256 < s.areas.length ∧
      (alt % 256 = g.altsetting ∨ (g.entities g.altsetting).inited = false)

def Admitted (s : Setup) : Gadget → List Input → Prop
  | _, [] => True
  | g, input :: inputs => Admissible s g input ∧
      ∀ g' reply, step s g input = some (g', reply) → Admitted s g' inputs

theorem Transfer.bufSize {config : Config} {dev : Device} {dfu : Entity}
    (h : Transfer config dev dfu) :
    dev.bufSize = config.dataBufSize ∨ dev.bufSize = config.bufsiz :=
  h.elim And.right fun h => .inr h.bufSize

theorem Transfer.idle {config : Config} {dev : Device} {dfu : Entity}
    (h : Transfer config dev dfu) (hinited : dfu.inited = false) : Idle dev dfu := by
  rcases h with ⟨hidle, -⟩ | hopened
  · exact hidle
  · rw [hopened.inited] at hinited
    cases hinited

theorem Steady.handleGetstatus (h : Steady s g) (hfits : Fits s) (state : DfuState) :
    ∃ bs, handleGetstatus s { g with state := state } =
      some ({ g with state := state.polled }, bs) := by
  have hswitch : ∃ ms, statusSwitch s { g with state := state } = some (state.polled, ms) := by
    cases state <;> simp [statusSwitch, DfuState.polled, h.alt]
  obtain ⟨ms, hswitch⟩ := hswitch
  have hdelay : ∃ ms', pollDelay s { g with state := state } ms = some ms' := by
    simp only [pollDelay]
    split
    · exact ⟨_, rfl⟩
    next hpoll =>
      obtain ⟨hdata, hbuf⟩ := hfits.poll.resolve_left hpoll
      have hsize : DFU_USB_BUFSIZ ≤ g.dev.bufSize := by
        rcases h.current.bufSize with hsize | hsize <;> rw [hsize] <;> assumption
      rw [if_neg]
      · exact ⟨_, rfl⟩
      · exact Nat.pos_iff_ne_zero.mp (Nat.div_pos hsize (by decide))
  obtain ⟨ms', hdelay⟩ := hdelay
  simp only [Dfu.handleGetstatus, hswitch, Option.bind_eq_bind, Option.bind_some, hdelay]
  exact ⟨_, rfl⟩

/-- A completion leaves the entity idle or with the buffer. -/
theorem Steady.update (h : Steady s g) {dev : Device} {dfu : Entity}
    (htransfer : Transfer s.config dev dfu) (halt : g'.altsetting = g.altsetting)
    (hdev : g'.dev = dev) (hentities : g'.entities = Function.update g.entities g.altsetting dfu) :
    Steady s g' := by
  refine ⟨halt ▸ h.alt, fun alt hne => ?_, ?_⟩
  · rw [halt] at hne
    rw [hentities, Function.update_of_ne hne]
    exact h.others alt hne
  · rw [hentities, halt, Function.update_self, hdev]
    exact htransfer

theorem Steady.handleUpload (h : Steady s g) (hfits : Fits s) (call : Call) (state : DfuState)
    (seqNum : Nat) :
    ∃ g₁ read, handleUpload s { g with state := state, blkSeqNum := seqNum } call =
      some (g₁, read) := by
  have hbound := h.alt
  have harea : s.areas[g.altsetting]? = some s.areas[g.altsetting] :=
    List.getElem?_eq_getElem h.alt
  obtain ⟨dev, dfu, read, hread, -⟩ := dfuRead_defined h.current
    (hfits.blocks _ (List.getElem_mem h.alt)) call USB_BUFSIZ seqNum
  simp only [Dfu.handleUpload, harea, Option.bind_eq_bind, Option.bind_some, hread]
  exact ⟨_, read, rfl⟩

/-- Every state function has a result. -/
theorem Steady.dfuStateFn (h : Steady s g) (hfits : Fits s) (hlegal : Legal g.state) (ctrl : Ctrl)
    (call : Call) : ∃ g₁ reply complete, dfuStateFn s g ctrl call = some (g₁, reply, complete) := by
  have hstatus : ∀ state, g.state = state →
      ∃ bs, Dfu.handleGetstatus s g = some ({ g with state := state.polled }, bs) := by
    rintro state rfl
    exact h.handleGetstatus hfits g.state
  have hpoll : ∃ g₁ reply complete, answerStatus s g = some (g₁, reply, complete) := by
    obtain ⟨bs, hbs⟩ := hstatus _ rfl
    exact ⟨_, _, _, by rw [answerStatus, hbs]; rfl⟩
  have hreply : ∀ (g₁ : Gadget) read, ∃ g₂ reply complete,
      uploadReply g₁ read = some (g₂, reply, complete) := by
    intro g₁ read
    cases read <;> exact ⟨_, _, _, rfl⟩
  rw [Dfu.dfuStateFn]
  cases hg : g.state
  case appDetach => simp [hg, Legal] at hlegal
  case dfuDnbusy => simp [hg, Legal] at hlegal
  case dfuManifestWaitRst => simp [hg, Legal] at hlegal
  case appIdle =>
    rw [stateAppIdle]
    cases ctrl.bRequest <;> first | exact hpoll | exact ⟨_, _, _, rfl⟩
  case dfuIdle =>
    rw [stateDfuIdle]
    cases ctrl.bRequest <;> try first | exact hpoll | exact ⟨_, _, _, rfl⟩
    case dnload =>
      simp only
      split <;> exact ⟨_, _, _, rfl⟩
    case upload =>
      obtain ⟨g₁, read, hupload⟩ := h.handleUpload hfits call .dfuUploadIdle 0
      simp only [hupload, Option.bind_eq_bind, Option.bind_some]
      exact hreply g₁ read
  case dfuDnloadSync =>
    rw [stateDfuDnloadSync]
    cases ctrl.bRequest <;> first | exact hpoll | exact ⟨_, _, _, rfl⟩
  case dfuDnloadIdle =>
    rw [stateDfuDnloadIdle]
    cases ctrl.bRequest <;> first | exact hpoll | exact ⟨_, _, _, rfl⟩
  case dfuManifestSync =>
    rw [stateDfuManifestSync]
    cases ctrl.bRequest <;> try exact ⟨_, _, _, rfl⟩
    obtain ⟨bs, hbs⟩ := h.handleGetstatus hfits .dfuManifest
    simp only [hbs, Option.bind_eq_bind, Option.bind_some]
    exact ⟨_, _, _, rfl⟩
  case dfuManifest =>
    rw [stateDfuManifest]
    cases ctrl.bRequest <;> try exact ⟨_, _, _, rfl⟩
    obtain ⟨bs, hbs⟩ := h.handleGetstatus hfits .dfuIdle
    simp only [hbs, Option.bind_eq_bind, Option.bind_some]
    exact ⟨_, _, _, rfl⟩
  case dfuUploadIdle =>
    rw [stateDfuUploadIdle]
    cases ctrl.bRequest <;> try first | exact hpoll | exact ⟨_, _, _, rfl⟩
    obtain ⟨g₁, read, hupload⟩ := h.handleUpload hfits call g.state ctrl.wValue
    simp only [hupload, Option.bind_eq_bind, Option.bind_some]
    exact hreply _ read
  case dfuError =>
    rw [stateDfuError]
    cases ctrl.bRequest <;> first | exact hpoll | exact ⟨_, _, _, rfl⟩

/-- An admissible request is answered, and the host can go on in the same way. -/
theorem Steady.step (h : Steady s g) (hsound : Sound s g) (hfits : Fits s) {input : Input}
    (hadmissible : Admissible s g input) :
    ∃ g' reply, step s g input = some (g', reply) ∧ Steady s g' := by
  have hbound := h.alt
  have harea : s.areas[g.altsetting]? = some s.areas[g.altsetting] :=
    List.getElem?_eq_getElem h.alt
  cases input with
  | setAlt alt =>
    obtain ⟨halt, hdone⟩ := hadmissible
    refine ⟨_, _, rfl, halt, fun other hne => ?_, ?_⟩
    · by_cases hother : other = g.altsetting
      · have hinited := hdone.resolve_left fun heq => hne (hother.trans heq.symm)
        rw [← hother] at hinited
        exact ⟨hinited, (h.current.idle (hother ▸ hinited)).fill ▸ hother ▸ rfl⟩
      · exact h.others other hother
    · by_cases hsame : alt % 256 = g.altsetting
      · simp only [dfuSetAlt, hsame]
        exact h.current
      · have hinited := hdone.resolve_left hsame
        have hidle := h.current.idle hinited
        obtain ⟨hinited', hfill'⟩ := h.others _ hsame
        exact .inl ⟨⟨hinited', hfill', hidle.live⟩, h.current.bufSize⟩
  | request ctrl data call =>
    obtain ⟨g₁, reply, complete, hfn⟩ := h.dfuStateFn hfits hsound.legal ctrl call
    have heffect := dfuStateFn_effect hfn hsound.legal
    simp only [Dfu.step, dfuHandle, hfn, Option.bind_eq_bind, Option.bind_some]
    cases complete with
    | composite =>
      refine ⟨g₁, reply, rfl, ?_⟩
      rcases heffect with hquiet | hreads
      · refine ⟨hquiet.altsetting ▸ h.alt, ?_, ?_⟩
        · rw [hquiet.altsetting, hquiet.entities]
          exact h.others
        · rw [hquiet.altsetting, hquiet.entities, hquiet.dev]
          exact h.current
      · obtain ⟨area, seqNum, read, dev, dfu, harea', hread, hdev, hentities⟩ := hreads.read
        obtain ⟨dev', dfu', read', hread', htransfer⟩ := dfuRead_defined h.current
          (hfits.blocks area (List.mem_of_getElem? harea')) call USB_BUFSIZ seqNum
        rw [hread, Option.some.injEq, Prod.mk.injEq, Prod.mk.injEq] at hread'
        obtain ⟨rfl, rfl, -⟩ := hread'
        exact h.update htransfer hreads.altsetting hdev hentities
    | dnloadRequestComplete =>
      obtain ⟨state, rfl, hdnload, -, -⟩ := heffect
      obtain ⟨dev, dfu, ok, hwrite, htransfer⟩ := @dfuWrite_defined s.config
        s.areas[g.altsetting] _ _ h.current call (data.bytes ctrl.wLength) ctrl.wValue
      simp only [if_neg (Nat.not_lt.mpr (hadmissible hdnload)), Dfu.dnloadRequestComplete, harea,
        Option.bind_eq_bind, Option.bind_some, hwrite]
      refine ⟨_, _, rfl, ?_⟩
      cases ok <;> exact h.update htransfer rfl rfl rfl
    | dnloadRequestFlush =>
      obtain ⟨rfl, hfrom⟩ := heffect
      simp only [Dfu.dnloadRequestFlush, harea, Option.bind_eq_bind, Option.bind_some,
        dfuFlush_drained (hsound.drained hfrom)]
      have htransfer : Transfer s.config { g.dev with live := none }
          (dfuWriteTransactionCleanup g.dev (g.entities g.altsetting)).2 :=
        .inl ⟨⟨rfl, rfl, rfl⟩, h.current.bufSize⟩
      exact ⟨_, _, rfl, h.update htransfer rfl rfl rfl⟩

theorem steady_bound (hareas : s.areas ≠ []) (disk : Ptr) : Steady s (bound s disk) :=
  ⟨List.length_pos_iff.mpr hareas, fun _ _ => ⟨rfl, rfl⟩, .inl ⟨⟨rfl, rfl, rfl⟩, .inl rfl⟩⟩

/-- A host that uses one entity at a time gets an answer to every request. -/
theorem run_defined (h : Steady s g) (hsound : Sound s g) (hfits : Fits s) {inputs : List Input}
    (hadmitted : Admitted s g inputs) :
    ∃ g' replies, run s g inputs = some (g', replies) ∧ replies.length = inputs.length ∧
      Steady s g' := by
  induction inputs generalizing g with
  | nil => exact ⟨g, [], rfl, rfl, h⟩
  | cons input inputs ih =>
    obtain ⟨hadmissible, hrest⟩ := hadmitted
    obtain ⟨g₁, reply, hstep, h₁⟩ := h.step hsound hfits hadmissible
    obtain ⟨g₂, replies, hrun, hlength, h₂⟩ :=
      ih h₁ (hsound.step hstep).1 (hrest g₁ reply hstep)
    refine ⟨g₂, reply :: replies, ?_, by rw [List.length_cons, hlength, List.length_cons], h₂⟩
    simp only [run, hstep, Option.bind_eq_bind, Option.bind_some, hrun]
    rfl

/-- Whatever the host sends: what has a result keeps the medium outside the areas, the gadget
stays in its legal states, and an error is never hidden; and on a board that fits there is a
result as long as the host uses one entity at a time. -/
theorem bound_runs (disk : Ptr) (inputs : List Input) :
    (∀ g' replies, run s (bound s disk) inputs = some (g', replies) →
      Sound s g' ∧ ∀ a, ¬InSomeArea s a → g'.dev.disk a = disk a) ∧
    (s.areas ≠ [] → Fits s → Admitted s (bound s disk) inputs → ∃ g' replies,
      run s (bound s disk) inputs = some (g', replies) ∧ replies.length = inputs.length) := by
  refine ⟨fun g' replies hrun => (sound_bound disk).run hrun, fun hareas hfits hadmitted => ?_⟩
  obtain ⟨g', replies, hrun, hlength, -⟩ :=
    run_defined (steady_bound hareas disk) (sound_bound disk) hfits hadmitted
  exact ⟨g', replies, hrun, hlength⟩

/-- One area, a buffer of 8 MiB, and a timeout of 300 ms. -/
def smallSetup : Setup :=
  ⟨⟨8388608, 8388608, 16777216, none, smallBuffer.dataBufSize_pos⟩, [smallArea], 300, 0⟩

theorem smallSetup_fits : Fits smallSetup := by
  refine ⟨fun area harea => ?_, .inr ⟨by decide, by decide⟩⟩
  obtain rfl := List.mem_singleton.mp harea
  decide

def goodCall : Call := ⟨true, fun _ => 0, fun _ => .done⟩

def statusPoll : Input := .request ⟨.getStatus, 0, 6⟩ (fun _ => 0) goodCall

/-- A first block of an upload, and a poll. -/
theorem bound_runs_small :
    ∃ g' replies, run smallSetup (bound smallSetup fun _ => 0)
      [.request ⟨.upload, 0, 4096⟩ (fun _ => 0) goodCall, statusPoll] = some (g', replies) ∧
      replies.length = 2 :=
  (bound_runs (fun _ => 0) _).2 (by simp [smallSetup]) smallSetup_fits
    ⟨fun h => (by cases h), fun _ _ _ => ⟨fun h => (by cases h), fun _ _ _ => trivial⟩⟩

/-! ### Polls -/

/-- The gadget after a sequence of events. -/
def after (s : Setup) (g : Gadget) (inputs : List Input) : Option Gadget :=
  (run s g inputs).map Prod.fst

@[simp] theorem after_nil : after s g [] = some g := rfl

theorem after_cons (input : Input) (inputs : List Input) :
    after s g (input :: inputs) = (step s g input).bind fun r => after s r.1 inputs := by
  simp only [after, run, Option.bind_eq_bind]
  cases step s g input with
  | none => rfl
  | some r =>
    simp only [Option.bind_some]
    cases run s r.1 inputs <;> rfl

theorem after_append (first second : List Input) :
    after s g (first ++ second) = (after s g first).bind fun g => after s g second := by
  induction first generalizing g with
  | nil => rfl
  | cons input first ih =>
    rw [List.cons_append, after_cons, after_cons, Option.bind_assoc]
    congr 1
    funext r
    exact ih

def isGetStatus : Input → Bool
  | .request ctrl _ _ => ctrl.bRequest = .getStatus
  | .setAlt _ => false

def isGetState : Input → Bool
  | .request ctrl _ _ => ctrl.bRequest = .getState
  | .setAlt _ => false

def isDnload : Input → Bool
  | .request ctrl _ _ => ctrl.bRequest = .dnload
  | .setAlt _ => false

/-- A host that asks for the status or for the state. -/
def Polls (inputs : List Input) : Prop :=
  ∀ input ∈ inputs, isGetStatus input = true ∨ isGetState input = true

/-- A host that asks for the status at least once. -/
def Waits (inputs : List Input) : Prop := Polls inputs ∧ inputs.any isGetStatus = true

/-- The states that polls leave for good. -/
def Settled : DfuState → Prop
  | .dfuIdle | .dfuDnloadSync | .dfuDnloadIdle | .dfuError => True
  | _ => False

theorem Settled.polled {state : DfuState} (h : Settled state) :
    Settled state.polled ∧ state.polled.polled = state.polled := by
  cases state <;> simp_all [Settled, DfuState.polled]

theorem Steady.of_state (h : Steady s g) (state : DfuState) : Steady s { g with state := state } :=
  ⟨h.alt, h.others, h.current⟩

theorem step_getState (hlegal : Legal g.state) {input : Input}
    (hinput : isGetState input = true) : ∃ reply, step s g input = some (g, reply) := by
  cases input with
  | setAlt alt => cases hinput
  | request ctrl data call =>
    have hctrl : ctrl.bRequest = .getState := of_decide_eq_true hinput
    refine ⟨Reply.bytes [], ?_⟩
    simp only [Dfu.step, dfuHandle, Dfu.dfuStateFn]
    cases hg : g.state <;> simp_all [stateAppIdle, stateDfuIdle, stateDfuDnloadSync,
      stateDfuDnloadIdle, stateDfuManifestSync, stateDfuManifest, stateDfuUploadIdle,
      stateDfuError, answerNothing, Legal]

theorem Steady.getStatus (h : Steady s g) (hfits : Fits s) (hsettled : Settled g.state)
    {input : Input} (hinput : isGetStatus input = true) :
    ∃ reply, Dfu.step s g input = some ({ g with state := g.state.polled }, reply) := by
  cases input with
  | setAlt alt => cases hinput
  | request ctrl data call =>
    have hctrl : ctrl.bRequest = .getStatus := of_decide_eq_true hinput
    obtain ⟨bs, hbs⟩ := h.handleGetstatus hfits g.state
    have hanswer : answerStatus s g =
        some ({ g with state := g.state.polled }, .bytes bs, .composite) := by
      rw [answerStatus, hbs]
      rfl
    refine ⟨Reply.bytes bs, ?_⟩
    simp only [Dfu.step, dfuHandle, Dfu.dfuStateFn]
    cases hg : g.state <;> rw [hg] at hanswer <;> simp_all [stateDfuIdle, stateDfuDnloadSync,
      stateDfuDnloadIdle, stateDfuError, Settled]

/-- Polls of a settled state only let it advance. -/
theorem after_polls (h : Steady s g) (hfits : Fits s) (hsettled : Settled g.state)
    {inputs : List Input} (hpolls : Polls inputs) :
    after s g inputs =
      some { g with state := if inputs.any isGetStatus then g.state.polled else g.state } := by
  induction inputs generalizing g with
  | nil => rfl
  | cons input inputs ih =>
    have hrest : Polls inputs := fun i hi => hpolls i (List.mem_cons_of_mem _ hi)
    have hlegal : Legal g.state := by
      cases hg : g.state <;> simp_all [Settled, Legal]
    rw [after_cons, List.any_cons]
    cases hstatus : isGetStatus input with
    | true =>
      obtain ⟨reply, hstep⟩ := h.getStatus hfits hsettled hstatus
      obtain ⟨hsettled', hpolled⟩ := hsettled.polled
      have hnext := ih (h.of_state g.state.polled) hsettled' hrest
      rw [hstep, Option.bind_some, Bool.true_or, if_pos rfl]
      refine hnext.trans ?_
      simp only [hpolled, ite_self]
    | false =>
      obtain ⟨reply, hstep⟩ := @step_getState s g hlegal input
        ((hpolls input List.mem_cons_self).resolve_left (by simp [hstatus]))
      rw [hstep, Option.bind_some, ih h hsettled hrest]
      simp

/-- The error state is left by none of these. -/
theorem after_error (h : Steady s g) (hfits : Fits s) (herror : g.state = .dfuError)
    {inputs : List Input} (hinputs : ∀ input ∈ inputs, isGetStatus input = true ∨
      isGetState input = true ∨ isDnload input = true) : after s g inputs = some g := by
  induction inputs with
  | nil => rfl
  | cons input inputs ih =>
    have hrest := ih fun i hi => hinputs i (List.mem_cons_of_mem _ hi)
    have hsame : ({ g with state := .dfuError } : Gadget) = g := by rw [← herror]
    have hstep : ∃ reply, step s g input = some (g, reply) := by
      rcases hinputs input List.mem_cons_self with hstatus | hstate | hdnload
      · obtain ⟨reply, hstep⟩ := h.getStatus hfits (by rw [herror]; trivial) hstatus
        have hpolled : g.state.polled = .dfuError := by rw [herror]; rfl
        exact ⟨reply, hstep.trans (by rw [hpolled, hsame])⟩
      · exact step_getState (by rw [herror]; trivial) hstate
      · cases input with
        | setAlt alt => cases hdnload
        | request ctrl data call =>
          have hctrl : ctrl.bRequest = .dnload := of_decide_eq_true hdnload
          refine ⟨.stall, ?_⟩
          simp only [step, dfuHandle, dfuStateFn, herror, stateDfuError, hctrl, answerStall,
            hsame]
          rfl
    obtain ⟨reply, hstep⟩ := hstep
    rw [after_cons, hstep, Option.bind_some, hrest]

/-- In the manifest state the polls end in `dfuIDLE`. -/
theorem after_manifest (h : Steady s g) (hfits : Fits s) (hmanifest : g.state = .dfuManifest)
    {inputs : List Input} (hwaits : Waits inputs) :
    after s g inputs = some { g with state := .dfuIdle, blkSeqNum := 0 } := by
  obtain ⟨hpolls, hany⟩ := hwaits
  induction inputs with
  | nil => cases hany
  | cons input inputs ih =>
    have hrest : Polls inputs := fun i hi => hpolls i (List.mem_cons_of_mem _ hi)
    rw [after_cons]
    cases hstatus : isGetStatus input with
    | true =>
      obtain ⟨ctrl, data, call, rfl⟩ : ∃ ctrl data call, input = .request ctrl data call := by
        cases input with
        | request ctrl data call => exact ⟨ctrl, data, call, rfl⟩
        | setAlt alt => cases hstatus
      have hctrl : ctrl.bRequest = .getStatus := of_decide_eq_true hstatus
      obtain ⟨bs, hbs⟩ := h.handleGetstatus hfits .dfuIdle
      have hstep : step s g (.request ctrl data call) =
          some ({ g with state := .dfuIdle, blkSeqNum := 0 }, .bytes bs) := by
        simp only [step, dfuHandle, dfuStateFn, hmanifest, stateDfuManifest, hctrl, hbs,
          Option.bind_eq_bind, Option.bind_some]
        rfl
      have hidle : Steady s { g with state := .dfuIdle, blkSeqNum := 0 } :=
        ⟨h.alt, h.others, h.current⟩
      rw [hstep, Option.bind_some, after_polls hidle hfits trivial hrest]
      simp [DfuState.polled]
    | false =>
      obtain ⟨reply, hstep⟩ := @step_getState s g (by rw [hmanifest]; trivial) input
        ((hpolls input List.mem_cons_self).resolve_left (by simp [hstatus]))
      rw [List.any_cons, hstatus, Bool.false_or] at hany
      rw [hstep, Option.bind_some, ih hrest hany]

/-! ### A file -/

/-- A block of a file, what its write meets, and the polls that follow it. -/
structure Block where
  data : List UInt8
  call : Call
  polls : List Input
  nonempty : data ≠ []
  fits : data.length ≤ USB_BUFSIZ
  waits : Waits polls

/-- How a host ends a file: what the empty block meets, and the polls that follow it, the
first `DFU_GETSTATUS` in the middle. -/
structure Ending where
  call : Call
  states : List Input
  flush : Input
  polls : List Input
  states_get : ∀ input ∈ states, isGetState input = true
  flush_get : isGetStatus flush = true
  waits : Waits polls

/-- `DFU_DNLOAD` -/
def dnloadInput (seqNum : Nat) (data : List UInt8) (call : Call) : Input :=
  .request ⟨.dnload, seqNum, data.length⟩ (Ptr.ofList data) call

/-- What the host sends, with 16 bits for the number of a block. -/
def fileInputs (ending : Ending) : Nat → List Block → List Input
  | seqNum, [] =>
    dnloadInput seqNum [] ending.call :: (ending.states ++ ending.flush :: ending.polls)
  | seqNum, block :: blocks =>
    dnloadInput seqNum block.data block.call ::
      (block.polls ++ fileInputs ending ((seqNum + 1) % 65536) blocks)

theorem fileInputs_requests (ending : Ending) (blocks : List Block) (seqNum : Nat) :
    ∀ input ∈ fileInputs ending seqNum blocks,
      isGetStatus input = true ∨ isGetState input = true ∨ isDnload input = true := by
  have hpolls : ∀ {inputs : List Input}, Waits inputs → ∀ input ∈ inputs,
      isGetStatus input = true ∨ isGetState input = true ∨ isDnload input = true :=
    fun hwaits input hinput => (hwaits.1 input hinput).imp_right .inl
  induction blocks generalizing seqNum with
  | nil =>
    intro input hinput
    rcases List.mem_cons.mp hinput with rfl | hinput
    · exact .inr (.inr rfl)
    rcases List.mem_append.mp hinput with hstate | hinput
    · exact .inr (.inl (ending.states_get input hstate))
    rcases List.mem_cons.mp hinput with rfl | hpoll
    · exact .inl ending.flush_get
    · exact hpolls ending.waits input hpoll
  | cons block blocks ih =>
    intro input hinput
    rcases List.mem_cons.mp hinput with rfl | hinput
    · exact .inr (.inr rfl)
    rcases List.mem_append.mp hinput with hpoll | hrest
    · exact hpolls block.waits input hpoll
    · exact ih _ input hrest

/-- The gadget that has a block in the buffer of the endpoint. -/
def Gadget.received (g : Gadget) (seqNum : Nat) (data : List UInt8) : Gadget :=
  { g with state := if data.length = 0 then .dfuManifestSync else .dfuDnloadSync
           blkSeqNum := seqNum }

/-- A block is written before the next request is answered. -/
theorem step_dnload {area : Area} (harea : s.areas[g.altsetting]? = some area)
    {seqNum : Nat} {data : List UInt8} {call : Call} (hfits : data.length ≤ USB_BUFSIZ)
    (hstate : g.state = .dfuIdle ∧ data ≠ [] ∨ g.state = .dfuDnloadIdle) {dev : Device}
    {dfu : Entity} {ok : Bool}
    (hwrite : dfuWrite s.config (.raw area) call g.dev (g.entities g.altsetting) data seqNum =
      some (dev, dfu, ok)) :
    step s g (dnloadInput seqNum data call) =
      some (settle (g.received seqNum data) dev dfu ok, .bytes []) := by
  have hfn : dfuStateFn s g ⟨.dnload, seqNum, data.length⟩ call =
      some (g.received seqNum data, .bytes [], .dnloadRequestComplete) := by
    rcases hstate with ⟨hidle, hne⟩ | hnext
    · have hlen : data.length ≠ 0 := fun h => hne (List.length_eq_zero_iff.mp h)
      simp only [dfuStateFn, hidle, stateDfuIdle, if_neg hlen, handleDnload, Gadget.received]
    · simp only [dfuStateFn, hnext, stateDfuDnloadIdle, handleDnload, Gadget.received]
      split <;> rfl
  have hcomplete : dnloadRequestComplete s (g.received seqNum data) call data =
      some (settle (g.received seqNum data) dev dfu ok) := by
    rw [dnloadRequestComplete, show s.areas[(g.received seqNum data).altsetting]? = _ from harea]
    exact (congrArg (Option.bind · _) hwrite).trans rfl
  simp only [step, dnloadInput, dfuHandle, hfn, Option.bind_eq_bind, Option.bind_some,
    if_neg (Nat.not_lt.mpr hfits), Ptr.bytes_ofList, hcomplete]
  rfl

/-- The empty block at the end does what the flush would do. -/
theorem dfuWrite_empty {config : Config} {area : Area} {dev : Device} {dfu : Entity}
    (h : Ready config area dev dfu) (call flush : Call)
    (hsame : flush.outcome 0 = call.outcome 1) :
    ∃ dev₁ dfu₁ dev₂ dfu₂ ok,
      dfuWrite config (.raw area) call dev dfu [] dfu.seqNum = some (dev₁, dfu₁, ok) ∧
      dfuFlush config (.raw area) flush dev dfu = some (dev₂, dfu₂, ok) ∧
      dev₂.disk = dev₁.disk := by
  have hroom := h.room
  have hfill := h.fill
  rw [dfuWrite, startWrite, if_pos h.inited]
  simp only [ne_eq, not_true_eq_false, if_false, drainIf, putBlock, List.length_nil, Nat.add_zero,
    gt_iff_lt, hroom, Nat.not_lt.mpr hfill, decide_false, Bool.false_eq_true, false_and,
    Ptr.write_zero, true_or, decide_true, if_true, dfuFlush, dfuWriteBufferDrain, h.start, hsame]
  by_cases hzero : dfu.fill = 0
  · simp only [if_pos hzero, Option.bind_eq_bind, Option.bind_some]
    exact ⟨_, _, _, _, true, rfl, rfl, rfl⟩
  · simp only [if_neg hzero, Option.bind_eq_bind, Option.bind_some]
    cases hok : (writeMedium config dev dfu.offset dfu.fill (call.outcome 1) (.raw area)).2.2 with
    | true => exact ⟨_, _, _, _, true, rfl, rfl, rfl⟩
    | false => exact ⟨_, _, _, _, false, rfl, rfl, rfl⟩

/-- What the host learns at the end, and the medium then, are those of the calls. -/
def Ends (g' : Gadget) (result : Option (Device × Entity × Bool)) : Prop :=
  ∃ dev dfu ok, result = some (dev, dfu, ok) ∧ g'.dev.disk = dev.disk ∧
    (ok = true → g'.state = .dfuIdle ∧ g'.status = .ok) ∧
    (ok = false → g'.state = .dfuError ∧ g'.status = .errUnknown)

/-- After a failure the gadget ignores the rest. -/
theorem after_settle_failed {dev : Device} {dfu : Entity} (h : Steady s (settle g dev dfu false))
    (hfits : Fits s) {inputs : List Input} (hinputs : ∀ input ∈ inputs, isGetStatus input = true ∨
      isGetState input = true ∨ isDnload input = true) {result : Option (Device × Entity × Bool)}
    {dev' : Device} {dfu' : Entity} (hresult : result = some (dev', dfu', false))
    (hdisk : dev'.disk = dev.disk) :
    ∃ g', after s (settle g dev dfu false) inputs = some g' ∧ Ends g' result :=
  ⟨_, after_error h hfits rfl hinputs, dev', dfu', false, hresult, hdisk.symm, by simp,
    fun _ => ⟨rfl, rfl⟩⟩

section File

variable {area : Area} {seqNum : Nat}

theorem Steady.settle (h : Steady s g) {dev : Device} {dfu : Entity} (ok : Bool)
    (htransfer : Transfer s.config dev dfu) (data : List UInt8) :
    Steady s (settle (g.received seqNum data) dev dfu ok) := by
  cases ok <;> exact h.update htransfer rfl rfl rfl

theorem after_states (hlegal : Legal g.state) {inputs : List Input}
    (hstates : ∀ input ∈ inputs, isGetState input = true) : after s g inputs = some g := by
  induction inputs with
  | nil => rfl
  | cons input inputs ih =>
    obtain ⟨reply, hstep⟩ := @step_getState s g hlegal input (hstates input List.mem_cons_self)
    rw [after_cons, hstep, Option.bind_some,
      ih fun i hi => hstates i (List.mem_cons_of_mem _ hi)]

/-- The poll that lets the gadget flush the entity. -/
theorem step_flush (h : Steady s g) (hfits : Fits s)
    (harea : s.areas[g.altsetting]? = some area) (hsync : g.state = .dfuManifestSync)
    (hfill : (g.entities g.altsetting).fill = 0) {input : Input}
    (hinput : isGetStatus input = true) :
    ∃ g' reply, step s g input = some (g', reply) ∧ Steady s g' ∧ g'.dev.disk = g.dev.disk ∧
      g'.state = .dfuManifest ∧ g'.status = g.status := by
  cases input with
  | setAlt alt => cases hinput
  | request ctrl data call =>
    have hctrl : ctrl.bRequest = .getStatus := of_decide_eq_true hinput
    obtain ⟨bs, hbs⟩ := h.handleGetstatus hfits .dfuManifest
    have htransfer : Transfer s.config { g.dev with live := none }
        (dfuWriteTransactionCleanup g.dev (g.entities g.altsetting)).2 :=
      .inl ⟨⟨rfl, rfl, rfl⟩, h.current.bufSize⟩
    simp only [step, dfuHandle, dfuStateFn, hsync, stateDfuManifestSync, hctrl, hbs,
      Option.bind_eq_bind, Option.bind_some, dnloadRequestFlush, harea, dfuFlush_drained hfill,
      Option.pure_def]
    exact ⟨_, _, rfl, h.update htransfer rfl rfl rfl, rfl, rfl, rfl⟩

theorem after_ending (h : Steady s g) (hfits : Fits s)
    (harea : s.areas[g.altsetting]? = some area) (hstate : g.state = .dfuDnloadIdle)
    (hstatus : g.status = .ok)
    (hready : Ready s.config area g.dev (g.entities g.altsetting)) (ending : Ending) (flush : Call)
    (hsame : flush.outcome 0 = ending.call.outcome 1) :
    ∃ g', after s g (fileInputs ending (g.entities g.altsetting).seqNum []) = some g' ∧
      Ends g' (download s.config (.raw area) (g.entities g.altsetting).seqNum [] flush g.dev
        (g.entities g.altsetting)) := by
  obtain ⟨dev₁, dfu₁, dev₂, dfu₂, ok, hwrite, hflush, hdisk⟩ :=
    dfuWrite_empty hready ending.call flush hsame
  obtain ⟨dev', dfu', ok', hwrite', htransfer⟩ := @dfuWrite_defined s.config area _ _ h.current
    ending.call [] (g.entities g.altsetting).seqNum
  obtain ⟨rfl, rfl, rfl⟩ : dev' = dev₁ ∧ dfu' = dfu₁ ∧ ok' = ok := by
    simpa using hwrite'.symm.trans hwrite
  have hstep := step_dnload harea (Nat.zero_le _) (.inr hstate) hwrite
  have hsteady : Steady s
      (settle (g.received (g.entities g.altsetting).seqNum []) dev' dfu' ok') :=
    h.settle ok' htransfer []
  have hresult : download s.config (.raw area) (g.entities g.altsetting).seqNum [] flush g.dev
      (g.entities g.altsetting) = some (dev₂, dfu₂, ok') := by
    simp only [download, writeBlocks, if_true, hflush]
  rw [fileInputs, after_cons, hstep, Option.bind_some]
  cases ok' with
  | false =>
    refine after_settle_failed hsteady hfits (fun input hinput => ?_) hresult hdisk
    exact fileInputs_requests ending [] 0 input (List.mem_cons_of_mem _ hinput)
  | true =>
    have hfill : dfu'.fill = 0 :=
      (dfuWrite_keeps ⟨hready.dvd, hready.le⟩ ending.call [] _ _ _ _ hwrite).2.2 rfl rfl
    have hdrained : ((settle (g.received (g.entities g.altsetting).seqNum []) dev' dfu'
        true).entities g.altsetting).fill = 0 := by
      simp only [settle, if_true, Gadget.received, Function.update_self]
      exact hfill
    obtain ⟨g', reply, hstep', hsteady', hdisk', hmanifest, hstatus'⟩ :=
      step_flush hsteady hfits harea rfl hdrained ending.flush_get
    have hlegal : Legal (settle (g.received (g.entities g.altsetting).seqNum []) dev' dfu'
        true).state := trivial
    refine ⟨{ g' with state := .dfuIdle, blkSeqNum := 0 }, ?_, dev₂, dfu₂, true, hresult, ?_,
      fun _ => ⟨rfl, hstatus'.trans hstatus⟩, by simp⟩
    · rw [after_append, after_states hlegal ending.states_get, Option.bind_some, after_cons,
        hstep', Option.bind_some]
      exact after_manifest hsteady' hfits hmanifest ending.waits
    · exact hdisk'.trans hdisk.symm

/-- The next block may have this number. -/
def Starts (config : Config) (area : Area) (seqNum : Nat) (dev : Device) (dfu : Entity) : Prop :=
  Ready config area dev dfu ∧ dfu.seqNum = seqNum ∨ Idle dev dfu ∧ seqNum = 0

theorem Starts.dfuWrite {config : Config} {dev dev' : Device} {dfu dfu' : Entity}
    (h : Starts config area seqNum dev dfu) {call : Call} {data : List UInt8} (hne : data ≠ [])
    (hle : data.length ≤ config.bufsiz)
    (hwrite : dfuWrite config (.raw area) call dev dfu data seqNum = some (dev', dfu', true)) :
    Ready config area dev' dfu' ∧ dfu'.seqNum = (seqNum + 1) % 65536 := by
  have hlen : data.length ≠ 0 := fun h => hne (List.length_eq_zero_iff.mp h)
  have hready : ∀ {dev dfu}, Ready config area dev dfu →
      Dfu.dfuWrite config (.raw area) call dev dfu data dfu.seqNum = some (dev', dfu', true) →
      Ready config area dev' dfu' ∧ dfu'.seqNum = (dfu.seqNum + 1) % 65536 := by
    intro dev dfu h hwrite
    obtain ⟨dev'', dfu'', ok, hrun, hok, -⟩ := dfuWrite_simulates h call hlen hle
    obtain ⟨rfl, rfl, rfl⟩ : dev'' = dev' ∧ dfu'' = dfu' ∧ ok = true := by
      simpa using hrun.symm.trans hwrite
    obtain ⟨-, hready', -, hseq⟩ := hok rfl
    exact ⟨hready', hseq⟩
  rcases h with ⟨h, rfl⟩ | ⟨hidle, rfl⟩
  · exact hready h hwrite
  · have hstart := @startWrite_idle config dev dfu hidle call
    by_cases halloc : config.bufsiz ≤ config.mallocLen ∧ call.allocOk = true
    · rw [if_pos halloc] at hstart
      have hopen : Ready config area { dev with
            buf := call.garbage, live := some dev.next, next := dev.next + 1,
            bufSize := config.bufsiz }
          { dfu with offset := 0, seqNum := 0, start := some dev.next, fill := 0,
                     room := config.bufsiz, inited := true } :=
        ⟨rfl, rfl, rfl, Nat.zero_le _, Nat.dvd_zero _, Nat.zero_le _⟩
      refine hready hopen ?_
      rw [← hwrite, Dfu.dfuWrite, Dfu.dfuWrite, hstart, startWrite, if_pos rfl]
    · rw [if_neg halloc] at hstart
      rw [Dfu.dfuWrite, hstart] at hwrite
      cases hwrite

/-- The host that sends the blocks, and then an empty one, learns what the calls return. -/
theorem after_file (h : Steady s g) (hfits : Fits s) (hroom : USB_BUFSIZ ≤ s.config.bufsiz)
    (harea : s.areas[g.altsetting]? = some area) (hstatus : g.status = .ok) (ending : Ending)
    (flush : Call) (hsame : flush.outcome 0 = ending.call.outcome 1) (blocks : List Block)
    (hstate : g.state = .dfuIdle ∧ blocks ≠ [] ∨ g.state = .dfuDnloadIdle)
    (hready : blocks = [] → Ready s.config area g.dev (g.entities g.altsetting) ∧
      (g.entities g.altsetting).seqNum = seqNum)
    (hstart : Starts s.config area seqNum g.dev (g.entities g.altsetting)) :
    ∃ g', after s g (fileInputs ending seqNum blocks) = some g' ∧
      Ends g' (download s.config (.raw area) seqNum (blocks.map fun b => (b.call, b.data)) flush
        g.dev (g.entities g.altsetting)) := by
  induction blocks generalizing g seqNum with
  | nil =>
    obtain ⟨hready', rfl⟩ := hready rfl
    have hnext := hstate.resolve_left (by simp)
    exact after_ending h hfits harea hnext hstatus hready' ending flush hsame
  | cons block blocks ih =>
    obtain ⟨dev, dfu, ok, hwrite, htransfer⟩ := @dfuWrite_defined s.config area _ _ h.current
      block.call block.data seqNum
    have hlen : block.data.length ≠ 0 := fun h => block.nonempty (List.length_eq_zero_iff.mp h)
    have hstep := step_dnload harea block.fits
      (hstate.imp_left fun hidle => ⟨hidle.1, block.nonempty⟩) hwrite
    have hsteady : Steady s (settle (g.received seqNum block.data) dev dfu ok) :=
      h.settle ok htransfer block.data
    have hresult : download s.config (.raw area) seqNum
          ((block :: blocks).map fun b => (b.call, b.data)) flush g.dev
          (g.entities g.altsetting) =
        if ok then download s.config (.raw area) ((seqNum + 1) % 65536)
          (blocks.map fun b => (b.call, b.data)) flush dev dfu
        else some (dev, dfu, false) := by
      simp only [List.map_cons, download, writeBlocks, hwrite]
      cases ok <;> rfl
    rw [fileInputs, after_cons, hstep, Option.bind_some]
    cases ok with
    | false =>
      refine after_settle_failed hsteady hfits (fun input hinput => ?_) hresult rfl
      exact fileInputs_requests ending (block :: blocks) seqNum input
        (List.mem_cons_of_mem _ hinput)
    | true =>
      have hsync : (settle (g.received seqNum block.data) dev dfu true).state =
          .dfuDnloadSync := if_neg hlen
      obtain ⟨hready', hseq⟩ := hstart.dfuWrite block.nonempty (block.fits.trans hroom) hwrite
      obtain ⟨g₂, hg₂⟩ : ∃ g₂ : Gadget, { settle (g.received seqNum block.data) dev dfu true with
        state := .dfuDnloadIdle } = g₂ := ⟨_, rfl⟩
      have hpolled : after s (settle (g.received seqNum block.data) dev dfu true)
          block.polls = some g₂ := by
        rw [after_polls hsteady hfits (by rw [hsync]; trivial) block.waits.1,
          if_pos block.waits.2, hsync, ← hg₂]
        rfl
      have hsteady₂ : Steady s g₂ := hg₂ ▸ hsteady.of_state _
      have hstatus₂ : g₂.status = .ok := by rw [← hg₂]; exact hstatus
      have hstate₂ : g₂.state = .dfuDnloadIdle := by rw [← hg₂]
      have harea₂ : s.areas[g₂.altsetting]? = some area := by rw [← hg₂]; exact harea
      have hdev₂ : g₂.dev = dev := by rw [← hg₂]; rfl
      have hcurrent₂ : g₂.entities g₂.altsetting = dfu := by
        rw [← hg₂]
        exact Function.update_self ..
      have hrest := @ih g₂ ((seqNum + 1) % 65536) hsteady₂ harea₂ hstatus₂ (.inr hstate₂)
      rw [hdev₂, hcurrent₂] at hrest
      rw [hresult, if_pos rfl, after_append, hpolled, Option.bind_some]
      exact hrest (fun _ => ⟨hready', hseq⟩) (.inl ⟨hready', hseq⟩)

/-- The file that the blocks make up. -/
def fileData (blocks : List Block) : List UInt8 := (blocks.map Block.data).flatten

def fileSizes (blocks : List Block) : List Nat := blocks.map fun b => b.data.length

theorem sum_fileSizes (blocks : List Block) : (fileSizes blocks).sum = (fileData blocks).length := by
  rw [fileData, List.length_flatten, List.map_map]
  rfl

theorem fileCalls {calls : List (Call × List UInt8)} {blocks : List Block}
    (hcalls : (blocks.map fun b => (b.call, b.data)) = calls) :
    calls.map (fun b => b.2.length) = fileSizes blocks ∧
      (calls.map Prod.snd).flatten = fileData blocks ∧
      ∀ b ∈ calls, b.2.length ≠ 0 ∧ b.2.length ≤ USB_BUFSIZ := by
  subst hcalls
  refine ⟨by rw [List.map_map]; rfl, by rw [List.map_map]; rfl, fun b hb => ?_⟩
  obtain ⟨block, -, rfl⟩ := List.mem_map.mp hb
  exact ⟨fun h => block.nonempty (List.length_eq_zero_iff.mp h), block.fits⟩

/-- A download in which nothing goes wrong. -/
theorem download_works {config : Config} {dev dev' : Device} {dfu dfu' : Entity} {ok : Bool}
    (h : Idle dev dfu) {calls : List (Call × List UInt8)} {flush : Call}
    (hcalls : ∀ b ∈ calls, b.2.length ≠ 0 ∧ b.2.length ≤ config.bufsiz)
    (hresult : download config (.raw area) 0 calls flush dev dfu = some (dev', dfu', ok))
    (hmem : config.bufsiz ≤ config.mallocLen)
    (hworks : ∀ b ∈ calls, b.1.allocOk = true ∧ b.1.Works) (hflush : flush.Works)
    (htaken : taken area (drains config.bufsiz 0 (calls.map fun b => b.2.length)) ≤ area.size) :
    ok = true := by
  obtain ⟨dev₁, dfu₁, ok₁, hrun, -, hdone⟩ := @download_idle config area _ _ h calls flush hcalls
  obtain ⟨rfl, rfl, rfl⟩ : dev₁ = dev' ∧ dfu₁ = dfu' ∧ ok₁ = ok := by
    simpa using hrun.symm.trans hresult
  have halloc : AllocWorks config calls := by
    cases calls with
    | nil => trivial
    | cons b calls => exact ⟨hmem, (hworks b List.mem_cons_self).1⟩
  have hin : InArea area (freshWriter dev.disk (firstGarbage calls))
      (events config.bufsiz 0 (calls.map Prod.snd)) := by
    refine (inArea_iff _ (Nat.zero_le _)).mpr ?_
    simp only [freshWriter, Nat.zero_add]
    rwa [drainSizes_blocks rfl]
  exact hdone halloc (fun b hb => (hworks b hb).2) hflush hin

/-- A file that is sent block by block, as the host of `f_dfu.c` does it: either the gadget ends
in `dfuIDLE`, and the area begins with the file, or the host learns of the failure. It does not
fail when there is memory, the medium works, and the area is large enough. -/
theorem file_stored (h : Steady s g) (hfits : Fits s) (hroom : USB_BUFSIZ ≤ s.config.bufsiz)
    (harea : s.areas[g.altsetting]? = some area) (hidle : g.state = .dfuIdle)
    (hstatus : g.status = .ok) (hdone : (g.entities g.altsetting).inited = false)
    (ending : Ending) {blocks : List Block} (hne : blocks ≠ [])
    (haligned : DownloadAligned s.config area (fileSizes blocks)) :
    ∃ g', after s g (fileInputs ending 0 blocks) = some g' ∧
      (g'.state = .dfuIdle ∧ g'.status = .ok ∧
          (g'.dev.disk.add area.start).bytes (fileData blocks).length = fileData blocks ∧
          (∀ a, a < area.start ∨ area.start + area.size ≤ a → g'.dev.disk a = g.dev.disk a) ∨
        g'.state = .dfuError ∧ g'.status = .errUnknown) ∧
      (s.config.bufsiz ≤ s.config.mallocLen →
        (∀ b ∈ blocks, b.call.allocOk = true ∧ b.call.Works) → ending.call.Works →
        taken area (drains s.config.bufsiz 0 (fileSizes blocks)) ≤ area.size →
        g'.state = .dfuIdle) := by
  obtain ⟨calls, hcalls⟩ : ∃ calls, (blocks.map fun b => (b.call, b.data)) = calls := ⟨_, rfl⟩
  obtain ⟨flush, hflush⟩ : ∃ flush : Call, ⟨true, fun _ => 0, fun _ => ending.call.outcome 1⟩ =
    flush := ⟨_, rfl⟩
  have hcurrent := h.current.idle hdone
  obtain ⟨hsizes, hdata, hlengths⟩ := fileCalls hcalls
  have hblocks : ∀ b ∈ calls, b.2.length ≠ 0 ∧ b.2.length ≤ s.config.bufsiz := fun b hb =>
    ⟨(hlengths b hb).1, (hlengths b hb).2.trans hroom⟩
  have hfile : ∀ n ∈ fileSizes blocks, n ≠ 0 ∧ n ≤ s.config.bufsiz := by
    intro n hn
    rw [← hsizes] at hn
    obtain ⟨b, hb, rfl⟩ := List.mem_map.mp hn
    exact hblocks b hb
  obtain ⟨g', hafter, dev, dfu, ok, hresult, hdisk, hgood, hbad⟩ := @after_file s g area 0 h hfits
    hroom harea hstatus ending flush (by rw [← hflush]) blocks (.inl ⟨hidle, hne⟩)
    (fun h => absurd h hne) (.inr ⟨hcurrent, rfl⟩)
  rw [hcalls] at hresult
  obtain ⟨dev₁, dfu₁, ok₁, hrun, hstored⟩ := downloadStores_of_aligned hfile haligned _ _ calls
    flush hcurrent hsizes
  obtain ⟨rfl, rfl, rfl⟩ : dev₁ = dev ∧ dfu₁ = dfu ∧ ok₁ = ok := by
    simpa using hrun.symm.trans hresult
  refine ⟨g', hafter, ?_, fun hmem hworks hlast htaken => ?_⟩
  · cases ok₁ with
    | false => exact .inr (hbad rfl)
    | true =>
      obtain ⟨hstate', hstatus'⟩ := hgood rfl
      obtain ⟨hbytes, houtside⟩ := hstored rfl
      rw [hdata, sum_fileSizes, ← hdisk] at hbytes
      exact .inl ⟨hstate', hstatus', hbytes, fun a ha => by rw [hdisk]; exact houtside a ha⟩
  · have hcall : ∀ b ∈ calls, b.1.allocOk = true ∧ b.1.Works := by
      intro b hb
      rw [← hcalls] at hb
      obtain ⟨block, hblock, rfl⟩ := List.mem_map.mp hb
      exact hworks block hblock
    have hflushes : flush.Works := by
      intro n
      rw [← hflush]
      exact hlast 1
    rw [← hsizes] at htaken
    exact (hgood (download_works hcurrent hblocks hresult hmem hcall hflushes htaken)).1

/-- Three bytes. -/
def smallBlock : Block := ⟨[1, 2, 3], goodCall, [statusPoll], by simp, by decide,
  ⟨fun _ h => .inl (List.mem_singleton.mp h ▸ rfl), rfl⟩⟩

def smallEnding : Ending := ⟨goodCall, [], statusPoll, [statusPoll], by simp, rfl,
  ⟨fun _ h => .inl (List.mem_singleton.mp h ▸ rfl), rfl⟩⟩

theorem file_stored_small :
    ∃ g', after smallSetup (bound smallSetup fun _ => 0) (fileInputs smallEnding 0 [smallBlock]) =
        some g' ∧ g'.state = .dfuIdle ∧
      (g'.dev.disk.add smallArea.start).bytes 3 = [1, 2, 3] := by
  obtain ⟨g', hafter, hend, hworks⟩ := @file_stored smallSetup (bound smallSetup fun _ => 0)
    smallArea (steady_bound (by simp [smallSetup]) _) smallSetup_fits (by decide) rfl rfl rfl rfl
    smallEnding [smallBlock] (by simp) (.inr (.inl (by decide)))
  have hidle := hworks (by decide) (fun b hb => by
    obtain rfl := List.mem_singleton.mp hb
    exact ⟨rfl, fun _ => rfl⟩) (fun _ => rfl) (by decide)
  refine ⟨g', hafter, hidle, ?_⟩
  rcases hend with ⟨-, -, hbytes, -⟩ | ⟨herror, -⟩
  · exact hbytes
  · rw [hidle] at herror
    cases herror

end File

end Hosts

end UBoot.Dfu
