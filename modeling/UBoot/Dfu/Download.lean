import UBoot.Dfu.Basic

/-!
# A download to a raw entity

The calls of `dfu_write` and the final `dfu_flush` put the blocks into the buffer and
drain it at points that only depend on the sizes of the blocks. Such a sequence of
events is what a successful download amounts to.
-/

namespace UBoot.Dfu

open Verification

/-! ### Calls -/

/-- The calls of `dfu_write` for the blocks of a file, while they succeed. -/
def writeBlocks (config : Config) (layout : Layout) :
    Nat → List (Call × List UInt8) → Device → Entity → Option (Device × Entity × Bool)
  | _, [], dev, dfu => some (dev, dfu, true)
  | seqNum, (call, data) :: blocks, dev, dfu =>
    match dfuWrite config layout call dev dfu data seqNum with
    | none => none
    | some (dev, dfu, ok) =>
      if ok then writeBlocks config layout ((seqNum + 1) % 65536) blocks dev dfu
      else some (dev, dfu, false)

/-- All blocks of a file, and the flush. -/
def download (config : Config) (layout : Layout) (seqNum : Nat) (blocks : List (Call × List UInt8))
    (flush : Call) (dev : Device) (dfu : Entity) : Option (Device × Entity × Bool) :=
  match writeBlocks config layout seqNum blocks dev dfu with
  | none => none
  | some (dev, dfu, ok) =>
    if ok then dfuFlush config layout flush dev dfu else some (dev, dfu, false)

/-! ### Events -/

/-- A block is put into the buffer, or the buffer is drained. -/
inductive Event where
  | put (data : List UInt8)
  | drain

/-- What the events change. -/
structure Writer where
  disk : Ptr
  buf : Ptr
  offset : Nat
  fill : Nat

def Writer.put (w : Writer) (data : List UInt8) : Writer :=
  { w with buf := w.buf.write w.fill data.length (Ptr.ofList data), fill := w.fill + data.length }

def Writer.drain (area : Area) (w : Writer) : Writer :=
  { w with disk := w.disk.write (area.start + w.offset) (area.align w.fill) w.buf
           offset := w.offset + area.align w.fill
           fill := 0 }

def Writer.apply (area : Area) (w : Writer) : Event → Writer
  | .put data => w.put data
  | .drain => w.drain area

def Writer.run (area : Area) (w : Writer) (events : List Event) : Writer :=
  events.foldl (Writer.apply area) w

/-- Every drain stays in the area. -/
def InArea (area : Area) : Writer → List Event → Prop
  | _, [] => True
  | w, .put data :: events => InArea area (w.put data) events
  | w, .drain :: events =>
    w.offset + area.align w.fill ≤ area.size ∧ InArea area (w.drain area) events

/-- An empty buffer is not drained. -/
def drainEvents (fill : Nat) : List Event := if fill = 0 then [] else [.drain]

/-- The events of one call of `dfu_write`. -/
def blockEvents (room fill : Nat) (data : List UInt8) : List Event :=
  let kept := if fill + data.length > room then 0 else fill
  (if fill + data.length > room then drainEvents fill else []) ++ .put data ::
    if kept + data.length + data.length > room then [.drain] else []

/-- The bytes in the buffer after the call. -/
def blockFill (room fill size : Nat) : Nat :=
  let kept := if fill + size > room then 0 else fill
  if kept + size + size > room then 0 else kept + size

def events (room : Nat) : Nat → List (List UInt8) → List Event
  | fill, [] => drainEvents fill
  | fill, data :: blocks =>
    blockEvents room fill data ++ events room (blockFill room fill data.length) blocks

section Events

variable {area : Area} {w : Writer}

@[simp] theorem run_nil : w.run area [] = w := rfl

@[simp] theorem run_put (data : List UInt8) (events : List Event) :
    w.run area (.put data :: events) = (w.put data).run area events := rfl

@[simp] theorem run_drain (events : List Event) :
    w.run area (.drain :: events) = (w.drain area).run area events := rfl

theorem run_append (first second : List Event) :
    w.run area (first ++ second) = (w.run area first).run area second := List.foldl_append

theorem inArea_append (first second : List Event) :
    InArea area w (first ++ second) ↔
      InArea area w first ∧ InArea area (w.run area first) second := by
  induction first generalizing w with
  | nil => simp [InArea]
  | cons event first ih =>
    cases event with
    | put data => simp only [List.cons_append, InArea, run_put, ih]
    | drain => simp only [List.cons_append, InArea, run_drain, ih, and_assoc]

end Events

/-! ### The medium -/

section Medium

variable {area : Area} {offset len : Nat}

theorem Area.blk_pos (area : Area) : 0 < area.blk := Nat.two_pow_pos _

theorem Area.dvd_align (area : Area) (len : Nat) : area.blk ∣ area.align len :=
  Nat.dvd_mul_left _ _

theorem Area.le_align (area : Area) (len : Nat) : len ≤ area.align len := by
  have hpos := area.blk_pos
  have hdiv := Nat.div_add_mod (len + (area.blk - 1)) area.blk
  have hmod := Nat.mod_lt (len + (area.blk - 1)) hpos
  rw [Area.align, Nat.mul_comm]
  omega

theorem Area.align_of_dvd (h : area.blk ∣ len) : area.align len = len := by
  obtain ⟨n, rfl⟩ := h
  have hpos := area.blk_pos
  rw [Area.align, Nat.mul_add_div hpos, Nat.div_eq_of_lt (Nat.sub_lt hpos Nat.one_pos),
    Nat.add_zero, Nat.mul_comm]

/-- The request is refused exactly when it leaves the area. -/
theorem blockRange_eq (hoff : area.blk ∣ offset) (hle : offset ≤ area.size)
    (hlen : area.blk ∣ len) :
    blockRange area offset len =
      if offset + len ≤ area.size then some (area.lbaStart + offset / area.blk, len / area.blk)
      else none := by
  obtain ⟨o, rfl⟩ := hoff
  obtain ⟨n, rfl⟩ := hlen
  have hpos := area.blk_pos
  have hon := area.onDevice
  have hlt := area.blocks_lt
  have ho : o ≤ area.lbaSize := by
    rw [Area.size, Nat.mul_comm area.lbaSize] at hle
    exact Nat.le_of_mul_le_mul_left hle hpos
  have hfit : area.blk * o + area.blk * n ≤ area.size ↔ o + n ≤ area.lbaSize := by
    rw [← Nat.mul_add, Area.size, Nat.mul_comm area.lbaSize]
    exact Nat.mul_le_mul_left_iff hpos
  simp only [blockRange, Nat.mul_div_cancel_left _ hpos, hfit]
  rw [Nat.mod_eq_of_lt (show o < 4294967296 by omega),
    Nat.mod_eq_of_lt (show area.lbaStart + o < 4294967296 by omega),
    Nat.mod_eq_of_lt (show area.lbaStart + area.lbaSize < 4294967296 by omega)]
  by_cases hin : o + n ≤ area.lbaSize
  · rw [if_neg, if_neg (by omega), if_pos hin]
    rw [Nat.mod_eq_of_lt (by omega)]
    omega
  · rw [if_neg hin]
    split
    · rfl
    · next hcheck =>
        -- the sum has wrapped, so the request leaves the device
        have hwrap : 4294967296 ≤ area.lbaStart + o + n := by
          by_contra hsmall
          rw [Nat.mod_eq_of_lt (by omega)] at hcheck
          omega
        rw [if_pos (by omega)]

theorem blockStart_eq (hoff : area.blk ∣ offset) :
    (area.lbaStart + offset / area.blk) * area.blk = area.start + offset := by
  rw [Nat.add_mul, Nat.div_mul_cancel hoff, Area.start]

end Medium

/-! ### The calls bring the events about -/

/-- A transfer to the area is under way. -/
structure Ready (config : Config) (area : Area) (dev : Device) (dfu : Entity) : Prop where
  inited : dfu.inited = true
  start : dfu.start = dev.live
  room : dfu.room = config.bufsiz
  fill : dfu.fill ≤ config.bufsiz
  dvd : area.blk ∣ dfu.offset
  le : dfu.offset ≤ area.size

/-- The part of the state that the events change. -/
def writer (dev : Device) (dfu : Entity) : Writer := ⟨dev.disk, dev.buf, dfu.offset, dfu.fill⟩

/-- A call succeeds only if its events stay in the area, and brings them about then; it
does succeed when `done` holds of the medium. -/
def Simulates (config : Config) (area : Area) (w : Writer) (events : List Event) (done : Prop)
    (seqNum : Nat) (result : Option (Device × Entity × Bool)) : Prop :=
  ∃ dev dfu ok, result = some (dev, dfu, ok) ∧
    (ok = true → InArea area w events ∧ Ready config area dev dfu ∧
      writer dev dfu = w.run area events ∧ dfu.seqNum = seqNum) ∧
    (done → InArea area w events → ok = true)

section Simulation

variable {config : Config} {area : Area} {dev : Device} {dfu : Entity}

theorem drain_simulates (h : Ready config area dev dfu) (outcome : Outcome) :
    Simulates config area (writer dev dfu) (drainEvents dfu.fill) (outcome = .done) dfu.seqNum
      (dfuWriteBufferDrain config (.raw area) outcome dev dfu) := by
  by_cases hfill : dfu.fill = 0
  · refine ⟨dev, dfu, true, by rw [dfuWriteBufferDrain, if_pos hfill], fun _ => ?_, fun _ _ => rfl⟩
    rw [drainEvents, if_pos hfill]
    exact ⟨trivial, h, rfl, rfl⟩
  · have hin : InArea area (writer dev dfu) [.drain] ↔
        dfu.offset + area.align dfu.fill ≤ area.size :=
      and_iff_left trivial
    rw [drainEvents, if_neg hfill]
    rw [dfuWriteBufferDrain, if_neg hfill, if_neg (not_not.mpr h.start)]
    simp only [writeMedium, mmcBlockWrite]
    rw [blockRange_eq h.dvd h.le (area.dvd_align _)]
    by_cases hfit : dfu.offset + area.align dfu.fill ≤ area.size
    · rw [if_pos hfit]
      cases outcome with
      | done =>
        refine ⟨_, _, true, rfl, fun _ => ⟨hin.mpr hfit, ?_, ?_, rfl⟩, fun _ _ => rfl⟩
        · exact ⟨h.inited, h.start, h.room, Nat.zero_le _, Nat.dvd_add h.dvd (area.dvd_align _),
            hfit⟩
        · simp only [writer, run_drain, run_nil, Writer.drain, blockStart_eq h.dvd]
      | failed n => exact ⟨_, _, false, rfl, by simp, by simp⟩
    · rw [if_neg hfit]
      exact ⟨_, _, false, rfl, by simp, fun _ hcontra => absurd (hin.mp hcontra) hfit⟩

/-- Draining if needed, and what follows. -/
theorem drainIf_simulates (h : Ready config area dev dfu) (needed : Bool) (outcome : Outcome)
    (events : List Event) (done : Prop) (seqNum : Nat)
    (next : Device → Entity → Option (Device × Entity × Bool))
    (hnext : ∀ dev' dfu', Ready config area dev' dfu' → dfu'.seqNum = dfu.seqNum →
      writer dev' dfu' =
        (writer dev dfu).run area (if needed then drainEvents dfu.fill else []) →
      Simulates config area (writer dev' dfu') events done seqNum (next dev' dfu')) :
    Simulates config area (writer dev dfu)
      ((if needed then drainEvents dfu.fill else []) ++ events) (outcome = .done ∧ done) seqNum
      (drainIf needed config (.raw area) outcome dev dfu next) := by
  cases needed with
  | false =>
    obtain ⟨dev', dfu', ok, hrun, hok, hdone⟩ := hnext dev dfu h rfl rfl
    exact ⟨dev', dfu', ok, hrun, hok, fun hd => hdone hd.2⟩
  | true =>
    obtain ⟨dev', dfu', ok, hdrain, hok, hdone⟩ := drain_simulates h outcome
    simp only [drainIf, if_true, hdrain] at hnext ⊢
    cases ok with
    | false =>
      refine ⟨_, _, false, rfl, by simp, fun hd hin => ?_⟩
      exact absurd (hdone hd.1 ((inArea_append _ _).mp hin).1) (by simp)
    | true =>
      obtain ⟨hin, hready, hw, hseq⟩ := hok rfl
      obtain ⟨dev'', dfu'', ok, hrun, hok, hdone'⟩ := hnext dev' dfu' hready hseq hw
      refine ⟨dev'', dfu'', ok, hrun, fun htrue => ?_, fun hd hall => ?_⟩
      · obtain ⟨hin', hready', hw', hseq'⟩ := hok htrue
        rw [hw] at hin' hw'
        exact ⟨(inArea_append _ _).mpr ⟨hin, hin'⟩, hready', by rw [hw', run_append], hseq'⟩
      · refine hdone' hd.2 ?_
        rw [hw]
        exact ((inArea_append _ _).mp hall).2

/-- The medium works in all operations of a call. -/
def Call.Works (call : Call) : Prop := ∀ n, call.outcome n = .done

theorem putBlock_simulates (h : Ready config area dev dfu) (outcome : Outcome)
    {data : List UInt8} (hpos : data.length ≠ 0)
    (hfit : dfu.fill + data.length ≤ config.bufsiz) :
    Simulates config area (writer dev dfu)
      (.put data :: if dfu.fill + data.length + data.length > config.bufsiz then [.drain] else [])
      (outcome = .done) dfu.seqNum
      (putBlock config (.raw area) outcome data dev dfu) := by
  have hroom := h.room
  have hready : Ready config area
      { dev with buf := dev.buf.write dfu.fill data.length (Ptr.ofList data) }
      { dfu with fill := dfu.fill + data.length } :=
    ⟨h.inited, h.start, h.room, hfit, h.dvd, h.le⟩
  obtain ⟨dev', dfu', ok, hrun, hok, hdone⟩ := drainIf_simulates hready
    (data.length = 0 ∨ dfu.fill + data.length + data.length > dfu.room) outcome [] True dfu.seqNum
    (fun dev dfu => some (dev, dfu, true))
    (fun dev' dfu' hready' hseq _ =>
      ⟨dev', dfu', true, rfl, fun _ => ⟨trivial, hready', rfl, hseq⟩, fun _ _ => rfl⟩)
  have hdrain : drainEvents (dfu.fill + data.length) = [.drain] := if_neg (by omega)
  have hevents : (if decide (data.length = 0 ∨
        dfu.fill + data.length + data.length > dfu.room) = true then
        drainEvents (dfu.fill + data.length) else []) ++ [] =
      if dfu.fill + data.length + data.length > config.bufsiz then [.drain] else [] := by
    rw [List.append_nil, hdrain, hroom]
    simp [hpos]
  rw [hevents] at hok hdone
  refine ⟨dev', dfu', ok, ?_, hok, fun hd => hdone ⟨hd, trivial⟩⟩
  rw [putBlock, if_neg (by omega), if_neg (by simp [h.start]), ← hrun]

theorem dfuWrite_simulates (h : Ready config area dev dfu) (call : Call) {data : List UInt8}
    (hpos : data.length ≠ 0) (hlen : data.length ≤ config.bufsiz) :
    Simulates config area (writer dev dfu) (blockEvents config.bufsiz dfu.fill data) call.Works
      ((dfu.seqNum + 1) % 65536)
      (dfuWrite config (.raw area) call dev dfu data dfu.seqNum) := by
  have hroom := h.room
  have hstart : startWrite config call dev dfu = some (dev, dfu) := by
    rw [startWrite, if_pos h.inited]
  have hready : Ready config area dev { dfu with seqNum := (dfu.seqNum + 1) % 65536 } :=
    ⟨h.inited, h.start, h.room, h.fill, h.dvd, h.le⟩
  rw [dfuWrite, hstart]
  simp only [ne_eq, not_true_eq_false, if_false]
  obtain ⟨kept, hkept⟩ : ∃ kept,
      (if dfu.fill + data.length > config.bufsiz then 0 else dfu.fill) = kept := ⟨_, rfl⟩
  have hfit : kept + data.length ≤ config.bufsiz := by
    rw [← hkept]
    split <;> omega
  obtain ⟨dev', dfu', ok, hrun, hok, hdone⟩ := drainIf_simulates hready
    (dfu.fill + data.length > dfu.room) (call.outcome 0)
    (.put data :: if kept + data.length + data.length > config.bufsiz then [.drain] else [])
    (call.outcome 1 = .done) ((dfu.seqNum + 1) % 65536)
    (putBlock config (.raw area) (call.outcome 1) data)
    (fun dev' dfu' hready' hseq hw => by
      have hfill : dfu'.fill = kept := by
        have := congrArg Writer.fill hw
        rw [hroom] at this
        simp only [decide_eq_true_eq] at this
        rw [show dfu'.fill = _ from this, ← hkept]
        split
        · next hover =>
            rw [drainEvents]
            split
            · next hzero => exact hzero
            · rfl
        · rfl
      have hput := putBlock_simulates hready' (call.outcome 1) hpos (by rw [hfill]; exact hfit)
      rw [hfill, hseq] at hput
      exact hput)
  have hevents : blockEvents config.bufsiz dfu.fill data =
      (if decide (dfu.fill + data.length > dfu.room) = true then drainEvents dfu.fill else []) ++
        .put data :: if kept + data.length + data.length > config.bufsiz then [.drain] else [] := by
    simp only [blockEvents, hkept, hroom, decide_eq_true_eq]
  rw [hevents]
  exact ⟨dev', dfu', ok, hrun, hok, fun hworks => hdone ⟨hworks 0, hworks 1⟩⟩

theorem run_blockEvents_fill {w : Writer} (room : Nat) {data : List UInt8} :
    (w.run area (blockEvents room w.fill data)).fill = blockFill room w.fill data.length := by
  have hdrain : (w.run area (drainEvents w.fill)).fill = 0 := by
    rw [drainEvents]
    split
    · next hzero => exact hzero
    · rfl
  rw [blockEvents, run_append, run_put, blockFill]
  by_cases hover : w.fill + data.length > room
  · simp only [if_pos hover]
    split
    · rfl
    · rw [run_nil, Writer.put, hdrain]
  · simp only [if_neg hover, run_nil]
    split
    · rfl
    · rfl

/-- The blocks and the flush, once a transfer is under way. -/
theorem download_ready (blocks : List (Call × List UInt8)) (flush : Call)
    (hblocks : ∀ b ∈ blocks, b.2.length ≠ 0 ∧ b.2.length ≤ config.bufsiz)
    (h : Ready config area dev dfu) :
    ∃ dev' dfu' ok, download config (.raw area) dfu.seqNum blocks flush dev dfu =
        some (dev', dfu', ok) ∧
      (ok = true →
        InArea area (writer dev dfu) (events config.bufsiz dfu.fill (blocks.map Prod.snd)) ∧
        dev'.disk =
          ((writer dev dfu).run area (events config.bufsiz dfu.fill (blocks.map Prod.snd))).disk) ∧
      ((∀ b ∈ blocks, b.1.Works) → flush.Works →
        InArea area (writer dev dfu) (events config.bufsiz dfu.fill (blocks.map Prod.snd)) →
        ok = true) := by
  induction blocks generalizing dev dfu with
  | nil =>
    obtain ⟨dev', dfu', ok, hrun, hok, hdone⟩ := drain_simulates h (flush.outcome 0)
    simp only [download, writeBlocks, if_true, dfuFlush, hrun, Option.bind_eq_bind,
      Option.bind_some, List.map_nil, events]
    cases ok with
    | false =>
      exact ⟨dev', dfu', false, rfl, by simp, fun _ hflush => hdone (hflush 0)⟩
    | true =>
      obtain ⟨hin, -, hw, -⟩ := hok rfl
      refine ⟨_, _, true, rfl, fun _ => ⟨hin, ?_⟩, fun _ _ _ => rfl⟩
      exact congrArg Writer.disk hw
  | cons block blocks ih =>
    obtain ⟨call, data⟩ := block
    obtain ⟨hpos, hlen⟩ := hblocks _ List.mem_cons_self
    obtain ⟨dev', dfu', ok, hrun, hok, hdone⟩ := dfuWrite_simulates h call hpos hlen
    have hstep : download config (.raw area) dfu.seqNum ((call, data) :: blocks) flush dev dfu =
        if ok then download config (.raw area) ((dfu.seqNum + 1) % 65536) blocks flush dev' dfu'
        else some (dev', dfu', false) := by
      simp only [download, writeBlocks, hrun]
      cases ok <;> rfl
    rw [hstep]
    simp only [List.map_cons, events]
    cases ok with
    | false =>
      refine ⟨dev', dfu', false, rfl, by simp, fun hworks _ hin => ?_⟩
      exact hdone (hworks _ List.mem_cons_self) ((inArea_append _ _).mp hin).1
    | true =>
      obtain ⟨hin, hready, hw, hseq⟩ := hok rfl
      obtain ⟨dev'', dfu'', ok, hrun', hok', hdone'⟩ :=
        ih (fun b hb => hblocks b (List.mem_cons_of_mem _ hb)) hready
      have hfill : dfu'.fill = blockFill config.bufsiz dfu.fill data.length := by
        have := congrArg Writer.fill hw
        rw [show dfu'.fill = _ from this]
        exact run_blockEvents_fill config.bufsiz
      rw [hseq] at hrun'
      rw [hw, hfill] at hok' hdone'
      refine ⟨dev'', dfu'', ok, hrun', fun htrue => ?_, fun hworks hflush hall => ?_⟩
      · obtain ⟨hin', hdisk⟩ := hok' htrue
        exact ⟨(inArea_append _ _).mpr ⟨hin, hin'⟩, by rw [hdisk, run_append]⟩
      · exact hdone' (fun b hb => hworks b (List.mem_cons_of_mem _ hb)) hflush
          ((inArea_append _ _).mp hall).2

end Simulation

/-! ### From an idle device -/

/-- No transfer is under way, and there is no buffer. -/
structure Idle (dev : Device) (dfu : Entity) : Prop where
  inited : dfu.inited = false
  fill : dfu.fill = 0
  live : dev.live = none

section Idle

variable {config : Config} {area : Area} {dev : Device} {dfu : Entity}

/-- The writer at the start of a transfer. -/
def freshWriter (disk garbage : Ptr) : Writer := ⟨disk, garbage, 0, 0⟩

/-- The garbage in the buffer that the first call allocates. -/
def firstGarbage : List (Call × List UInt8) → Ptr
  | [] => fun _ => 0
  | (call, _) :: _ => call.garbage

/-- The buffer can be allocated. -/
def AllocWorks (config : Config) : List (Call × List UInt8) → Prop
  | [] => True
  | (call, _) :: _ => config.bufsiz ≤ config.mallocLen ∧ call.allocOk = true

theorem startWrite_idle (h : Idle dev dfu) (call : Call) :
    startWrite config call dev dfu =
      if config.bufsiz ≤ config.mallocLen ∧ call.allocOk then
        some ({ dev with buf := call.garbage, live := some dev.next, next := dev.next + 1,
                         bufSize := config.bufsiz },
          { dfu with offset := 0, seqNum := 0, start := some dev.next, fill := 0,
                     room := config.bufsiz, inited := true })
      else none := by
  rw [startWrite, if_neg (by simp [h.inited])]
  simp only [dfuGetBuf, h.live]
  by_cases hok : config.bufsiz ≤ config.mallocLen ∧ call.allocOk = true
  · simp only [if_pos hok]
  · simp only [if_neg hok]

theorem download_idle (h : Idle dev dfu) (blocks : List (Call × List UInt8)) (flush : Call)
    (hblocks : ∀ b ∈ blocks, b.2.length ≠ 0 ∧ b.2.length ≤ config.bufsiz) :
    ∃ dev' dfu' ok, download config (.raw area) 0 blocks flush dev dfu =
        some (dev', dfu', ok) ∧
      (ok = true → AllocWorks config blocks ∧
        InArea area (freshWriter dev.disk (firstGarbage blocks))
          (events config.bufsiz 0 (blocks.map Prod.snd)) ∧
        dev'.disk = ((freshWriter dev.disk (firstGarbage blocks)).run area
          (events config.bufsiz 0 (blocks.map Prod.snd))).disk) ∧
      (AllocWorks config blocks → (∀ b ∈ blocks, b.1.Works) → flush.Works →
        InArea area (freshWriter dev.disk (firstGarbage blocks))
          (events config.bufsiz 0 (blocks.map Prod.snd)) → ok = true) := by
  cases blocks with
  | nil =>
    have hdrain : dfuWriteBufferDrain config (.raw area) (flush.outcome 0) dev dfu =
        some (dev, dfu, true) := by rw [dfuWriteBufferDrain, if_pos h.fill]
    simp only [download, writeBlocks, if_true, dfuFlush, hdrain, Option.bind_eq_bind,
      Option.bind_some]
    exact ⟨_, _, true, rfl, fun _ => ⟨trivial, trivial, rfl⟩, fun _ _ _ _ => rfl⟩
  | cons block blocks =>
    obtain ⟨call, data⟩ := block
    have hstart := @startWrite_idle config dev dfu h call
    by_cases hok : config.bufsiz ≤ config.mallocLen ∧ call.allocOk = true
    · rw [if_pos hok] at hstart
      obtain ⟨dev₁, hdev₁⟩ : ∃ d : Device, { dev with
        buf := call.garbage, live := some dev.next, next := dev.next + 1,
        bufSize := config.bufsiz } = d := ⟨_, rfl⟩
      obtain ⟨dfu₁, hdfu₁⟩ : ∃ e : Entity, { dfu with
        offset := 0, seqNum := 0, start := some dev.next, fill := 0,
        room := config.bufsiz, inited := true } = e := ⟨_, rfl⟩
      rw [hdev₁, hdfu₁] at hstart
      have hready : Ready config area dev₁ dfu₁ := by
        rw [← hdev₁, ← hdfu₁]
        exact ⟨rfl, rfl, rfl, Nat.zero_le _, Nat.dvd_zero _, Nat.zero_le _⟩
      have hagain : startWrite config call dev₁ dfu₁ = some (dev₁, dfu₁) := by
        rw [startWrite, if_pos hready.inited]
      -- the first call goes on as from the state with the new buffer
      have hfirst : download config (.raw area) 0 ((call, data) :: blocks) flush dev dfu =
          download config (.raw area) 0 ((call, data) :: blocks) flush dev₁ dfu₁ := by
        simp only [download, writeBlocks, dfuWrite, hstart, hagain]
      have hseq : dfu₁.seqNum = 0 := by rw [← hdfu₁]
      have hw : writer dev₁ dfu₁ =
          freshWriter dev.disk (firstGarbage ((call, data) :: blocks)) := by
        rw [← hdev₁, ← hdfu₁]
        rfl
      have hfill : dfu₁.fill = 0 := by rw [← hdfu₁]
      obtain ⟨dev', dfu', ok, hrun, hgood, hdone⟩ :=
        download_ready ((call, data) :: blocks) flush hblocks hready
      rw [hw, hfill] at hgood hdone
      rw [hseq, ← hfirst] at hrun
      exact ⟨dev', dfu', ok, hrun, fun htrue => ⟨hok, hgood htrue⟩, fun _ => hdone⟩
    · rw [if_neg hok] at hstart
      simp only [download, writeBlocks, dfuWrite, hstart]
      exact ⟨_, _, false, rfl, by simp, fun halloc => absurd halloc hok⟩

end Idle

end UBoot.Dfu
