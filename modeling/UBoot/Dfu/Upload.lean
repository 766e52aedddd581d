import UBoot.Dfu.Stored

/-!
# An upload from a raw entity

`dfu_read` fills the buffer with as much of the area as fits, rounded up to blocks, and
hands it out in pieces of any size. The rounding overruns a buffer that is not a whole
number of blocks.
-/

namespace UBoot.Dfu

open Verification

/-- The calls of `dfu_read` up to the first short result: what they return, or `none`
inside when a call fails. -/
def readBlocks (config : Config) (area : Area) :
    Nat → List (Call × Nat) → Device → Entity → Option (Option (List (List UInt8)))
  | _, [], _, _ => some (some [])
  | seqNum, (call, size) :: calls, dev, dfu =>
    match dfuRead config area call dev dfu size seqNum with
    | none => none
    | some (_, _, none) => some none
    | some (dev, dfu, some data) =>
      if data.length < size then some (some [data])
      else
        (readBlocks config area ((seqNum + 1) % 65536) calls dev dfu).map fun results =>
          results.map fun results => data :: results

/-- The bytes in pieces, up to the first short one. -/
def pieces : List Nat → List UInt8 → List (List UInt8)
  | [], _ => []
  | size :: sizes, bytes =>
    bytes.take size :: if bytes.length < size then [] else pieces sizes (bytes.drop size)

/-- An upload is under way, and these bytes are still to come. -/
structure Reading (config : Config) (area : Area) (rest : List UInt8) (dev : Device)
    (dfu : Entity) : Prop where
  inited : dfu.inited = true
  start : dfu.start = dev.live
  room : dfu.room = config.bufsiz
  bufSize : dev.bufSize = config.bufsiz
  dvd : area.blk ∣ dfu.offset
  left : dfu.offset + dfu.rLeft = area.size
  rest : rest = (dev.buf.add dfu.fill).bytes dfu.bLeft ++
    (dev.disk.add (area.start + dfu.offset)).bytes dfu.rLeft

/-- The buffer is a whole number of blocks, or larger than the area. -/
def BufferFits (config : Config) (area : Area) : Prop :=
  area.blk ∣ config.bufsiz ∨ area.size < config.bufsiz

theorem Config.bufsiz_pos (config : Config) : 0 < config.bufsiz := by
  have hpos := config.dataBufSize_pos
  rw [Config.bufsiz]
  split
  · exact hpos
  · split
    · exact hpos
    · next hne => exact Nat.pos_of_ne_zero hne

section Fill

variable {config : Config} {area : Area} {dev : Device} {dfu : Entity} {rest : List UInt8}

theorem Area.dvd_size (area : Area) : area.blk ∣ area.size := Nat.dvd_mul_left _ _

/-- What is read from the medium at once is a whole number of blocks. -/
theorem Reading.dvd_min (h : Reading config area rest dev dfu) (hfits : BufferFits config area) :
    area.blk ∣ min dfu.room dfu.rLeft := by
  have hleft : area.blk ∣ dfu.rLeft := by
    have := area.dvd_size
    rw [← h.left] at this
    exact (Nat.dvd_add_right h.dvd).mp this
  have hall := h.left
  rw [h.room]
  rcases hfits with hdvd | hlt
  · rcases Nat.le_total config.bufsiz dfu.rLeft with hle | hle
    · rwa [Nat.min_eq_left hle]
    · rwa [Nat.min_eq_right hle]
  · rwa [Nat.min_eq_right (by omega)]

/-- The operation of the medium, when there is something left. -/
theorem Reading.mmcBlockRead (h : Reading config area rest dev dfu)
    (hfits : BufferFits config area) (outcome : Outcome) :
    ∃ dev', UBoot.Dfu.mmcBlockRead area dev dfu.offset (min dfu.room dfu.rLeft) outcome =
        some (dev', min dfu.room dfu.rLeft, decide (outcome = .done)) ∧
      (outcome = .done → dev' = { dev with
        buf := dev.buf.write 0 (min dfu.room dfu.rLeft)
          (dev.disk.add (area.start + dfu.offset)) }) := by
  have hdvd := h.dvd_min hfits
  have hleft := h.left
  have hin : dfu.offset + min dfu.room dfu.rLeft ≤ area.size := by
    have := Nat.min_le_right dfu.room dfu.rLeft
    omega
  have hroom : ¬dev.bufSize < min dfu.room dfu.rLeft := by
    have := Nat.min_le_left dfu.room dfu.rLeft
    have hr := h.room
    have hb := h.bufSize
    omega
  simp only [UBoot.Dfu.mmcBlockRead, Area.align_of_dvd hdvd]
  rw [blockRange_eq h.dvd (by omega) hdvd, if_pos hin]
  simp only [hroom, if_false]
  cases outcome with
  | done => exact ⟨_, rfl, fun _ => by rw [blockStart_eq h.dvd]⟩
  | failed n => exact ⟨_, rfl, fun hcontra => by cases hcontra⟩

/-- The loop returns the next bytes, as many as there are. -/
theorem dfuReadBufferFill_spec (hfits : BufferFits config area) (call : Call) :
    ∀ fuel dev dfu size rest, Reading config area rest dev dfu →
      (size < fuel ∨ size = fuel ∧ 0 < dfu.bLeft ∧ 0 < fuel) →
      ∃ dev' dfu' result,
        dfuReadBufferFill area call fuel dev dfu size = some (dev', dfu', result) ∧
        dfu'.seqNum = dfu.seqNum ∧
        ∀ data, result = some data →
          data = rest.take size ∧ Reading config area (rest.drop size) dev' dfu' := by
  intro fuel
  induction fuel with
  | zero => intro dev dfu size rest _ hfuel; omega
  | succ fuel ih =>
    intro dev dfu size rest h hfuel
    rw [dfuReadBufferFill]
    by_cases hsize : size = 0
    · refine ⟨dev, dfu, some [], by simp [hsize], rfl, fun data hdata => ?_⟩
      obtain rfl := Option.some.inj hdata
      subst hsize
      exact ⟨rfl, h⟩
    · simp only [hsize, if_false]
      rw [if_neg fun hstale => hstale.2 h.start]
      obtain ⟨chunk, hchunk⟩ : ∃ chunk, min size dfu.bLeft = chunk := ⟨_, rfl⟩
      rw [hchunk]
      obtain ⟨more, hmore⟩ : ∃ more, dfu.bLeft = chunk + more :=
        ⟨dfu.bLeft - chunk, by omega⟩
      -- the state after the chunk
      have hafter : Reading config area (rest.drop chunk) dev
          { dfu with fill := dfu.fill + chunk, bLeft := dfu.bLeft - chunk } := by
        refine ⟨h.inited, h.start, h.room, h.bufSize, h.dvd, h.left, ?_⟩
        rw [h.rest, hmore, Ptr.bytes_add, Ptr.add_add, List.append_assoc,
          List.drop_left' (Ptr.length_bytes _ _)]
        simp only [Nat.add_sub_cancel_left]
      have htake : rest.take chunk = (dev.buf.add dfu.fill).bytes chunk := by
        rw [h.rest, hmore, Ptr.bytes_add, List.append_assoc,
          List.take_left' (Ptr.length_bytes _ _)]
      by_cases hdone : size - chunk = 0
      · refine ⟨_, _, _, if_pos hdone, rfl, fun data hdata => ?_⟩
        obtain rfl := Option.some.inj hdata
        have heq : chunk = size := by omega
        exact ⟨by rw [← heq, htake], by rw [← heq]; exact hafter⟩
      · rw [if_neg hdone]
        have hall : chunk = dfu.bLeft := by omega
        have hempty : more = 0 := by omega
        by_cases hleft : dfu.rLeft = 0
        · refine ⟨_, _, _, if_pos hleft, rfl, fun data hdata => ?_⟩
          obtain rfl := Option.some.inj hdata
          have hlen : rest.length = chunk := by
            rw [h.rest, List.length_append, Ptr.length_bytes, Ptr.length_bytes, hleft]
            omega
          refine ⟨?_, ?_⟩
          · rw [← htake, List.take_of_length_le (by omega), List.take_of_length_le (by omega)]
          · rw [List.drop_of_length_le (show rest.length ≤ size by omega)]
            rwa [List.drop_of_length_le (Nat.le_of_eq hlen)] at hafter
        · rw [if_neg hleft]
          obtain ⟨dev₁, hread, hdev₁⟩ := hafter.mmcBlockRead hfits (call.outcome fuel)
          simp only at hread
          rw [hread]
          by_cases hworks : call.outcome fuel = .done
          · simp only [hworks, decide_true, Bool.not_true, Bool.false_eq_true, if_false]
            have hdev := hdev₁ hworks
            obtain ⟨len, hlen⟩ : ∃ len, min dfu.room dfu.rLeft = len := ⟨_, rfl⟩
            simp only [hlen] at hdev ⊢
            obtain ⟨remaining, hremaining⟩ : ∃ r, dfu.rLeft = len + r :=
              ⟨dfu.rLeft - len, by omega⟩
            have hpos : 0 < len := by
              have := config.bufsiz_pos
              have := h.room
              omega
            have hnext : Reading config area (rest.drop chunk) dev₁
                { dfu with fill := 0, bLeft := len, offset := dfu.offset + len,
                           rLeft := dfu.rLeft - len } := by
              have hleft' := h.left
              refine ⟨h.inited, by rw [hdev]; exact h.start, h.room,
                by rw [hdev]; exact h.bufSize, ?_, ?_, ?_⟩
              · refine Nat.dvd_add h.dvd ?_
                rw [← hlen]
                exact h.dvd_min hfits
              · simp only
                omega
              · rw [hafter.rest, hdev]
                have hbuf := Ptr.bytes_write_self dev.buf 0 len
                  (dev.disk.add (area.start + dfu.offset))
                simp only [hbuf, hremaining, Nat.add_sub_cancel_left]
                rw [show dfu.bLeft - chunk = 0 by omega, Ptr.bytes_add, Ptr.add_add,
                  Nat.add_assoc]
                rfl
            obtain ⟨dev', dfu', result, hrun, hseq, hresult⟩ :=
              ih dev₁ _ (size - chunk) (rest.drop chunk) hnext (by
                simp only
                omega)
            rw [hrun]
            refine ⟨dev', dfu', _, rfl, hseq, fun data hdata => ?_⟩
            obtain ⟨tail, rfl, rfl⟩ := Option.map_eq_some_iff.mp hdata
            obtain ⟨htail, hreading⟩ := hresult tail rfl
            refine ⟨?_, ?_⟩
            · rw [htail, ← htake, ← List.take_add, Nat.add_sub_cancel' (by omega)]
            · rwa [List.drop_drop, Nat.add_sub_cancel' (by omega)] at hreading
          · simp only [hworks, decide_false, Bool.not_false, if_true]
            exact ⟨_, _, none, rfl, rfl, by simp⟩

end Fill

/-! ### Calls -/

def areaBytes (area : Area) (dev : Device) : List UInt8 := (dev.disk.add area.start).bytes area.size

/-- An upload with requests of these sizes always comes to an end, and when no call
fails, the calls return the bytes of the area in order up to the first short result. -/
def UploadReturns (config : Config) (area : Area) (sizes : List Nat) : Prop :=
  ∀ dev dfu calls, Idle dev dfu → calls.map Prod.snd = sizes →
    ∃ result, readBlocks config area 0 calls dev dfu = some result ∧
      ∀ results, result = some results → results = pieces sizes (areaBytes area dev)

/-- The buffer is not overrun: it is a whole number of blocks or larger than the area, or
there is no buffer, or nothing is requested. -/
def UploadAligned (config : Config) (area : Area) (sizes : List Nat) : Prop :=
  config.mallocLen < config.bufsiz ∨ BufferFits config area ∨ ∀ n ∈ sizes, n = 0

section Calls

variable {config : Config} {area : Area} {dev : Device} {dfu : Entity} {rest : List UInt8}

theorem dfuRead_reading (hfits : BufferFits config area) (h : Reading config area rest dev dfu)
    (call : Call) (size : Nat) :
    ∃ dev' dfu' result,
      dfuRead config area call dev dfu size dfu.seqNum = some (dev', dfu', result) ∧
      ∀ data, result = some data → data = rest.take size ∧
        (size ≤ rest.length → Reading config area (rest.drop size) dev' dfu' ∧
          dfu'.seqNum = (dfu.seqNum + 1) % 65536) := by
  have hstart : startRead config area call dev dfu = some (dev, dfu) := by
    rw [startRead, if_pos h.inited]
  have hnext : Reading config area rest dev { dfu with seqNum := (dfu.seqNum + 1) % 65536 } :=
    ⟨h.inited, h.start, h.room, h.bufSize, h.dvd, h.left, h.rest⟩
  obtain ⟨dev', dfu', result, hrun, hseq, hresult⟩ := dfuReadBufferFill_spec hfits call (size + 1)
    dev _ size rest hnext (.inl (Nat.lt_succ_self size))
  rw [dfuRead, hstart]
  simp only [ne_eq, not_true_eq_false, if_false, hrun]
  cases result with
  | none => exact ⟨dev', dfu', none, rfl, by simp⟩
  | some data =>
    obtain ⟨hdata, hreading⟩ := hresult data rfl
    by_cases hshort : data.length < size
    · refine ⟨_, _, some data, if_pos hshort, fun data' hdata' => ?_⟩
      obtain rfl := Option.some.inj hdata'
      refine ⟨hdata, fun hle => ?_⟩
      rw [hdata, List.length_take] at hshort
      omega
    · refine ⟨dev', dfu', some data, if_neg hshort, fun data' hdata' => ?_⟩
      obtain rfl := Option.some.inj hdata'
      exact ⟨hdata, fun _ => ⟨hreading, hseq⟩⟩

theorem readBlocks_reading (hfits : BufferFits config area) (calls : List (Call × Nat))
    (h : Reading config area rest dev dfu) :
    ∃ result, readBlocks config area dfu.seqNum calls dev dfu = some result ∧
      ∀ results, result = some results → results = pieces (calls.map Prod.snd) rest := by
  induction calls generalizing dev dfu rest with
  | nil => exact ⟨some [], rfl, fun results hresults => (Option.some.inj hresults).symm⟩
  | cons call calls ih =>
    obtain ⟨call, size⟩ := call
    obtain ⟨dev', dfu', result, hrun, hresult⟩ := dfuRead_reading hfits h call size
    rw [readBlocks, hrun]
    cases result with
    | none => exact ⟨none, rfl, by simp⟩
    | some data =>
      obtain ⟨hdata, hnext⟩ := hresult data rfl
      have hshort : data.length < size ↔ rest.length < size := by
        rw [hdata, List.length_take]
        omega
      simp only [List.map_cons, pieces]
      by_cases hlt : rest.length < size
      · rw [if_pos (hshort.mpr hlt), if_pos hlt]
        refine ⟨some [data], rfl, fun results hresults => ?_⟩
        rw [← Option.some.inj hresults, hdata]
      · obtain ⟨hreading, hseq⟩ := hnext (Nat.le_of_not_lt hlt)
        obtain ⟨result, hrest, hpieces⟩ := ih hreading
        rw [hseq] at hrest
        rw [if_neg (fun h => hlt (hshort.mp h)), if_neg hlt, hrest]
        refine ⟨_, rfl, fun results hresults => ?_⟩
        obtain ⟨tail, htail, rfl⟩ := Option.map_eq_some_iff.mp hresults
        rw [hpieces tail htail, hdata]

theorem startRead_idle (h : Idle dev dfu) (call : Call) :
    startRead config area call dev dfu =
      if config.bufsiz ≤ config.mallocLen ∧ call.allocOk then
        some ({ dev with buf := call.garbage, live := some dev.next, next := dev.next + 1,
                         bufSize := config.bufsiz },
          ⟨0, 0, some dev.next, 0, config.bufsiz, area.size, 0, true⟩)
      else none := by
  rw [startRead, if_neg (by simp [h.inited])]
  simp only [dfuGetBuf, h.live]
  by_cases hok : config.bufsiz ≤ config.mallocLen ∧ call.allocOk = true
  · simp only [if_pos hok]
  · simp only [if_neg hok]

/-- The call that starts an upload, with the buffer that it allocates. -/
theorem dfuRead_idle (h : Idle dev dfu) (call : Call) (size : Nat) :
    (∃ dev' dfu', dfuRead config area call dev dfu size 0 = some (dev', dfu', none)) ∧
        ¬(config.bufsiz ≤ config.mallocLen ∧ call.allocOk = true) ∨
      ∃ dev₁ dfu₁, Reading config area (areaBytes area dev) dev₁ dfu₁ ∧ dfu₁.seqNum = 0 ∧
        dfu₁.bLeft = 0 ∧ dfu₁.rLeft = area.size ∧ config.bufsiz ≤ config.mallocLen ∧
        dfuRead config area call dev dfu size 0 = dfuRead config area call dev₁ dfu₁ size 0 := by
  have hstart := @startRead_idle config area dev dfu h call
  by_cases hok : config.bufsiz ≤ config.mallocLen ∧ call.allocOk = true
  · rw [if_pos hok] at hstart
    refine .inr ⟨{ dev with buf := call.garbage, live := some dev.next, next := dev.next + 1,
                            bufSize := config.bufsiz },
      ⟨0, 0, some dev.next, 0, config.bufsiz, area.size, 0, true⟩, ?_, rfl, rfl, rfl, hok.1, ?_⟩
    · exact ⟨rfl, rfl, rfl, rfl, Nat.dvd_zero _, Nat.zero_add _, rfl⟩
    · rw [dfuRead, hstart]
      rfl
  · rw [if_neg hok] at hstart
    exact .inl ⟨⟨_, _, by rw [dfuRead, hstart]⟩, hok⟩

/-- A request for nothing. -/
theorem dfuRead_zero (h : Reading config area rest dev dfu) (call : Call) :
    dfuRead config area call dev dfu 0 dfu.seqNum =
      some (dev, { dfu with seqNum := (dfu.seqNum + 1) % 65536 }, some []) := by
  have hstart : startRead config area call dev dfu = some (dev, dfu) := by
    rw [startRead, if_pos h.inited]
  rw [dfuRead, hstart]
  simp [dfuReadBufferFill]

theorem readBlocks_zero (calls : List (Call × Nat)) (hzero : ∀ n ∈ calls.map Prod.snd, n = 0)
    (h : Reading config area rest dev dfu) :
    ∃ result, readBlocks config area dfu.seqNum calls dev dfu = some result ∧
      ∀ results, result = some results → results = pieces (calls.map Prod.snd) rest := by
  induction calls generalizing dev dfu with
  | nil => exact ⟨some [], rfl, fun results hresults => (Option.some.inj hresults).symm⟩
  | cons call calls ih =>
    obtain ⟨call, size⟩ := call
    obtain rfl : size = 0 := hzero size (by simp)
    obtain ⟨result, hrest, hpieces⟩ := @ih dev { dfu with seqNum := (dfu.seqNum + 1) % 65536 }
      (fun n hn => hzero n (List.mem_cons_of_mem _ hn))
      ⟨h.inited, h.start, h.room, h.bufSize, h.dvd, h.left, h.rest⟩
    rw [readBlocks, dfuRead_zero h]
    simp only [List.length_nil, Nat.lt_irrefl, if_false, hrest, Option.map_some]
    refine ⟨_, rfl, fun results hresults => ?_⟩
    obtain ⟨tail, htail, rfl⟩ := Option.map_eq_some_iff.mp hresults
    rw [hpieces tail htail]
    simp [pieces]

theorem dfuRead_overrun (h : Reading config area rest dev dfu) (hempty : dfu.bLeft = 0)
    (hroom : ¬area.blk ∣ config.bufsiz) (hlarge : config.bufsiz ≤ dfu.rLeft) (call : Call)
    {size : Nat} (hsize : size ≠ 0) :
    dfuRead config area call dev dfu size dfu.seqNum = none := by
  have hstart : startRead config area call dev dfu = some (dev, dfu) := by
    rw [startRead, if_pos h.inited]
  have hpos := config.bufsiz_pos
  have hr := h.room
  have hb := h.bufSize
  have hleft := h.left
  have hmin : min dfu.room dfu.rLeft = config.bufsiz := by omega
  have hlt : config.bufsiz < area.align config.bufsiz := by
    refine Nat.lt_of_le_of_ne (area.le_align _) fun heq => hroom ?_
    rw [heq]
    exact area.dvd_align _
  have hle : area.align config.bufsiz ≤ dfu.rLeft := by
    -- the rest of the area is a whole number of blocks
    obtain ⟨n, hn⟩ : area.blk ∣ dfu.rLeft := by
      have := area.dvd_size
      rw [← h.left] at this
      exact (Nat.dvd_add_right h.dvd).mp this
    have hblk := area.blk_pos
    rw [Area.align, hn, Nat.mul_comm area.blk n]
    refine Nat.mul_le_mul_right _ (Nat.lt_succ_iff.mp ((Nat.div_lt_iff_lt_mul hblk).mpr ?_))
    rw [Nat.succ_mul, Nat.mul_comm n, ← hn]
    omega
  have hread : ∀ outcome, mmcBlockRead area dev dfu.offset (min dfu.room dfu.rLeft) outcome =
      none := by
    intro outcome
    rw [hmin]
    simp only [mmcBlockRead]
    rw [blockRange_eq h.dvd (by omega) (area.dvd_align _), if_pos (by omega)]
    simp only [hb, hlt, if_true]
  rw [dfuRead, hstart]
  simp only [ne_eq, not_true_eq_false, if_false, dfuReadBufferFill, hsize, hempty, Nat.min_zero,
    h.start, and_false, Nat.sub_zero]
  rw [if_neg (by omega)]
  simp only [hread]

theorem readBlocks_overrun (calls : List (Call × Nat))
    (hsome : ¬∀ n ∈ calls.map Prod.snd, n = 0) (h : Reading config area rest dev dfu)
    (hempty : dfu.bLeft = 0) (hroom : ¬area.blk ∣ config.bufsiz)
    (hlarge : config.bufsiz ≤ dfu.rLeft) :
    readBlocks config area dfu.seqNum calls dev dfu = none := by
  induction calls generalizing dfu with
  | nil => exact absurd (fun n hn => by simp at hn) hsome
  | cons call calls ih =>
    obtain ⟨call, size⟩ := call
    rw [readBlocks]
    by_cases hsize : size = 0
    · subst hsize
      have hrest : ¬∀ n ∈ calls.map Prod.snd, n = 0 := by
        intro hall
        refine hsome ?_
        rw [List.map_cons, List.forall_mem_cons]
        exact ⟨rfl, hall⟩
      have := @ih { dfu with seqNum := (dfu.seqNum + 1) % 65536 } hrest
        ⟨h.inited, h.start, h.room, h.bufSize, h.dvd, h.left, h.rest⟩ hempty hlarge
      rw [dfuRead_zero h]
      simp only [List.length_nil, Nat.lt_irrefl, if_false, this, Option.map_none]
    · rw [dfuRead_overrun h hempty hroom hlarge call hsize]

theorem uploadReturns_iff (sizes : List Nat) :
    UploadReturns config area sizes ↔ UploadAligned config area sizes := by
  constructor
  · intro h
    by_contra hnot
    simp only [UploadAligned, BufferFits, not_or, Nat.not_lt] at hnot
    obtain ⟨hmem, ⟨hroom, hlarge⟩, hsizes⟩ := hnot
    obtain ⟨call, hcall⟩ : ∃ call : Call, ⟨true, fun _ => 0, fun _ => .done⟩ = call := ⟨_, rfl⟩
    have hidle : Idle ⟨fun _ => 0, none, 0, 0, [], fun _ => 0, fun _ => []⟩
        ⟨0, 0, none, 0, 0, 0, 0, false⟩ := ⟨rfl, rfl, rfl⟩
    obtain ⟨calls, hcalls⟩ : ∃ calls, sizes.map (fun n => (call, n)) = calls := ⟨_, rfl⟩
    have hsnd : calls.map Prod.snd = sizes := by
      rw [← hcalls, List.map_map]
      exact List.map_id _
    obtain ⟨result, hrun, -⟩ := h _ _ calls hidle hsnd
    rw [← hsnd] at hsizes
    cases calls with
    | nil => exact hsizes fun n hn => by simp at hn
    | cons first calls =>
      obtain ⟨first, size⟩ := first
      have hfirst : first = call := by
        have : (first, size) ∈ sizes.map fun n => (call, n) := hcalls ▸ List.mem_cons_self
        obtain ⟨n, -, heq⟩ := List.mem_map.mp this
        exact (Prod.mk.inj heq).1.symm
      rcases @dfuRead_idle config area _ _ hidle first size with
        ⟨-, hno⟩ | ⟨dev₁, dfu₁, hreading, hseq, hempty, hleft, -, hsame⟩
      · exact hno ⟨hmem, by rw [hfirst, ← hcall]⟩
      · have hover := readBlocks_overrun ((first, size) :: calls) hsizes hreading hempty hroom
          (by rw [hleft]; exact hlarge)
        rw [hseq, readBlocks, ← hsame] at hover
        rw [readBlocks, hover] at hrun
        cases hrun
  · intro h dev dfu calls hidle hsizes
    subst hsizes
    cases calls with
    | nil => exact ⟨some [], rfl, fun results hresults => (Option.some.inj hresults).symm⟩
    | cons call calls =>
      obtain ⟨call, size⟩ := call
      rcases @dfuRead_idle config area dev dfu hidle call size with
        ⟨⟨dev', dfu', hfail⟩, hno⟩ | ⟨dev₁, dfu₁, hreading, hseq, -, -, hmalloc, hfirst⟩
      · exact ⟨none, by rw [readBlocks, hfail], by simp⟩
      · have hsame : readBlocks config area 0 ((call, size) :: calls) dev dfu =
            readBlocks config area dfu₁.seqNum ((call, size) :: calls) dev₁ dfu₁ := by
          rw [hseq, readBlocks, readBlocks, hfirst]
        rw [hsame]
        rcases h with hmem | hfits | hzero
        · omega
        · exact readBlocks_reading hfits _ hreading
        · exact readBlocks_zero _ hzero hreading

end Calls

/-! ### Both directions -/

/-- The data path for a download of blocks and an upload with requests of these sizes. -/
structure DataPath (config : Config) (area : Area) (blockSizes requestSizes : List Nat) :
    Prop where
  stores : DownloadStores config area blockSizes
  returns : UploadReturns config area requestSizes

/-- The data path works exactly when no drain leaves a gap and no read overruns the
buffer. -/
theorem dataPath_iff (config : Config) (area : Area) (blockSizes requestSizes : List Nat)
    (hsizes : ∀ n ∈ blockSizes, n ≠ 0 ∧ n ≤ config.bufsiz) :
    DataPath config area blockSizes requestSizes ↔
      DownloadAligned config area blockSizes ∧ UploadAligned config area requestSizes := by
  constructor
  · intro h
    exact ⟨aligned_of_downloadStores hsizes h.stores, (uploadReturns_iff _).mp h.returns⟩
  · rintro ⟨hdown, hup⟩
    exact ⟨downloadStores_of_aligned hsizes hdown, (uploadReturns_iff _).mpr hup⟩

/-- Sixteen blocks of 512 bytes. -/
def smallArea : Area := ⟨2048, 16, 9, 100000, by decide, by decide⟩

/-- `dfu_bufsiz` is 1024, with a heap of 16 MiB. -/
def smallBuffer : Config := ⟨8388608, 8388608, 16777216, some 1024, by decide⟩

/-- Blocks of half the buffer, and a shorter one at the end. -/
theorem dataPath_halves : DataPath smallBuffer smallArea [512, 512, 512, 100] [600, 600, 8000] := by
  refine (dataPath_iff smallBuffer smallArea [512, 512, 512, 100] [600, 600, 8000]
    (by decide)).mpr ⟨.inr (.inl (by decide)), .inr (.inl (.inl (by decide)))⟩

/-- The second of two blocks of 700 bytes is stored at 1024. -/
theorem not_dataPath_odd : ¬DataPath smallBuffer smallArea [700, 700] [] := by
  intro h
  rcases aligned_of_downloadStores (by decide) h.stores with hmem | hwhole | hover
  · exact absurd hmem (by decide)
  · exact absurd hwhole (by decide)
  · exact absurd hover (by decide)

end UBoot.Dfu
