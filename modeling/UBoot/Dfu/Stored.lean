import Mathlib.Algebra.BigOperators.Group.List.Basic
import UBoot.Dfu.Download

/-!
# What a download stores

Every drain rounds its length up to blocks and moves the offset on by as much. The file
is stored as long as all drains but the last one are of whole blocks; the bytes after a
drain that is not have a gap in front of them.
-/

namespace UBoot.Dfu

open Verification

/-! ### The lengths of the drains -/

/-- How many bytes are in the buffer at the drains of a download. -/
def drains (room : Nat) : Nat → List Nat → List Nat
  | fill, [] => if fill = 0 then [] else [fill]
  | fill, size :: sizes =>
    let kept := if fill + size > room then 0 else fill
    (if fill + size > room ∧ fill ≠ 0 then [fill] else []) ++
      ((if kept + size + size > room then [kept + size] else []) ++
        drains room (blockFill room fill size) sizes)

def WholeBlocks (area : Area) (lengths : List Nat) : Prop := ∀ n ∈ lengths.dropLast, area.blk ∣ n

instance (area : Area) (lengths : List Nat) : Decidable (WholeBlocks area lengths) :=
  inferInstanceAs (Decidable (∀ n ∈ lengths.dropLast, area.blk ∣ n))

/-- The blocks that a download takes on the medium, in bytes. -/
def taken (area : Area) (lengths : List Nat) : Nat := (lengths.map area.align).sum

/-- The lengths at the drains among the events. -/
def drainSizes : Nat → List Event → List Nat
  | _, [] => []
  | fill, .put data :: events => drainSizes (fill + data.length) events
  | fill, .drain :: events => fill :: drainSizes 0 events

/-- The bytes that the events put into the buffer. -/
def putData : List Event → List UInt8
  | [] => []
  | .put data :: events => data ++ putData events
  | .drain :: events => putData events

section Lists

variable {area : Area} {w : Writer}

@[simp] theorem drainSizes_put (fill : Nat) (data : List UInt8) (events : List Event) :
    drainSizes fill (.put data :: events) = drainSizes (fill + data.length) events := rfl

@[simp] theorem drainSizes_drain (fill : Nat) (events : List Event) :
    drainSizes fill (.drain :: events) = fill :: drainSizes 0 events := rfl

theorem drainSizes_drainEvents (fill : Nat) (events : List Event) :
    drainSizes fill (drainEvents fill ++ events) =
      (if fill = 0 then [] else [fill]) ++ drainSizes 0 events := by
  rw [drainEvents]
  split
  · next hzero => simp [hzero]
  · rfl

theorem drainSizes_events (room fill : Nat) (blocks : List (List UInt8)) :
    drainSizes fill (events room fill blocks) = drains room fill (blocks.map List.length) := by
  induction blocks generalizing fill with
  | nil =>
    have := drainSizes_drainEvents fill []
    rw [List.append_nil] at this
    simpa [events, drains, drainSizes] using this
  | cons data blocks ih =>
    simp only [events, blockEvents, List.map_cons, drains, ← ih]
    by_cases hover : fill + data.length > room
    · simp only [hover, if_true, true_and, List.append_assoc, List.cons_append]
      rw [drainSizes_drainEvents]
      simp only [drainSizes_put, Nat.zero_add, blockFill, hover, if_true]
      congr 1
      · by_cases hfill : fill = 0
        · simp [hfill]
        · simp [hfill]
      · split
        · rfl
        · rfl
    · simp only [hover, false_and, if_false, List.nil_append, List.cons_append,
        drainSizes_put, blockFill]
      split
      · rfl
      · rfl

theorem putData_append (first second : List Event) :
    putData (first ++ second) = putData first ++ putData second := by
  induction first with
  | nil => rfl
  | cons event first ih =>
    cases event with
    | put data => simp only [List.cons_append, putData, ih, List.append_assoc]
    | drain => simp only [List.cons_append, putData, ih]

theorem putData_drainEvents (fill : Nat) : putData (drainEvents fill) = [] := by
  rw [drainEvents]
  split <;> rfl

theorem putData_events (room fill : Nat) (blocks : List (List UInt8)) :
    putData (events room fill blocks) = blocks.flatten := by
  induction blocks generalizing fill with
  | nil => exact putData_drainEvents fill
  | cons data blocks ih =>
    have hpre : putData (if fill + data.length > room then drainEvents fill else []) = [] := by
      split
      · exact putData_drainEvents fill
      · rfl
    have hpost : ∀ p : Prop, ∀ [Decidable p], putData (if p then [Event.drain] else []) = [] := by
      intro p _
      split <;> rfl
    simp only [events, blockEvents, putData_append, hpre, putData, hpost, ih, List.nil_append,
      List.append_nil, List.flatten_cons]

theorem run_events_fill (room : Nat) (blocks : List (List UInt8)) :
    (w.run area (events room w.fill blocks)).fill = 0 := by
  induction blocks generalizing w with
  | nil =>
    rw [events, drainEvents]
    split
    · next hzero => exact hzero
    · rfl
  | cons data blocks ih =>
    rw [events, run_append, ← @run_blockEvents_fill area w room data]
    exact ih

theorem le_of_mem_drainSizes {fill first : Nat} {events : List Event} {rest : List Nat}
    (h : drainSizes fill events = first :: rest) : fill ≤ first := by
  induction events generalizing fill with
  | nil => simp [drainSizes] at h
  | cons event events ih =>
    cases event with
    | put data =>
      have := ih h
      omega
    | drain =>
      rw [drainSizes_drain, List.cons.injEq] at h
      exact Nat.le_of_eq h.1

/-- The drains take no more than is put into the buffer. -/
theorem sum_drainSizes_le (fill : Nat) (events : List Event) :
    (drainSizes fill events).sum ≤ fill + (putData events).length := by
  induction events generalizing fill with
  | nil => simp [drainSizes]
  | cons event events ih =>
    cases event with
    | put data =>
      have := ih (fill + data.length)
      rw [drainSizes_put, putData, List.length_append]
      omega
    | drain =>
      have := ih 0
      rw [drainSizes_drain, putData, List.sum_cons]
      omega

theorem inArea_iff (events : List Event) (hle : w.offset ≤ area.size) :
    InArea area w events ↔ w.offset + taken area (drainSizes w.fill events) ≤ area.size := by
  induction events generalizing w with
  | nil => simp [InArea, drainSizes, taken, hle]
  | cons event events ih =>
    cases event with
    | put data =>
      rw [InArea, ih (show (w.put data).offset ≤ area.size from hle)]
      rfl
    | drain =>
      rw [InArea, drainSizes_drain, taken, List.map_cons, List.sum_cons]
      constructor
      · rintro ⟨hfit, hin⟩
        have := (ih (show (w.drain area).offset ≤ area.size from hfit)).mp hin
        simp only [Writer.drain, taken] at this
        omega
      · intro hall
        have hfit : w.offset + area.align w.fill ≤ area.size := by omega
        refine ⟨hfit, (ih (show (w.drain area).offset ≤ area.size from hfit)).mpr ?_⟩
        simp only [Writer.drain, taken]
        omega

/-- Bytes in front of the offset, or behind the area, are kept. -/
theorem run_disk_outside (events : List Event) {a : Nat}
    (h : a < area.start + w.offset ∨ InArea area w events ∧ area.start + area.size ≤ a) :
    (w.run area events).disk a = w.disk a := by
  induction events generalizing w with
  | nil => rfl
  | cons event events ih =>
    cases event with
    | put data => exact ih h
    | drain =>
      have hrest : a < area.start + (w.drain area).offset ∨
          InArea area (w.drain area) events ∧ area.start + area.size ≤ a := by
        rcases h with h | ⟨⟨-, hin⟩, hle⟩
        · left
          simp only [Writer.drain]
          omega
        · exact .inr ⟨hin, hle⟩
      rw [run_drain, ih hrest]
      refine if_neg ?_
      rcases h with h | ⟨⟨hfit, -⟩, hle⟩ <;> omega

end Lists

/-! ### Whole blocks -/

/-- The bytes sent so far are in the area and in the buffer. -/
structure Holds (area : Area) (sent : List UInt8) (w : Writer) : Prop where
  length : w.offset + w.fill = sent.length
  buf : w.buf.bytes w.fill = sent.drop w.offset
  disk : (w.disk.add area.start).bytes w.offset = sent.take w.offset

section Holds

variable {area : Area} {w : Writer} {sent : List UInt8}

theorem Holds.put (h : Holds area sent w) (data : List UInt8) :
    Holds area (sent ++ data) (w.put data) := by
  have hlen := h.length
  refine ⟨?_, ?_, ?_⟩
  · rw [List.length_append, ← hlen]
    exact (Nat.add_assoc ..).symm
  · have hle : w.offset ≤ sent.length := by omega
    rw [Writer.put, Ptr.bytes_write_append, h.buf, Ptr.bytes_ofList,
      List.drop_append_of_le_length hle]
  · have hle : w.offset ≤ sent.length := by omega
    exact h.disk.trans (List.take_append_of_le_length hle).symm

/-- After a drain the area begins with all bytes sent so far. -/
theorem Holds.drained (h : Holds area sent w) :
    ((w.drain area).disk.add area.start).bytes sent.length = sent := by
  have hle := area.le_align w.fill
  have hlen := h.length
  have hfront : ((w.drain area).disk.add area.start).bytes w.offset = sent.take w.offset := by
    rw [← h.disk]
    apply Ptr.bytes_congr
    intro i hi
    exact if_neg (by omega)
  have hback : (((w.drain area).disk.add area.start).add w.offset).bytes w.fill =
      sent.drop w.offset := by
    rw [← h.buf]
    apply Ptr.bytes_congr
    intro i hi
    refine (if_pos ⟨by omega, by omega⟩).trans ?_
    congr 1
    omega
  rw [← hlen, Ptr.bytes_add, hfront, hback, List.take_append_drop]

theorem Holds.drain (h : Holds area sent w) (hdvd : area.blk ∣ w.fill) :
    Holds area sent (w.drain area) := by
  have hoff : (w.drain area).offset = sent.length := by
    rw [← h.length, Writer.drain, Area.align_of_dvd hdvd]
  refine ⟨hoff, ?_, ?_⟩
  · rw [hoff, List.drop_length]
    rfl
  · rw [hoff, List.take_length]
    exact h.drained

/-- Without a drain nothing is left in the buffer only if nothing was put there. -/
theorem run_of_no_drain {events : List Event} (h : drainSizes w.fill events = []) :
    (w.run area events).fill = w.fill + (putData events).length ∧
      (w.run area events).disk = w.disk := by
  induction events generalizing w with
  | nil => exact ⟨rfl, rfl⟩
  | cons event events ih =>
    cases event with
    | put data =>
      obtain ⟨hfill, hdisk⟩ := @ih (w.put data) h
      refine ⟨?_, hdisk⟩
      rw [run_put, hfill, putData, List.length_append, ← Nat.add_assoc]
      rfl
    | drain => simp [drainSizes] at h

/-- The whole file is stored. -/
theorem Holds.run (h : Holds area sent w) (events : List Event)
    (hwhole : WholeBlocks area (drainSizes w.fill events))
    (hend : (w.run area events).fill = 0) :
    ((w.run area events).disk.add area.start).bytes (sent ++ putData events).length =
      sent ++ putData events := by
  induction events generalizing w sent with
  | nil =>
    have hfill : w.fill = 0 := hend
    have hlen := h.length
    rw [hfill, Nat.add_zero] at hlen
    have hdisk := h.disk
    rw [hlen, List.take_length] at hdisk
    simpa [putData] using hdisk
  | cons event events ih =>
    cases event with
    | put data =>
      rw [putData, ← List.append_assoc]
      exact ih (h.put data) hwhole hend
    | drain =>
      rw [run_drain] at hend ⊢
      rw [putData]
      rw [drainSizes_drain] at hwhole
      cases hrest : drainSizes 0 events with
      | nil =>
        -- the last drain may be shorter, and no block follows it
        obtain ⟨hfill, hdisk⟩ := @run_of_no_drain area (w.drain area) events hrest
        rw [hend] at hfill
        have hnil : putData events = [] := by
          apply List.eq_nil_of_length_eq_zero
          omega
        rw [hdisk, hnil, List.append_nil]
        exact h.drained
      | cons next rest =>
        rw [hrest] at hwhole
        have hdvd : area.blk ∣ w.fill := hwhole _ (by simp [List.dropLast])
        refine ih (h.drain hdvd) ?_ hend
        intro n hn
        refine hwhole n ?_
        rw [show (w.drain area).fill = 0 from rfl, hrest] at hn
        rw [List.dropLast_cons_of_ne_nil (by simp)]
        exact List.mem_cons_of_mem _ hn

end Holds

/-! ### A drain of a part of a block -/

/-- How many bytes have been drained when a drain was not of whole blocks. -/
def gap (area : Area) : List Nat → Nat
  | [] => 0
  | n :: lengths => if area.blk ∣ n then n + gap area lengths else n

section Gap

variable {area : Area} {w : Writer}

theorem le_gap {first : Nat} {lengths : List Nat} : first ≤ gap area (first :: lengths) := by
  rw [gap]
  split <;> omega

/-- Bytes follow the gap. -/
theorem gap_lt_sum {lengths : List Nat} (hne : ∀ n ∈ lengths, n ≠ 0)
    (h : ¬WholeBlocks area lengths) : gap area lengths < lengths.sum := by
  induction lengths with
  | nil => exact absurd (fun n hn => by simp at hn) h
  | cons n lengths ih =>
    cases lengths with
    | nil => exact absurd (fun n hn => by simp at hn) h
    | cons next rest =>
      have hnext := hne next (by simp)
      rw [gap]
      split
      · next hdvd =>
          have hrest : ¬WholeBlocks area (next :: rest) := by
            intro hwhole
            refine h fun m hm => ?_
            rw [List.dropLast_cons_of_ne_nil (by simp), List.mem_cons] at hm
            rcases hm with rfl | hm
            · exact hdvd
            · exact hwhole m hm
          have := ih (fun m hm => hne m (List.mem_cons_of_mem _ hm)) hrest
          rw [List.sum_cons]
          omega
      · rw [List.sum_cons, List.sum_cons]
        omega

/-- With zeros in the buffer, and a file of zeros up to the gap, the byte at the place of
the gap in the area is a zero. -/
theorem run_gap (events : List Event) (hbuf : ∀ i, w.buf i = 0)
    (hne : ∀ n ∈ drainSizes w.fill events, n ≠ 0)
    (hgap : ¬WholeBlocks area (drainSizes w.fill events))
    (hdata : ∀ i, w.fill + i < gap area (drainSizes w.fill events) →
      (putData events).getD i 0 = 0) :
    (w.run area events).disk
      (area.start + w.offset + gap area (drainSizes w.fill events)) = 0 := by
  induction events generalizing w with
  | nil => exact absurd (fun n hn => by simp [drainSizes] at hn) hgap
  | cons event events ih =>
    cases event with
    | put data =>
      obtain ⟨first, rest, hsizes⟩ : ∃ first rest,
          drainSizes (w.fill + data.length) events = first :: rest := by
        cases hsizes : drainSizes (w.fill + data.length) events with
        | nil =>
          rw [drainSizes_put, hsizes] at hgap
          exact absurd (fun n hn => by simp at hn) hgap
        | cons first rest => exact ⟨first, rest, rfl⟩
      have hle : w.fill + data.length ≤ gap area (drainSizes (w.fill + data.length) events) := by
        have := le_of_mem_drainSizes hsizes
        rw [hsizes]
        exact this.trans le_gap
      have hzero : ∀ i, data.getD i 0 = 0 := by
        intro i
        by_cases hi : i < data.length
        · have := hdata i (by rw [drainSizes_put]; omega)
          rwa [putData, List.getD_eq_getElem?_getD, List.getElem?_append_left hi,
            ← List.getD_eq_getElem?_getD] at this
        · simp [List.getD_eq_getElem?_getD, List.getElem?_eq_none (Nat.not_lt.mp hi)]
      refine @ih (w.put data) (fun i => ?_) hne hgap fun i hi => ?_
      · simp only [Writer.put, Ptr.write, Ptr.ofList]
        split
        · exact hzero _
        · exact hbuf i
      · have := hdata (data.length + i) (by
          rw [drainSizes_put]
          simp only [Writer.put] at hi
          omega)
        rwa [putData, List.getD_eq_getElem?_getD,
          List.getElem?_append_right (Nat.le_add_right _ _), Nat.add_sub_cancel_left,
          ← List.getD_eq_getElem?_getD] at this
    | drain =>
      rw [drainSizes_drain] at hne hgap hdata ⊢
      rw [run_drain]
      by_cases hdvd : area.blk ∣ w.fill
      · have hrest : ¬WholeBlocks area (drainSizes 0 events) := by
          intro hwhole
          refine hgap fun n hn => ?_
          cases hsizes : drainSizes 0 events with
          | nil => simp [hsizes] at hn
          | cons next rest =>
            rw [hsizes] at hwhole hn
            rw [List.dropLast_cons_of_ne_nil (by simp), List.mem_cons] at hn
            rcases hn with rfl | hn
            · exact hdvd
            · exact hwhole n hn
        have hoff : (w.drain area).offset = w.offset + w.fill := by
          rw [Writer.drain, Area.align_of_dvd hdvd]
        have := @ih (w.drain area) hbuf (fun n hn => hne n (List.mem_cons_of_mem _ hn)) hrest
          (fun i hi => hdata i (by
            rw [gap, if_pos hdvd]
            simp only [Writer.drain] at hi
            omega))
        rw [hoff] at this
        rw [gap, if_pos hdvd]
        simp only [Writer.drain, ← Nat.add_assoc] at this ⊢
        exact this
      · -- the place lies in the part of the last block that the file does not fill
        have hlt : w.fill < area.align w.fill := by
          refine Nat.lt_of_le_of_ne (area.le_align _) fun heq => hdvd ?_
          rw [heq]
          exact area.dvd_align _
        rw [gap, if_neg hdvd, run_disk_outside events (.inl (by
          simp only [Writer.drain]
          omega))]
        refine (if_pos ⟨by omega, by omega⟩).trans (hbuf _)

end Gap

/-! ### The file in the area -/

/-- Blocks of the given sizes, with the bytes from a position on. -/
def blocksOf (call : Call) (file : Ptr) : Nat → List Nat → List (Call × List UInt8)
  | _, [] => []
  | pos, size :: sizes =>
    (call, (file.add pos).bytes size) :: blocksOf call file (pos + size) sizes

section Download

variable {config : Config} {area : Area}

theorem blocksOf_sizes (call : Call) (file : Ptr) (pos : Nat) (sizes : List Nat) :
    (blocksOf call file pos sizes).map (fun b => b.2.length) = sizes := by
  induction sizes generalizing pos with
  | nil => rfl
  | cons size sizes ih => rw [blocksOf, List.map_cons, ih, Ptr.length_bytes]

theorem blocksOf_flatten (call : Call) (file : Ptr) (pos : Nat) (sizes : List Nat) :
    ((blocksOf call file pos sizes).map Prod.snd).flatten = (file.add pos).bytes sizes.sum := by
  induction sizes generalizing pos with
  | nil => rfl
  | cons size sizes ih =>
    rw [blocksOf, List.map_cons, List.flatten_cons, ih, List.sum_cons, Ptr.bytes_add,
      Ptr.add_add]

theorem blocksOf_call (call : Call) (file : Ptr) (pos : Nat) (sizes : List Nat) :
    ∀ b ∈ blocksOf call file pos sizes, b.1 = call := by
  induction sizes generalizing pos with
  | nil => simp [blocksOf]
  | cons size sizes ih =>
    rw [blocksOf, List.forall_mem_cons]
    exact ⟨rfl, ih _⟩

theorem drains_ne_zero (room fill : Nat) {sizes : List Nat} (h : ∀ n ∈ sizes, n ≠ 0) :
    ∀ n ∈ drains room fill sizes, n ≠ 0 := by
  induction sizes generalizing fill with
  | nil =>
    rw [drains]
    split
    · simp
    · next hfill => simpa using hfill
  | cons size sizes ih =>
    have hsize := h size List.mem_cons_self
    have hrest := ih (blockFill room fill size) fun n hn => h n (List.mem_cons_of_mem _ hn)
    intro n hn
    rw [drains] at hn
    generalize (if fill + size > room then 0 else fill) = kept at hn
    rcases List.mem_append.mp hn with hn | hn
    · split at hn
      · next hpre =>
          obtain rfl := List.mem_singleton.mp hn
          exact hpre.2
      · simp at hn
    · rcases List.mem_append.mp hn with hn | hn
      · split at hn
        · obtain rfl := List.mem_singleton.mp hn
          omega
        · simp at hn
      · exact hrest n hn

/-- A download of blocks of these sizes always comes to an end, and when all calls
succeed, the area begins with the file and nothing outside is written. -/
def DownloadStores (config : Config) (area : Area) (sizes : List Nat) : Prop :=
  ∀ dev dfu blocks flush, Idle dev dfu → blocks.map (fun b => b.2.length) = sizes →
    ∃ dev' dfu' ok, download config (.raw area) 0 blocks flush dev dfu = some (dev', dfu', ok) ∧
      (ok = true →
        (dev'.disk.add area.start).bytes sizes.sum = (blocks.map Prod.snd).flatten ∧
        ∀ a, a < area.start ∨ area.start + area.size ≤ a → dev'.disk a = dev.disk a)

/-- The drains but the last one are of whole blocks, or the download fails because there
is no buffer or the rounded lengths do not fit. -/
def DownloadAligned (config : Config) (area : Area) (sizes : List Nat) : Prop :=
  config.mallocLen < config.bufsiz ∨ WholeBlocks area (drains config.bufsiz 0 sizes) ∨
    area.size < taken area (drains config.bufsiz 0 sizes)

theorem drainSizes_blocks {blocks : List (Call × List UInt8)} {sizes : List Nat}
    (h : blocks.map (fun b => b.2.length) = sizes) :
    drainSizes 0 (events config.bufsiz 0 (blocks.map Prod.snd)) = drains config.bufsiz 0 sizes := by
  rw [drainSizes_events, List.map_map]
  exact congrArg _ h

theorem downloadStores_of_aligned {sizes : List Nat}
    (hsizes : ∀ n ∈ sizes, n ≠ 0 ∧ n ≤ config.bufsiz) (h : DownloadAligned config area sizes) :
    DownloadStores config area sizes := by
  intro dev dfu blocks flush hidle hblocks
  have hlengths : ∀ b ∈ blocks, b.2.length ≠ 0 ∧ b.2.length ≤ config.bufsiz := by
    intro b hb
    refine hsizes _ ?_
    rw [← hblocks]
    exact List.mem_map_of_mem hb
  obtain ⟨dev', dfu', ok, hrun, hok, -⟩ :=
    @download_idle config area dev dfu hidle blocks flush hlengths
  refine ⟨dev', dfu', ok, hrun, fun htrue => ?_⟩
  obtain ⟨halloc, hin, hdisk⟩ := hok htrue
  have hfits := (inArea_iff _ (Nat.zero_le _)).mp hin
  have hdrains := @drainSizes_blocks config blocks sizes hblocks
  simp only [freshWriter, Nat.zero_add] at hfits
  rw [hdrains] at hfits
  have hsum : sizes.sum = ((blocks.map Prod.snd).flatten).length := by
    rw [← hblocks, List.length_flatten, List.map_map]
    rfl
  have hstart : Holds area [] (freshWriter dev.disk (firstGarbage blocks)) := ⟨rfl, rfl, rfl⟩
  constructor
  · rw [hdisk, hsum]
    rcases h with hmem | hwhole | hover
    · cases blocks with
      | nil => rfl
      | cons block blocks => exact absurd halloc.1 (Nat.not_le.mpr hmem)
    · have := hstart.run (events config.bufsiz 0 (blocks.map Prod.snd)) (by
        simp only [freshWriter]
        rwa [hdrains]) (@run_events_fill area (freshWriter dev.disk (firstGarbage blocks))
          config.bufsiz (blocks.map Prod.snd))
      rwa [List.nil_append, putData_events] at this
    · omega
  · intro a ha
    rw [hdisk]
    refine run_disk_outside _ (ha.imp (fun h => ?_) fun h => ⟨hin, h⟩)
    exact h

theorem aligned_of_downloadStores {sizes : List Nat}
    (hsizes : ∀ n ∈ sizes, n ≠ 0 ∧ n ≤ config.bufsiz) (h : DownloadStores config area sizes) :
    DownloadAligned config area sizes := by
  by_contra hnot
  simp only [DownloadAligned, not_or, Nat.not_lt] at hnot
  obtain ⟨hmem, hgap, hfits⟩ := hnot
  -- a file of zeros but for the byte at the gap
  obtain ⟨g, hg⟩ : ∃ g, gap area (drains config.bufsiz 0 sizes) = g := ⟨_, rfl⟩
  obtain ⟨file, hfile⟩ : ∃ file : Ptr, (fun i => if i = g then 1 else 0) = file := ⟨_, rfl⟩
  obtain ⟨call, hcall⟩ : ∃ call : Call, ⟨true, fun _ => 0, fun _ => .done⟩ = call := ⟨_, rfl⟩
  obtain ⟨blocks, hblocks⟩ : ∃ blocks, blocksOf call file 0 sizes = blocks := ⟨_, rfl⟩
  have hcuts : blocks.map (fun b => b.2.length) = sizes := by
    rw [← hblocks]
    exact blocksOf_sizes ..
  have hflat : (blocks.map Prod.snd).flatten = file.bytes sizes.sum := by
    rw [← hblocks, blocksOf_flatten]
    congr 1
    funext i
    exact congrArg file (Nat.zero_add i)
  have hcalls : ∀ b ∈ blocks, b.1 = call := by
    rw [← hblocks]
    exact blocksOf_call call file 0 sizes
  have hworks : call.Works := by
    intro n
    rw [← hcall]
  have hlengths : ∀ b ∈ blocks, b.2.length ≠ 0 ∧ b.2.length ≤ config.bufsiz := by
    intro b hb
    refine hsizes _ ?_
    rw [← hcuts]
    exact List.mem_map_of_mem hb
  have hidle : Idle ⟨fun _ => 0, none, 0, 0, [], fun _ => 0, fun _ => []⟩
      ⟨0, 0, none, 0, 0, 0, 0, false⟩ := ⟨rfl, rfl, rfl⟩
  obtain ⟨dev', dfu', ok, hrun, hok, hdone⟩ :=
    @download_idle config area _ _ hidle blocks call hlengths
  obtain ⟨dev₁, dfu₁, ok₁, hrun₁, hstored⟩ := h _ _ blocks call hidle hcuts
  obtain ⟨rfl, rfl, rfl⟩ : dev₁ = dev' ∧ dfu₁ = dfu' ∧ ok₁ = ok := by
    simpa using hrun₁.symm.trans hrun
  have hgarbage : firstGarbage blocks = fun _ => 0 := by
    cases blocks with
    | nil => rfl
    | cons block blocks =>
      have := hcalls _ List.mem_cons_self
      simp only [firstGarbage]
      rw [show block.1 = call from this, ← hcall]
  have halloc : AllocWorks config blocks := by
    cases blocks with
    | nil => trivial
    | cons block blocks =>
      refine ⟨hmem, ?_⟩
      rw [show block.1 = call from hcalls _ List.mem_cons_self, ← hcall]
  have hdrains := @drainSizes_blocks config blocks sizes hcuts
  have hin : InArea area (freshWriter (fun _ => 0) (firstGarbage blocks))
      (events config.bufsiz 0 (blocks.map Prod.snd)) := by
    refine (inArea_iff _ (Nat.zero_le _)).mpr ?_
    simp only [freshWriter, Nat.zero_add]
    rwa [hdrains]
  have htrue := hdone halloc (fun b hb => hcalls b hb ▸ hworks) hworks hin
  obtain ⟨hbytes, -⟩ := hstored htrue
  obtain ⟨-, -, hdisk⟩ := hok htrue
  have hlt : g < sizes.sum := by
    have hne := drains_ne_zero config.bufsiz 0 fun n hn => (hsizes n hn).1
    have hsum := sum_drainSizes_le 0 (events config.bufsiz 0 (blocks.map Prod.snd))
    rw [hdrains, putData_events, hflat, Ptr.length_bytes] at hsum
    have := gap_lt_sum hne hgap
    omega
  have hzero : dev₁.disk (area.start + g) = 0 := by
    have := @run_gap area (freshWriter (fun _ => 0) (firstGarbage blocks))
      (events config.bufsiz 0 (blocks.map Prod.snd)) (fun i => by rw [hgarbage]; rfl)
      (by
        simp only [freshWriter]
        rw [hdrains]
        exact drains_ne_zero config.bufsiz 0 fun n hn => (hsizes n hn).1)
      (by
        simp only [freshWriter]
        rwa [hdrains])
      (by
        intro i hi
        simp only [freshWriter, Nat.zero_add] at hi
        rw [hdrains, hg] at hi
        rw [putData_events, hflat, Ptr.bytes, List.getD_eq_getElem?_getD, List.getElem?_map,
          List.getElem?_range (by omega), ← hfile]
        simp [Nat.ne_of_lt hi])
    simp only [freshWriter, Nat.add_zero] at this
    rw [hdrains, hg] at this
    rw [hdisk]
    exact this
  have hget := congrArg (·[g]?) (hbytes.trans hflat)
  simp only [Ptr.bytes, List.getElem?_map, List.getElem?_range hlt, Option.map_some,
    Option.some.injEq, Ptr.add, hzero] at hget
  rw [← hfile] at hget
  simp at hget

end Download

end UBoot.Dfu
