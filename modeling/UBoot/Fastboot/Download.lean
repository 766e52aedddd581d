import UBoot.Fastboot.Basic

/-!
# A download

What holds while the data of a download arrives, and when it is complete. A
session is the number of bytes in the last DATA response and the bytes received
since then.
-/

namespace UBoot.Fastboot

open Verification

/-- The responses that a step has sent, the last one first. -/
def responses (s s' : State) : List Response := s'.sent.take (s'.sent.length - s.sent.length)

/-- What the host has sent since the last DATA response. -/
structure Session where
  size : UInt32
  received : List UInt8

def Session.after (session : Session) (s s' : State) (e : Event) : Session :=
  match responses s s' with
  | [.data size] => ⟨size, []⟩
  | _ =>
    match e with
    | .completion true data => ⟨session.size, session.received ++ data⟩
    | _ => session

/-- A step of the gadget, with the session. -/
def follow (cfg : Config) (p : State × Session) (e : Event) : State × Session :=
  (step cfg p.1 e, p.2.after p.1 (step cfg p.1 e) e)

theorem responses_cons {s s' : State} {r : Response} (h : s'.sent = r :: s.sent) :
    responses s s' = [r] := by
  rw [responses, h, List.length_cons, Nat.add_sub_cancel_left, List.take_succ_cons, List.take_zero]

theorem responses_same {s s' : State} (h : s'.sent = s.sent) : responses s s' = [] := by
  rw [responses, h, Nat.sub_self, List.take_zero]

/-! ### The length of a request -/

theorem rxBytesExpected_le (s : State) (isHighSpeed : Bool) :
    rxBytesExpected s (maxPacketSize isHighSpeed) ≤ EP_BUFFER_SIZE := by
  have hmax : (maxPacketSize isHighSpeed).toNat = 64 ∨ (maxPacketSize isHighSpeed).toNat = 512 := by
    cases isHighSpeed
    · exact .inl rfl
    · exact .inr rfl
  have hbuf : EP_BUFFER_SIZE.toNat = 4096 := rfl
  generalize maxPacketSize isHighSpeed = max at hmax ⊢
  simp only [rxBytesExpected]
  generalize s.downloadSize - s.downloadBytes = rest
  split_ifs with h1 h2 h3 h4
  · decide
  · rw [UInt32.le_iff_toNat_le]
  · rw [UInt32.le_iff_toNat_le]
    omega
  · -- the rest is rounded up, and the buffer is a multiple of a packet
    simp only [gt_iff_lt, UInt32.lt_iff_toNat_lt, not_lt] at h2 h3
    have hrem : (rest % max).toNat = rest.toNat % max.toNat := UInt32.toNat_mod ..
    have hless : rest.toNat % max.toNat < max.toNat := Nat.mod_lt _ (by omega)
    have hne : rest.toNat % max.toNat ≠ 0 := by
      intro h
      exact h4 (UInt32.toNat_inj.mp (hrem.trans h))
    have hsub : (max - rest % max).toNat = max.toNat - rest.toNat % max.toNat := by
      rw [UInt32.toNat_sub_of_le _ _ (UInt32.le_iff_toNat_le.mpr (by omega)), hrem]
    rw [UInt32.le_iff_toNat_le, UInt32.toNat_add, hsub]
    obtain hm | hm := hmax
    · rw [hm] at hne hless ⊢
      omega
    · rw [hm] at hne hless ⊢
      omega
  · simpa using h2

theorem maxPacketSize_le (isHighSpeed : Bool) : (maxPacketSize isHighSpeed).toNat ≤ 512 := by
  cases isHighSpeed <;> decide

theorem nextLength_le {s : State} (h : s.maxpacket.toNat ≤ 512) :
    nextLength s ≤ EP_BUFFER_SIZE := by
  have hbuf : EP_BUFFER_SIZE.toNat = 4096 := rfl
  rw [nextLength]
  split_ifs
  · rw [UInt32.le_iff_toNat_le]
    omega
  · exact rxBytesExpected_le s s.isHighSpeed

theorem maxpacket_le_nextLength (s : State) : s.maxpacket ≤ nextLength s := by
  rw [nextLength]
  split_ifs with h
  · exact UInt32.le_refl _
  · exact UInt32.not_lt.mp h

/-! ### What a step can do -/

/-- A command is refused or answered, or it starts a download. -/
structure CommandStep (cfg : Config) (s s' : State) : Prop where
  mem : s'.mem = s.mem
  writes : s'.writes = s.writes
  maxpacket : s'.maxpacket = s.maxpacket
  outcome : (s'.complete = s.complete ∧ s'.length = s.length ∧
      ∃ r, s'.sent = r :: s.sent ∧ r ≠ .okay ∧ ∀ n, r ≠ .data n) ∨
    (s'.complete = .rxHandlerDlImage ∧ s'.downloadBytes = 0 ∧ s'.downloadSize ≠ 0 ∧
      s'.downloadSize ≤ cfg.bufSize ∧ s'.sent = .data s'.downloadSize :: s.sent ∧
      (s.maxpacket.toNat ≤ 512 → s'.length ≤ EP_BUFFER_SIZE))

/-- A command that only sends something else than OKAY or DATA. -/
theorem CommandStep.answered {cfg : Config} {s t : State} {r : Response} (hokay : r ≠ .okay)
    (hdata : ∀ n, r ≠ .data n) (hmem : t.mem = s.mem) (hwrites : t.writes = s.writes)
    (hmax : t.maxpacket = s.maxpacket) (hcomplete : t.complete = s.complete)
    (hlength : t.length = s.length) (hsent : t.sent = s.sent) :
    CommandStep cfg s (t.send r) where
  mem := hmem
  writes := hwrites
  maxpacket := hmax
  outcome := .inl ⟨hcomplete, hlength, r, congrArg (r :: ·) hsent, hokay, hdata⟩

theorem CommandStep.refused {cfg : Config} {s t : State} (why : List UInt8)
    (hmem : t.mem = s.mem) (hwrites : t.writes = s.writes)
    (hmax : t.maxpacket = s.maxpacket) (hcomplete : t.complete = s.complete)
    (hlength : t.length = s.length) (hsent : t.sent = s.sent) :
    CommandStep cfg s (t.send (.fail why)) :=
  .answered nofun nofun hmem hwrites hmax hcomplete hlength hsent

theorem CommandStep.started {cfg : Config} {s t : State} (hmem : t.mem = s.mem)
    (hwrites : t.writes = s.writes) (hmax : t.maxpacket = s.maxpacket)
    (hbytes : t.downloadBytes = 0) (hne : t.downloadSize ≠ 0) (hle : t.downloadSize ≤ cfg.bufSize)
    (hsent : t.sent = s.sent) :
    CommandStep cfg s ({ t with complete := .rxHandlerDlImage, length := nextLength t }.send
      (.data t.downloadSize)) where
  mem := hmem
  writes := hwrites
  maxpacket := hmax
  outcome := .inr ⟨rfl, hbytes, hne, hle, congrArg (_ :: ·) hsent,
    fun h => nextLength_le (hmax ▸ h)⟩

theorem commandStep_cbDownload (cfg : Config) (s : State) :
    CommandStep cfg s (cbDownload cfg s) := by
  rw [cbDownload]
  generalize sizeArgument cfg s.buf = size, strsepCut s.buf EP_BUFFER_SIZE.toNat = cut
  dsimp only
  split_ifs with h1 h2
  · exact .refused _ rfl rfl rfl rfl rfl rfl
  · exact .refused _ rfl rfl rfl rfl rfl rfl
  · exact .started (t := { s with buf := cut, downloadSize := size, downloadBytes := 0 })
      rfl rfl rfl rfl h1 (UInt32.not_lt.mp h2) rfl

theorem commandStep_callback (cfg : Config) (cb : Callback) (s : State) :
    CommandStep cfg s (callback cfg cb s) := by
  cases cb with
  | cbDownload => exact commandStep_cbDownload cfg s
  | _ => exact .answered (nofun) (nofun) rfl rfl rfl rfl rfl rfl

theorem commandStep_rxHandlerCommand (cfg : Config) (s : State) (ok : Bool) (data : List UInt8) :
    CommandStep cfg s (rxHandlerCommand cfg s ok data) := by
  -- the buffer and the queue do not matter
  have frame : ∀ t : State, CommandStep cfg s t →
      CommandStep cfg s (if ok then { t with buf := poke t.buf 0 0 }
        else { t with queued := false }) := by
    intro t h
    cases ok <;> exact ⟨h.mem, h.writes, h.maxpacket, h.outcome⟩
  rw [rxHandlerCommand]
  apply frame
  cases lookup (receive s.buf data) with
  | none => exact .refused _ rfl rfl rfl rfl rfl rfl
  | some cb =>
    dsimp only
    split_ifs
    · obtain ⟨hmem, hwrites, hmax, hout⟩ := commandStep_callback cfg cb
        { s with buf := poke (receive s.buf data) data.length 0 }
      exact ⟨hmem, hwrites, hmax, hout⟩
    · exact .refused _ rfl rfl rfl rfl rfl rfl

/-- The padding only writes behind the data and inside the buffer. -/
structure PadStep (cfg : Config) (s s' : State) : Prop where
  buf : s'.buf = s.buf
  queued : s'.queued = s.queued
  mem : ∀ i < s.downloadBytes.toNat, s'.mem i = s.mem i
  writes : ∀ w ∈ s'.writes, w ∈ s.writes ∨ w.1 + w.2 ≤ cfg.bufSize.toNat
  complete : s'.complete = s.complete
  length : s'.length = s.length
  maxpacket : s'.maxpacket = s.maxpacket
  sent : s'.sent = s.sent

theorem padStep_padLoop (cfg : Config) (n : Nat) (s : State) : PadStep cfg s (padLoop cfg n s) := by
  induction n generalizing s with
  | zero => exact ⟨rfl, rfl, fun _ _ => rfl, fun w hw => .inl hw, rfl, rfl, rfl, rfl⟩
  | succ n ih =>
    rw [padLoop]
    split_ifs with hfull
    · exact ⟨rfl, rfl, fun _ _ => rfl, fun w hw => .inl hw, rfl, rfl, rfl, rfl⟩
    · have hlt : s.downloadBytes.toNat < cfg.bufSize.toNat := by
        rw [← UInt32.lt_iff_toNat_lt]
        exact UInt32.not_le.mp hfull
      have hnext : (s.downloadBytes + 1).toNat = s.downloadBytes.toNat + 1 := by
        have := cfg.bufSize.toNat_lt
        rw [UInt32.toNat_add]
        exact Nat.mod_eq_of_lt (by simp; omega)
      obtain ⟨hbuf, hqueued, hmem, hwrites, hcomplete, hlength, hmax, hsent⟩ := ih { s with
        mem := poke s.mem s.downloadBytes.toNat 0
        writes := (s.downloadBytes.toNat, 1) :: s.writes
        downloadBytes := s.downloadBytes + 1 }
      refine ⟨hbuf, hqueued, ?_, ?_, hcomplete, hlength, hmax, hsent⟩
      · intro i hi
        rw [hmem i (by rw [hnext]; omega)]
        exact if_neg (by omega)
      · intro w hw
        obtain hw | hw := hwrites w hw
        · obtain rfl | hw := List.mem_cons.mp hw
          · exact .inr hlt
          · exact .inl hw
        · exact .inr hw

theorem padStep_padDownload (cfg : Config) (s : State) : PadStep cfg s (padDownload cfg s) := by
  rw [padDownload]
  dsimp only
  split_ifs
  · obtain ⟨hbuf, hqueued, hmem, hwrites, hcomplete, hlength, hmax, hsent⟩ := padStep_padLoop cfg
      (cfg.nandBlockSize - s.downloadBytes % cfg.nandBlockSize).toNat
      { s with downloadBytesUnpadded := s.downloadBytes }
    exact ⟨hbuf, hqueued, hmem, hwrites, hcomplete, hlength, hmax, hsent⟩
  · exact ⟨rfl, rfl, fun _ _ => rfl, fun w hw => .inl hw, rfl, rfl, rfl, rfl⟩

/-! ### The invariant -/

/-- The bytes received so far are in the buffer. -/
structure Receiving (cfg : Config) (s : State) (session : Session) : Prop where
  size : session.size = s.downloadSize
  bytes_lt : s.downloadBytes < s.downloadSize
  size_le : s.downloadSize ≤ cfg.bufSize
  received : session.received.length = s.downloadBytes.toNat
  mem : s.mem.bytes s.downloadBytes.toNat = session.received

structure Inv (cfg : Config) (p : State × Session) : Prop where
  length_le : p.1.length ≤ EP_BUFFER_SIZE
  command_length : p.1.complete = .rxHandlerCommand → p.1.length = EP_BUFFER_SIZE
  maxpacket_le : p.1.maxpacket.toNat ≤ 512
  writes : ∀ w ∈ p.1.writes, w.1 + w.2 ≤ cfg.bufSize.toNat
  receiving : p.1.complete = .rxHandlerDlImage → Receiving cfg p.1 p.2

theorem receive_bytes (buf : Ptr) (data : List UInt8) {n : Nat} (h : n ≤ data.length) :
    (receive buf data).bytes n = data.take n := by
  have hsame : (receive buf data).bytes n = (Ptr.ofList data).bytes n := by
    apply Ptr.bytes_congr
    intro i hi
    exact if_pos (by omega)
  have hall := @Ptr.bytes_add_eq (Ptr.ofList data) 0 n data.length (by omega)
  have hadd : (Ptr.ofList data).add 0 = Ptr.ofList data := by
    funext i
    rw [Ptr.add, Nat.zero_add]
  rw [hadd, Ptr.bytes_ofList, List.drop_zero] at hall
  rw [hsame, hall]

theorem toNat_transferSize {s : State} {data : List UInt8} (hlen : data.length ≤ 4096)
    (hlt : s.downloadBytes < s.downloadSize) :
    (transferSize s data).toNat =
      min data.length (s.downloadSize.toNat - s.downloadBytes.toNat) := by
  have hdata : (UInt32.ofNat data.length).toNat = data.length :=
    UInt32.toNat_ofNat_of_lt' (hlen.trans_lt (by decide))
  have hrest : (s.downloadSize - s.downloadBytes).toNat =
      s.downloadSize.toNat - s.downloadBytes.toNat :=
    UInt32.toNat_sub_of_le _ _ (UInt32.le_of_lt hlt)
  simp only [transferSize, UInt32.lt_iff_toNat_lt, hdata, hrest]
  split_ifs
  · rw [hdata]
    omega
  · rw [hrest]
    omega

/-- The data that arrives is stored, up to the size of the download. -/
theorem Receiving.store {cfg : Config} {s : State} {session : Session} {data : List UInt8}
    (r : Receiving cfg s session) (hlen : data.length ≤ 4096) :
    (storeData s data).downloadBytes.toNat = s.downloadBytes.toNat + (transferSize s data).toNat ∧
      (storeData s data).mem.bytes (s.downloadBytes.toNat + (transferSize s data).toNat) =
        session.received ++ data.take (transferSize s data).toNat ∧
      ∀ w ∈ (storeData s data).writes, w ∈ s.writes ∨ w.1 + w.2 ≤ cfg.bufSize.toNat := by
  have htransfer := toNat_transferSize hlen r.bytes_lt
  have hlt := UInt32.lt_iff_toNat_lt.mp r.bytes_lt
  have hle := UInt32.le_iff_toNat_le.mp r.size_le
  have hsize := s.downloadSize.toNat_lt
  refine ⟨?_, ?_, ?_⟩
  · simp only [storeData]
    rw [UInt32.toNat_add]
    exact Nat.mod_eq_of_lt (by omega)
  · simp only [storeData]
    rw [Ptr.bytes_write_append, r.mem, receive_bytes _ _ (by omega)]
  · intro w hw
    obtain rfl | hw := List.mem_cons.mp hw
    · exact .inr (by simp only; omega)
    · exact .inl hw

/-- What the host finds when OKAY is sent. -/
structure Finished (s : State) (session : Session) : Prop where
  complete : s.complete = .rxHandlerCommand
  received : session.size.toNat ≤ session.received.length
  mem : s.mem.bytes session.size.toNat = session.received.take session.size.toNat

theorem Session.after_quiet {session : Session} {s s' : State} {data : List UInt8}
    (h : ∀ n, responses s s' ≠ [.data n]) :
    session.after s s' (.completion true data) = ⟨session.size, session.received ++ data⟩ := by
  unfold Session.after
  split
  case h_1 heq => exact absurd heq (h _)
  case h_2 => rfl

theorem step_last (cfg : Config) {s : State} {data : List UInt8}
    (hdl : s.complete = .rxHandlerDlImage)
    (hlast : (storeData s data).downloadBytes ≥ s.downloadSize) :
    step cfg s (.completion true data) = padDownload cfg ({ storeData s data with
      downloadSize := 0
      complete := .rxHandlerCommand
      length := EP_BUFFER_SIZE }.send .okay) := by
  simp only [step, hdl, rxHandlerDlImage, if_true]
  exact if_pos hlast

theorem inv_last {cfg : Config} {s : State} {session : Session} {data : List UInt8}
    (inv : Inv cfg (s, session)) (r : Receiving cfg s session) (hlen : data.length ≤ 4096)
    (hlast : (storeData s data).downloadBytes ≥ s.downloadSize)
    (hdl : s.complete = .rxHandlerDlImage) :
    Inv cfg (follow cfg (s, session) (.completion true data)) ∧
      Finished (follow cfg (s, session) (.completion true data)).1
        (follow cfg (s, session) (.completion true data)).2 := by
  obtain ⟨hbytes, hmem, hwrites⟩ := r.store hlen
  have htransfer := toNat_transferSize hlen r.bytes_lt
  have hlt := UInt32.lt_iff_toNat_lt.mp r.bytes_lt
  have hge := UInt32.le_iff_toNat_le.mp hlast
  have hstep := step_last cfg hdl hlast
  obtain ⟨-, -, pmem, pwrites, pcomplete, plength, pmax, psent⟩ := padStep_padDownload cfg
    ({ storeData s data with
        downloadSize := 0
        complete := .rxHandlerCommand
        length := EP_BUFFER_SIZE }.send .okay)
  rw [← hstep] at pmem pwrites pcomplete plength pmax psent
  have hsession : session.after s (step cfg s (.completion true data)) (.completion true data) =
      ⟨session.size, session.received ++ data⟩ := by
    apply Session.after_quiet
    rw [responses_cons (s := s) (r := .okay) psent]
    nofun
  simp only [follow, hsession]
  refine ⟨⟨?_, ?_, ?_, ?_, ?_⟩, ⟨?_, ?_, ?_⟩⟩
  · exact plength ▸ UInt32.le_refl _
  · exact fun _ => plength
  · exact pmax ▸ inv.maxpacket_le
  · intro w hw
    obtain hw | hw := pwrites w hw
    · obtain hw | hw := hwrites w hw
      · exact inv.writes w hw
      · exact hw
    · exact hw
  · intro h
    exact absurd (pcomplete.symm.trans h) nofun
  · exact pcomplete
  · simp only [r.size, List.length_append, r.received]
    omega
  · have hsum : s.downloadBytes.toNat + (transferSize s data).toNat = s.downloadSize.toNat := by
      omega
    rw [hsum] at hmem hbytes
    have hpad : (step cfg s (.completion true data)).mem.bytes s.downloadSize.toNat =
        (storeData s data).mem.bytes s.downloadSize.toNat := by
      apply Ptr.bytes_congr
      intro i hi
      exact pmem i (hi.trans_le hbytes.ge)
    simp only [r.size]
    have hfirst : session.received.take s.downloadSize.toNat = session.received :=
      List.take_of_length_le (by rw [r.received]; omega)
    rw [hpad, hmem, List.take_append, r.received, hfirst, ← hsum, Nat.add_sub_cancel_left]

/-- A request of a download that leaves some bytes to come. -/
theorem inv_more {cfg : Config} {s : State} {session : Session} {data : List UInt8}
    (inv : Inv cfg (s, session)) (r : Receiving cfg s session) (hlen : data.length ≤ 4096)
    (hmore : ¬(storeData s data).downloadBytes ≥ s.downloadSize)
    (hdl : s.complete = .rxHandlerDlImage) :
    Inv cfg (follow cfg (s, session) (.completion true data)) ∧
      responses s (follow cfg (s, session) (.completion true data)).1 = [] := by
  obtain ⟨hbytes, hmem, hwrites⟩ := r.store hlen
  have htransfer := toNat_transferSize hlen r.bytes_lt
  have hlt := UInt32.lt_iff_toNat_lt.mp r.bytes_lt
  have hless := UInt32.lt_iff_toNat_lt.mp (UInt32.not_le.mp hmore)
  have hstep : step cfg s (.completion true data) =
      { storeData s data with length := nextLength (storeData s data) } := by
    simp only [step, hdl, rxHandlerDlImage, if_true]
    exact if_neg hmore
  have hquiet : responses s (step cfg s (.completion true data)) = [] := by
    apply responses_same
    rw [hstep]
    rfl
  have hsession : session.after s (step cfg s (.completion true data)) (.completion true data) =
      ⟨session.size, session.received ++ data⟩ := by
    apply Session.after_quiet
    rw [hquiet]
    nofun
  have hall : (transferSize s data).toNat = data.length := by omega
  simp only [follow, hsession]
  refine ⟨?_, hquiet⟩
  rw [hstep]
  refine ⟨nextLength_le inv.maxpacket_le, ?_, inv.maxpacket_le, ?_, ?_⟩
  · intro h
    exact absurd (hdl.symm.trans h) nofun
  · intro w hw
    obtain hw | hw := hwrites w hw
    · exact inv.writes w hw
    · exact hw
  · intro _
    refine ⟨r.size, UInt32.not_le.mp hmore, r.size_le, ?_, ?_⟩
    · simp only [List.length_append, r.received, hbytes, hall]
    · simp only [hbytes]
      rw [hmem, hall, List.take_length]

/-- A command, from the request that brought it. -/
theorem inv_command {cfg : Config} {s : State} {session : Session} {ok : Bool} {data : List UInt8}
    (inv : Inv cfg (s, session)) (hcmd : s.complete = .rxHandlerCommand) :
    Inv cfg (follow cfg (s, session) (.completion ok data)) ∧
      .okay ∉ responses s (follow cfg (s, session) (.completion ok data)).1 := by
  have hstep : step cfg s (.completion ok data) = rxHandlerCommand cfg s ok data := by
    simp only [step, hcmd]
  obtain ⟨hmem, hwrites, hmax, hout⟩ := commandStep_rxHandlerCommand cfg s ok data
  rw [← hstep] at hmem hwrites hmax hout
  simp only [follow]
  have hmax_le : (step cfg s (.completion ok data)).maxpacket.toNat ≤ 512 :=
    hmax ▸ inv.maxpacket_le
  have hwrites_le : ∀ w ∈ (step cfg s (.completion ok data)).writes,
      w.1 + w.2 ≤ cfg.bufSize.toNat := hwrites ▸ inv.writes
  obtain ⟨hcomplete, hlength, r, hsent, hokay, -⟩ | ⟨hdl, hbytes, hne, hle, hsent, hlength⟩ := hout
  · refine ⟨⟨hlength ▸ inv.length_le, ?_, hmax_le, hwrites_le, ?_⟩, ?_⟩
    · intro _
      exact hlength.trans (inv.command_length hcmd)
    · intro h
      exact absurd ((hcomplete.trans hcmd).symm.trans h) nofun
    · rw [responses_cons hsent, List.mem_singleton]
      exact hokay.symm
  · refine ⟨⟨hlength inv.maxpacket_le, ?_, hmax_le, hwrites_le, ?_⟩, ?_⟩
    · intro h
      exact absurd (hdl.symm.trans h) nofun
    · intro _
      have hsession : session.after s (step cfg s (.completion ok data)) (.completion ok data) =
          ⟨(step cfg s (.completion ok data)).downloadSize, []⟩ := by
        unfold Session.after
        rw [responses_cons hsent]
      simp only [hsession]
      refine ⟨rfl, ?_, hle, ?_, ?_⟩
      · rw [hbytes]
        exact UInt32.pos_iff_ne_zero.mpr hne
      · rw [hbytes]
        rfl
      · rw [hbytes]
        rfl
    · rw [responses_cons hsent, List.mem_singleton]
      nofun

/-- A step that changes neither the download nor the memory. -/
theorem Inv.frame {cfg : Config} {s t : State} {session : Session} {e : Event}
    (inv : Inv cfg (s, session)) (hstep : step cfg s e = t) (hlength : t.length = s.length)
    (hcomplete : t.complete = s.complete) (hmax : t.maxpacket.toNat ≤ 512)
    (hwrites : t.writes = s.writes) (hmem : t.mem = s.mem) (hsize : t.downloadSize = s.downloadSize)
    (hbytes : t.downloadBytes = s.downloadBytes) (hsent : t.sent = s.sent)
    (he : session.after s t e = session) :
    Inv cfg (follow cfg (s, session) e) ∧ .okay ∉ responses s (follow cfg (s, session) e).1 := by
  simp only [follow, hstep, he]
  refine ⟨⟨hlength ▸ inv.length_le, ?_, hmax, hwrites ▸ inv.writes, ?_⟩, ?_⟩
  · intro h
    exact hlength.trans (inv.command_length (hcomplete.symm.trans h))
  · intro h
    have r := inv.receiving (hcomplete.symm.trans h)
    exact ⟨r.size.trans hsize.symm, hbytes ▸ hsize ▸ r.bytes_lt, hsize ▸ r.size_le,
      hbytes ▸ r.received, hmem ▸ hbytes ▸ r.mem⟩
  · rw [responses_same hsent]
    exact List.not_mem_nil

/-- Every step keeps the invariant, and OKAY is sent when the data is complete. -/
theorem inv_follow {cfg : Config} {p : State × Session} {e : Event} (inv : Inv cfg p)
    (possible : Possible p.1 e) :
    Inv cfg (follow cfg p e) ∧ (.okay ∈ responses p.1 (follow cfg p e).1 →
      Finished (follow cfg p e).1 (follow cfg p e).2) := by
  obtain ⟨s, session⟩ := p
  -- the steps that send no OKAY
  have quiet : Inv cfg (follow cfg (s, session) e) ∧
      .okay ∉ responses s (follow cfg (s, session) e).1 → Inv cfg (follow cfg (s, session) e) ∧
      (.okay ∈ responses s (follow cfg (s, session) e).1 →
        Finished (follow cfg (s, session) e).1 (follow cfg (s, session) e).2) :=
    fun h => ⟨h.1, fun hokay => absurd hokay h.2⟩
  cases e with
  | completion ok data =>
    have hlen : data.length ≤ 4096 :=
      possible.2.trans (UInt32.le_iff_toNat_le.mp inv.length_le)
    cases hcomplete : s.complete with
    | rxHandlerCommand => exact quiet (inv_command inv hcomplete)
    | rxHandlerDlImage =>
      cases ok with
      | false =>
        have hsent : responses s { s with buf := receive s.buf data, queued := false } = [] :=
          responses_same rfl
        refine quiet (inv.frame (t := { s with buf := receive s.buf data, queued := false })
          ?_ rfl rfl inv.maxpacket_le rfl rfl rfl rfl rfl ?_)
        · simp only [step, hcomplete, rxHandlerDlImage]
          rfl
        · unfold Session.after
          rw [hsent]
      | true =>
        have r := inv.receiving hcomplete
        by_cases hlast : (storeData s data).downloadBytes ≥ s.downloadSize
        · obtain ⟨hinv, hdone⟩ := inv_last inv r hlen hlast hcomplete
          exact ⟨hinv, fun _ => hdone⟩
        · obtain ⟨hinv, hnone⟩ := inv_more inv r hlen hlast hcomplete
          exact quiet ⟨hinv, hnone ▸ List.not_mem_nil⟩
  | setAlt isHighSpeed =>
    have hsent : responses s (setAlt s isHighSpeed) = [] := responses_same rfl
    refine quiet ⟨⟨UInt32.le_refl _, fun _ => rfl, maxPacketSize_le isHighSpeed, inv.writes,
      nofun⟩, ?_⟩
    exact hsent ▸ List.not_mem_nil
  | portChange isHighSpeed =>
    have hsent : responses s (step cfg s (.portChange isHighSpeed)) = [] := responses_same rfl
    refine quiet (inv.frame rfl rfl rfl ?_ rfl rfl rfl rfl rfl ?_)
    · simp only [step]
      split_ifs
      · exact maxPacketSize_le isHighSpeed
      · exact inv.maxpacket_le
    · unfold Session.after
      rw [hsent]

theorem inv_start (cfg : Config) (isHighSpeed : Bool) (mem : Ptr) (session : Session) :
    Inv cfg (start isHighSpeed mem, session) where
  length_le := UInt32.le_refl _
  command_length := fun _ => rfl
  maxpacket_le := maxPacketSize_le isHighSpeed
  writes := nofun
  receiving := nofun

theorem run_follow_fst (cfg : Config) (p : State × Session) (events : List Event) :
    (run (follow cfg) p events).1 = run (step cfg) p.1 events := by
  induction events generalizing p with
  | nil => rfl
  | cons e events ih => exact ih (follow cfg p e)

theorem guarded_follow {cfg : Config} {p : State × Session} {events : List Event}
    (h : Guarded (step cfg) Possible p.1 events) :
    Guarded (follow cfg) (fun p => Possible p.1) p events := by
  induction events generalizing p with
  | nil => trivial
  | cons e events ih => exact ⟨h.1, ih h.2⟩

/-- In every session the data of a download stays inside the transfer buffer,
the requests fit their buffer, and OKAY means that the data is there. -/
theorem fastboot_download (cfg : Config) (isHighSpeed : Bool) (mem : Ptr) {events : List Event}
    (possible : Guarded (follow cfg) (fun p => Possible p.1) (start isHighSpeed mem, ⟨0, []⟩)
      events) :
    let p := run (follow cfg) (start isHighSpeed mem, ⟨0, []⟩) events
    (p.1.complete = .rxHandlerDlImage →
      p.1.downloadBytes ≤ p.1.downloadSize ∧ p.1.downloadSize ≤ cfg.bufSize) ∧
    (∀ w ∈ p.1.writes, w.1 + w.2 ≤ cfg.bufSize.toNat) ∧
    p.1.length ≤ EP_BUFFER_SIZE ∧
    ∀ e, Possible p.1 e → .okay ∈ responses p.1 (follow cfg p e).1 →
      Finished (follow cfg p e).1 (follow cfg p e).2 := by
  intro p
  have inv : Inv cfg p := possible.invariant (fun p e hp he => (inv_follow hp he).1)
    (inv_start cfg isHighSpeed mem ⟨0, []⟩)
  refine ⟨?_, inv.writes, inv.length_le, fun e he => (inv_follow inv he).2⟩
  intro h
  have r := inv.receiving h
  exact ⟨UInt32.le_of_lt r.bytes_lt, r.size_le⟩

/-- A configuration with a transfer buffer of 1 MiB and NAND pages of 512 bytes. -/
def nandConfig : Config where
  bufSize := 0x100000
  bufSize_pos := by decide
  nandBlockSize := 512
  strtoulNull := 0
  answer := fun _ _ => []

/-- A download of six bytes; the host has sent the first four. -/
def downloadSix : State × Session :=
  run (follow nandConfig) (start true 0, ⟨0, []⟩)
    [.completion true (ascii "download:00000006"), .completion true (ascii "abcd")]

theorem fastboot_download_six :
    .okay ∈ responses downloadSix.1
        (follow nandConfig downloadSix (.completion true (ascii "efgh"))).1 ∧
      Finished (follow nandConfig downloadSix (.completion true (ascii "efgh"))).1
        (follow nandConfig downloadSix (.completion true (ascii "efgh"))).2 := by
  have hokay : .okay ∈ responses downloadSix.1
      (follow nandConfig downloadSix (.completion true (ascii "efgh"))).1 := by decide +kernel
  exact ⟨hokay, (fastboot_download nandConfig true 0 (by decide +kernel)).2.2.2
    (.completion true (ascii "efgh")) (by decide +kernel) hokay⟩

end UBoot.Fastboot
