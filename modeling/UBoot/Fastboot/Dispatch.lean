import UBoot.Fastboot.Download

/-!
# The command of a packet

`rx_handler_command` compares the table of commands with the receive buffer, not
with the packet. Behind a short packet stands what earlier packets have left.
Which packets make a difference is decided here, over all histories.
-/

namespace UBoot.Fastboot

open Verification

/-- A state in which the next packet is a command. -/
def Ready (cfg : Config) (s : State) : Prop :=
  ∃ isHighSpeed mem events, Guarded (step cfg) Possible (start isHighSpeed mem) events ∧
    s = run (step cfg) (start isHighSpeed mem) events ∧
    s.complete = .rxHandlerCommand ∧ s.queued = true

/-- Packets behind which the handler reads on: the beginning of a command, and
the command `oem` without an argument. -/
def Ambiguous (data : List UInt8) : Prop :=
  (∃ info ∈ cmdDispatchInfo, data <+: info.1 ∧ data ≠ info.1) ∨ data = ascii "oem"

instance : DecidablePred Ambiguous := fun _ => inferInstanceAs (Decidable (_ ∨ _))

/-! ### Strings in the buffer -/

theorem strncmp_eq_zero_iff {cs : List UInt8} (hcs : 0 ∉ cs) (p : Ptr) :
    strncmp cs p = 0 ↔ p.bytes cs.length = cs := by
  induction cs generalizing p with
  | nil => simp [strncmp, Ptr.bytes]
  | cons c cs ih =>
    have hc : c ≠ 0 := fun h => hcs (h ▸ List.mem_cons_self ..)
    have hrest := ih (fun h => hcs (List.mem_cons_of_mem _ h)) (p.add 1)
    have hbytes : p.bytes (c :: cs).length = p 0 :: (p.add 1).bytes cs.length := by
      rw [List.length_cons, Nat.add_comm, Ptr.bytes_add]
      rfl
    rw [hbytes, List.cons.injEq, ← hrest, strncmp]
    by_cases hsame : p 0 = c
    · simp [hsame, hc]
    · have hne : c - p 0 ≠ 0 := fun h => hsame (sub_eq_zero.mp h).symm
      simp [hsame, hne]

/-- A packet is found in the buffer, with a zero behind it. -/
theorem bytes_terminated (buf : Ptr) {data : List UInt8} {n : Nat} (h : data.length < n) :
    ∃ rest, (poke (receive buf data) data.length 0).bytes n = data ++ 0 :: rest := by
  obtain ⟨m, rfl⟩ := Nat.exists_eq_add_of_lt h
  rw [Nat.add_assoc, Ptr.bytes_add]
  have hfirst : (poke (receive buf data) data.length 0).bytes data.length = data := by
    have hsame : (poke (receive buf data) data.length 0).bytes data.length =
        (receive buf data).bytes data.length := by
      apply Ptr.bytes_congr
      intro i hi
      exact if_neg (by omega)
    rw [hsame, receive_bytes _ _ le_rfl, List.take_length]
  refine ⟨(((poke (receive buf data) data.length 0).add data.length).add 1).bytes m, ?_⟩
  rw [hfirst, Nat.add_comm m 1, Ptr.bytes_add]
  simp [Ptr.bytes, Ptr.add, poke]

theorem cString_terminated (buf : Ptr) {data : List UInt8} {n : Nat} (h : data.length < n) :
    cString (poke (receive buf data) data.length 0) n = data.takeWhile (· ≠ 0) := by
  obtain ⟨rest, hbytes⟩ := bytes_terminated buf h
  rw [cString, hbytes, takeWhile_append_of_nil (List.takeWhile_cons_of_neg (by decide))]

theorem cString_terminated_add (buf : Ptr) {data : List UInt8} {k n : Nat} (hk : k ≤ data.length)
    (h : data.length < k + n) :
    cString ((poke (receive buf data) data.length 0).add k) n =
      (data.drop k).takeWhile (· ≠ 0) := by
  obtain ⟨rest, hbytes⟩ := bytes_terminated buf h
  have hdrop : ((poke (receive buf data) data.length 0).add k).bytes n =
      data.drop k ++ 0 :: rest := by
    rw [Ptr.bytes_add_eq _ (le_refl (k + n)), hbytes, List.drop_append_of_le_length hk]
    apply List.take_of_length_le
    have := congrArg List.length hbytes
    rw [Ptr.length_bytes, List.length_append] at this
    rw [List.length_append, List.length_drop]
    omega
  rw [cString, hdrop, takeWhile_append_of_nil (List.takeWhile_cons_of_neg (by decide))]

/-! ### Packets that are not ambiguous -/

/-- What the names of the commands are like. -/
theorem cmd_spec : ∀ info ∈ cmdDispatchInfo,
    ((0 : UInt8) ∉ info.1 ∧ info.1 ≠ [] ∧ info.1.length < 4096) ∧
    (info.2 = .cbOem → info.1 = ascii "oem") ∧
    (info.2 = .cbDownload → info.1 = ascii "download:") := by
  decide

theorem zero_not_mem_cmd : ∀ info ∈ cmdDispatchInfo, (0 : UInt8) ∉ info.1 :=
  fun info hinfo => (cmd_spec info hinfo).1.1

/-- A command is found in the packet itself. -/
theorem strcmpL1_receive_iff {data : List UInt8} (h : ¬Ambiguous data) (buf : Ptr)
    {info : List UInt8 × Callback} (hinfo : info ∈ cmdDispatchInfo) :
    strcmpL1 info.1 (receive buf data) = 0 ↔ info.1 <+: data := by
  rw [strcmpL1, strncmp_eq_zero_iff (zero_not_mem_cmd info hinfo)]
  obtain hlt | hle := Nat.lt_or_ge data.length info.1.length
  · refine ⟨fun heq => absurd ?_ h, fun hp => absurd hp.length_le (by omega)⟩
    -- the command goes on behind the packet
    refine .inl ⟨info, hinfo, ?_, fun he => by rw [he] at hlt; omega⟩
    obtain ⟨k, hk⟩ := Nat.exists_eq_add_of_le hlt.le
    rw [hk, Ptr.bytes_add, receive_bytes buf data le_rfl, List.take_length] at heq
    exact ⟨_, heq⟩
  · rw [receive_bytes buf data hle, List.prefix_iff_eq_take]
    exact eq_comm

/-- The command that a packet starts with. -/
def command (data : List UInt8) : Option Callback :=
  (cmdDispatchInfo.find? fun info => info.1 <+: data).map Prod.snd

theorem lookup_receive {data : List UInt8} (h : ¬Ambiguous data) (buf : Ptr) :
    lookup (receive buf data) = command data := by
  have hfind : ∀ l : List (List UInt8 × Callback), (∀ info ∈ l, info ∈ cmdDispatchInfo) →
      l.find? (fun info => decide (strcmpL1 info.1 (receive buf data) = 0)) =
        l.find? (fun info => decide (info.1 <+: data)) := by
    intro l hl
    induction l with
    | nil => rfl
    | cons info l ih =>
      rw [List.find?_cons, List.find?_cons, ih fun i hi => hl i (List.mem_cons_of_mem _ hi),
        decide_eq_decide.mpr (strcmpL1_receive_iff h buf (hl info (List.mem_cons_self ..)))]
  rw [lookup, command, hfind _ fun _ hi => hi]

/-- A command that was found is at the start of the packet. -/
theorem prefix_of_command {data : List UInt8} {cb : Callback} (h : command data = some cb) :
    ∃ info ∈ cmdDispatchInfo, info.2 = cb ∧ info.1 <+: data := by
  rw [command, Option.map_eq_some_iff] at h
  obtain ⟨info, hfind, hcb⟩ := h
  exact ⟨info, List.mem_of_find?_eq_some hfind, hcb, by simpa using List.find?_some hfind⟩

def packetArgument (cb : Callback) (data : List UInt8) : Option (List UInt8) :=
  match cb with
  | .cbGetvar | .cbDownload | .cbFlash | .cbErase => strsep (data.takeWhile (· ≠ 0))
  | .cbOem => some ((data.drop 4).takeWhile (· ≠ 0))
  | _ => none

theorem argument_terminated {data : List UInt8} (h : ¬Ambiguous data) {cb : Callback}
    (hcb : command data = some cb) (buf : Ptr) (hlen : data.length < EP_BUFFER_SIZE.toNat) :
    argument cb (poke (receive buf data) data.length 0) = packetArgument cb data := by
  cases cb with
  | cbGetvar | cbDownload | cbFlash | cbErase =>
    simp only [argument, packetArgument, cString_terminated buf hlen]
  | cbOem =>
    obtain ⟨info, hinfo, hoem, hp⟩ := prefix_of_command hcb
    rw [(cmd_spec info hinfo).2.1 hoem] at hp
    have hfour : 4 ≤ data.length := by
      have hle := hp.length_le
      have hne : (ascii "oem").length ≠ data.length := fun he => h (.inr (hp.eq_of_length he).symm)
      have hthree : (ascii "oem").length = 3 := by decide
      omega
    have hroom : data.length < 4 + (EP_BUFFER_SIZE.toNat - 4) := by
      rw [Nat.add_sub_cancel' (by decide)]
      exact hlen
    simp only [argument, packetArgument, cString_terminated_add buf hfour hroom]
  | _ => rfl

/-- What the callback and its argument are, in terms of the packet alone. -/
theorem dispatch_eq {data : List UInt8} (h : ¬Ambiguous data) {s : State}
    (hlength : s.length = EP_BUFFER_SIZE) :
    dispatch s data = if data.length < EP_BUFFER_SIZE.toNat then
      (command data).map fun cb => (cb, packetArgument cb data) else none := by
  unfold dispatch
  dsimp only
  rw [lookup_receive h s.buf, hlength]
  by_cases hlen : data.length < EP_BUFFER_SIZE.toNat
  · rw [if_pos hlen]
    cases hcb : command data with
    | none => rfl
    | some cb =>
      dsimp only
      rw [if_pos hlen, argument_terminated h hcb s.buf hlen, Option.map_some]
  · rw [if_neg hlen]
    cases command data with
    | none => rfl
    | some cb => exact if_neg hlen

theorem packetArgument_download {data : List UInt8} (h : command data = some .cbDownload) :
    packetArgument .cbDownload data ≠ none := by
  obtain ⟨info, hinfo, hdl, hp⟩ := prefix_of_command h
  rw [(cmd_spec info hinfo).2.2 hdl] at hp
  obtain ⟨rest, rfl⟩ := hp
  obtain ⟨hletters, hsplit, hcolon⟩ : (∀ b ∈ ascii "download:", decide (b ≠ 0) = true) ∧
      ascii "download:" = ascii "download" ++ [58] ∧
      ∀ b ∈ ascii "download", decide (b ≠ 58) = true := by decide +kernel
  have htake : (ascii "download:" ++ rest).takeWhile (· ≠ 0) =
      ascii "download:" ++ rest.takeWhile (· ≠ 0) :=
    List.takeWhile_append_of_pos hletters
  have hdrop : (ascii "download:" ++ rest.takeWhile (· ≠ 0)).dropWhile (· ≠ 58) =
      58 :: rest.takeWhile (· ≠ 0) := by
    rw [hsplit, List.append_assoc, List.dropWhile_append_of_pos hcolon]
    rfl
  simp only [packetArgument, strsep]
  rw [htake, hdrop]
  nofun

/-! ### Histories -/

theorem Ready.length_eq {cfg : Config} {s : State} (h : Ready cfg s) :
    s.length = EP_BUFFER_SIZE := by
  obtain ⟨isHighSpeed, mem, events, possible, rfl, hcomplete, -⟩ := h
  have guarded := guarded_follow (p := (start isHighSpeed mem, ⟨0, []⟩)) possible
  have inv := guarded.invariant (fun p e hp he => (inv_follow hp he).1)
    (inv_start cfg isHighSpeed mem ⟨0, []⟩)
  have hlength := inv.command_length
  rw [run_follow_fst] at hlength
  exact hlength hcomplete

theorem ready_start (cfg : Config) : Ready cfg (start true 0) :=
  ⟨true, 0, [], trivial, rfl, rfl, rfl⟩

/-- An unknown command stays in the buffer, but for its first byte. -/
theorem step_unknown (cfg : Config) {data : List UInt8}
    (h : lookup (receive 0 data) = none) :
    step cfg (start true 0) (.completion true data) = { start true 0 with
      buf := poke (receive 0 data) 0 0
      sent := [.fail (ascii "unknown command")] } := by
  have hstep : step cfg (start true 0) (.completion true data) =
      rxHandlerCommand cfg (start true 0) true data := rfl
  rw [hstep]
  unfold rxHandlerCommand
  have hl : lookup (receive (start true 0).buf data) = none := h
  dsimp only
  rw [hl]
  rfl

theorem ready_unknown (cfg : Config) {data : List UInt8} (h : lookup (receive 0 data) = none)
    (hlen : data.length ≤ 4096) :
    Ready cfg { start true 0 with
      buf := poke (receive 0 data) 0 0
      sent := [.fail (ascii "unknown command")] } :=
  ⟨true, 0, [.completion true data], ⟨⟨rfl, hlen⟩, trivial⟩, (step_unknown cfg h).symm, rfl, rfl⟩

theorem lookup_eq_of_dispatch {s s' : State} {buf buf' : Ptr} {data : List UInt8}
    (h : dispatch s data = dispatch s' data) (hbuf : s.buf = buf) (hbuf' : s'.buf = buf')
    (hs : data.length < s.length.toNat) (hs' : data.length < s'.length.toNat) :
    lookup (receive buf data) = lookup (receive buf' data) := by
  have hmap : ∀ t : State, data.length < t.length.toNat →
      (dispatch t data).map Prod.fst = lookup (receive t.buf data) := by
    intro t ht
    unfold dispatch
    dsimp only
    cases lookup (receive t.buf data) with
    | none => rfl
    | some cb =>
      dsimp only
      rw [if_pos ht]
      rfl
  rw [← hbuf, ← hbuf', ← hmap s hs, ← hmap s' hs', h]

/-- What is sent before the beginning of a command, to complete it. -/
def completion (cmd : List UInt8) : List UInt8 := 63 :: cmd.drop 1

/-- The rest of a command in the buffer completes its beginning. -/
theorem lookup_completion : ∀ info ∈ cmdDispatchInfo,
    lookup (receive 0 (completion info.1)) = none ∧
    ∀ k < info.1.length, 0 < k →
      lookup (receive (poke (receive 0 (completion info.1)) 0 0) (info.1.take k)) ≠
        lookup (receive 0 (info.1.take k)) := by
  decide

theorem rxHandlerCommand_found (cfg : Config) {s : State} {data : List UInt8} {cb : Callback}
    (hl : lookup (receive s.buf data) = some cb) (hlen : data.length < s.length.toNat) :
    rxHandlerCommand cfg s true data =
      let t := callback cfg cb { s with buf := poke (receive s.buf data) data.length 0 }
      { t with buf := poke t.buf 0 0 } := by
  unfold rxHandlerCommand
  dsimp only
  rw [hl, if_pos rfl]
  dsimp only
  rw [if_pos hlen]

theorem cbDownload_accepted {cfg : Config} {s : State} {n : UInt32}
    (hsize : sizeArgument cfg s.buf = n) (hne : n ≠ 0) (hle : n ≤ cfg.bufSize) :
    ∃ t, cbDownload cfg s = t ∧ t.buf = strsepCut s.buf EP_BUFFER_SIZE.toNat ∧
      t.complete = .rxHandlerDlImage ∧ t.queued = s.queued ∧ t.downloadSize = n ∧
      t.downloadBytes = 0 ∧ s.maxpacket ≤ t.length := by
  unfold cbDownload
  generalize strsepCut s.buf EP_BUFFER_SIZE.toNat = cut
  dsimp only
  rw [hsize, if_neg hne, if_neg (UInt32.not_lt.mpr hle)]
  exact ⟨_, rfl, rfl, rfl, rfl, rfl, rfl,
    maxpacket_le_nextLength { s with buf := cut, downloadSize := n, downloadBytes := 0 }⟩

/-- A buffer that holds the data of a download. -/
def rebootData : Ptr :=
  receive (poke (strsepCut (poke (receive 0 (ascii "download:1")) 10 0) 4096) 0 0) (ascii "reboot")

/-- The gadget after `download:1`. -/
theorem step_download (cfg : Config) :
    ∃ t, step cfg (start true 0) (.completion true (ascii "download:1")) = t ∧
      receive t.buf (ascii "reboot") = rebootData ∧ t.complete = .rxHandlerDlImage ∧
      t.queued = true ∧ t.downloadSize = 1 ∧ t.downloadBytes = 0 ∧ 512 ≤ t.length := by
  obtain ⟨hl, hten, harg⟩ :
      lookup (receive (start true 0).buf (ascii "download:1")) = some .cbDownload ∧
      (ascii "download:1").length = 10 ∧
      argument .cbDownload (poke (receive (start true 0).buf (ascii "download:1")) 10 0) =
        some [49] := by
    decide +kernel
  have hsize : sizeArgument cfg (poke (receive (start true 0).buf (ascii "download:1")) 10 0) =
      1 := by
    unfold sizeArgument
    rw [harg]
    rfl
  have hone : (1 : UInt32) ≤ cfg.bufSize := by
    have := UInt32.lt_iff_toNat_lt.mp cfg.bufSize_pos
    rw [UInt32.le_iff_toNat_le]
    exact this
  have hfound := rxHandlerCommand_found cfg hl (by rw [hten]; decide)
  rw [hten] at hfound
  obtain ⟨t, ht, hbuf, hcomplete, hqueued, hdl, hbytes, hlength⟩ := cbDownload_accepted
    (s := { start true 0 with buf := poke (receive (start true 0).buf (ascii "download:1")) 10 0 })
    hsize (by decide) hone
  refine ⟨{ t with buf := poke t.buf 0 0 }, ?_, ?_, hcomplete, hqueued, hdl, hbytes, hlength⟩
  · rw [← ht]
    exact hfound
  · dsimp only
    rw [hbuf]
    rfl

theorem ready_rebootData (cfg : Config) : ∃ s, Ready cfg s ∧ s.buf = rebootData := by
  obtain ⟨t, ht, hbuf, hcomplete, hqueued, hsize, hbytes, hlength⟩ := step_download cfg
  have hsix : (ascii "reboot").length = 6 := by decide
  have hlt : t.downloadBytes < t.downloadSize := by
    rw [hsize, hbytes]
    decide
  have hlast : (storeData t (ascii "reboot")).downloadBytes ≥ t.downloadSize := by
    have htransfer : transferSize t (ascii "reboot") = 1 := by
      rw [← UInt32.toNat_inj, toNat_transferSize (by rw [hsix]; decide) hlt, hsize, hbytes, hsix]
      rfl
    simp only [storeData, htransfer, hsize, hbytes]
    decide
  have pad := padStep_padDownload cfg ({ storeData t (ascii "reboot") with
    downloadSize := 0
    complete := .rxHandlerCommand
    length := EP_BUFFER_SIZE }.send .okay)
  rw [← step_last cfg hcomplete hlast] at pad
  have hrun : run (step cfg) (start true 0)
      [.completion true (ascii "download:1"), .completion true (ascii "reboot")] =
        step cfg t (.completion true (ascii "reboot")) := by
    rw [run_cons, run_cons, run_nil, ht]
  refine ⟨_, ⟨true, 0, [.completion true (ascii "download:1"), .completion true (ascii "reboot")],
    ⟨⟨rfl, by decide⟩, ?_, trivial⟩, hrun.symm, pad.complete, pad.queued.trans hqueued⟩,
    pad.buf.trans hbuf⟩
  rw [ht]
  refine ⟨hqueued, ?_⟩
  have := UInt32.le_iff_toNat_le.mp hlength
  rw [hsix]
  exact le_trans (by decide) this

/-- A packet is dispatched on its own bytes: after any two histories the same
callback is entered with the same argument, and never `cb_download` without one. -/
def DispatchedAlone (cfg : Config) (data : List UInt8) : Prop :=
  (∀ s s', Ready cfg s → Ready cfg s' → dispatch s data = dispatch s' data) ∧
    ∀ s, Ready cfg s → dispatch s data ≠ some (.cbDownload, none)

theorem dispatchedAlone_of_not_ambiguous (cfg : Config) {data : List UInt8}
    (h : ¬Ambiguous data) : DispatchedAlone cfg data := by
  refine ⟨?_, ?_⟩
  · intro s s' hs hs'
    rw [dispatch_eq h hs.length_eq, dispatch_eq h hs'.length_eq]
  · intro s hs hnone
    rw [dispatch_eq h hs.length_eq] at hnone
    split_ifs at hnone
    obtain ⟨cb, hcb, hpair⟩ := Option.map_eq_some_iff.mp hnone
    obtain ⟨rfl, harg⟩ := Prod.mk.inj hpair
    exact packetArgument_download hcb harg

/-- The beginning of a command is completed by what is left in the buffer. -/
theorem not_dispatchedAlone_beginning (cfg : Config) {info : List UInt8 × Callback}
    (hinfo : info ∈ cmdDispatchInfo) {k : Nat} (hk : k < info.1.length) (hpos : 0 < k) :
    ¬DispatchedAlone cfg (info.1.take k) := by
  intro alone
  have hlen := (cmd_spec info hinfo).1.2.2
  have hcompletion : (completion info.1).length ≤ 4096 := by
    rw [completion, List.length_cons, List.length_drop]
    omega
  have hk' : (info.1.take k).length < EP_BUFFER_SIZE.toNat := by
    rw [List.length_take]
    exact (Nat.min_le_right ..).trans_lt hlen
  have heq := alone.1 _ _ (ready_unknown cfg (lookup_completion info hinfo).1 hcompletion)
    (ready_start cfg)
  exact (lookup_completion info hinfo).2 k hk hpos (lookup_eq_of_dispatch heq rfl rfl hk' hk')

/-- An empty packet behind the data of a download. -/
theorem not_dispatchedAlone_nil (cfg : Config) : ¬DispatchedAlone cfg [] := by
  intro alone
  obtain ⟨s, hs, hbuf⟩ := ready_rebootData cfg
  have hne : lookup (receive rebootData []) ≠ lookup (receive 0 []) := by decide +kernel
  exact hne (lookup_eq_of_dispatch (alone.1 s (start true 0) hs (ready_start cfg)) hbuf rfl
    (by rw [hs.length_eq]; decide) (by decide))

/-- `oem` without an argument takes the one that is left in the buffer. -/
theorem not_dispatchedAlone_oem (cfg : Config) : ¬DispatchedAlone cfg (ascii "oem") := by
  intro alone
  have hunknown : lookup (receive 0 (ascii "????unlock")) = none := by decide
  have heq := alone.1 _ _ (ready_unknown cfg hunknown (by decide)) (ready_start cfg)
  exact absurd heq (by decide +kernel)

/-- Which packets are dispatched on their own bytes. -/
theorem dispatchedAlone_iff (cfg : Config) (data : List UInt8) :
    DispatchedAlone cfg data ↔ ¬Ambiguous data := by
  refine ⟨?_, dispatchedAlone_of_not_ambiguous cfg⟩
  rintro alone (⟨info, hinfo, hp, hne⟩ | rfl)
  · have hk : data.length < info.1.length :=
      lt_of_le_of_ne hp.length_le fun he => hne (hp.eq_of_length he)
    rw [List.prefix_iff_eq_take.mp hp] at alone
    obtain hzero | hpos := Nat.eq_zero_or_pos data.length
    · rw [hzero, List.take_zero] at alone
      exact not_dispatchedAlone_nil cfg alone
    · exact not_dispatchedAlone_beginning cfg hinfo hk hpos alone
  · exact not_dispatchedAlone_oem cfg alone

/-- `download` without a colon, after an unknown command with one, reads a
number at address 0. -/
theorem download_without_argument :
    ¬∀ (cfg : Config) (data : List UInt8), data.length ≤ EP_BUFFER_SIZE.toNat →
      DispatchedAlone cfg data := by
  intro claim
  have hunknown : lookup (receive 0 (ascii "????????:")) = none := by decide
  have hready := ready_unknown nandConfig hunknown (by decide)
  exact (claim nandConfig (ascii "download") (by decide +kernel)).2 _ hready (by decide +kernel)

end UBoot.Fastboot
