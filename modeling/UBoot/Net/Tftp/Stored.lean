import UBoot.Net.Tftp.Get
import UBoot.Verification.Run

/-!
# A get stores the file

The client with the server. The server has the ACKs of stored blocks only, so that
the blocks it has sent are the stored ones and at most one more. A file of less than
`65536` blocks is always stored as it is. With more blocks this depends on the
order of the packets: a block with number 0 that comes again is taken for the
next wrap.
-/

namespace UBoot.Net.Tftp

open Verification

/-- What the client waits for: an answer to its RRQ, the first block after an OACK,
or a block. A server that sends options sends no block before they are acknowledged. -/
inductive Get.Phase (d : Download) (s : Get) : Prop
  | request (state : s.client.state = .sendRrq) (blkSize : s.client.blkSize = TFTP_BLOCK_SIZE)
      (waiting : d.oack ≠ none → s.sent = 0 ∧ s.acks = [])
  | answer (state : s.client.state = .oack) (blkSize : s.client.blkSize = d.blkSize)
      (port : s.client.remotePort = d.port)
  | transfer (block : AtBlock d s.current s.client) (last : s.client.lastBlock = s.client.block)

/-- The client goes on, after a block that is stored. -/
structure Get.Active (d : Download) (n : Nat) (s : Get) : Prop where
  current : s.current ≤ n
  block : s.client.block = s.current % 65536
  phase : s.Phase d

/-- The invariant of a get with `n` blocks stored. The server has sent one block more
at most, as it has the ACKs of stored blocks only. -/
structure Get.Invariant (d : Download) (n : Nat) (s : Get) : Prop where
  count : n ≤ d.count
  sent : s.sent ≤ n + 1
  sentCount : s.sent ≤ d.count
  acks : ∀ a ∈ s.acks, a.1 = a.2 % 65536 ∧ a.2 ≤ n
  getting : Getting d n s.client
  active : s.client.status = .running → s.Active d n
  success : s.client.status = .success → 0 < d.blkSize ∧ n = d.count

namespace Get

variable {d : Download} {n : Nat} {s : Get}

theorem react_of_not_running (h : s.client.status ≠ .running) (current : Nat)
    (handle : Client → Client × List Packet) : s.react current handle = s :=
  if_neg h

theorem react_eq (h : s.client.status = .running) (current : Nat)
    {handle : Client → Client × List Packet} {c : Client} {sent : List Packet}
    (hhandle : handle s.client = (c, sent)) :
    s.react current handle = { s with
      client := c
      current := current
      acks := s.acks ++ (sent.filterMap Packet.ackNumber).map fun number => (number, current) } := by
  rw [react, if_pos h, hhandle]

/-- A packet of the server is not refused for its port. -/
theorem Phase.port_accepted (h : s.Phase d) :
    ¬(s.client.state ≠ .sendRrq ∧ d.port ≠ s.client.remotePort ∧ s.client.state ≠ .recvWrq ∧
      s.client.state ≠ .sendWrq) := by
  cases h with
  | request state => simp [state]
  | answer _ _ port => simp [port]
  | transfer block => simp [block.port]

/-- What the server does matters only to a client that waits for its options. -/
theorem Phase.server (h : s.Phase d) (started : Bool) {sent : Nat}
    (hsent : d.oack ≠ none → s.acks = [] → sent = s.sent) :
    Phase d { s with started := started, sent := sent } := by
  cases h with
  | request state blkSize waiting =>
    refine .request state blkSize fun hoack => ?_
    obtain ⟨hzero, hacks⟩ := waiting hoack
    exact ⟨(hsent hoack hacks).trans hzero, hacks⟩
  | answer state blkSize port => exact .answer state blkSize port
  | transfer block last => exact .transfer { block with } last

theorem Phase.tftpHandler_data (h : s.Phase d) (number : Nat) (bytes : List UInt8) :
    tftpHandler s.client s.client.ourPort d.port (.data number bytes) =
      handleData s.client d.port number bytes := by
  unfold tftpHandler
  rw [if_neg (by simp), if_neg h.port_accepted]

theorem Phase.tftpHandler_oack (h : s.Phase d) (options : List UInt8) :
    tftpHandler s.client s.client.ourPort d.port (.oack options) =
      handleOack s.client d.port options := by
  unfold tftpHandler
  rw [if_neg (by simp), if_neg h.port_accepted]

/-- A block after the first one, which the client does not ignore and takes for
what it is; or the first block. -/
def Accepted (d : Download) (s : Get) (block : Nat) : Prop :=
  (AtBlock d s.current s.client ∧ block % 65536 ≠ s.client.lastBlock ∧
    block = block % 65536 + 65536 * (s.client.blockWrap +
      if block % 65536 = 0 ∧ s.client.lastBlock ≠ 0 then 1 else 0)) ∨
  ((s.client.state = .sendRrq ∨ s.client.state = .oack) ∧ s.client.blkSize = d.blkSize ∧
    block = 1)

namespace Invariant

theorem start (d : Download) : Invariant d 0 d.start where
  count := Nat.zero_le _
  sent := Nat.zero_le _
  sentCount := Nat.zero_le _
  acks := by simp [Download.start]
  getting := ⟨rfl, rfl, by simp [Download.start, tftpStartGet, tftpStart],
    fun p hp => by simp at hp⟩
  active := fun _ => ⟨Nat.le_refl _, rfl, .request rfl rfl fun _ => ⟨rfl, rfl⟩⟩
  success := fun h => by simp [Download.start, tftpStartGet, tftpStart] at h

/-- The client handles a packet and acknowledges the block `current`. -/
theorem acknowledge (h : Invariant d n s) {n' current : Nat} (hn : n ≤ n') (hcount : n' ≤ d.count)
    (hcurrent : current ≤ n') {c : Client} (hgetting : Getting d n' c)
    (hblock : c.block = current % 65536)
    (hphase : c.status = .running → ∀ acks, Phase d { s with client := c, current, acks })
    (hsuccess : c.status = .success → 0 < d.blkSize ∧ n' = d.count) :
    Invariant d n' { s with
      client := c, current := current, acks := s.acks ++ [(current % 65536, current)] } where
  count := hcount
  sent := Nat.le_trans h.sent (Nat.succ_le_succ hn)
  sentCount := h.sentCount
  acks := by
    intro a ha
    rcases List.mem_append.1 ha with ha | ha
    · exact ⟨(h.acks a ha).1, Nat.le_trans (h.acks a ha).2 hn⟩
    · rw [List.mem_singleton.1 ha]
      exact ⟨rfl, hcurrent⟩
  getting := hgetting
  active := fun hrunning => ⟨hcurrent, hblock, hphase hrunning _⟩
  success := hsuccess

theorem server (h : Invariant d n s) (started : Bool) {sent : Nat} (hle : sent ≤ n + 1)
    (hcount : sent ≤ d.count) (hsent : d.oack ≠ none → s.acks = [] → sent = s.sent) :
    Invariant d n { s with started := started, sent := sent } where
  count := h.count
  sent := hle
  sentCount := hcount
  acks := h.acks
  getting := h.getting
  active := fun hrunning =>
    ⟨(h.active hrunning).current, (h.active hrunning).block,
      (h.active hrunning).phase.server started hsent⟩
  success := h.success

theorem rrq (h : Invariant d n s) : Invariant d n (s.step d .rrq) := by
  simp only [Get.step]
  split
  · rename_i hoack
    refine h.server true ?_ ?_ fun hsome => absurd hoack hsome
    · exact Nat.max_le.2 ⟨h.sent, Nat.le_add_left 1 n⟩
    · exact Nat.max_le.2 ⟨h.sentCount, Nat.le_add_left 1 _⟩
  · exact h.server true h.sent h.sentCount fun _ _ => rfl

/-- The ACK of the last block sent is for a block that is stored. -/
theorem ack (h : Invariant d n s) {number block : Nat} (hok : s.Ok d (.ack number block)) :
    Invariant d n (s.step d (.ack number block)) := by
  simp only [Get.step]
  split
  · rename_i hack
    obtain ⟨hmem, hnumber, hlt⟩ := hack
    have hstored := (h.acks _ hmem).2
    rw [hok hmem hnumber hlt] at hstored
    refine h.server s.started (Nat.succ_le_succ hstored) hlt fun _ hacks => ?_
    simp [hacks] at hmem
  · exact h

theorem oack (h : Invariant d n s) : Invariant d n (s.step d .oack) := by
  simp only [Get.step]
  cases hoack : d.oack with
  | none => exact h
  | some options =>
    simp only
    split
    · by_cases hrunning : s.client.status = .running
      · obtain ⟨hcurrent, hblock, hphase⟩ := h.active hrunning
        have hagreed : d.blkSize = oackBlkSize options TFTP_BLOCK_SIZE := by
          rw [Download.blkSize, hoack, agreedBlkSize]
        have hblk : oackBlkSize options s.client.blkSize = d.blkSize := by
          cases hphase with
          | request _ blkSize => rw [blkSize, hagreed]
          | answer _ blkSize => rw [blkSize, hagreed, oackBlkSize_idem]
          | transfer block => rw [block.blkSize, hagreed, oackBlkSize_idem]
        have hhandle : tftpHandler s.client s.client.ourPort d.port (.oack options) =
            ({ s.client with state := .oack, remotePort := d.port, blkSize := d.blkSize },
              [.ack (s.current % 65536)]) := by
          rw [hphase.tftpHandler_oack]
          simp [handleOack, h.getting.reading, hblk, tftpSend, hblock]
        rw [react_eq hrunning s.current hhandle]
        refine h.acknowledge (Nat.le_refl n) h.count hcurrent { h.getting with } hblock ?_ ?_
        · exact fun _ _ => .answer rfl rfl rfl
        · intro hs
          simp [hrunning] at hs
      · rw [react_of_not_running hrunning]
        exact h
    · exact h

theorem tftpTimeout_of_le {c : Client} (hcount : ¬c.timeoutCountMax < c.timeoutCount + 1)
    (hstate : c.state ≠ .recvWrq) :
    tftpTimeout c =
      ((tftpSend { c with timeoutCount := c.timeoutCount + 1 }).1,
        [(tftpSend { c with timeoutCount := c.timeoutCount + 1 }).2]) := by
  rw [tftpTimeout, if_neg hcount, if_pos hstate]

/-- A timeout sends the RRQ or the last ACK again. -/
theorem timeout (h : Invariant d n s) : Invariant d n (s.step d .timeout) := by
  by_cases hrunning : s.client.status = .running
  · obtain ⟨hcurrent, hblock, hphase⟩ := h.active hrunning
    have hsuccess : s.client.status = .success → 0 < d.blkSize ∧ n = d.count := h.success
    simp only [Get.step]
    by_cases hcount : s.client.timeoutCountMax < s.client.timeoutCount + 1
    · have hhandle : tftpTimeout s.client = (netStartAgain { s.client with
          timeoutCount := s.client.timeoutCount + 1 }, []) := if_pos hcount
      rw [react_eq hrunning s.current hhandle]
      refine { h with acks := ?_, getting := { h.getting with }, active := ?_, success := ?_ }
      · simpa using h.acks
      · intro hs
        simp [netStartAgain] at hs
      · intro hs
        simp [netStartAgain] at hs
    · cases hphase with
      | request state blkSize waiting =>
        have hhandle : tftpTimeout s.client = ({ s.client with
            timeoutCount := s.client.timeoutCount + 1 }, [.rrq]) := by
          rw [tftpTimeout_of_le hcount (by simp [state])]
          simp only [tftpSend, state]
        rw [react_eq hrunning s.current hhandle]
        refine { h with acks := ?_, getting := { h.getting with }, active := fun _ => ?_ }
        · simpa [Packet.ackNumber] using h.acks
        · refine ⟨hcurrent, hblock, .request state blkSize fun hoack => ?_⟩
          simpa [Packet.ackNumber] using waiting hoack
      | answer state blkSize port =>
        have hhandle : tftpTimeout s.client = ({ s.client with
            timeoutCount := s.client.timeoutCount + 1 }, [.ack (s.current % 65536)]) := by
          rw [tftpTimeout_of_le hcount (by simp [state])]
          simp [tftpSend, state, h.getting.reading, hblock]
        rw [react_eq hrunning s.current hhandle]
        exact h.acknowledge (Nat.le_refl n) h.count hcurrent { h.getting with } hblock
          (fun _ _ => .answer state blkSize port) hsuccess
      | transfer block last =>
        have hhandle : tftpTimeout s.client = ({ s.client with
            timeoutCount := s.client.timeoutCount + 1 }, [.ack (s.current % 65536)]) := by
          rw [tftpTimeout_of_le hcount (by simp [block.state])]
          simp [tftpSend, block.state, h.getting.reading, hblock]
        rw [react_eq hrunning s.current hhandle]
        exact h.acknowledge (Nat.le_refl n) h.count hcurrent { h.getting with } hblock
          (fun _ _ => .transfer { block with } last) hsuccess
  · rw [Get.step, react_of_not_running hrunning]
    exact h

/-- A block is complete where it is short, and it is then the last one. -/
theorem success_of_short (h : Invariant d n s) {k : Nat} (hk : k < d.count) {c : Client}
    (hrunning : s.client.status = .running)
    (hstatus : c.status =
      if (d.block (k + 1)).length < d.blkSize then .success else s.client.status)
    (hsuccess : c.status = .success) : 0 < d.blkSize ∧ max n (k + 1) = d.count := by
  have hn := h.count
  by_cases hshort : (d.block (k + 1)).length < d.blkSize
  · obtain ⟨hpos, hlast⟩ := (length_fileBlock_lt_iff (Nat.le_add_left 1 k) hk).1 hshort
    refine ⟨hpos, ?_⟩
    change k + 1 = d.count at hlast
    omega
  · rw [if_neg hshort, hrunning] at hstatus
    simp [hstatus] at hsuccess

theorem step_accepted (h : Invariant d n s) (hlen : d.file.length < 4294967296)
    (hrunning : s.client.status = .running) {k : Nat} (hk : k + 1 ≤ s.sent)
    (haccept : Accepted d s (k + 1)) :
    ∃ c, s.step d (.data (k + 1)) = { s with
        client := c, current := k + 1, acks := s.acks ++ [((k + 1) % 65536, k + 1)] } ∧
      Getting d (max n (k + 1)) c ∧ AtBlock d (k + 1) c ∧ c.lastBlock = c.block ∧
      c.status = if (d.block (k + 1)).length < d.blkSize then .success else s.client.status := by
  have hsent := h.sent
  have hsentCount := h.sentCount
  have hphase := (h.active hrunning).phase
  rcases haccept with ⟨hat, hne, hnumber⟩ | ⟨hstate, hblk, hfirst⟩
  · obtain ⟨c, hhandle, hc⟩ :=
      h.getting.handleData hlen hat (by omega) (by omega) hne hnumber
    have hfresh : ¬s.client.Repeated ((k + 1) % 65536) := fun hrep => hne hrep.2
    refine ⟨c, ?_, hc⟩
    simp only [Get.step, if_pos (show 1 ≤ k + 1 ∧ k + 1 ≤ s.sent by omega), if_neg hfresh]
    rw [react_eq hrunning (k + 1) ((hphase.tftpHandler_data _ _).trans hhandle)]
    rfl
  · obtain rfl : k = 0 := by omega
    obtain ⟨c, hhandle, hc⟩ := h.getting.handleData_first hlen hstate hblk
    have hfresh : ¬s.client.Repeated ((0 + 1) % 65536) := by
      rcases hstate with hstate | hstate <;> simp [Client.Repeated, hstate]
    refine ⟨c, ?_, hc⟩
    simp only [Get.step, if_pos (show 1 ≤ 0 + 1 ∧ 0 + 1 ≤ s.sent by omega), if_neg hfresh]
    rw [react_eq hrunning 1 ((hphase.tftpHandler_data 1 (d.block 1)).trans hhandle)]
    rfl

theorem data_of_accepted (h : Invariant d n s) (hlen : d.file.length < 4294967296)
    (hrunning : s.client.status = .running) {k : Nat} (hk : k + 1 ≤ s.sent)
    (haccept : Accepted d s (k + 1)) :
    Invariant d (max n (k + 1)) (s.step d (.data (k + 1))) := by
  have hsentCount := h.sentCount
  have hcount := h.count
  obtain ⟨c, hstep, hgetting, hnext, hlast, hstatus⟩ := h.step_accepted hlen hrunning hk haccept
  rw [hstep]
  exact h.acknowledge (Nat.le_max_left _ _) (by omega) (Nat.le_max_right _ _) hgetting hnext.block
    (fun _ _ => .transfer { hnext with } hlast)
    (h.success_of_short (by omega) hrunning hstatus)

/-- Block 1 at the start, and any other number. -/
theorem data_of_first (h : Invariant d n s) (hlen : d.file.length < 4294967296)
    (hrunning : s.client.status = .running)
    (hstate : s.client.state = .sendRrq ∨ s.client.state = .oack)
    (hblk : s.client.blkSize = d.blkSize) {k : Nat} (h1 : 1 ≤ k) (hk : k ≤ s.sent)
    (hok : s.Ok d (.data k)) : ∃ n', Invariant d n' (s.step d (.data k)) := by
  have hdata : s.client.state ≠ .data := by
    rcases hstate with hstate | hstate <;> simp [hstate]
  by_cases hfirst : k % 65536 = 1
  · have hnumber := hok h1 hk hrunning
    rw [if_neg hdata] at hnumber
    obtain rfl := hnumber hfirst
    exact ⟨max n 1, h.data_of_accepted hlen hrunning hk (.inr ⟨hstate, hblk, rfl⟩)⟩
  · obtain ⟨c, hhandle, hgetting, hrestart⟩ :=
      h.getting.handleData_not_first (d.block k) hstate hfirst
    have hfresh : ¬s.client.Repeated (k % 65536) := fun hrep => hdata hrep.1
    have hphase := (h.active hrunning).phase
    refine ⟨n, ?_⟩
    simp only [Get.step, if_pos (And.intro h1 hk), if_neg hfresh]
    rw [react_eq hrunning k ((hphase.tftpHandler_data _ _).trans hhandle)]
    refine { h with acks := ?_, getting := hgetting, active := ?_, success := ?_ }
    · simpa using h.acks
    · intro hs
      simp [hrestart] at hs
    · intro hs
      simp [hrestart] at hs

theorem data (h : Invariant d n s) (hlen : d.file.length < 4294967296) {k : Nat}
    (hok : s.Ok d (.data k)) : ∃ n', Invariant d n' (s.step d (.data k)) := by
  by_cases hk : 1 ≤ k ∧ k ≤ s.sent
  · by_cases hrunning : s.client.status = .running
    · have hactive := h.active hrunning
      cases hactive.phase with
      | request state blkSize waiting =>
        -- a block has been sent, so the server has no options
        have hnone : d.oack = none := by
          by_contra hsome
          have hzero := (waiting hsome).1
          omega
        have hagreed : d.blkSize = TFTP_BLOCK_SIZE := by
          rw [Download.blkSize, hnone, agreedBlkSize]
        exact h.data_of_first hlen hrunning (.inl state) (blkSize.trans hagreed.symm) hk.1 hk.2 hok
      | answer state blkSize _ =>
        exact h.data_of_first hlen hrunning (.inr state) blkSize hk.1 hk.2 hok
      | transfer block last =>
        obtain ⟨j, rfl⟩ : ∃ j, k = j + 1 := ⟨k - 1, by omega⟩
        by_cases hne : (j + 1) % 65536 = s.client.lastBlock
        · have hrep : s.client.Repeated ((j + 1) % 65536) := ⟨block.state, hne⟩
          have hhandle := handleData_repeated d.port (d.block (j + 1))
            (last.symm.trans hne.symm) hrep
          refine ⟨n, ?_⟩
          simp only [Get.step, if_pos hk, if_pos hrep]
          rw [react_eq hrunning s.current
            (by rw [hactive.phase.tftpHandler_data, hhandle])]
          simpa using h
        · have hnumber := hok hk.1 hk.2 hrunning
          rw [if_pos block.state] at hnumber
          exact ⟨_, h.data_of_accepted hlen hrunning hk.2 (.inl ⟨block, hne, hnumber hne⟩)⟩
    · simp only [Get.step, if_pos hk]
      rw [react_of_not_running hrunning]
      exact ⟨n, h⟩
  · simp only [Get.step, if_neg hk]
    exact ⟨n, h⟩

theorem step (hlen : d.file.length < 4294967296) (s : Get) (e : GetEvent)
    (h : ∃ n, Invariant d n s) (hok : s.Ok d e) : ∃ n, Invariant d n (s.step d e) := by
  obtain ⟨n, h⟩ := h
  cases e with
  | rrq => exact ⟨n, h.rrq⟩
  | oack => exact ⟨n, h.oack⟩
  | data k => exact h.data hlen hok
  | ack number block => exact ⟨n, h.ack hok⟩
  | timeout => exact ⟨n, h.timeout⟩

/-- All blocks are stored when the client completes the get. -/
theorem file_of_success (h : Invariant d n s) (hsuccess : s.client.status = .success) :
    s.client.xferSize = d.file.length ∧
      loadBytes s.client.mem d.before.loadAddr d.file.length = d.file := by
  obtain ⟨hpos, rfl⟩ := h.success hsuccess
  have hall : min (d.count * d.blkSize) d.file.length = d.file.length :=
    Nat.min_eq_right (Nat.le_of_lt (lt_mul_of_blockCount_le _ hpos (Nat.le_refl _)))
  have hstored := h.getting.stored
  rw [hall] at hstored
  exact ⟨h.getting.size.trans hall, hstored.loadBytes_eq⟩

end Invariant

/-- The block numbers of a file of less than `65536` blocks do not wrap. -/
theorem Invariant.ok (h : Invariant d n s) (hcount : d.count ≤ 65535) (e : GetEvent) :
    s.Ok d e := by
  have hn := h.count
  cases e with
  | data k =>
    intro h1 hk hrunning
    have hsent := h.sentCount
    have hcurrent := (h.active hrunning).current
    split
    · rename_i hstate
      intro _
      cases (h.active hrunning).phase with
      | request state => simp [state] at hstate
      | answer state => simp [state] at hstate
      | transfer block =>
        have hwrap := block.wrap
        rw [if_neg (by omega)]
        omega
    · omega
  | ack number block =>
    intro hmem hnumber hlt
    have hack := h.acks _ hmem
    simp only at hack
    omega
  | rrq => trivial
  | oack => trivial
  | timeout => trivial

/-- In a file of less than `65536` blocks no number comes again. -/
theorem Invariant.guarded (hlen : d.file.length < 4294967296) (hcount : d.count ≤ 65535)
    (events : List GetEvent) (h : Invariant d n s) :
    Guarded (Get.step d) (Get.Ok d) s events := by
  induction events generalizing s n with
  | nil => trivial
  | cons e events ih =>
    obtain ⟨m, hm⟩ := Invariant.step hlen s e ⟨n, h⟩ (h.ok hcount e)
    exact ⟨h.ok hcount e, ih hm⟩

/-- When the client completes the get, it has the size and the bytes of the file, if
each packet was the block that the client took it for. -/
theorem stored_of_success (d : Download) (hlen : d.file.length < 4294967296)
    {events : List GetEvent} (hok : Guarded (Get.step d) (Get.Ok d) d.start events)
    (hsuccess : (run (Get.step d) d.start events).client.status = .success) :
    (run (Get.step d) d.start events).client.xferSize = d.file.length ∧
      loadBytes (run (Get.step d) d.start events).client.mem d.before.loadAddr d.file.length =
        d.file := by
  obtain ⟨n, h⟩ := hok.invariant (Invariant.step hlen) ⟨0, Invariant.start d⟩
  exact h.file_of_success hsuccess

/-- A file of three blocks, for a client that was given blocks of eight bytes. -/
def threeBlocks : Download where
  before := Client.unused
  timeoutCountMax := 10
  ourPort := 1024
  port := 2048
  oack := some (ascii "blksize" ++ [0] ++ ascii "8" ++ [0])
  file := ascii "a file of 3 blocks"

/-- Block 1 arrives twice. -/
def blockRepeated : List GetEvent :=
  [.rrq, .oack, .ack 0 0, .data 1, .data 1, .ack 1 1, .data 2, .ack 2 2, .data 3]

theorem stored_of_success_three :
    (run (Get.step threeBlocks) threeBlocks.start blockRepeated).client.xferSize = 18 ∧
      loadBytes (run (Get.step threeBlocks) threeBlocks.start blockRepeated).client.mem 0 18 =
        ascii "a file of 3 blocks" :=
  stored_of_success threeBlocks (by decide)
    ((Invariant.start threeBlocks).guarded (by decide) (by decide) _) (by decide)

/-- A file of less than `65536` blocks is stored in every run that completes. -/
theorem stored_of_success_of_count (d : Download) (hlen : d.file.length < 4294967296)
    (hcount : d.count ≤ 65535) {events : List GetEvent}
    (hsuccess : (run (Get.step d) d.start events).client.status = .success) :
    (run (Get.step d) d.start events).client.xferSize = d.file.length ∧
      loadBytes (run (Get.step d) d.start events).client.mem d.before.loadAddr d.file.length =
        d.file := by
  have hguarded := (Invariant.start d).guarded hlen hcount events
  obtain ⟨n, h⟩ := hguarded.invariant (Invariant.step hlen) ⟨0, Invariant.start d⟩
  exact h.file_of_success hsuccess

/-! ### A run without faults -/

/-- The server sends options, and every packet is delivered once and in order, up to
block `k`. -/
def inOrder : Nat → List GetEvent
  | 0 => [.rrq, .oack]
  | k + 1 => inOrder k ++ [.ack (k % 65536) k, .data (k + 1)]

/-- Block `k` is stored and acknowledged, and the server has sent no other block. -/
structure AfterBlock (d : Download) (k : Nat) (s : Get) : Prop where
  invariant : Invariant d k s
  running : s.client.status = .running
  sent : s.sent = k
  current : s.current = k
  ack : (k % 65536, k) ∈ s.acks
  state : k = 0 ∨ s.client.state = .data

namespace AfterBlock

variable {k : Nat}

theorem accepted (h : AfterBlock d k s) (hoack : d.oack ≠ none) : Accepted d s (k + 1) := by
  have hcurrent := h.current
  cases (h.invariant.active h.running).phase with
  | request _ _ waiting =>
    have hack := h.ack
    rw [(waiting hoack).2] at hack
    simp at hack
  | answer state blkSize _ =>
    rcases h.state with rfl | hstate
    · exact .inr ⟨.inr state, blkSize, rfl⟩
    · simp [state] at hstate
  | transfer block last =>
    have hblock := block.block
    have hwrap := block.wrap
    refine .inl ⟨block, by omega, ?_⟩
    split <;> omega

theorem next (h : AfterBlock d k s) (hlen : d.file.length < 4294967296) (hoack : d.oack ≠ none)
    (hk : k + 1 < d.count) :
    AfterBlock d (k + 1) (run (Get.step d) s [.ack (k % 65536) k, .data (k + 1)]) := by
  have hack : s.step d (.ack (k % 65536) k) = { s with sent := k + 1 } := by
    have hlt : k < d.count := by omega
    simp [Get.step, h.sent, h.ack, hlt]
  have hinv : Invariant d k { s with sent := k + 1 } := by
    rw [← hack]
    exact h.invariant.ack fun _ _ _ => h.sent.symm
  obtain ⟨c, hstep, -, hat, -, hstatus⟩ :=
    hinv.step_accepted hlen h.running (Nat.le_refl _) (h.accepted hoack)
  have hnext := hinv.data_of_accepted hlen h.running (Nat.le_refl _) (h.accepted hoack)
  rw [Nat.max_eq_right (Nat.le_succ k)] at hnext
  rw [run_cons, run_cons, run_nil, hack]
  rw [hstep] at hnext ⊢
  refine ⟨hnext, ?_, rfl, rfl, by simp, .inr hat.state⟩
  -- the block is full, as it is not the last one
  rw [hstatus, if_neg]
  · exact h.running
  · intro hshort
    have hlast := ((length_fileBlock_lt_iff (Nat.le_add_left 1 k) (Nat.le_of_lt hk)).1 hshort).2
    exact absurd hlast (Nat.ne_of_lt hk)

theorem start (hoack : d.oack ≠ none) : AfterBlock d 0 (run (Get.step d) d.start (inOrder 0)) := by
  have hinv : Invariant d 0 (run (Get.step d) d.start (inOrder 0)) :=
    (Invariant.start d).rrq.oack
  obtain ⟨options, hoptions⟩ := Option.ne_none_iff_exists'.1 hoack
  have hrun : run (Get.step d) d.start (inOrder 0) = { d.start with
      client := { d.start.client with
        state := .oack, remotePort := d.port
        blkSize := oackBlkSize options TFTP_BLOCK_SIZE }
      started := true
      acks := [(0, 0)] } := by
    simp [inOrder, Get.step, hoptions, react, Download.start, tftpStartGet, tftpStart,
      tftpHandler, handleOack, tftpSend, Packet.ackNumber]
  rw [hrun] at hinv ⊢
  exact ⟨hinv, rfl, rfl, rfl, by simp, .inl rfl⟩

end AfterBlock

/-- A run without faults reaches every block but the last one. -/
theorem afterBlock_inOrder (d : Download) (hlen : d.file.length < 4294967296)
    (hoack : d.oack ≠ none) {k : Nat} (hk : k < d.count) :
    AfterBlock d k (run (Get.step d) d.start (inOrder k)) := by
  induction k with
  | zero => exact AfterBlock.start hoack
  | succ k ih =>
    rw [inOrder, run_append]
    exact (ih (by omega)).next hlen hoack hk

/-! ### A wrap counted twice -/

theorem client_step_data (hrunning : s.client.status = .running) (hstate : s.client.state = .data)
    (hport : s.client.remotePort = d.port) {k : Nat} (h1 : 1 ≤ k) (hk : k ≤ s.sent) :
    (s.step d (.data k)).client =
      (takeBlock (updateBlockNumber { s.client with block := k % 65536 }) (d.block k)).1 := by
  simp [Get.step, h1, hk, react, hrunning, tftpHandler, hport, handleData_of_data hstate]

@[simp] theorem sent_react (s : Get) (current : Nat) (handle : Client → Client × List Packet) :
    (s.react current handle).sent = s.sent := by
  rw [react]
  split <;> rfl

/-- A file of zeros in `65538` blocks of at most 8 bytes. -/
def wrapping : Download where
  before := Client.unused
  timeoutCountMax := 10
  ourPort := 1024
  port := 2048
  oack := some (ascii "blksize" ++ [0] ++ ascii "8" ++ [0])
  file := List.replicate 524296 0

theorem blkSize_wrapping : wrapping.blkSize = 8 := by decide

theorem length_file_wrapping : wrapping.file.length = 524296 := List.length_replicate

theorem count_wrapping : wrapping.count = 65538 := by
  rw [Download.count, length_file_wrapping, blkSize_wrapping]
  rfl

theorem length_block_wrapping (k : Nat) :
    (wrapping.block k).length = min 8 (524296 - (k - 1) * 8) := by
  rw [Download.block, length_fileBlock, length_file_wrapping, blkSize_wrapping]

theorem AfterBlock.atBlock {k : Nat} (h : AfterBlock d k s) (hpos : 0 < k) :
    AtBlock d k s.client ∧ s.client.lastBlock = s.client.block := by
  have hstate : s.client.state = .data := h.state.resolve_left (by omega)
  cases (h.invariant.active h.running).phase with
  | request state => simp [state] at hstate
  | answer state => simp [state] at hstate
  | transfer block last =>
    rw [h.current] at block
    exact ⟨block, last⟩

/-- The client between two blocks, whatever it has stored. -/
structure Reading (d : Download) (lastBlock wrapOffset xferSize : Nat) (c : Client) : Prop where
  running : c.status = .running
  state : c.state = .data
  port : c.remotePort = d.port
  reading : c.writing = false
  blkSize : c.blkSize = d.blkSize
  lastBlock : c.lastBlock = lastBlock
  wrapOffset : c.blockWrapOffset = wrapOffset
  xferSize : c.xferSize = xferSize

/-- A block that is not ignored is stored at the place that its number gives. -/
theorem Reading.data {last wrap size : Nat} (h : Reading d last wrap size s.client)
    (k wrap' offset : Nat) (h1 : 1 ≤ k) (hk : k ≤ s.sent) (hne : k % 65536 ≠ last)
    (hwrap : wrap' = if k % 65536 = 0 ∧ last ≠ 0 then ulong ((wrap : Int) + d.blkSize * 65536)
      else wrap)
    (hoffset : ulong (((k % 65536 : Nat) - 1 : Int) * d.blkSize + wrap') = offset)
    (hend : offset + (d.block k).length < 4294967296) :
    (s.step d (.data k)).client.xferSize = max size (offset + (d.block k).length) ∧
      ((d.block k).length < d.blkSize → (s.step d (.data k)).client.status = .success) ∧
      (d.blkSize ≤ (d.block k).length →
        Reading d (k % 65536) wrap' (max size (offset + (d.block k).length))
          (s.step d (.data k)).client) := by
  have hupdate :
      (updateBlockNumber { s.client with block := k % 65536 }).blockWrapOffset = wrap' := by
    rw [updateBlockNumber, hwrap, h.lastBlock]
    split
    · simp [h.wrapOffset, h.blkSize, TFTP_SEQUENCE_SIZE]
    · simp [h.wrapOffset]
  obtain ⟨wraps, wrapOffset, timeoutCount, hframe⟩ :=
    updateBlockNumber_frame { s.client with block := k % 65536 }
  rw [hframe] at hupdate
  change wrapOffset = wrap' at hupdate
  have htake : takeBlock { s.client with
      block := k % 65536, blockWrap := wraps, blockWrapOffset := wrapOffset
      timeoutCount := timeoutCount } (d.block k) = _ :=
    takeBlock_eq h.reading h.state (h.lastBlock ▸ hne)
      (by simp only [h.blkSize, hupdate, hoffset]) hend
  rw [client_step_data h.running h.state h.port h1 hk, hframe, htake]
  refine ⟨by simp [h.xferSize], ?_, ?_⟩
  · intro hshort
    simp [h.blkSize, hshort]
  · intro hfull
    exact ⟨by simp [h.blkSize, Nat.not_lt.2 hfull, h.running], h.state, h.port, h.reading,
      h.blkSize, rfl, hupdate, by simp [h.xferSize]⟩

/-- After block 65537, block 65536 comes again. It is taken for block 131072, and the
last block is then stored after it. -/
theorem xferSize_repeated_wrap (h : AfterBlock wrapping 65537 s) :
    let s' := run (Get.step wrapping) s [.ack 1 65537, .data 65536, .data 65538]
    s'.client.status = .success ∧ s'.client.xferSize = 1048584 := by
  obtain ⟨hat, hlast⟩ := h.atBlock (by decide)
  have hreading : Reading wrapping 1 524288 524296 s.client := by
    refine ⟨h.running, hat.state, hat.port, h.invariant.getting.reading, hat.blkSize,
      hlast.trans hat.block, ?_, ?_⟩
    · rw [hat.wrapOffset, blkSize_wrapping]
    · rw [h.invariant.getting.size, blkSize_wrapping, length_file_wrapping]
      rfl
  have hmem : (1, 65537) ∈ s.acks := h.ack
  have hack : s.step wrapping (.ack 1 65537) = { s with sent := 65538 } := by
    simp [Get.step, h.sent, hmem, count_wrapping]
  have hreading₁ : Reading wrapping 1 524288 524296 (s.step wrapping (.ack 1 65537)).client := by
    rw [hack]
    exact hreading
  have hsent : (s.step wrapping (.ack 1 65537)).sent = 65538 := by rw [hack]
  simp only [run_cons, run_nil]
  generalize s.step wrapping (.ack 1 65537) = s₁ at hreading₁ hsent
  have hfull : (wrapping.block 65536).length = 8 := length_block_wrapping _
  have hempty : (wrapping.block 65538).length = 0 := length_block_wrapping _
  have hagain := (hreading₁.data 65536 1048576 1048568 (by decide) (by rw [hsent]; decide)
    (by decide) (by rw [blkSize_wrapping]; decide) (by rw [blkSize_wrapping]; decide)
    (by rw [hfull]; decide)).2.2 (by rw [hfull, blkSize_wrapping])
  rw [hfull] at hagain
  obtain ⟨hsize, hlast, -⟩ := hagain.data 65538 1048576 1048584 (by decide)
    (by simp [Get.step, hsent]) (by decide) (by decide) (by rw [blkSize_wrapping]; decide)
    (by rw [hempty]; decide)
  refine ⟨hlast (by rw [hempty, blkSize_wrapping]; decide), ?_⟩
  rw [hsize, hempty]
  rfl

/-- A complete get of a file that is not the one stored. -/
theorem stored_wrong_after_wrap :
    ¬∀ (d : Download) (events : List GetEvent), d.file.length < 4294967296 →
      (run (Get.step d) d.start events).client.status = .success →
        (run (Get.step d) d.start events).client.xferSize = d.file.length ∧
          loadBytes (run (Get.step d) d.start events).client.mem d.before.loadAddr d.file.length =
            d.file := by
  intro h
  have hlen : wrapping.file.length < 4294967296 := by
    rw [length_file_wrapping]
    decide
  have hafter := afterBlock_inOrder wrapping hlen (Option.some_ne_none _)
    (show 65537 < wrapping.count by rw [count_wrapping]; decide)
  obtain ⟨hsuccess, hsize⟩ := xferSize_repeated_wrap hafter
  rw [← run_append] at hsuccess hsize
  have hwrong := (h wrapping _ hlen hsuccess).1
  rw [hsize, length_file_wrapping] at hwrong
  exact absurd hwrong (by decide)

end Get

end UBoot.Net.Tftp
