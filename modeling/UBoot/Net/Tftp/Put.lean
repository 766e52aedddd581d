import UBoot.Net.Tftp.Transfer
import UBoot.Verification.Run

/-!
# Putting a file

The client, a server and the network between them. The server acknowledges the
blocks it receives in order, and repeats the ACK of a block it has received. The
network keeps every packet ever sent and may deliver it at any time, any number of
times or never.

The client completes the transfer on any ACK once the final block is sent. The
server has received the whole file if each ACK delivered then is for that block.
-/

namespace UBoot.Net.Tftp

open Verification

/-- A put: the variables of the client before it, the arguments of `TftpStart`, and
the port of the server with the options of its OACK. A server without options
answers a WRQ with ACK 0. -/
structure Upload where
  before : Client
  size : Nat
  timeoutCountMax : Nat
  ourPort : Nat
  port : Nat
  oack : Option (List UInt8)

/-- The client, what the server has received, and the packets sent so far. -/
structure Put where
  client : Client
  /-- the server has received the WRQ -/
  started : Bool
  received : List (List UInt8)
  acks : List Nat
  datas : List (Nat × List UInt8)

inductive PutEvent where
  | wrq
  | oack
  | ack (block : Nat)
  | data (block : Nat) (bytes : List UInt8)
  | timeout
  deriving DecidableEq, Repr

namespace Upload

def file (u : Upload) : List UInt8 := loadBytes u.before.mem u.before.saveAddr u.size

def blkSize (u : Upload) : Nat := agreedBlkSize u.oack

/-- The number of blocks. -/
def count (u : Upload) : Nat := blockCount u.size u.blkSize

def start (u : Upload) : Put where
  client := tftpStartPut u.before u.size u.timeoutCountMax u.ourPort
  started := false
  received := []
  acks := []
  datas := []

end Upload

def Packet.dataBlock : Packet → Option (Nat × List UInt8)
  | .data block bytes => some (block, bytes)
  | _ => none

namespace Put

/-- The client handles an event unless the network loop has ended. -/
def react (s : Put) (handle : Client → Client × List Packet) : Put :=
  if s.client.status = .running then
    { s with
      client := (handle s.client).1
      datas := s.datas ++ (handle s.client).2.filterMap Packet.dataBlock }
  else s

/-- The server waits for no block after a short one. -/
def finished (u : Upload) (s : Put) : Bool :=
  match s.received.getLast? with
  | some bytes => bytes.length < u.blkSize
  | none => false

/-- The server receives a block. The ACK of a repeated block was sent before. -/
def receive (u : Upload) (s : Put) (block : Nat) (bytes : List UInt8) : Put :=
  if block = (s.received.length + 1) % 65536 ∧ s.finished u = false then
    { s with received := s.received ++ [bytes], acks := s.acks ++ [block] }
  else s

def step (u : Upload) (s : Put) : PutEvent → Put
  | .wrq => { s with started := true, acks := if u.oack = none then s.acks ++ [0] else s.acks }
  | .oack =>
    match u.oack with
    | some options =>
      if s.started then s.react fun c => tftpHandler c c.ourPort u.port (.oack options) else s
    | none => s
  | .ack block =>
    if block ∈ s.acks then s.react fun c => tftpHandler c c.ourPort u.port (.ack block) else s
  | .data block bytes => if (block, bytes) ∈ s.datas then s.receive u block bytes else s
  | .timeout => s.react tftpTimeout

/-- Once the final block is sent, an ACK is for that block; and an OACK that comes
again does not count the block number out of its 16 bits. -/
def Ok (s : Put) : PutEvent → Prop
  | .ack block => s.client.finalBlock = true → block = s.client.block
  | .oack => s.client.block < 65535
  | _ => True

instance (s : Put) : (e : PutEvent) → Decidable (s.Ok e)
  | .ack block => inferInstanceAs (Decidable (s.client.finalBlock = true → block = s.client.block))
  | .oack => inferInstanceAs (Decidable (s.client.block < 65535))
  | .wrq | .data .. | .timeout => inferInstanceAs (Decidable True)

end Put

/-! ### The block that is sent -/

theorem loadBytes_drop_take (mem : Nat → UInt8) (addr size offset n : Nat) :
    ((loadBytes mem addr size).drop offset).take n =
      loadBytes mem (addr + offset) (min (size - offset) n) := by
  apply List.ext_getElem
  · simp [loadBytes, Nat.min_comm]
  · intro i _ _
    simp [loadBytes, Nat.add_assoc]

section LoadBlock

variable {c : Client} {block len : Nat}

theorem loadBlock_eq (hwrap : c.blockWrapOffset = 0) (hsize : c.xferSize < 4294967296)
    (h1 : 1 ≤ block) (hk : block ≤ blockCount c.xferSize len) :
    loadBlock c block len = fileBlock (loadBytes c.mem c.saveAddr c.xferSize) len block := by
  obtain ⟨n, rfl⟩ : ∃ n, block = n + 1 := ⟨block - 1, by omega⟩
  have hn := mul_le_of_lt_blockCount (show n < blockCount c.xferSize len by omega)
  have hoffset : ulong ((((n + 1 : Nat) : Int) - 1) * len + c.blockWrapOffset) = n * len := by
    rw [hwrap, show (((n + 1 : Nat) : Int) - 1) * len + (0 : Nat) = ((n * len : Nat) : Int) by
      push_cast; ring]
    exact ulong_of_lt (by omega)
  have htosend : ulong ((c.xferSize : Int) - (n * len : Nat)) = c.xferSize - n * len := by
    rw [show (c.xferSize : Int) - (n * len : Nat) = ((c.xferSize - n * len : Nat) : Int) by omega]
    exact ulong_of_lt (by omega)
  simp only [loadBlock, hoffset, htosend]
  rw [fileBlock, loadBytes_drop_take, Nat.add_sub_cancel]

/-- After the last block, and for the number 0, the remaining size is negative, and
a full block is loaded. -/
theorem length_loadBlock_of_outside (hwrap : c.blockWrapOffset = 0) (hlen : len ≤ 65535)
    (hsize : c.xferSize + len < 4294967296) (hblock : block ≤ 65535)
    (houtside : block = 0 ∨ blockCount c.xferSize len < block) :
    (loadBlock c block len).length = len := by
  have hbound : block * len ≤ 65535 * 65535 := Nat.mul_le_mul hblock hlen
  have hulong : len ≤ ulong ((c.xferSize : Int) - ulong (((block : Int) - 1) * len)) := by
    rcases houtside with rfl | hk
    · simp only [ulong]
      omega
    · obtain ⟨n, rfl⟩ : ∃ n, block = n + 1 := ⟨block - 1, by omega⟩
      rcases Nat.eq_zero_or_pos len with rfl | hpos
      · exact Nat.zero_le _
      have hn := lt_mul_of_blockCount_le c.xferSize hpos (show _ ≤ n by omega)
      rw [Nat.succ_mul] at hbound
      rw [show (((n + 1 : Nat) : Int) - 1) * len = ((n * len : Nat) : Int) by push_cast; ring]
      simp only [ulong]
      omega
  simp only [loadBlock, hwrap, length_loadBytes]
  simp only [Nat.cast_zero, add_zero]
  omega

end LoadBlock

/-! ### The client -/

/-- The client is in a put. Its variables for wrapped block numbers are never set. -/
structure Putting (u : Upload) (c : Client) : Prop where
  writing : c.writing = true
  mem : c.mem = u.before.mem
  saveAddr : c.saveAddr = u.before.saveAddr
  xferSize : c.xferSize = u.size
  wrapOffset : c.blockWrapOffset = 0
  lastBlock : c.lastBlock = 0
  block : c.block ≤ 65535
  phase : (c.state = .sendWrq ∧ c.blkSize = TFTP_BLOCK_SIZE) ∨
    (c.state = .data ∧ c.blkSize = u.blkSize ∧ c.remotePort = u.port)

/-- `TftpFinalBlock` is set for the last block only. -/
def FinalBlock (u : Upload) (c : Client) : Prop :=
  c.finalBlock = true → 0 < u.blkSize ∧ c.block = u.count

/-- A packet with the number of a block has its bytes. -/
def Sendable (u : Upload) : Packet → Prop
  | .data block bytes =>
    1 ≤ block → block ≤ u.count → bytes = fileBlock u.file u.blkSize block
  | _ => True

/-- What the client does and sends on an event, and when it completes. -/
structure Handles (u : Upload) (complete : Prop) (r : Client × List Packet) : Prop where
  putting : Putting u r.1
  final : FinalBlock u r.1
  sent : ∀ p ∈ r.2, Sendable u p
  success : r.1.status = .success → complete

namespace Putting

variable {u : Upload} {c : Client}

theorem loadBlock_eq (h : Putting u c) (hsize : u.size + u.blkSize < 4294967296)
    (h1 : 1 ≤ c.block) (hk : c.block ≤ u.count) :
    loadBlock c c.block u.blkSize = fileBlock u.file u.blkSize c.block := by
  have hload := Tftp.loadBlock_eq h.wrapOffset (by rw [h.xferSize]; omega) h1
    (by rw [h.xferSize]; exact hk)
  rw [hload, h.mem, h.saveAddr, h.xferSize, Upload.file]

/-- A short block is the last one. -/
theorem length_loadBlock_lt (h : Putting u c) (hsize : u.size + u.blkSize < 4294967296)
    (hlt : (loadBlock c c.block u.blkSize).length < u.blkSize) :
    0 < u.blkSize ∧ c.block = u.count := by
  by_cases hk : c.block = 0 ∨ u.count < c.block
  · have hfull := length_loadBlock_of_outside h.wrapOffset
      (Nat.le_of_lt_succ (agreedBlkSize_lt u.oack)) (by rw [h.xferSize]; exact hsize) h.block
      (by rw [h.xferSize]; exact hk)
    exact absurd hfull (Nat.ne_of_lt hlt)
  · have hcount : u.count = blockCount u.file.length u.blkSize := by
      rw [Upload.count, Upload.file, length_loadBytes]
    rw [h.loadBlock_eq hsize (by omega) (by omega),
      length_fileBlock_lt_iff (by omega) (by omega), ← hcount] at hlt
    exact hlt

/-- `TftpSend` sends the block and sets `TftpFinalBlock`, unless it repeats the WRQ. -/
theorem handles_tftpSend (h : Putting u c) (hsize : u.size + u.blkSize < 4294967296)
    (hfinal : c.state = .sendWrq → FinalBlock u c) {complete : Prop}
    (hsuccess : c.status = .success → complete) :
    Handles u complete ((tftpSend c).1, [(tftpSend c).2]) := by
  rcases h.phase with ⟨hstate, _⟩ | ⟨hstate, hblk, _⟩
  · have hsend : tftpSend c = (c, .wrq) := by rw [tftpSend, hstate]
    rw [hsend]
    refine ⟨h, hfinal hstate, ?_, hsuccess⟩
    simp [Sendable]
  · have hsend : tftpSend c =
        ({ c with finalBlock := (loadBlock c c.block u.blkSize).length < u.blkSize },
          .data (c.block % 65536) (loadBlock c c.block u.blkSize)) := by
      simp only [tftpSend, hstate, h.writing, hblk, if_true]
    have hblock := h.block
    rw [hsend]
    refine ⟨{ h with }, ?_, ?_, hsuccess⟩
    · intro hlt
      exact h.length_loadBlock_lt hsize (of_decide_eq_true hlt)
    · rw [List.forall_mem_singleton, Nat.mod_eq_of_lt (by omega)]
      exact h.loadBlock_eq hsize

/-- A packet of the server is not refused for its port. -/
theorem port_accepted (h : Putting u c) :
    ¬(c.state ≠ .sendRrq ∧ u.port ≠ c.remotePort ∧ c.state ≠ .recvWrq ∧ c.state ≠ .sendWrq) := by
  rcases h.phase with ⟨hstate, _⟩ | ⟨_, _, hport⟩
  · simp [hstate]
  · simp [hport]

theorem tftpHandler_ack (h : Putting u c) (block : Nat) :
    tftpHandler c c.ourPort u.port (.ack block) = handleAck c block := by
  unfold tftpHandler
  rw [if_neg (by simp), if_neg h.port_accepted]

theorem tftpHandler_oack (h : Putting u c) (options : List UInt8) :
    tftpHandler c c.ourPort u.port (.oack options) = handleOack c u.port options := by
  unfold tftpHandler
  rw [if_neg (by simp), if_neg h.port_accepted]

/-- Without the final block sent, an ACK moves to the block after the one it is for. -/
theorem handles_ack (h : Putting u c) (hsize : u.size + u.blkSize < 4294967296)
    (hfinal : FinalBlock u c) (hrunning : c.status = .running) (block : Nat) {complete : Prop}
    (hcomplete : c.finalBlock = true → complete) :
    Handles u complete (handleAck c block) := by
  rw [handleAck, if_pos h.writing]
  by_cases hf : c.finalBlock = true
  · rw [if_pos hf]
    exact ⟨{ h with }, hfinal, by simp, fun _ => hcomplete hf⟩
  · -- `TftpLastBlock` is 0, so the block number never wraps
    have hupdate : updateBlockNumber { c with block := (block + 1) % 65536 } =
        { c with block := (block + 1) % 65536 } := by
      simp [updateBlockNumber, h.lastBlock]
    have hnext : Putting u { c with block := (block + 1) % 65536 } :=
      { h with block := Nat.le_of_lt_succ (Nat.mod_lt _ (by decide)) }
    have hnotFinal : FinalBlock u { c with block := (block + 1) % 65536 } :=
      fun hf' => absurd hf' hf
    have hstatus : c.status = .success → complete := fun hs => by simp [hrunning] at hs
    rw [if_neg hf]
    simp only [hupdate]
    split
    · exact hnext.handles_tftpSend hsize (fun _ => hnotFinal) hstatus
    · exact ⟨hnext, hnotFinal, by simp, hstatus⟩

/-- An OACK sets the block size agreed on, also when it comes again. -/
theorem handles_oack (h : Putting u c) (hsize : u.size + u.blkSize < 4294967296)
    (hrunning : c.status = .running) {options : List UInt8} (hoack : u.oack = some options)
    (hblock : c.block < 65535) {complete : Prop} :
    Handles u complete (handleOack c u.port options) := by
  have hagreed : u.blkSize = oackBlkSize options TFTP_BLOCK_SIZE := by
    rw [Upload.blkSize, hoack, agreedBlkSize]
  have hblk : oackBlkSize options c.blkSize = u.blkSize := by
    rcases h.phase with ⟨_, hblk⟩ | ⟨_, hblk, _⟩
    · rw [hblk, hagreed]
    · rw [hblk, hagreed, oackBlkSize_idem]
  have hnext : Putting u { c with
      state := .data, remotePort := u.port, blkSize := u.blkSize, block := c.block + 1 } :=
    { h with block := hblock, phase := .inr ⟨rfl, rfl, rfl⟩ }
  have hulong : ulong ((c.block : Int) + 1) = c.block + 1 := by
    rw [ulong]
    omega
  have hsend : Handles u complete _ := hnext.handles_tftpSend hsize
    (fun hstate => by simp at hstate) fun hs => by simp [hrunning] at hs
  simpa only [handleOack, h.writing, if_true, hblk, hulong] using hsend

theorem handles_timeout (h : Putting u c) (hsize : u.size + u.blkSize < 4294967296)
    (hfinal : FinalBlock u c) (hrunning : c.status = .running) {complete : Prop} :
    Handles u complete (tftpTimeout c) := by
  have hnext : Putting u { c with timeoutCount := c.timeoutCount + 1 } := { h with }
  have hstate : c.state ≠ .recvWrq := by
    rcases h.phase with ⟨hstate, _⟩ | ⟨hstate, _, _⟩ <;> simp [hstate]
  simp only [tftpTimeout]
  split
  · exact ⟨{ h with }, hfinal, by simp, fun hs => by simp [netStartAgain] at hs⟩
  · exact hnext.handles_tftpSend hsize (fun _ => hfinal) fun hs => by simp [hrunning] at hs

end Putting

/-! ### The client with the server -/

/-- The server has the whole file, and its last block is short. -/
def Put.Complete (u : Upload) (s : Put) : Prop :=
  0 < u.blkSize ∧ s.received = fileBlocks u.file u.blkSize

/-- The invariant of a put. Where the block numbers fit into 16 bits, the server has
the first blocks of the file and has acknowledged no others. -/
structure Put.Invariant (u : Upload) (s : Put) : Prop where
  putting : Putting u s.client
  final : FinalBlock u s.client
  datas : ∀ p ∈ s.datas, Sendable u (.data p.1 p.2)
  received : 0 < u.blkSize → u.count ≤ 65535 →
    s.received <+: fileBlocks u.file u.blkSize ∧ ∀ block ∈ s.acks, block ≤ s.received.length
  success : s.client.status = .success → s.Complete u

namespace Put

variable {u : Upload} {s : Put}

theorem length_fileBlocks (u : Upload) : (fileBlocks u.file u.blkSize).length = u.count := by
  simp [fileBlocks, Upload.count, Upload.file]

theorem finished_of_complete (h : s.Complete u) : s.finished u = true := by
  obtain ⟨hpos, hall⟩ := h
  have hlast : s.received.getLast? =
      some (fileBlock u.file u.blkSize (blockCount u.file.length u.blkSize)) := by
    rw [hall, fileBlocks, blockCount, List.range_succ, List.map_append]
    simp
  have hshort : (fileBlock u.file u.blkSize _).length < u.blkSize :=
    (length_fileBlock_lt_iff (Nat.le_add_left 1 _) (Nat.le_refl _)).2 ⟨hpos, rfl⟩
  simp only [finished, hlast]
  exact decide_eq_true hshort

namespace Invariant

theorem start (u : Upload) : Invariant u u.start where
  putting := ⟨rfl, rfl, rfl, rfl, rfl, rfl, Nat.zero_le _, .inl ⟨rfl, rfl⟩⟩
  final := fun h => by simp [Upload.start, tftpStartPut, tftpStart, newTransfer] at h
  datas := by simp [Upload.start]
  received := fun _ _ => by simp [Upload.start]
  success := fun h => by simp [Upload.start, tftpStartPut, tftpStart] at h

theorem react (h : Invariant u s) {handle : Client → Client × List Packet}
    (hhandle : s.client.status = .running → Handles u (s.Complete u) (handle s.client)) :
    Invariant u (s.react handle) := by
  rw [Put.react]
  by_cases hrunning : s.client.status = .running
  · have hr := hhandle hrunning
    rw [if_pos hrunning]
    refine ⟨hr.putting, hr.final, ?_, h.received, hr.success⟩
    intro p hp
    rcases List.mem_append.1 hp with hp | hp
    · exact h.datas p hp
    · obtain ⟨pkt, hpkt, hdata⟩ := List.mem_filterMap.1 hp
      cases pkt with
      | data block bytes =>
        cases hdata
        exact hr.sent _ hpkt
      | _ => simp [Packet.dataBlock] at hdata
  · rw [if_neg hrunning]
    exact h

/-- The server receives the next block of the file or ignores the packet. -/
theorem receive (h : Invariant u s) {block : Nat} {bytes : List UInt8}
    (hdata : (block, bytes) ∈ s.datas) : Invariant u (s.receive u block bytes) := by
  rw [Put.receive]
  split
  · rename_i haccept
    obtain ⟨hblock, hfinished⟩ := haccept
    have hnot : ¬s.Complete u := fun hcomplete => by
      simp [finished_of_complete hcomplete] at hfinished
    refine ⟨h.putting, h.final, h.datas, fun hpos hcount => ?_,
      fun hs => absurd (h.success hs) hnot⟩
    obtain ⟨hinit, hacks⟩ := h.received hpos hcount
    -- more blocks are to come, as the last one has not been received
    have hlt : s.received.length < (fileBlocks u.file u.blkSize).length := by
      refine Nat.lt_of_le_of_ne hinit.length_le fun heq => hnot ⟨hpos, ?_⟩
      exact hinit.eq_of_length heq
    have hnext : block = s.received.length + 1 := by
      rw [length_fileBlocks] at hlt
      omega
    have hbytes : bytes = (fileBlocks u.file u.blkSize)[s.received.length] := by
      have hsent := h.datas _ hdata (by omega)
        (by rw [length_fileBlocks] at hlt; simp only [hnext]; omega)
      simp only [hnext] at hsent
      simp only [hsent, fileBlocks, List.getElem_map, List.getElem_range]
    constructor
    · rw [hbytes, List.prefix_iff_eq_take, List.length_append, List.length_singleton,
        ← List.take_append_getElem hlt, ← List.prefix_iff_eq_take.1 hinit]
    · intro a ha
      rw [List.length_append, List.length_singleton]
      rcases List.mem_append.1 ha with ha | ha
      · exact Nat.le_succ_of_le (hacks a ha)
      · rw [List.mem_singleton.1 ha, hnext]
  · exact h

/-- The ACK of the final block comes after the server has received it. -/
theorem complete_of_ack (h : Invariant u s) (hfinal : s.client.finalBlock = true)
    (hack : s.client.block ∈ s.acks) : s.Complete u := by
  obtain ⟨hpos, hblock⟩ := h.final hfinal
  have hle := h.putting.block
  obtain ⟨hinit, hacks⟩ := h.received hpos (by omega)
  refine ⟨hpos, hinit.eq_of_length ?_⟩
  have hlast := hacks _ hack
  have hlength := hinit.length_le
  rw [length_fileBlocks] at hlength ⊢
  omega

theorem step (hsize : u.size + u.blkSize < 4294967296) (s : Put) (e : PutEvent)
    (h : Invariant u s) (hok : s.Ok e) : Invariant u (s.step u e) := by
  cases e with
  | wrq =>
    refine ⟨h.putting, h.final, h.datas, fun hpos hcount => ?_, h.success⟩
    obtain ⟨hinit, hacks⟩ := h.received hpos hcount
    refine ⟨hinit, fun block hblock => ?_⟩
    simp only [Put.step] at hblock
    split at hblock
    · rcases List.mem_append.1 hblock with hblock | hblock
      · exact hacks block hblock
      · rw [List.mem_singleton.1 hblock]
        exact Nat.zero_le _
    · exact hacks block hblock
  | oack =>
    simp only [Put.step]
    cases hoack : u.oack with
    | none => exact h
    | some options =>
      simp only
      split
      · refine h.react fun hrunning => ?_
        rw [h.putting.tftpHandler_oack]
        exact h.putting.handles_oack hsize hrunning hoack hok
      · exact h
  | ack block =>
    simp only [Put.step]
    split
    · rename_i hblock
      refine h.react fun hrunning => ?_
      rw [h.putting.tftpHandler_ack]
      refine h.putting.handles_ack hsize h.final hrunning block fun hfinal => ?_
      exact h.complete_of_ack hfinal (hok hfinal ▸ hblock)
    · exact h
  | data block bytes =>
    simp only [Put.step]
    split
    · rename_i hdata
      exact h.receive hdata
    · exact h
  | timeout =>
    refine h.react fun hrunning => ?_
    exact h.putting.handles_timeout hsize h.final hrunning

end Invariant

/-- When the client completes the put, the server has received every block, if no
ACK was delivered for an earlier block after the final one was sent. -/
theorem received_of_success (u : Upload) (hsize : u.size + u.blkSize < 4294967296)
    {events : List PutEvent} (hok : Guarded (Put.step u) Put.Ok u.start events)
    (hsuccess : (run (Put.step u) u.start events).client.status = .success) :
    (run (Put.step u) u.start events).received = fileBlocks u.file u.blkSize :=
  ((hok.invariant (Invariant.step hsize) (Invariant.start u)).success hsuccess).2

/-- A put of 513 zeros in two blocks of at most 512 bytes. -/
def twoBlocks : Upload where
  before := Client.unused
  size := 513
  timeoutCountMax := 10
  ourPort := 1024
  port := 2048
  oack := some (ascii "blksize" ++ [0] ++ ascii "512" ++ [0])

def zeros (n : Nat) : List UInt8 := List.replicate n 0

theorem received_of_success_two :
    (run (Put.step twoBlocks) twoBlocks.start
      [.wrq, .oack, .data 1 (zeros 512), .ack 1, .data 2 (zeros 1), .ack 2]).received =
        fileBlocks twoBlocks.file twoBlocks.blkSize :=
  received_of_success twoBlocks (by decide)
    ⟨by decide +kernel, by decide +kernel, by decide +kernel, by decide +kernel,
      by decide +kernel, by decide +kernel, trivial⟩
    (by decide +kernel)

/-- The ACK of block 1 comes again after the final block is sent and before the
server has received it. -/
theorem complete_without_final_block :
    ¬∀ (u : Upload) (events : List PutEvent),
      (run (Put.step u) u.start events).client.status = .success →
        (run (Put.step u) u.start events).received = fileBlocks u.file u.blkSize := by
  intro h
  have hreceived := h twoBlocks [.wrq, .oack, .data 1 (zeros 512), .ack 1, .ack 1]
    (by decide +kernel)
  revert hreceived
  decide +kernel

end Put

end UBoot.Net.Tftp
