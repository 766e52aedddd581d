import UBoot.Net.Tftp.Put

/-!
# A put without losses

The server answers every packet of the client once, and the answers arrive in
order; the timer runs out only when nothing is in flight. `update_block_number`
looks for a wrap of the block number by `TftpLastBlock`, which a put never sets:
the DATA packet after block 65535 has number 0 and the bytes in front of the file.
-/

namespace UBoot.Net.Tftp

open Verification

/-- The client, the packets it sent last, and all blocks it has sent. -/
structure Exchange where
  client : Client
  flight : List Packet
  datas : List (Nat × List UInt8)

namespace Upload

/-- The answer of the server to a packet of the client. -/
def answer (u : Upload) : Packet → Option Packet
  | .wrq => some (u.oack.elim (.ack 0) .oack)
  | .data block _ => some (.ack block)
  | _ => none

/-- After `TftpStart`, which sends the first packet. -/
def opened (u : Upload) : Exchange where
  client := (tftpSend u.start.client).1
  flight := [(tftpSend u.start.client).2]
  datas := []

/-- The client receives the next answer. -/
def round (u : Upload) (s : Exchange) : Exchange :=
  if s.client.status = .running then
    let r := match s.flight.head?.bind u.answer with
      | some pkt => tftpHandler s.client s.client.ourPort u.port pkt
      | none => tftpTimeout s.client
    { client := r.1, flight := r.2, datas := s.datas ++ r.2.filterMap Packet.dataBlock }
  else s

def rounds (u : Upload) : Nat → Exchange
  | 0 => u.opened
  | n + 1 => u.round (u.rounds n)

/-- The client completes the put, its payloads are the file, it numbers them from 1
modulo `2 ^ 16`, and the last payload is shorter than the block size. -/
def Delivers (u : Upload) : Prop :=
  ∃ n, (u.rounds n).client.status = .success ∧
    ((u.rounds n).datas.map Prod.snd).flatten = u.file ∧
    (u.rounds n).datas.map Prod.fst =
      (List.range (u.rounds n).datas.length).map (fun i => (i + 1) % 65536) ∧
    ∃ last ∈ (u.rounds n).datas.getLast?, last.2.length < u.blkSize

/-- What the client sends under a block number. -/
def payload (u : Upload) (block : Nat) : List UInt8 := loadBlock u.start.client block u.blkSize

/-- The first `m` blocks the client sends. -/
def sentBlocks (u : Upload) (m : Nat) : List (Nat × List UInt8) :=
  (List.range m).map fun i => ((i + 1) % 65536, u.payload ((i + 1) % 65536))

end Upload

/-! ### Rounds -/

/-- Block `m` is in flight. -/
structure Sending (u : Upload) (m : Nat) (s : Exchange) : Prop where
  putting : Putting u s.client
  state : s.client.state = .data
  status : s.client.status = .running
  block : s.client.block = m % 65536
  final : s.client.finalBlock = decide ((u.payload (m % 65536)).length < u.blkSize)
  flight : s.flight = [.data (m % 65536) (u.payload (m % 65536))]
  datas : s.datas = u.sentBlocks m

section Rounds

variable {u : Upload} {c : Client} {s : Exchange} {m : Nat}

theorem Putting.loadBlock_payload (h : Putting u c) (block : Nat) :
    loadBlock c block u.blkSize = u.payload block := by
  simp only [loadBlock, Upload.payload, h.wrapOffset, h.xferSize, h.mem, h.saveAddr]
  rfl

/-- What `TftpSend` does between blocks. -/
theorem Putting.tftpSend_data (h : Putting u c) (hstate : c.state = .data) :
    tftpSend c = ({ c with finalBlock := (u.payload c.block).length < u.blkSize },
      .data c.block (u.payload c.block)) := by
  have hblk : c.blkSize = u.blkSize := by
    rcases h.phase with ⟨hwrq, -⟩ | ⟨-, hblk, -⟩
    · simp [hstate] at hwrq
    · exact hblk
  have hmod : c.block % 65536 = c.block := Nat.mod_eq_of_lt (Nat.lt_succ_of_le h.block)
  simp only [tftpSend, hstate, h.writing, if_true, hblk, h.loadBlock_payload, hmod]

theorem sentBlocks_succ (u : Upload) (m : Nat) :
    u.sentBlocks (m + 1) =
      u.sentBlocks m ++ [((m + 1) % 65536, u.payload ((m + 1) % 65536))] := by
  rw [Upload.sentBlocks, List.range_succ, List.map_append]
  rfl

/-- A packet sent between blocks puts the next block in flight. -/
theorem sending_of_tftpSend (h : Putting u c) (hstate : c.state = .data)
    (hstatus : c.status = .running) (hblock : c.block = (m + 1) % 65536) :
    Sending u (m + 1)
      { client := (tftpSend c).1
        flight := [(tftpSend c).2]
        datas := u.sentBlocks m ++ [(tftpSend c).2].filterMap Packet.dataBlock } := by
  rw [h.tftpSend_data hstate]
  refine ⟨{ h with }, hstate, hstatus, hblock, ?_, ?_, ?_⟩
  · rw [← hblock]
  · rw [← hblock]
  · rw [sentBlocks_succ, ← hblock]
    rfl

/-- `TftpStart` sends the WRQ. -/
theorem opened_eq (u : Upload) : u.opened = ⟨u.start.client, [.wrq], []⟩ := rfl

theorem sending_first {options : List UInt8} (hoack : u.oack = some options) :
    Sending u 1 (u.rounds 1) := by
  have hput : Putting u u.start.client := (Put.Invariant.start u).putting
  have hagreed : u.blkSize = oackBlkSize options TFTP_BLOCK_SIZE := by
    rw [Upload.blkSize, hoack, agreedBlkSize]
  have hround : u.round u.opened =
      { client := (handleOack u.start.client u.port options).1
        flight := (handleOack u.start.client u.port options).2
        datas := (handleOack u.start.client u.port options).2.filterMap Packet.dataBlock } := by
    have hrunning : u.start.client.status = .running := rfl
    rw [opened_eq, Upload.round, if_pos hrunning]
    simp only [List.head?_cons, Option.bind_some, Upload.answer, hoack, Option.elim_some,
      List.nil_append]
    rw [hput.tftpHandler_oack]
  have hnext : Putting u { u.start.client with
      state := .data, remotePort := u.port, blkSize := u.blkSize, block := 1 } :=
    { hput with block := by simp, phase := .inr ⟨rfl, rfl, rfl⟩ }
  have hsending := sending_of_tftpSend (m := 0) hnext rfl rfl rfl
  rw [Upload.rounds, Upload.rounds, hround]
  have hhandle : handleOack u.start.client u.port options =
      ((tftpSend { u.start.client with
        state := .data, remotePort := u.port, blkSize := u.blkSize, block := 1 }).1,
       [(tftpSend { u.start.client with
        state := .data, remotePort := u.port, blkSize := u.blkSize, block := 1 }).2]) := by
    rw [hagreed]
    rfl
  rw [hhandle]
  exact hsending

/-- The ACK of a block that was not the final one. -/
theorem Sending.next (h : Sending u m s) (hfull : ¬(u.payload (m % 65536)).length < u.blkSize) :
    Sending u (m + 1) (u.round s) := by
  have hfinal : ¬s.client.finalBlock = true := by simpa [h.final] using hfull
  have hmod : (m % 65536 + 1) % 65536 = (m + 1) % 65536 := by omega
  have hnext : Putting u { s.client with block := (m + 1) % 65536 } :=
    { h.putting with block := Nat.le_of_lt_succ (Nat.mod_lt _ (by decide)) }
  have hupdate : updateBlockNumber { s.client with block := (m + 1) % 65536 } =
      { s.client with block := (m + 1) % 65536 } := by
    simp [updateBlockNumber, h.putting.lastBlock]
  have hround : u.round s =
      { client := (tftpSend { s.client with block := (m + 1) % 65536 }).1
        flight := [(tftpSend { s.client with block := (m + 1) % 65536 }).2]
        datas := u.sentBlocks m ++
          [(tftpSend { s.client with block := (m + 1) % 65536 }).2].filterMap
            Packet.dataBlock } := by
    rw [Upload.round, if_pos h.status, h.flight]
    simp only [List.head?_cons, Option.bind_some, Upload.answer, h.datas]
    rw [h.putting.tftpHandler_ack, handleAck, if_pos h.putting.writing, if_neg hfinal]
    simp only [hmod, hupdate, h.block, if_true]
  rw [hround]
  exact sending_of_tftpSend hnext h.state h.status rfl

theorem Sending.complete (h : Sending u m s)
    (hshort : (u.payload (m % 65536)).length < u.blkSize) :
    (u.round s).client.status = .success ∧ (u.round s).datas = u.sentBlocks m := by
  have hfinal : s.client.finalBlock = true := by simpa [h.final] using hshort
  have hround : u.round s = { client := tftpComplete s.client, flight := [], datas := s.datas } := by
    rw [Upload.round, if_pos h.status, h.flight]
    simp only [List.head?_cons, Option.bind_some, Upload.answer]
    rw [h.putting.tftpHandler_ack, handleAck, if_pos h.putting.writing, if_pos hfinal]
    simp
  rw [hround]
  exact ⟨rfl, h.datas⟩

/-- A put that has ended stays as it is. -/
theorem round_of_success (h : s.client.status = .success) : u.round s = s := by
  rw [Upload.round, if_neg (by simp [h])]

end Rounds

/-! ### The first short block -/

namespace Upload

variable {u : Upload} {options : List UInt8} {m : Nat}

/-- No block before the `m`-th one is short. -/
def FullBefore (u : Upload) (m : Nat) : Prop :=
  ∀ i, 1 ≤ i → i < m → ¬(u.payload (i % 65536)).length < u.blkSize

theorem sending_of_full (hoack : u.oack = some options) (hfull : u.FullBefore (m + 1)) :
    Sending u (m + 1) (u.rounds (m + 1)) := by
  induction m with
  | zero => exact sending_first hoack
  | succ m ih =>
    have hprev := ih fun i h1 hi => hfull i h1 (by omega)
    exact hprev.next (hfull (m + 1) (by omega) (by omega))

/-- Once a short block has been acknowledged, the put is complete for good. -/
theorem rounds_of_short (hoack : u.oack = some options) (hfull : u.FullBefore (m + 1))
    (hshort : (u.payload ((m + 1) % 65536)).length < u.blkSize) (k : Nat) :
    (u.rounds (m + 2 + k)).client.status = .success ∧
      (u.rounds (m + 2 + k)).datas = u.sentBlocks (m + 1) := by
  induction k with
  | zero => exact (sending_of_full hoack hfull).complete hshort
  | succ k ih =>
    have hsame : u.rounds (m + 2 + (k + 1)) = u.rounds (m + 2 + k) :=
      round_of_success ih.1
    rw [hsame]
    exact ih

/-- A put that completes has sent the blocks up to the first short one. -/
theorem short_of_success (hoack : u.oack = some options) {n : Nat}
    (hsuccess : (u.rounds n).client.status = .success) :
    ∃ m, u.FullBefore (m + 1) ∧ (u.payload ((m + 1) % 65536)).length < u.blkSize ∧
      (u.rounds n).datas = u.sentBlocks (m + 1) := by
  by_cases hex : ∃ m, m + 1 < n ∧ (u.payload ((m + 1) % 65536)).length < u.blkSize
  · obtain ⟨hlt, hshort⟩ := Nat.find_spec hex
    have hfull : u.FullBefore (Nat.find hex + 1) := by
      intro i h1 hi hshort'
      obtain ⟨j, rfl⟩ : ∃ j, i = j + 1 := ⟨i - 1, by omega⟩
      exact Nat.find_min hex (show j < Nat.find hex by omega) ⟨by omega, hshort'⟩
    refine ⟨Nat.find hex, hfull, hshort, ?_⟩
    have hrounds := (rounds_of_short hoack hfull hshort (n - (Nat.find hex + 2))).2
    rwa [show Nat.find hex + 2 + (n - (Nat.find hex + 2)) = n by omega] at hrounds
  · -- every block so far was full, so the put is still running
    exfalso
    cases n with
    | zero =>
      have hrunning : (u.rounds 0).client.status = .running := rfl
      simp [hsuccess] at hrunning
    | succ n =>
      have hfull : u.FullBefore (n + 1) := by
        intro i h1 hi hshort
        obtain ⟨j, rfl⟩ : ∃ j, i = j + 1 := ⟨i - 1, by omega⟩
        exact hex ⟨j, by omega, hshort⟩
      have hrunning := (sending_of_full hoack hfull).status
      simp [hsuccess] at hrunning

/-! ### The payloads -/

theorem payload_eq (hsize : u.size < 4294967296) {block : Nat} (h1 : 1 ≤ block)
    (hk : block ≤ u.count) : u.payload block = fileBlock u.file u.blkSize block :=
  loadBlock_eq rfl hsize h1 hk

/-- Only the last block of the file is short. -/
theorem length_payload_lt_iff (hsize : u.size < 4294967296) {block : Nat} (h1 : 1 ≤ block)
    (hk : block ≤ u.count) :
    (u.payload block).length < u.blkSize ↔ 0 < u.blkSize ∧ block = u.count := by
  have hlength : u.file.length = u.size := length_loadBytes _ _ _
  have hcount : u.count = blockCount u.file.length u.blkSize := by rw [hlength, count]
  rw [payload_eq hsize h1 hk, hcount]
  exact length_fileBlock_lt_iff h1 (hcount ▸ hk)

theorem length_payload_zero (hsize : u.size + u.blkSize < 4294967296) :
    (u.payload 0).length = u.blkSize :=
  length_loadBlock_of_outside rfl (Nat.le_of_lt_succ (agreedBlkSize_lt u.oack)) hsize
    (Nat.zero_le _) (.inl rfl)

theorem length_payload_le (u : Upload) (block : Nat) : (u.payload block).length ≤ u.blkSize := by
  simp only [payload, loadBlock, length_loadBytes]
  exact Nat.min_le_right _ _

theorem length_sent_le (u : Upload) (m : Nat) :
    ((u.sentBlocks m).map Prod.snd).flatten.length ≤ m * u.blkSize := by
  induction m with
  | zero => exact Nat.zero_le _
  | succ m ih =>
    have hle := u.length_payload_le ((m + 1) % 65536)
    rw [sentBlocks_succ, List.map_append, List.flatten_append, List.length_append, Nat.succ_mul]
    simp only [List.map_cons, List.map_nil, List.flatten_cons, List.flatten_nil,
      List.append_nil]
    omega

/-- The first `m` blocks of a file are its first bytes. -/
theorem flatten_sent (hsize : u.size < 4294967296) (h16 : u.count ≤ 65535) (hm : m ≤ u.count) :
    ((u.sentBlocks m).map Prod.snd).flatten = u.file.take (m * u.blkSize) := by
  induction m with
  | zero => simp [sentBlocks]
  | succ m ih =>
    have hmod : (m + 1) % 65536 = m + 1 := Nat.mod_eq_of_lt (by omega)
    rw [sentBlocks_succ, List.map_append, List.flatten_append, ih (by omega), hmod,
      Nat.succ_mul, List.take_add]
    simp only [List.map_cons, List.map_nil, List.flatten_cons, List.flatten_nil,
      List.append_nil]
    rw [payload_eq hsize (by omega) hm, fileBlock, Nat.add_sub_cancel]

/-! ### Which files are delivered -/

theorem count_le_iff (hpos : 0 < u.blkSize) :
    u.count ≤ 65535 ↔ u.size < 65535 * u.blkSize := by
  rw [count, blockCount, Nat.succ_le_iff, Nat.div_lt_iff_lt_mul hpos]

theorem delivers_of_small (hsize : u.size < 4294967296) (hoack : u.oack = some options)
    (hpos : 0 < u.blkSize) (h16 : u.count ≤ 65535) : u.Delivers := by
  obtain ⟨m, hm⟩ : ∃ m, u.count = m + 1 := ⟨_, rfl⟩
  have hmod : (m + 1) % 65536 = m + 1 := Nat.mod_eq_of_lt (by omega)
  have hfull : u.FullBefore (m + 1) := by
    intro i h1 hi hshort
    rw [Nat.mod_eq_of_lt (by omega), length_payload_lt_iff hsize h1 (by omega)] at hshort
    omega
  have hshort : (u.payload ((m + 1) % 65536)).length < u.blkSize := by
    rw [hmod, length_payload_lt_iff hsize (by omega) (by omega)]
    exact ⟨hpos, hm.symm⟩
  obtain ⟨hsuccess, hdatas⟩ := rounds_of_short hoack hfull hshort 0
  refine ⟨m + 2, hsuccess, ?_, ?_, ((m + 1) % 65536, u.payload ((m + 1) % 65536)), ?_, hshort⟩
  · rw [hdatas, flatten_sent hsize h16 (Nat.le_of_eq hm.symm)]
    apply List.take_of_length_le
    have hend := lt_mul_of_blockCount_le u.size hpos (Nat.le_of_eq hm)
    rw [file, length_loadBytes]
    omega
  · simp [hdatas, sentBlocks]
  · rw [hdatas, sentBlocks_succ]
    simp

/-- With more than 65535 blocks, the block with number 0 is never the end of the
file, and the blocks that follow are the first ones again. -/
theorem not_delivers_of_large (hsize : u.size < 4294967296) (hoack : u.oack = some options)
    (h16 : 65535 < u.count) : ¬u.Delivers := by
  rintro ⟨n, hsuccess, hfile, -, -⟩
  obtain ⟨m, hfull, hshort, hdatas⟩ := short_of_success hoack hsuccess
  have hzero : (m + 1) % 65536 = 0 := by
    by_contra hne
    have hlt := Nat.mod_lt (m + 1) (show 0 < 65536 by decide)
    rw [length_payload_lt_iff hsize (by omega) (by omega)] at hshort
    omega
  rw [hzero] at hshort
  by_cases hwrap : u.size + u.blkSize < 4294967296
  · rw [length_payload_zero hwrap] at hshort
    exact Nat.lt_irrefl _ hshort
  · -- the remaining size wraps: block 0 ends the put, too early
    have hm : m + 1 = 65536 := by
      by_contra hne
      exact hfull 65536 (by decide) (by omega) hshort
    have hle := u.length_sent_le (m + 1)
    have hblk : u.blkSize < 65536 := agreedBlkSize_lt u.oack
    rw [← hdatas, hfile, file, length_loadBytes, hm] at hle
    omega

/-- The client is still waiting for an OACK. -/
structure Waiting (s : Exchange) : Prop where
  state : s.client.state = .sendWrq
  writing : s.client.writing = true
  flight : s.flight = [] ∨ s.flight = [.wrq]
  datas : s.datas = []

theorem Waiting.of_tftpSend {c : Client} (hstate : c.state = .sendWrq)
    (hwriting : c.writing = true) :
    Waiting ⟨(tftpSend c).1, [(tftpSend c).2],
      [] ++ [(tftpSend c).2].filterMap Packet.dataBlock⟩ := by
  have hsend : tftpSend c = (c, .wrq) := by rw [tftpSend, hstate]
  rw [hsend]
  exact ⟨hstate, hwriting, .inr rfl, rfl⟩

/-- The ACK of the WRQ makes the client send the WRQ again. -/
theorem Waiting.of_handleAck {c : Client} (hstate : c.state = .sendWrq)
    (hwriting : c.writing = true) :
    Waiting ⟨(handleAck c 0).1, (handleAck c 0).2,
      [] ++ (handleAck c 0).2.filterMap Packet.dataBlock⟩ := by
  have hupdate : updateBlockNumber { c with block := (0 + 1) % 65536 } =
      { c with block := (0 + 1) % 65536 } := by
    simp [updateBlockNumber]
  rw [handleAck, if_pos hwriting, hupdate]
  split
  · exact ⟨hstate, hwriting, .inl rfl, rfl⟩
  · dsimp only
    split
    · exact Waiting.of_tftpSend hstate hwriting
    · exact ⟨hstate, hwriting, .inl rfl, rfl⟩

theorem Waiting.round {s : Exchange} (h : Waiting s) (hoack : u.oack = none) :
    Waiting (u.round s) := by
  rw [Upload.round]
  split
  · rcases h.flight with hflight | hflight
    · simp only [hflight, List.head?_nil, Option.bind_none, h.datas, tftpTimeout]
      split
      · exact ⟨h.state, h.writing, .inl rfl, rfl⟩
      · rw [if_pos (by simp [h.state])]
        exact Waiting.of_tftpSend h.state h.writing
    · have hhandler : tftpHandler s.client s.client.ourPort u.port (.ack 0) =
          handleAck s.client 0 := by
        unfold tftpHandler
        rw [if_neg (by simp), if_neg (by simp [h.state])]
      simp only [hflight, List.head?_cons, Option.bind_some, answer, hoack, Option.elim_none,
        hhandler, h.datas]
      exact Waiting.of_handleAck h.state h.writing
  · exact h

theorem waiting_rounds (hoack : u.oack = none) (n : Nat) : Waiting (u.rounds n) := by
  induction n with
  | zero => exact ⟨rfl, rfl, .inr rfl, rfl⟩
  | succ n ih => exact ih.round hoack

theorem not_delivers_without_oack (hoack : u.oack = none) : ¬u.Delivers := by
  rintro ⟨n, -, -, -, last, hlast, -⟩
  simp [(waiting_rounds hoack n).datas] at hlast

/-- A put delivers the file exactly when the server answers with an OACK and the
file has at most 65535 blocks. -/
theorem delivers_iff (u : Upload) (hsize : u.size < 4294967296) :
    u.Delivers ↔ u.oack ≠ none ∧ 0 < u.blkSize ∧ u.size < 65535 * u.blkSize := by
  cases hoack : u.oack with
  | none => simp [not_delivers_without_oack hoack]
  | some options =>
    by_cases hpos : 0 < u.blkSize
    · rw [← count_le_iff hpos]
      by_cases h16 : u.count ≤ 65535
      · exact iff_of_true (delivers_of_small hsize hoack hpos h16) ⟨by simp, hpos, h16⟩
      · refine iff_of_false (not_delivers_of_large hsize hoack (by omega)) ?_
        exact fun h => h16 h.2.2
    · refine iff_of_false ?_ (fun h => hpos h.2.1)
      rintro ⟨n, -, -, -, last, -, hlast⟩
      omega

theorem twoBlocks_delivers : Put.twoBlocks.Delivers :=
  (delivers_iff Put.twoBlocks (by decide)).mpr ⟨by decide, by decide, by decide⟩

/-- A put of 65536 blocks, the last one empty. -/
def manyBlocks : Upload := { Put.twoBlocks with size := 65535 * 512 }

/-- The put of 65535 full blocks does not end with an empty block: it goes on with a
block 0 of the 512 bytes in front of the file. -/
theorem manyBlocks_not_delivered :
    ¬∀ u : Upload, u.size < 4294967296 → u.oack ≠ none → 0 < u.blkSize → u.Delivers := by
  intro h
  have hblk : manyBlocks.blkSize = 512 := by decide
  refine not_delivers_of_large (u := manyBlocks) (by decide) rfl ?_
    (h manyBlocks (by decide) (by decide) (by rw [hblk]; decide))
  rw [count, hblk]
  decide

end Upload

end UBoot.Net.Tftp
