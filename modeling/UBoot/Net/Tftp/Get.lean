import UBoot.Net.Tftp.Transfer

/-!
# Getting a file

The client, a server and the network between them. The server sends a block after
the ACK of the block before it. The network keeps every packet ever sent and may
deliver it at any time, any number of times, in any order or never.

A packet has 16 bits of a block number. The blocks and ACKs are given here with
their full numbers, which neither the client nor the server sees. The client adds
the wraps that it has counted, and it counts one whenever number 0 comes after
another number. It stores the file as it is if this number is the one of the block.
-/

namespace UBoot.Net.Tftp

open Verification

/-- A get: the variables of the client before it, the arguments of `TftpStart`, the
port of the server with the options of its OACK, if it sends one, and the file. -/
structure Download where
  before : Client
  timeoutCountMax : Nat
  ourPort : Nat
  port : Nat
  oack : Option (List UInt8)
  file : List UInt8

/-- The client, the number of blocks the server has sent, and the ACKs sent so far:
the number in the packet and the number of the block. -/
structure Get where
  client : Client
  /-- the server has received the RRQ -/
  started : Bool
  sent : Nat
  acks : List (Nat × Nat)
  /-- the block that `TftpBlock` is the number of -/
  current : Nat

inductive GetEvent where
  | rrq
  | oack
  | data (block : Nat)
  | ack (number block : Nat)
  | timeout
  deriving DecidableEq, Repr

namespace Download

def blkSize (d : Download) : Nat := agreedBlkSize d.oack

/-- The number of blocks. -/
def count (d : Download) : Nat := blockCount d.file.length d.blkSize

/-- There is a block for each byte at most, and one more. -/
theorem count_le (d : Download) : d.count ≤ d.file.length + 1 :=
  Nat.succ_le_succ (Nat.div_le_self _ _)

def block (d : Download) (k : Nat) : List UInt8 := fileBlock d.file d.blkSize k

def start (d : Download) : Get where
  client := tftpStartGet d.before d.timeoutCountMax d.ourPort
  started := false
  sent := 0
  acks := []
  current := 0

end Download

def Packet.ackNumber : Packet → Option Nat
  | .ack block => some block
  | _ => none

/-- The client ignores the block it has received last. -/
def Client.Repeated (c : Client) (number : Nat) : Prop :=
  c.state = .data ∧ number = c.lastBlock

instance (c : Client) (number : Nat) : Decidable (c.Repeated number) :=
  inferInstanceAs (Decidable (_ ∧ _))

namespace Get

/-- The client handles an event unless the network loop has ended. Then `TftpBlock`
is the number of the block `current`. -/
def react (s : Get) (current : Nat) (handle : Client → Client × List Packet) : Get :=
  if s.client.status = .running then
    { s with
      client := (handle s.client).1
      current := current
      acks := s.acks ++
        ((handle s.client).2.filterMap Packet.ackNumber).map fun number => (number, current) }
  else s

def step (d : Download) (s : Get) : GetEvent → Get
  | .rrq => { s with started := true, sent := if d.oack = none then max s.sent 1 else s.sent }
  | .oack =>
    match d.oack with
    | some options =>
      if s.started then
        s.react s.current fun c => tftpHandler c c.ourPort d.port (.oack options)
      else s
    | none => s
  | .data block =>
    if 1 ≤ block ∧ block ≤ s.sent then
      s.react (if s.client.Repeated (block % 65536) then s.current else block) fun c =>
        tftpHandler c c.ourPort d.port (.data (block % 65536) (d.block block))
    else s
  | .ack number block =>
    if (number, block) ∈ s.acks ∧ number = s.sent % 65536 ∧ s.sent < d.count then
      { s with sent := s.sent + 1 }
    else s
  | .timeout => s.react s.current tftpTimeout

/-- A packet that the client does not ignore is the block it takes it for: after the
first block, the wraps counted give the number of the block, and a packet with
number 1 is the first block otherwise. The server is not given an ACK of a block
`65536` before the one it has sent last. -/
def Ok (d : Download) (s : Get) : GetEvent → Prop
  | .data block => 1 ≤ block → block ≤ s.sent → s.client.status = .running →
      if s.client.state = .data then
        block % 65536 ≠ s.client.lastBlock →
          block = block % 65536 + 65536 * (s.client.blockWrap +
            if block % 65536 = 0 ∧ s.client.lastBlock ≠ 0 then 1 else 0)
      else block % 65536 = 1 → block = 1
  | .ack number block =>
    (number, block) ∈ s.acks → number = s.sent % 65536 → s.sent < d.count → block = s.sent
  | _ => True

end Get

/-! ### Storing a block -/

/-- The first `n` bytes of the file are at an address. -/
def Stored (file : List UInt8) (mem : Nat → UInt8) (addr n : Nat) : Prop :=
  ∀ p < n, file[p]? = some (mem ((addr + p) % 4294967296))

theorem Stored.loadBytes_eq {file : List UInt8} {mem : Nat → UInt8} {addr : Nat}
    (h : Stored file mem addr file.length) : loadBytes mem addr file.length = file := by
  apply List.ext_getElem?
  intro p
  rcases Nat.lt_or_ge p file.length with hp | hp
  · rw [h p hp]
    simp [loadBytes, hp]
  · rw [List.getElem?_eq_none hp, List.getElem?_eq_none (by simpa using hp)]

theorem storeBytes_apply (mem : Nat → UInt8) (addr offset : Nat) {bytes : List UInt8} {p : Nat}
    (hp : p < 4294967296) (hend : offset + bytes.length ≤ 4294967296) :
    storeBytes mem (ulong ((addr : Int) + offset)) bytes ((addr + p) % 4294967296) =
      if offset ≤ p ∧ p < offset + bytes.length then bytes.getD (p - offset) 0
      else mem ((addr + p) % 4294967296) := by
  have hindex : ulong ((((addr + p) % 4294967296 : Nat) : Int) - ulong ((addr : Int) + offset)) =
      if offset ≤ p then p - offset else 4294967296 + p - offset := by
    simp only [ulong]
    split <;> omega
  simp only [storeBytes, hindex]
  by_cases hle : offset ≤ p
  · simp only [hle, if_true, true_and]
    by_cases hlt : p < offset + bytes.length
    · rw [if_pos hlt, if_pos (by omega)]
    · rw [if_neg hlt, if_neg (by omega)]
  · simp only [hle, if_false, false_and]
    rw [if_neg (by omega)]

theorem offset_add_length_fileBlock {file : List UInt8} {blkSize n : Nat}
    (hn : n < blockCount file.length blkSize) :
    n * blkSize + (fileBlock file blkSize (n + 1)).length =
      min ((n + 1) * blkSize) file.length := by
  have hle := mul_le_of_lt_blockCount hn
  rw [length_fileBlock, Nat.add_sub_cancel, Nat.succ_mul]
  omega

/-- Storing one of the blocks stored before, or the next one. -/
theorem Stored.block {file : List UInt8} {mem : Nat → UInt8} {addr blkSize n k : Nat}
    (h : Stored file mem addr (min (n * blkSize) file.length)) (hlen : file.length < 4294967296)
    (hk : k ≤ n) (hcount : k < blockCount file.length blkSize) :
    Stored file
      (storeBytes mem (ulong ((addr : Int) + (k * blkSize : Nat))) (fileBlock file blkSize (k + 1)))
      addr (min (max n (k + 1) * blkSize) file.length) := by
  have hend := offset_add_length_fileBlock hcount
  intro p hp
  rw [storeBytes_apply _ _ _ (by omega) (by omega)]
  by_cases hin : k * blkSize ≤ p ∧ p < k * blkSize + (fileBlock file blkSize (k + 1)).length
  · obtain ⟨hle, hlt⟩ := hin
    obtain ⟨i, rfl⟩ := Nat.exists_eq_add_of_le hle
    rw [if_pos ⟨hle, hlt⟩, Nat.add_sub_cancel_left]
    have hi : i < blkSize := by
      rw [length_fileBlock] at hlt
      omega
    have hget : (fileBlock file blkSize (k + 1))[i]? = file[k * blkSize + i]? := by
      rw [fileBlock, Nat.add_sub_cancel, List.getElem?_take_of_lt hi, List.getElem?_drop]
    rw [← hget, List.getD_eq_getElem?_getD, List.getElem?_eq_getElem (by omega)]
    rfl
  · rw [if_neg hin]
    refine h p ?_
    -- what the block does not cover was stored before
    have hkn : k * blkSize ≤ n * blkSize := Nat.mul_le_mul_right _ hk
    rcases Nat.lt_or_ge p (k * blkSize) with hbefore | hafter
    · omega
    · rcases Nat.le_total n (k + 1) with hmax | hmax
      · rw [Nat.max_eq_right hmax] at hp
        omega
      · rw [Nat.max_eq_left hmax] at hp
        exact hp

/-! ### The client -/

/-- The client is in a get and has stored the first `n` blocks. -/
structure Getting (d : Download) (n : Nat) (c : Client) : Prop where
  reading : c.writing = false
  loadAddr : c.loadAddr = d.before.loadAddr
  size : c.xferSize = min (n * d.blkSize) d.file.length
  stored : Stored d.file c.mem d.before.loadAddr (min (n * d.blkSize) d.file.length)

/-- `TftpBlock` and the wraps give the number of a block. -/
structure AtBlock (d : Download) (k : Nat) (c : Client) : Prop where
  state : c.state = .data
  port : c.remotePort = d.port
  blkSize : c.blkSize = d.blkSize
  block : c.block = k % 65536
  wrap : c.blockWrap = k / 65536
  wrapOffset : c.blockWrapOffset = k / 65536 * d.blkSize * 65536 % 4294967296

/-- `store_block`, the ACK and the end of the get, for a block that is not repeated. -/
theorem takeBlock_eq {c : Client} {bytes : List UInt8} {offset : Nat} (hread : c.writing = false)
    (hstate : c.state = .data) (hne : c.block ≠ c.lastBlock)
    (hoffset : ulong (((c.block : Int) - 1) * c.blkSize + c.blockWrapOffset) = offset)
    (hend : offset + bytes.length < 4294967296) :
    takeBlock c bytes =
      ({ c with
          lastBlock := c.block
          timeoutCountMax := TIMEOUT_COUNT
          mem := storeBytes c.mem (ulong ((c.loadAddr : Int) + offset)) bytes
          xferSize := max c.xferSize (offset + bytes.length)
          status := if bytes.length < c.blkSize then .success else c.status },
        [.ack (c.block % 65536)]) := by
  have hnewsize : ulong ((offset : Int) + bytes.length) = offset + bytes.length := by
    rw [ulong_add, Nat.mod_eq_of_lt hend]
  have hmax : (if c.xferSize < offset + bytes.length then offset + bytes.length else c.xferSize) =
      max c.xferSize (offset + bytes.length) := by
    split <;> omega
  rw [takeBlock, if_neg hne]
  simp only [storeBlock, hoffset, hnewsize, hmax, tftpSend, hread, hstate, tftpComplete,
    Bool.false_eq_true, if_false]
  split <;> rfl

/-- A block is stored at its place in the file. -/
theorem AtBlock.offset {d : Download} {k : Nat} {c : Client} (h : AtBlock d (k + 1) c)
    (hlt : k * d.blkSize < 4294967296) :
    ulong (((c.block : Int) - 1) * c.blkSize + c.blockWrapOffset) = k * d.blkSize := by
  have hdiv : (k + 1) / 65536 * 65536 + (k + 1) % 65536 = k + 1 := by omega
  generalize hq : (k + 1) / 65536 = q at hdiv
  have hk : (((c.block : Int) - 1) * c.blkSize + (q * d.blkSize * 65536 : Nat)) =
      (k * d.blkSize : Nat) := by
    have hblock : (c.block : Int) = k + 1 - q * 65536 := by
      rw [h.block]
      omega
    rw [hblock, h.blkSize]
    push_cast
    ring
  rw [h.wrapOffset, hq, ← ulong_of_lt hlt, ← hk]
  simp only [ulong]
  push_cast
  rw [Int.add_emod_emod]

namespace Getting

variable {d : Download} {n k : Nat} {c : Client}

/-- The next block, or one stored before, is stored. -/
theorem takeBlock (h : Getting d n c) (hlen : d.file.length < 4294967296)
    (hat : AtBlock d (k + 1) c) (hne : c.block ≠ c.lastBlock) (hk : k ≤ n)
    (hcount : k < d.count) :
    ∃ c', takeBlock c (d.block (k + 1)) = (c', [.ack ((k + 1) % 65536)]) ∧
      Getting d (max n (k + 1)) c' ∧ AtBlock d (k + 1) c' ∧ c'.lastBlock = c'.block ∧
      c'.status = if (d.block (k + 1)).length < d.blkSize then .success else c.status := by
  have hle := mul_le_of_lt_blockCount hcount
  have hend := offset_add_length_fileBlock hcount
  have htake : Tftp.takeBlock c (d.block (k + 1)) = _ := takeBlock_eq h.reading hat.state hne
    (hat.offset (by omega)) (by rw [Download.block]; omega)
  have hnumber : c.block % 65536 = (k + 1) % 65536 := by rw [hat.block, Nat.mod_mod]
  rw [hnumber, hat.blkSize] at htake
  refine ⟨_, htake, ⟨h.reading, h.loadAddr, ?_, ?_⟩, { hat with blkSize := rfl }, rfl, rfl⟩
  · change max c.xferSize _ = _
    rw [h.size, Download.block, hend, ← min_max_distrib_right, Nat.mul_max_mul_right]
  · rw [h.loadAddr]
    exact h.stored.block hlen hk hcount

end Getting

/-- `update_block_number` changes no more than the wraps and the timeout. -/
theorem updateBlockNumber_frame (c : Client) : ∃ wrap offset timeoutCount,
    updateBlockNumber c = { c with
      blockWrap := wrap, blockWrapOffset := offset, timeoutCount := timeoutCount } := by
  rw [updateBlockNumber]
  split
  · exact ⟨_, _, _, rfl⟩
  · exact ⟨_, _, _, rfl⟩

/-- The wraps counted are those of the block if they give its number. -/
theorem AtBlock.updateBlockNumber {d : Download} {current k : Nat} {c : Client}
    (h : AtBlock d current c) (hle : k ≤ 4294967296)
    (hk : k = k % 65536 +
      65536 * (c.blockWrap + if k % 65536 = 0 ∧ c.lastBlock ≠ 0 then 1 else 0)) :
    AtBlock d k (updateBlockNumber { c with block := k % 65536 }) := by
  by_cases hwrap : k % 65536 = 0 ∧ c.lastBlock ≠ 0
  · rw [if_pos hwrap] at hk
    rw [Tftp.updateBlockNumber, if_pos hwrap]
    refine ⟨h.state, h.port, h.blkSize, rfl, ?_, ?_⟩
    · simp only [ulong]
      omega
    · have hdiv : k / 65536 = current / 65536 + 1 := by
        rw [h.wrap] at hk
        omega
      simp only [h.wrapOffset, h.blkSize, hdiv, Nat.succ_mul, ulong, TFTP_SEQUENCE_SIZE]
      generalize current / 65536 * d.blkSize = x
      omega
  · rw [if_neg hwrap] at hk
    rw [Tftp.updateBlockNumber, if_neg hwrap]
    have hdiv : k / 65536 = current / 65536 := by
      rw [h.wrap] at hk
      omega
    exact ⟨h.state, h.port, h.blkSize, rfl, by rw [h.wrap, hdiv], by rw [h.wrapOffset, hdiv]⟩

@[simp] theorem updateBlockNumber_state (c : Client) : (updateBlockNumber c).state = c.state := by
  obtain ⟨_, _, _, h⟩ := updateBlockNumber_frame c
  rw [h]

theorem handleData_of_data {c : Client} (hstate : c.state = .data) (src number : Nat)
    (bytes : List UInt8) :
    handleData c src number bytes =
      takeBlock (updateBlockNumber { c with block := number }) bytes := by
  rw [handleData, if_neg]
  simp [hstate]

theorem handleData_of_first {c : Client} (hstate : c.state = .sendRrq ∨ c.state = .oack)
    (src number : Nat) (bytes : List UInt8) :
    handleData c src number bytes =
      let c' := newTransfer { updateBlockNumber { c with block := number } with
        state := .data, remotePort := src }
      if c'.block ≠ 1 then (netStartAgain c', []) else takeBlock c' bytes := by
  rw [handleData, if_pos]
  rcases hstate with hstate | hstate <;> simp [hstate]

theorem handleData_repeated {c : Client} {number : Nat} (src : Nat) (bytes : List UInt8)
    (hblock : c.block = number) (h : c.Repeated number) :
    handleData c src number bytes = (c, []) := by
  obtain ⟨hstate, hlast⟩ := h
  have hupdate : updateBlockNumber { c with block := number } = c := by
    rw [updateBlockNumber, if_neg (by simp [hlast]), ← hblock]
  rw [handleData_of_data hstate, hupdate, takeBlock, if_pos (by rw [hblock, hlast])]

namespace Getting

variable {d : Download} {n k current : Nat} {c : Client}

/-- A block after the first one. -/
theorem handleData (h : Getting d n c) (hlen : d.file.length < 4294967296)
    (hat : AtBlock d current c) (hk : k ≤ n) (hcount : k < d.count)
    (hne : (k + 1) % 65536 ≠ c.lastBlock)
    (hnumber : k + 1 = (k + 1) % 65536 +
      65536 * (c.blockWrap + if (k + 1) % 65536 = 0 ∧ c.lastBlock ≠ 0 then 1 else 0)) :
    ∃ c', handleData c d.port ((k + 1) % 65536) (d.block (k + 1)) =
        (c', [.ack ((k + 1) % 65536)]) ∧
      Getting d (max n (k + 1)) c' ∧ AtBlock d (k + 1) c' ∧ c'.lastBlock = c'.block ∧
      c'.status = if (d.block (k + 1)).length < d.blkSize then .success else c.status := by
  have hblocks := d.count_le
  have hnext : AtBlock d (k + 1) (updateBlockNumber { c with block := (k + 1) % 65536 }) :=
    hat.updateBlockNumber (by omega) hnumber
  obtain ⟨wrap, offset, timeoutCount, hupdate⟩ :=
    updateBlockNumber_frame { c with block := (k + 1) % 65536 }
  rw [hupdate] at hnext
  have hgetting : Getting d n { c with
      block := (k + 1) % 65536, blockWrap := wrap, blockWrapOffset := offset
      timeoutCount := timeoutCount } := { h with }
  rw [handleData_of_data hat.state, hupdate]
  exact hgetting.takeBlock hlen hnext hne hk hcount

/-- The first block, at the start or after another OACK. -/
theorem handleData_first (h : Getting d n c) (hlen : d.file.length < 4294967296)
    (hstate : c.state = .sendRrq ∨ c.state = .oack) (hblk : c.blkSize = d.blkSize) :
    ∃ c', Tftp.handleData c d.port 1 (d.block 1) = (c', [.ack 1]) ∧
      Getting d (max n 1) c' ∧ AtBlock d 1 c' ∧ c'.lastBlock = c'.block ∧
      c'.status = if (d.block 1).length < d.blkSize then .success else c.status := by
  have hupdate : updateBlockNumber { c with block := 1 } = { c with block := 1 } := by
    rw [updateBlockNumber, if_neg (by simp)]
  have hgetting : Getting d n (newTransfer { c with
      block := 1, state := .data, remotePort := d.port }) := { h with }
  have hat : AtBlock d (0 + 1) (newTransfer { c with
      block := 1, state := .data, remotePort := d.port }) :=
    ⟨rfl, rfl, hblk, rfl, rfl, by simp [newTransfer]⟩
  rw [handleData_of_first hstate, hupdate]
  exact hgetting.takeBlock hlen hat (by simp [newTransfer]) (Nat.zero_le n) (Nat.succ_pos _)

/-- Another block instead of the first one starts the get again. -/
theorem handleData_not_first (h : Getting d n c) {number : Nat} (bytes : List UInt8)
    (hstate : c.state = .sendRrq ∨ c.state = .oack) (hne : number ≠ 1) :
    ∃ c', Tftp.handleData c d.port number bytes = (c', []) ∧ Getting d n c' ∧
      c'.status = .restart := by
  obtain ⟨wrap, offset, timeoutCount, hupdate⟩ :=
    updateBlockNumber_frame { c with block := number }
  rw [handleData_of_first hstate, hupdate]
  exact ⟨_, if_pos hne, { h with }, rfl⟩

end Getting

end UBoot.Net.Tftp
