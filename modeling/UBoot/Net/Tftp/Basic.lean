import UBoot.Verification.Bytes

/-!
# The TFTP client

`net/tftp.c` with `CONFIG_CMD_TFTPPUT`, and without the options for multicast, for
a TFTP server, for direct writes to flash and for the size option. A packet is
given by its opcode and fields. The variables are those of the source; `ulong` has
32 bits, and addresses are taken modulo `2 ^ 32`.
-/

namespace UBoot.Net.Tftp

open Verification

def TIMEOUT_COUNT : Nat := 10
def WELL_KNOWN_PORT : Nat := 69
def TFTP_BLOCK_SIZE : Nat := 512
def TFTP_SEQUENCE_SIZE : Nat := 65536

/-- `TftpState` -/
inductive State where
  | sendRrq
  | data
  | tooLarge
  | badMagic
  | oack
  | recvWrq
  | sendWrq
  deriving DecidableEq, Repr

/-- The state of the network loop that the client sets; `restart` is set by
`NetStartAgain`. -/
inductive Status where
  | running
  | success
  | fail
  | restart
  deriving DecidableEq, Repr

inductive Packet where
  | rrq
  | wrq
  | data (block : Nat) (bytes : List UInt8)
  | ack (block : Nat)
  | error (code : Nat)
  | oack (options : List UInt8)
  deriving DecidableEq, Repr

structure Client where
  state : State
  /-- `TftpBlock` and `TftpLastBlock` -/
  block : Nat
  lastBlock : Nat
  blockWrap : Nat
  blockWrapOffset : Nat
  blkSize : Nat
  /-- `TftpWriting` and `TftpFinalBlock` -/
  writing : Bool
  finalBlock : Bool
  /-- `NetBootFileXferSize` -/
  xferSize : Nat
  loadAddr : Nat
  saveAddr : Nat
  mem : Nat → UInt8
  timeoutCount : Nat
  timeoutCountMax : Nat
  ourPort : Nat
  remotePort : Nat
  status : Status

/-- The value of an `int` or `ulong` expression as `ulong`. -/
def ulong (n : Int) : Nat := (n % 4294967296).toNat

/-- `memcpy` to an address. -/
def storeBytes (mem : Nat → UInt8) (addr : Nat) (bytes : List UInt8) : Nat → UInt8 := fun q =>
  let i := ulong ((q : Int) - addr)
  if i < bytes.length then bytes.getD i 0 else mem q

def loadBytes (mem : Nat → UInt8) (addr n : Nat) : List UInt8 :=
  (List.range n).map fun i => mem ((addr + i) % 4294967296)

/-! ### Blocks -/

/-- `store_block` -/
def storeBlock (c : Client) (block : Int) (src : List UInt8) : Client :=
  let offset := ulong (block * c.blkSize + c.blockWrapOffset)
  let newsize := ulong ((offset : Int) + src.length)
  { c with
    mem := storeBytes c.mem (ulong ((c.loadAddr : Int) + offset)) src
    xferSize := if c.xferSize < newsize then newsize else c.xferSize }

/-- `new_transfer` -/
def newTransfer (c : Client) : Client :=
  { c with lastBlock := 0, blockWrap := 0, blockWrapOffset := 0, finalBlock := false }

/-- `load_block` -/
def loadBlock (c : Client) (block len : Nat) : List UInt8 :=
  let offset := ulong (((block : Int) - 1) * len + c.blockWrapOffset)
  let tosend := min (ulong ((c.xferSize : Int) - offset)) len
  loadBytes c.mem (c.saveAddr + offset) tosend

/-- `update_block_number` -/
def updateBlockNumber (c : Client) : Client :=
  if c.block = 0 ∧ c.lastBlock ≠ 0 then
    { c with
      blockWrap := ulong ((c.blockWrap : Int) + 1)
      blockWrapOffset := ulong ((c.blockWrapOffset : Int) + c.blkSize * TFTP_SEQUENCE_SIZE)
      timeoutCount := 0 }
  else c

/-- `tftp_complete` -/
def tftpComplete (c : Client) : Client := { c with status := .success }

/-- `NetStartAgain` and `restart` -/
def netStartAgain (c : Client) : Client := { c with status := .restart }

/-! ### Sending -/

/-- `TftpSend`: the client and the packet sent. The block number is sent as 16
bits. -/
def tftpSend (c : Client) : Client × Packet :=
  match c.state with
  | .sendRrq => (c, .rrq)
  | .sendWrq => (c, .wrq)
  | .oack | .recvWrq | .data =>
    if c.writing then
      let toload := c.blkSize
      let loaded := loadBlock c c.block toload
      ({ c with finalBlock := loaded.length < toload }, .data (c.block % 65536) loaded)
    else (c, .ack (c.block % 65536))
  | .tooLarge => (c, .error 3)
  | .badMagic => (c, .error 2)

/-! ### The options -/

def isDigit (c : UInt8) : Bool := 48 ≤ c ∧ c ≤ 57
def isXDigit (c : UInt8) : Bool := isDigit c ∨ (65 ≤ c ∧ c ≤ 70) ∨ (97 ≤ c ∧ c ≤ 102)

def digitValue (c : UInt8) : Nat :=
  if isDigit c then c.toNat - 48 else if 97 ≤ c then c.toNat - 87 else c.toNat - 55

/-- `simple_strtoul` with base 10, which a prefix `0x` changes to 16. -/
def simpleStrtoul (cp : List UInt8) : Nat :=
  let (cp, base) := match cp with
    | 48 :: 120 :: x :: rest => if isXDigit x then (x :: rest, 16) else (cp, 10)
    | _ => (cp, 10)
  (cp.takeWhile fun c => isXDigit c ∧ digitValue c < base).foldl
    (fun result c => (result * base + digitValue c) % 4294967296) 0

/-- One turn of the loop over the options: the block size after position `i`. -/
def oackTurn (pkt : List UInt8) (blkSize i : Nat) : Nat :=
  if (pkt.drop i).takeWhile (· ≠ 0) = ascii "blksize" then
    simpleStrtoul (pkt.drop (i + 8)) % 65536
  else blkSize

/-- The loop over the options of an OACK. -/
def oackBlkSize (pkt : List UInt8) (blkSize : Nat) : Nat :=
  (List.range (pkt.length - 8)).foldl (oackTurn pkt) blkSize

/-! ### Receiving -/

def handleAck (c : Client) (block : Nat) : Client × List Packet :=
  if c.writing then
    if c.finalBlock then (tftpComplete c, [])
    else
      let ackOk := c.block = block
      let c := updateBlockNumber { c with block := (block + 1) % 65536 }
      if ackOk then
        let (c, sent) := tftpSend c
        (c, [sent])
      else (c, [])
  else (c, [])

def handleOack (c : Client) (src : Nat) (options : List UInt8) : Client × List Packet :=
  let c := { c with
    state := .oack
    remotePort := src
    blkSize := oackBlkSize options c.blkSize }
  let c := if c.writing then { c with state := .data, block := ulong ((c.block : Int) + 1) } else c
  let (c, sent) := tftpSend c
  (c, [sent])

/-- The last part of the case of DATA. -/
def takeBlock (c : Client) (bytes : List UInt8) : Client × List Packet :=
  if c.block = c.lastBlock then (c, [])
  else
    let c := { c with lastBlock := c.block, timeoutCountMax := TIMEOUT_COUNT }
    let c := storeBlock c ((c.block : Int) - 1) bytes
    let (c, sent) := tftpSend c
    (if bytes.length < c.blkSize then tftpComplete c else c, [sent])

def handleData (c : Client) (src block : Nat) (bytes : List UInt8) : Client × List Packet :=
  let c := updateBlockNumber { c with block := block }
  if c.state = .sendRrq ∨ c.state = .oack ∨ c.state = .recvWrq then
    let c := newTransfer { c with state := .data, remotePort := src }
    -- the first block received is not block 1
    if c.block ≠ 1 then (netStartAgain c, []) else takeBlock c bytes
  else takeBlock c bytes

def handleError (c : Client) (code : Nat) : Client × List Packet :=
  if code = 1 ∨ code = 2 then ({ c with status := .fail }, []) else (netStartAgain c, [])

/-- `TftpHandler`: the client and the packets sent. -/
def tftpHandler (c : Client) (dest src : Nat) (pkt : Packet) : Client × List Packet :=
  if dest ≠ c.ourPort then (c, [])
  else if c.state ≠ .sendRrq ∧ src ≠ c.remotePort ∧ c.state ≠ .recvWrq ∧ c.state ≠ .sendWrq then
    (c, [])
  else
    match pkt with
    | .rrq | .wrq => (c, [])
    | .ack block => handleAck c block
    | .oack options => handleOack c src options
    | .data block bytes => handleData c src block bytes
    | .error code => handleError c code

/-- `TftpTimeout` -/
def tftpTimeout (c : Client) : Client × List Packet :=
  let c := { c with timeoutCount := c.timeoutCount + 1 }
  if c.timeoutCountMax < c.timeoutCount then (netStartAgain c, [])
  else if c.state ≠ .recvWrq then
    let (c, sent) := tftpSend c
    (c, [sent])
  else (c, [])

/-- The variables that `TftpStart` sets for a transfer in either direction. -/
def tftpStart (c : Client) (timeoutCountMax ourPort : Nat) : Client :=
  { c with
    timeoutCountMax := timeoutCountMax
    timeoutCount := 0
    ourPort := ourPort
    remotePort := WELL_KNOWN_PORT
    block := 0
    blkSize := TFTP_BLOCK_SIZE
    status := .running }

/-- `TftpStart` for a get, after `NetLoop` has cleared `NetBootFileXferSize`. -/
def tftpStartGet (c : Client) (timeoutCountMax ourPort : Nat) : Client :=
  tftpStart { c with xferSize := 0, writing := false, state := .sendRrq } timeoutCountMax ourPort

/-- `TftpStart` for a put of `saveSize` bytes. -/
def tftpStartPut (c : Client) (saveSize timeoutCountMax ourPort : Nat) : Client :=
  tftpStart (newTransfer { c with xferSize := saveSize, writing := true, state := .sendWrq })
    timeoutCountMax ourPort

end UBoot.Net.Tftp
