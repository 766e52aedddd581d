import Mathlib.Data.UInt
import Mathlib.Tactic.Common

/-!
# The Kermit receiver

`k_recv` and the functions it calls in `common/cmd_load.c`. The receiver waits
for one character after another, so that its place in the code between two
calls of `getc` is a part of the state. Memory is addressed relative to
`bin_start_address`, modulo `2 ^ 32`. The padding and the end of line of the
answers are left out, and `os_data_state`, which is 0 all the time.
-/

namespace UBoot.Kermit

def START_CHAR : UInt8 := 0x01
def ETX_CHAR : UInt8 := 0x03
def END_CHAR : UInt8 := 0x0D
def SPACE : UInt8 := 0x20
def K_ESCAPE : UInt8 := 0x23
def SEND_TYPE : UInt8 := 83
def DATA_TYPE : UInt8 := 68
def ACK_TYPE : UInt8 := 89
def NACK_TYPE : UInt8 := 78
def BREAK_TYPE : UInt8 := 66
def SEND_DATA_SIZE : Nat := 20

def tochar (x : Nat) : UInt8 := UInt8.ofNat x + SPACE

def untochar (c : UInt8) : Nat := (c - SPACE).toNat

/-- `ktrans`: an escaped character. -/
def ktrans (c : UInt8) : UInt8 :=
  if c &&& 0x60 = 0x40 then c &&& ~~~0x40
  else if c &&& 0x7f = 0x3f then c ||| 0x40
  else c

def blockCheck (sum : Nat) : Nat := (sum + sum / 64 % 4) % 64

/-- No character below `SPACE` is a part of a packet. -/
def control (c : UInt8) : Bool := c &&& 0xE0 = 0

/-- What the receiver waits for. -/
inductive Phase where
  | start
  | length
  | sequence
  | type
  | lenHi
  | lenLo
  | headerCheck
  | data
  | check
  | eol
  /-- `k_recv` has returned, after the break packet or after `^C`. -/
  | done
  | interrupted
  deriving DecidableEq, Repr

/-- The variables of `k_recv`, `k_data_*` and `os_data_*`. -/
structure Receiver where
  phase : Phase
  kState : UInt8
  kStateSaved : UInt8
  sum : Nat
  length : Int
  n : Nat
  lastN : Int
  lenHi : Nat
  quote : UInt8
  sendParms : List UInt8
  sendPtr : Nat
  escape : Bool
  escapeSaved : Bool
  addr : UInt32
  addrSaved : UInt32
  mem : UInt32 → UInt8

structure Answer where
  n : Nat
  type : UInt8
  data : List UInt8
  deriving DecidableEq, Repr

/-! ### Data -/

/-- `k_data_save` -/
def kDataSave (r : Receiver) : Receiver :=
  { r with escapeSaved := r.escape, addrSaved := r.addr }

/-- `k_data_restore` -/
def kDataRestore (r : Receiver) : Receiver :=
  { r with escape := r.escapeSaved, addr := r.addrSaved }

/-- `bin_data_char` -/
def binDataChar (r : Receiver) (c : UInt8) : Receiver :=
  { r with mem := fun q => if q = r.addr then c else r.mem q, addr := r.addr + 1 }

/-- `k_data_char` -/
def kDataChar (r : Receiver) (c : UInt8) : Receiver :=
  if r.escape then { binDataChar r (ktrans c) with escape := false }
  else if c = r.quote then { r with escape := true }
  else binDataChar r c

/-! ### Packets -/

/-- `send_ack` -/
def sendAck (n : Nat) : Answer := ⟨n, ACK_TYPE, []⟩

/-- `send_nack` -/
def sendNack (n : Nat) : Answer := ⟨n, NACK_TYPE, []⟩

/-- Our side of the first parameters, one for each that the sender gave. -/
def ourParms : List UInt8 :=
  [tochar 94, tochar 1, tochar 0, 0x40, tochar 0x0D, 35, 78, 49, 78]

/-- `CAPAS` and what belongs to it: long packets and no windows. -/
def ourCapas : List UInt8 := [tochar 2, tochar 0, tochar 94, tochar 94]

/-- The top of the loop. -/
def nextPacket (r : Receiver) : Receiver := { r with phase := .start, sendPtr := 0 }

/-- `handle_send_packet` -/
def handleSendPacket (r : Receiver) : Receiver × List Answer :=
  let bytes := if r.sendPtr = SEND_DATA_SIZE - 1 then r.sendPtr - 1 else r.sendPtr
  (nextPacket { r with
      sendPtr := bytes
      quote := if 6 ≤ bytes then r.sendParms.getD 5 0 else K_ESCAPE },
    [⟨r.n, ACK_TYPE, ourParms.take bytes ++ if 10 ≤ bytes then ourCapas else []⟩])

/-- `packet_error` -/
def packetError (r : Receiver) : Receiver × List Answer :=
  (nextPacket (kDataRestore { r with kState := r.kStateSaved }), [sendNack r.n])

/-- A character of a packet: an error when it is a control character. -/
def takeChar (r : Receiver) (c : UInt8) (next : Receiver) : Receiver × List Answer :=
  if control c then packetError r else (next, [])

def checkSequence (r : Receiver) : Receiver :=
  if (r.n : Int) = r.lastN then kDataRestore { r with kState := r.kStateSaved }
  else kDataSave { r with lastN := r.n, kStateSaved := r.kState }

/-- The condition of the loop over the rest of a packet. -/
def restOfPacket (r : Receiver) : Receiver :=
  { r with phase := if r.length > 1 then .data else .check }

def dataField (r : Receiver) (c : UInt8) : Receiver :=
  if r.kState = DATA_TYPE then kDataChar r c
  else if r.kState = SEND_TYPE then
    { r with
      sendParms := r.sendParms.set r.sendPtr c
      sendPtr := if r.sendPtr + 1 ≥ SEND_DATA_SIZE then r.sendPtr else r.sendPtr + 1 }
  else r

/-- The end of a packet whose block check is right. -/
def endOfPacket (r : Receiver) : Receiver × List Answer :=
  if r.kState = SEND_TYPE then handleSendPacket r
  else if r.kState = BREAK_TYPE then ({ r with phase := .done }, [sendAck r.n])
  else (nextPacket r, [sendAck r.n])

/-- `k_recv` from one `getc` to the next one. -/
def kRecv (r : Receiver) (c : UInt8) : Receiver × List Answer :=
  match r.phase with
  | .start =>
    if c = START_CHAR then ({ r with phase := .length, sum := 0 }, [])
    else if c = ETX_CHAR then ({ r with phase := .interrupted }, [])
    else (r, [])
  | .length =>
    takeChar r c { r with phase := .sequence, sum := r.sum + c.toNat, length := untochar c }
  | .sequence =>
    takeChar r c (checkSequence { r with
      phase := .type
      sum := r.sum + c.toNat
      n := untochar c
      length := r.length - 1 })
  | .type =>
    let next := { r with sum := r.sum + c.toNat, kState := c, length := r.length - 1 }
    takeChar r c (if next.length = -2 then { next with phase := .lenHi } else restOfPacket next)
  | .lenHi =>
    takeChar r c { r with phase := .lenLo, sum := r.sum + c.toNat, lenHi := untochar c }
  | .lenLo =>
    takeChar r c { r with
      phase := .headerCheck
      sum := r.sum + c.toNat
      length := r.lenHi * 95 + untochar c }
  | .headerCheck =>
    if control c ∨ c ≠ tochar (blockCheck r.sum) then packetError r
    else (restOfPacket { r with sum := r.sum + c.toNat }, [])
  | .data =>
    takeChar r c
      (restOfPacket (dataField { r with sum := r.sum + c.toNat, length := r.length - 1 } c))
  | .check =>
    if control c ∨ c ≠ tochar (blockCheck r.sum) then packetError r
    else ({ r with phase := .eol }, [])
  | .eol => if c ≠ END_CHAR then packetError r else endOfPacket r
  | .done => (r, [])
  | .interrupted => (r, [])

/-- The receiver when `k_recv` is entered. -/
def Receiver.init (sendParms : List UInt8) (mem : UInt32 → UInt8) : Receiver where
  phase := .start
  kState := 0
  kStateSaved := 0
  sum := 0
  length := 0
  n := 0
  lastN := -1
  lenHi := 0
  quote := K_ESCAPE
  sendParms := sendParms
  sendPtr := 0
  escape := false
  escapeSaved := false
  addr := 0
  addrSaved := 0
  mem := mem

/-- What `k_recv` returns after the break packet. -/
def Receiver.size (r : Receiver) : Int :=
  if r.addr.toNat < 2147483648 then r.addr.toNat else r.addr.toNat - 4294967296

end UBoot.Kermit
