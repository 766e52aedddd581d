import Mathlib.Data.UInt
import UBoot.Verification.Bytes
import UBoot.Verification.Run

/-!
# The fastboot gadget

The OUT side of `drivers/usb/gadget/f_fastboot.c`, with `CONFIG_FSL_FASTBOOT` and
`CONFIG_FASTBOOT_FLASH`: the table of commands, the handlers for commands and
for the data of a download, and the state that lives between two completions of
the request. What the other callbacks answer is a parameter; they only cut the
command at its colon. Memory is seen from `CONFIG_USB_FASTBOOT_BUF_ADDR` on.
-/

namespace UBoot.Fastboot

open Verification

def EP_BUFFER_SIZE : UInt32 := 4096

/-- `wMaxPacketSize` of `hs_ep_out` and `fs_ep_out`. -/
def maxPacketSize (isHighSpeed : Bool) : UInt32 := if isHighSpeed then 512 else 64

/-- The functions that the table of commands refers to. -/
inductive Callback
  | cbRebootBootloader
  | cbReboot
  | cbGetvar
  | cbDownload
  | cbBoot
  | cbContinue
  | cbFlash
  | cbErase
  | cbOem
  deriving DecidableEq

/-- `cmd_dispatch_info` -/
def cmdDispatchInfo : List (List UInt8 × Callback) := [
  (ascii "reboot-bootloader", .cbRebootBootloader),
  (ascii "reboot", .cbReboot),
  (ascii "getvar:", .cbGetvar),
  (ascii "download:", .cbDownload),
  (ascii "boot", .cbBoot),
  (ascii "continue", .cbContinue),
  (ascii "flash", .cbFlash),
  (ascii "erase", .cbErase),
  (ascii "oem", .cbOem)]

/-- The completion handler of the request. -/
inductive Handler
  | rxHandlerCommand
  | rxHandlerDlImage
  deriving DecidableEq

inductive Response
  | okay
  | data (size : UInt32)
  | fail (why : List UInt8)
  | other (answer : List UInt8)
  deriving DecidableEq

/-- What the build and the rest of the program determine. -/
structure Config where
  /-- `CONFIG_USB_FASTBOOT_BUF_SIZE` -/
  bufSize : UInt32
  bufSize_pos : 0 < bufSize
  /-- `interface.nand_block_size`; 0 when the storage is not NAND. -/
  nandBlockSize : UInt32
  /-- The number that `simple_strtoul` finds at address 0. -/
  strtoulNull : UInt32
  /-- What the other callbacks send. -/
  answer : Callback → Option (List UInt8) → List UInt8

structure State where
  /-- `req->buf` -/
  buf : Ptr
  /-- `req->length` -/
  length : UInt32
  /-- `req->complete` -/
  complete : Handler
  /-- The request is in the queue of the endpoint. -/
  queued : Bool
  /-- `ep->maxpacket` -/
  maxpacket : UInt32
  isHighSpeed : Bool
  downloadSize : UInt32
  downloadBytes : UInt32
  downloadBytesUnpadded : UInt32
  /-- The memory of the transfer buffer and behind it. -/
  mem : Ptr
  /-- The places written there so far, with their lengths. -/
  writes : List (Nat × Nat)
  /-- The responses sent, the last one first. -/
  sent : List Response

/-- `fastboot_tx_write_str` -/
def State.send (s : State) (r : Response) : State := { s with sent := r :: s.sent }

/-! ### Strings -/

/-- A byte of memory is set. -/
def poke (p : Ptr) (i : Nat) (c : UInt8) : Ptr := fun j => if j = i then c else p j

/-- `strncmp` of a string with as many bytes of memory. -/
def strncmp : List UInt8 → Ptr → UInt8
  | [], _ => 0
  | c :: cs, p =>
    let res := c - p 0
    if res ≠ 0 ∨ c = 0 then res else strncmp cs (p.add 1)

/-- `strcmp_l1` -/
def strcmpL1 (s1 : List UInt8) (s2 : Ptr) : UInt8 := strncmp s1 s2

/-- The string at an address, of at most `n` bytes. -/
def cString (p : Ptr) (n : Nat) : List UInt8 := (p.bytes n).takeWhile (· ≠ 0)

/-- The string behind the first colon, which `strsep` leaves in its argument. -/
def strsep (s : List UInt8) : Option (List UInt8) :=
  match s.dropWhile (· ≠ 58) with
  | [] => none
  | _ :: rest => some rest

/-- The byte that `strsep` clears. -/
def strsepCut (p : Ptr) (n : Nat) : Ptr :=
  let s := cString p n
  if 58 ∈ s then poke p (s.takeWhile (· ≠ 58)).length 0 else p

/-- The value of a hexadecimal digit. -/
def hexValue (c : UInt8) : Option UInt32 :=
  if 48 ≤ c ∧ c ≤ 57 then some (c - 48).toUInt32
  else if 65 ≤ c ∧ c ≤ 70 then some (c - 55).toUInt32
  else if 97 ≤ c ∧ c ≤ 102 then some (c - 87).toUInt32
  else none

/-- The loop of `simple_strtoul`. -/
def strtoulLoop : UInt32 → List UInt8 → UInt32
  | result, [] => result
  | result, c :: s =>
    match hexValue c with
    | none => result
    | some value => strtoulLoop (result * 16 + value) s

/-- `simple_strtoul` with base 16. -/
def simpleStrtoul (s : List UInt8) : UInt32 :=
  match s with
  | 48 :: 120 :: c :: rest =>
    strtoulLoop 0 (if (hexValue c).isSome then c :: rest else 120 :: c :: rest)
  | s => strtoulLoop 0 s

example : simpleStrtoul (ascii "0x1aF") = 431 := by decide

/-! ### Commands -/

/-- The request's buffer with the bytes that were received. -/
def receive (buf : Ptr) (data : List UInt8) : Ptr :=
  fun i => if i < data.length then data.getD i 0 else buf i

/-- The search of `rx_handler_command`. -/
def lookup (buf : Ptr) : Option Callback :=
  (cmdDispatchInfo.find? fun info => strcmpL1 info.1 buf = 0).map Prod.snd

/-- The string that a callback takes as its argument. `cb_oem` compares what is
behind the fourth byte; the others do not look at the command. -/
def argument (cb : Callback) (buf : Ptr) : Option (List UInt8) :=
  match cb with
  | .cbGetvar | .cbDownload | .cbFlash | .cbErase =>
    strsep (cString buf EP_BUFFER_SIZE.toNat)
  | .cbOem => some (cString (buf.add 4) (EP_BUFFER_SIZE.toNat - 4))
  | _ => none

/-- `rx_bytes_expected` -/
def rxBytesExpected (s : State) (maxpacket : UInt32) : UInt32 :=
  let rxRemain := s.downloadSize - s.downloadBytes
  if rxRemain.toInt32 < 0 then 0
  else if rxRemain > EP_BUFFER_SIZE then EP_BUFFER_SIZE
  else if rxRemain < maxpacket then maxpacket
  else if rxRemain % maxpacket ≠ 0 then rxRemain + (maxpacket - rxRemain % maxpacket)
  else rxRemain

def nextLength (s : State) : UInt32 :=
  let length := rxBytesExpected s (maxPacketSize s.isHighSpeed)
  if length < s.maxpacket then s.maxpacket else length

section

variable (cfg : Config)

/-- The number behind `download:`. -/
def sizeArgument (buf : Ptr) : UInt32 :=
  match argument .cbDownload buf with
  | some cmd => simpleStrtoul cmd
  | none => cfg.strtoulNull

/-- `cb_download` -/
def cbDownload (s : State) : State :=
  let size := sizeArgument cfg s.buf
  let s := { s with
    buf := strsepCut s.buf EP_BUFFER_SIZE.toNat
    downloadSize := size
    downloadBytes := 0 }
  if size = 0 then s.send (.fail (ascii "data invalid size"))
  else if size > cfg.bufSize then
    { s with downloadSize := 0 }.send (.fail (ascii "data too large"))
  else
    { s with complete := .rxHandlerDlImage, length := nextLength s }.send (.data size)

/-- A callback on a command in the buffer. -/
def callback (cb : Callback) (s : State) : State :=
  match cb with
  | .cbDownload => cbDownload cfg s
  | .cbGetvar | .cbFlash | .cbErase =>
    { s with buf := strsepCut s.buf EP_BUFFER_SIZE.toNat }.send
      (.other (cfg.answer cb (argument cb s.buf)))
  | _ => s.send (.other (cfg.answer cb (argument cb s.buf)))

/-- The callback that is entered for a packet, and its argument. -/
def dispatch (s : State) (data : List UInt8) : Option (Callback × Option (List UInt8)) :=
  let buf := receive s.buf data
  match lookup buf with
  | none => none
  | some cb =>
    if data.length < s.length.toNat then
      some (cb, argument cb (poke buf data.length 0))
    else none

/-- `rx_handler_command` for a request that brought `data`. -/
def rxHandlerCommand (s : State) (ok : Bool) (data : List UInt8) : State :=
  let buf := receive s.buf data
  let s := match lookup buf with
    | none => { s with buf := buf }.send (.fail (ascii "unknown command"))
    | some cb =>
      if data.length < s.length.toNat then
        callback cfg cb { s with buf := poke buf data.length 0 }
      else { s with buf := buf }.send (.fail (ascii "buffer overflow"))
  if ok then { s with buf := poke s.buf 0 0 } else { s with queued := false }

/-! ### Data -/

/-- The loop that pads a download to the block length of the NAND. -/
def padLoop : Nat → State → State
  | 0, s => s
  | n + 1, s =>
    if s.downloadBytes ≥ cfg.bufSize then s
    else
      padLoop n { s with
        mem := poke s.mem s.downloadBytes.toNat 0
        writes := (s.downloadBytes.toNat, 1) :: s.writes
        downloadBytes := s.downloadBytes + 1 }

def padDownload (s : State) : State :=
  let s := { s with downloadBytesUnpadded := s.downloadBytes }
  if cfg.nandBlockSize ≠ 0 ∧ s.downloadBytes % cfg.nandBlockSize ≠ 0 then
    padLoop cfg (cfg.nandBlockSize - s.downloadBytes % cfg.nandBlockSize).toNat s
  else s

/-- The bytes of a request that are taken. -/
def transferSize (s : State) (data : List UInt8) : UInt32 :=
  let rest := s.downloadSize - s.downloadBytes
  let bufferSize := UInt32.ofNat data.length
  if bufferSize < rest then bufferSize else rest

/-- The data of a request is copied to the transfer buffer. -/
def storeData (s : State) (data : List UInt8) : State :=
  let buf := receive s.buf data
  let size := transferSize s data
  { s with
    buf := buf
    mem := s.mem.write s.downloadBytes.toNat size.toNat buf
    writes := (s.downloadBytes.toNat, size.toNat) :: s.writes
    downloadBytes := s.downloadBytes + size }

/-- `rx_handler_dl_image` for a request that brought `data`. -/
def rxHandlerDlImage (s : State) (ok : Bool) (data : List UInt8) : State :=
  if ok then
    let s := storeData s data
    if s.downloadBytes ≥ s.downloadSize then
      padDownload cfg ({ s with
        downloadSize := 0
        complete := .rxHandlerCommand
        length := EP_BUFFER_SIZE }.send .okay)
    else { s with length := nextLength s }
  else { s with buf := receive s.buf data, queued := false }

/-! ### Runs -/

inductive Event
  /-- The request is completed, with its status and the bytes received. -/
  | completion (ok : Bool) (data : List UInt8)
  /-- `fastboot_set_alt` at the given speed. -/
  | setAlt (isHighSpeed : Bool)
  /-- The controller sees another speed and limits `ep->maxpacket`. -/
  | portChange (isHighSpeed : Bool)

/-- The state after `fastboot_set_alt`: a new request is queued. -/
def setAlt (s : State) (isHighSpeed : Bool) : State :=
  { s with
    buf := 0
    length := EP_BUFFER_SIZE
    complete := .rxHandlerCommand
    queued := true
    maxpacket := maxPacketSize isHighSpeed
    isHighSpeed := isHighSpeed }

def step (s : State) : Event → State
  | .completion ok data =>
    match s.complete with
    | .rxHandlerCommand => rxHandlerCommand cfg s ok data
    | .rxHandlerDlImage => rxHandlerDlImage cfg s ok data
  | .setAlt isHighSpeed => setAlt s isHighSpeed
  | .portChange isHighSpeed =>
    let max := maxPacketSize isHighSpeed
    { s with maxpacket := if s.maxpacket > max then max else s.maxpacket }

end

/-- A completion brings no more bytes than the request that is queued. -/
def Possible (s : State) : Event → Prop
  | .completion _ data => s.queued = true ∧ data.length ≤ s.length.toNat
  | _ => True

instance (s : State) : DecidablePred (Possible s)
  | .completion _ _ => inferInstanceAs (Decidable (_ ∧ _))
  | .setAlt _ => .isTrue trivial
  | .portChange _ => .isTrue trivial

/-- The state at the start of a session. -/
def start (isHighSpeed : Bool) (mem : Ptr) : State where
  buf := 0
  length := EP_BUFFER_SIZE
  complete := .rxHandlerCommand
  queued := true
  maxpacket := maxPacketSize isHighSpeed
  isHighSpeed := isHighSpeed
  downloadSize := 0
  downloadBytes := 0
  downloadBytesUnpadded := 0
  mem := mem
  writes := []
  sent := []

end UBoot.Fastboot
