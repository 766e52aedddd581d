import Mathlib.Data.BitVec
import UBoot.Verification.Bytes

/-!
# Reassembly of IP fragments

`net/net.c`: `NetReceive` up to the reassembly of an IP packet, and
`__NetDefragment`. The list of holes is kept inside the buffer `pkt_buff`, in
descriptors of eight bytes that stand where the missing data will be. The fields
of a descriptor are little-endian `u16`, those of an IP header are big-endian.

A read or write outside of `pkt_buff[IP_PKTSIZE]`, and a copy of a negative
length, has no result (`none`).
-/

namespace UBoot.Net

open Verification

def IP_HDR_SIZE : Nat := 20
def IP_UDP_HDR_SIZE : Nat := 28
def IP_OFFS : Nat := 0x1fff
def IP_FLAGS_MFRAG : Nat := 0x2000

def CONFIG_NET_MAXDEFRAG : Nat := 16384

/-- `CONFIG_NET_MAXDEFRAG + sizeof(rpc_specimen.u.reply)` -/
def IP_PKTSIZE : Nat := CONFIG_NET_MAXDEFRAG + 100
def IP_MAXUDP : Nat := IP_PKTSIZE - IP_HDR_SIZE

/-! ### Memory -/

/-- A big-endian and a little-endian `u16`. -/
def be16 (p : Ptr) (pos : Nat) : Nat := (p pos).toNat * 256 + (p (pos + 1)).toNat
def le16 (p : Ptr) (pos : Nat) : Nat := (p pos).toNat + (p (pos + 1)).toNat * 256

/-- Store a little-endian `u16`. -/
def putLe16 (p : Ptr) (pos value : Nat) : Ptr := fun q =>
  if q = pos then UInt8.ofNat value
  else if q = pos + 1 then UInt8.ofNat (value / 256)
  else p q

/-- Store a big-endian `u16`. -/
def putBe16 (p : Ptr) (pos value : Nat) : Ptr := fun q =>
  if q = pos then UInt8.ofNat (value / 256)
  else if q = pos + 1 then UInt8.ofNat value
  else p q

/-- `memcpy(p + pos, src, n)` -/
def memcpy (p : Ptr) (pos : Nat) (src : Ptr) (n : Nat) : Ptr := fun q =>
  if pos ≤ q ∧ q < pos + n then src (q - pos) else p q

/-! ### The IP header -/

def ipLen (ip : Ptr) : Nat := be16 ip 2
def ipId (ip : Ptr) : Nat := be16 ip 4
def ipOff (ip : Ptr) : Nat := be16 ip 6

def fragOffset (ip : Ptr) : Nat := ipOff ip &&& IP_OFFS

def moreFragments (ip : Ptr) : Bool := ipOff ip &&& IP_FLAGS_MFRAG ≠ 0

/-! ### Holes -/

/-- `struct hole` -/
structure Hole where
  lastByte : Nat
  nextHole : Nat
  prevHole : Nat
  deriving DecidableEq, Repr

/-- The static variables of `__NetDefragment`. -/
structure Reasm where
  pktBuff : Ptr
  firstHole : Nat
  totalLen : Nat

/-- Where `payload[i]` stands in the buffer. -/
def holePos (i : Nat) : Nat := IP_HDR_SIZE + 8 * i

/-- The descriptor `payload[i]`. -/
def holeAt (buff : Ptr) (i : Nat) : Hole where
  lastByte := le16 buff (holePos i)
  nextHole := le16 buff (holePos i + 2)
  prevHole := le16 buff (holePos i + 4)

/-- The descriptor lies inside of the buffer. -/
def Fits (i : Nat) : Prop := holePos i + 8 ≤ IP_PKTSIZE

instance (i : Nat) : Decidable (Fits i) := inferInstanceAs (Decidable (_ ≤ _))

def readHole (buff : Ptr) (i : Nat) : Option Hole := if Fits i then some (holeAt buff i) else none

/-- Store one field of `payload[i]`, at an offset in the descriptor. -/
def setField (offset : Nat) (buff : Ptr) (i value : Nat) : Option Ptr :=
  if Fits i then some (putLe16 buff (holePos i + offset) value) else none

def setLastByte : Ptr → Nat → Nat → Option Ptr := setField 0
def setNextHole : Ptr → Nat → Nat → Option Ptr := setField 2
def setPrevHole : Ptr → Nat → Nat → Option Ptr := setField 4

/-- `*newh = *h` -/
def copyHole (buff : Ptr) (newh h : Nat) : Option Ptr :=
  if Fits newh ∧ Fits h then some (memcpy buff (holePos newh) (buff.add (holePos h)) 8) else none

def NewPacket (s : Reasm) (ip : Ptr) : Prop := s.totalLen = 0 ∨ ipId s.pktBuff ≠ ipId ip

instance (s : Reasm) (ip : Ptr) : Decidable (NewPacket s ip) :=
  inferInstanceAs (Decidable (_ ∨ _))

/-- The state reset for a new packet. -/
def startPacket (s : Reasm) (ip : Ptr) : Option Reasm := do
  let buff ← setLastByte s.pktBuff 0 0xffff
  let buff ← setNextHole buff 0 0
  let buff ← setPrevHole buff 0 0
  return { pktBuff := memcpy buff 0 ip IP_HDR_SIZE, firstHole := 0, totalLen := 0xffff }

/-- The state in which a fragment is looked at. -/
def currentPacket (s : Reasm) (ip : Ptr) : Option Reasm :=
  if NewPacket s ip then startPacket s ip else some s

/-- The loop that looks for the hole a fragment may belong to, with `none` inside
when no hole is that far away. The loop does not write, so that it does not end
when it takes more steps than there are descriptors. -/
def findHole (buff : Ptr) (start : Nat) : Nat → Nat → Option (Option Nat)
  | 0, _ => none
  | fuel + 1, h => do
    let hole ← readHole buff h
    if hole.lastByte < start then
      if hole.nextHole = 0 then return none else findHole buff start fuel hole.nextHole
    else return some h

def truncateHole (s : Reasm) (ip : Ptr) (h end_ : Nat) : Option Reasm :=
  if moreFragments ip then some s
  else do return { s with totalLen := end_, pktBuff := ← setLastByte s.pktBuff h end_ }

/-- Complete overlap with the hole: remove it. -/
def removeHole (s : Reasm) (h : Nat) : Option (Reasm × Bool) := do
  let hole ← readHole s.pktBuff h
  if hole.prevHole = 0 ∧ hole.nextHole = 0 then return (s, true)
  else if hole.prevHole = 0 then
    let buff ← setPrevHole s.pktBuff hole.nextHole 0
    return ({ s with firstHole := hole.nextHole, pktBuff := buff }, false)
  else if hole.nextHole = 0 then
    return ({ s with pktBuff := ← setNextHole s.pktBuff hole.prevHole 0 }, false)
  else
    let buff ← setPrevHole s.pktBuff hole.nextHole hole.prevHole
    let hole ← readHole buff h
    return ({ s with pktBuff := ← setNextHole buff hole.prevHole hole.nextHole }, false)

/-- Overlap with the final part of the hole: shorten it. -/
def shortenHole (s : Reasm) (h start : Nat) : Option (Reasm × Bool) := do
  return ({ s with pktBuff := ← setLastByte s.pktBuff h start }, false)

/-- The hole after `payload[h]`, if there is one, is told where its predecessor is. -/
def linkNextHole (buff : Ptr) (h : Nat) : Option Ptr := do
  let hole ← readHole buff h
  if hole.nextHole ≠ 0 then setPrevHole buff hole.nextHole h else some buff

/-- Overlap with the initial part of the hole: move it. -/
def moveHole (s : Reasm) (h newh : Nat) : Option (Reasm × Bool) := do
  let buff ← copyHole s.pktBuff newh h
  let buff ← linkNextHole buff newh
  let hole ← readHole buff newh
  if hole.prevHole ≠ 0 then
    return ({ s with pktBuff := ← setNextHole buff hole.prevHole newh }, false)
  else return ({ s with pktBuff := buff, firstHole := newh }, false)

/-- The fragment sits in the middle: split the hole. -/
def splitHole (s : Reasm) (h start newh : Nat) : Option (Reasm × Bool) := do
  let buff ← copyHole s.pktBuff newh h
  let buff ← setLastByte buff h start
  let buff ← setNextHole buff h newh
  let buff ← setPrevHole buff newh h
  let buff ← linkNextHole buff newh
  return ({ s with pktBuff := buff }, false)

/-- Fix the hole list for a fragment of `len` bytes from block `offset8` on. The
flag says that it fills the last remaining hole. -/
def fixHoles (s : Reasm) (h offset8 len : Nat) : Option (Reasm × Bool) := do
  let start := offset8 * 8
  let hole ← readHole s.pktBuff h
  if offset8 ≤ h ∧ hole.lastByte ≤ start + len then removeHole s h
  else if hole.lastByte ≤ start + len then shortenHole s h start
  else if offset8 ≤ h then moveHole s h (offset8 + len / 8)
  else splitHole s h start (offset8 + len / 8)

def copyFragment (s : Reasm) (ip : Ptr) (start len : Nat) : Option Reasm :=
  if IP_HDR_SIZE + start + len ≤ IP_PKTSIZE then
    some { s with pktBuff := memcpy s.pktBuff (IP_HDR_SIZE + start) (ip.add IP_HDR_SIZE) len }
  else none

/-- The part of `__NetDefragment` from the fix of the hole list on. The value is
what is left in `*lenp` when `localip` is returned, and `none` for NULL. -/
def acceptFragment (s : Reasm) (ip : Ptr) (h len : Nat) : Option (Reasm × Option Nat) := do
  let offset8 := fragOffset ip
  let s ← truncateHole s ip h (offset8 * 8 + len)
  let (s, done) ← fixHoles s h offset8 len
  let s ← copyFragment s ip (offset8 * 8) len
  if done then
    let localip := putBe16 s.pktBuff 2 s.totalLen
    return ({ s with pktBuff := localip }, some (s.totalLen + IP_HDR_SIZE))
  else return (s, none)

/-- The length of the data of a fragment, which may be negative. -/
def fragLen (ip : Ptr) : Int := (ipLen ip : Int) - IP_HDR_SIZE

/-- The fragment extends too far. The comparison is unsigned, so that a negative
end is too far as well. -/
def TooFar (ip : Ptr) : Prop :=
  (fragOffset ip * 8 : Int) + fragLen ip < 0 ∨
    (IP_MAXUDP : Int) < fragOffset ip * 8 + fragLen ip

instance (ip : Ptr) : Decidable (TooFar ip) := inferInstanceAs (Decidable (_ ∨ _))

/-- No overlap with the hole. The division rounds towards zero. -/
def Beyond (ip : Ptr) (h : Nat) : Prop := (fragOffset ip : Int) + (fragLen ip + 7).tdiv 8 ≤ h

instance (ip : Ptr) (h : Nat) : Decidable (Beyond ip h) := inferInstanceAs (Decidable (_ ≤ _))

/-- `__NetDefragment` -/
def defragment (s : Reasm) (ip : Ptr) : Option (Reasm × Option Nat) :=
  if TooFar ip then some (s, none)
  else do
    let s ← currentPacket s ip
    match ← findHole s.pktBuff (fragOffset ip * 8) (IP_PKTSIZE + 1) s.firstHole with
    | none => return (s, none)
    | some h =>
      if Beyond ip h then return (s, none)
      -- whatever happens to the list, the copy at the end has a negative length
      else if fragLen ip < 0 then none
      else acceptFragment s ip h (fragLen ip).toNat

/-- What `NetDefragment` returns: the packet itself, NULL, or the reassembled
packet with its length. -/
inductive Defragmented where
  | unchanged
  | null
  | whole (len : Nat)
  deriving DecidableEq, Repr

/-- `NetDefragment` -/
def netDefragment (s : Reasm) (ip : Ptr) : Option (Reasm × Defragmented) :=
  if fragOffset ip = 0 ∧ ¬moreFragments ip then some (s, .unchanged)
  else do
    match ← defragment s ip with
    | (s, none) => return (s, .null)
    | (s, some len) => return (s, .whole len)

/-! ### Receiving -/

/-- `compute_ip_checksum`, with an `int` that wraps. -/
def computeIpChecksum (ptr : Ptr) (nbytes : Nat) : BitVec 32 :=
  let words := (List.range (nbytes / 2)).map fun i => BitVec.ofNat 32 (le16 ptr (2 * i))
  let odd := if nbytes % 2 = 1 then BitVec.ofNat 32 (ptr (nbytes - 1)).toNat else 0
  let sum := words.sum + odd
  let sum := sum.sshiftRight 16 + (sum &&& 0xffff#32)
  let sum := sum + sum.sshiftRight 16
  ~~~sum &&& 0xffff#32

/-- `ip_checksum_ok` -/
def ipChecksumOk (ptr : Ptr) (nbytes : Nat) : Bool :=
  computeIpChecksum ptr nbytes &&& 0xfffe#32 = 0

/-- `NetReadIP`, the four bytes in memory. -/
def netReadIp (p : Ptr) : List UInt8 := p.bytes 4

/-- The checks that `NetReceive` makes on an IP packet of `len` bytes in a frame.
`ourIp` is `NetOurIP`. -/
def AcceptedIp (ourIp : List UInt8) (ip : Ptr) (len : Nat) : Prop :=
  IP_UDP_HDR_SIZE ≤ len ∧ ipLen ip ≤ len ∧
    (ip 0) &&& 0xf0 = 0x40 ∧ (ip 0) &&& 0x0f ≤ 0x05 ∧
    ipChecksumOk ip IP_HDR_SIZE = true ∧
    (ourIp = [0, 0, 0, 0] ∨ netReadIp (ip.add 16) = ourIp ∨
      netReadIp (ip.add 16) = [0xff, 0xff, 0xff, 0xff])

instance (ourIp : List UInt8) (ip : Ptr) (len : Nat) : Decidable (AcceptedIp ourIp ip len) :=
  inferInstanceAs (Decidable (_ ∧ _))

/-- The case of an IP packet in `NetReceive`, up to the reassembly; `none` inside
when it is ignored. -/
def netReceiveIp (ourIp : List UInt8) (s : Reasm) (ip : Ptr) (len : Nat) :
    Option (Reasm × Option Defragmented) :=
  if AcceptedIp ourIp ip len then do
    let (s, result) ← netDefragment s ip
    return (s, some result)
  else some (s, none)

end UBoot.Net
