import UBoot.Net.Defrag.Basic

/-!
# Receiving a frame

`NetReceive` in `net/net.c`, without `CONFIG_MCAST_TFTP`. A frame is the bytes
that the driver received; memory goes on behind them. What comes of a frame is
the handler that is called, with the arguments of the UDP handler.
-/

namespace UBoot.Net

open Verification

def ETHER_HDR_SIZE : Nat := 14
def E802_HDR_SIZE : Nat := 22
def VLAN_ETHER_HDR_SIZE : Nat := 18
def UDP_HDR_SIZE : Nat := IP_UDP_HDR_SIZE - IP_HDR_SIZE
def PROT_IP : Nat := 0x0800
def PROT_ARP : Nat := 0x0806
def PROT_RARP : Nat := 0x8035
def PROT_VLAN : Nat := 0x8100
def IPPROTO_ICMP : UInt8 := 1
def IPPROTO_UDP : UInt8 := 17
def VLAN_NONE : Nat := 4095
def VLAN_IDMASK : Nat := 0x0fff
def NetCDPAddr : List UInt8 := [0x01, 0x00, 0x0c, 0xcc, 0xcc, 0xcc]

/-- The options of the build, and the variables that `NetReceive` looks at. -/
structure NetConfig where
  /-- `CONFIG_API`, with `push_packet` set. -/
  pushPacket : Bool
  cmdCdp : Bool
  cmdRarp : Bool
  ipDefrag : Bool
  udpChecksum : Bool
  ourIp : List UInt8
  ourVlan : Nat
  ourNativeVlan : Nat

/-- A frame of `len` bytes. -/
structure EtherFrame where
  inpkt : Ptr
  len : Nat

/-- Where the packet in a frame starts. -/
structure Link where
  pos : Nat
  len : Int
  proto : Nat
  vlanid : Nat
  deriving DecidableEq, Repr

/-- The memory that a packet lies in. -/
inductive Buffer where
  | frame
  | pktBuff
  deriving DecidableEq, Repr

/-- The arguments of the UDP handler; `pkt` is an offset in the buffer. -/
structure UdpCall where
  buffer : Buffer
  pkt : Nat
  dport : Nat
  sip : List UInt8
  sport : Nat
  len : UInt32
  deriving DecidableEq, Repr

/-- Who gets a packet. -/
inductive Delivery where
  | dropped
  | pushed
  | cdp
  | arp
  | rarp
  | icmp
  | udp (call : UdpCall)
  deriving DecidableEq, Repr

/-! ### Link layer -/

/-- `is_cdp_packet`, where CDP is there. -/
def isCdp (net : NetConfig) (frame : EtherFrame) : Bool :=
  net.cmdCdp && frame.inpkt.bytes 6 = NetCDPAddr

/-- The headers of 802.2, of Ethernet and of a VLAN. -/
def linkHeader (net : NetConfig) (frame : EtherFrame) : Option Link :=
  let proto := be16 frame.inpkt 12
  if proto < 1514 then
    some ⟨E802_HDR_SIZE, frame.len - E802_HDR_SIZE, be16 frame.inpkt 20, VLAN_NONE⟩
  else if proto ≠ PROT_VLAN then
    some ⟨ETHER_HDR_SIZE, frame.len - ETHER_HDR_SIZE, proto, VLAN_NONE⟩
  else if frame.len < VLAN_ETHER_HDR_SIZE then none
  else if net.ourVlan &&& VLAN_IDMASK = VLAN_NONE ∧ ¬isCdp net frame then none
  else
    some ⟨VLAN_ETHER_HDR_SIZE, frame.len - VLAN_ETHER_HDR_SIZE, be16 frame.inpkt 16,
      be16 frame.inpkt 14 &&& VLAN_IDMASK⟩

/-- A VLAN number from the environment. -/
def vlanOf (vlan : Nat) : Nat := if vlan = 0xffff then VLAN_NONE else vlan

def onOurVlan (net : NetConfig) (link : Link) : Bool :=
  let ours := vlanOf net.ourVlan &&& VLAN_IDMASK
  let native := vlanOf net.ourNativeVlan &&& VLAN_IDMASK
  ours = VLAN_NONE || (if link.vlanid = VLAN_NONE then native else link.vlanid) = ours

/-! ### UDP -/

def udpSrc (ip : Ptr) : Nat := be16 ip 20
def udpDst (ip : Ptr) : Nat := be16 ip 22
def udpLen (ip : Ptr) : Nat := be16 ip 24
def udpXsum (ip : Ptr) : Nat := be16 ip 26

/-- The loop that folds the carries into a sum. -/
def foldCarry (xsum : Nat) : Nat :=
  if h : xsum >>> 16 ≠ 0 then foldCarry ((xsum &&& 0xffff) + ((xsum >>> 16) &&& 0xffff)) else xsum
  termination_by xsum
  decreasing_by
    have hlow : xsum &&& 0xffff = xsum % 65536 := Nat.and_two_pow_sub_one_eq_mod xsum 16
    have hhigh : (xsum >>> 16) &&& 0xffff = (xsum >>> 16) % 65536 :=
      Nat.and_two_pow_sub_one_eq_mod _ 16
    rw [hlow, hhigh]
    rw [Nat.shiftRight_eq_div_pow] at h ⊢
    omega

/-- The sum over the pseudo header and `udp_len` bytes. -/
def udpSum (ip : Ptr) : Nat :=
  let sumlen := udpLen ip
  let header := (ip 9).toNat + sumlen + be16 ip 12 + be16 ip 14 + be16 ip 16 + be16 ip 18
  let words := (List.range (sumlen / 2)).map fun i => be16 ip (20 + 2 * i)
  header + words.sum + if sumlen % 2 = 1 then (ip (20 + (sumlen - 1))).toNat <<< 8 else 0

/-- `CONFIG_UDP_CHECKSUM` -/
def udpChecksumOk (ip : Ptr) : Bool :=
  udpXsum ip = 0 || foldCarry (udpSum ip) = 0 || foldCarry (udpSum ip) = 0xffff

/-- The arguments for a packet at an offset in a buffer. -/
def udpCall (srcIp : List UInt8) (buffer : Buffer) (pos : Nat) (ip : Ptr) : UdpCall where
  buffer := buffer
  pkt := pos + IP_UDP_HDR_SIZE
  dport := udpDst ip
  sip := srcIp
  sport := udpSrc ip
  len := UInt32.ofNat (udpLen ip) - UInt32.ofNat UDP_HDR_SIZE

/-- The end of `NetReceive` for an IP packet at an offset in a buffer. -/
def deliver (net : NetConfig) (srcIp : List UInt8) (buffer : Buffer) (pos : Nat) (ip : Ptr) : Delivery :=
  if ip 9 = IPPROTO_ICMP then .icmp
  else if ip 9 ≠ IPPROTO_UDP then .dropped
  else if net.udpChecksum ∧ ¬udpChecksumOk ip then .dropped
  else .udp (udpCall srcIp buffer pos ip)

/-- `NetDefragment` of either build. -/
def reassemble (net : NetConfig) (s : Reasm) (ip : Ptr) : Option (Reasm × Defragmented) :=
  if net.ipDefrag then netDefragment s ip
  else if fragOffset ip = 0 ∧ ¬moreFragments ip then some (s, .unchanged)
  else some (s, .null)

/-- The packet passes the checks up to the reassembly. A negative length passes
the first comparison, which is unsigned, and fails the second. -/
def acceptsIp (net : NetConfig) (frame : EtherFrame) (link : Link) : Bool :=
  0 ≤ link.len && AcceptedIp net.ourIp (frame.inpkt.add link.pos) link.len.toNat

/-- The case of `PROT_IP`. -/
def receiveIp (net : NetConfig) (s : Reasm) (frame : EtherFrame) (link : Link) :
    Option (Reasm × Delivery) :=
  let ip := frame.inpkt.add link.pos
  if acceptsIp net frame link then
    match reassemble net s ip with
    | none => none
    | some (s, .null) => some (s, .dropped)
    | some (s, .unchanged) => some (s, deliver net (netReadIp (ip.add 12)) .frame link.pos ip)
    | some (s, .whole _) => some (s, deliver net (netReadIp (ip.add 12)) .pktBuff 0 s.pktBuff)
  else some (s, .dropped)

/-- `NetReceive` -/
def netReceive (net : NetConfig) (s : Reasm) (frame : EtherFrame) : Option (Reasm × Delivery) :=
  if frame.len < ETHER_HDR_SIZE then some (s, .dropped)
  else if net.pushPacket then some (s, .pushed)
  else match linkHeader net frame with
    | none => some (s, .dropped)
    | some link =>
      if isCdp net frame then some (s, .cdp)
      else if ¬onOurVlan net link then some (s, .dropped)
      else if link.proto = PROT_ARP then some (s, .arp)
      else if link.proto = PROT_RARP ∧ net.cmdRarp then some (s, .rarp)
      else if link.proto = PROT_IP then receiveIp net s frame link
      else some (s, .dropped)

/-! ### What was put together -/

/-- The bytes of `pkt_buff` that the fragment and those before it have stored, when it completes
the packet. A new packet starts with the header of its first fragment; `got` says what was stored
of a packet that goes on. -/
def putTogether (s : Reasm) (got : Nat → Prop) (ip : Ptr) (q : Nat) : Prop :=
  (if NewPacket s ip then q < IP_HDR_SIZE else got q) ∨
    IP_HDR_SIZE + fragOffset ip * 8 ≤ q ∧ (q : Int) < IP_HDR_SIZE + fragOffset ip * 8 + fragLen ip

theorem not_tooFar_of_whole {net : NetConfig} {s s' : Reasm} {ip : Ptr} {n : Nat}
    (h : reassemble net s ip = some (s', .whole n)) : ¬TooFar ip := by
  intro hfar
  rw [reassemble] at h
  split_ifs at h
  · rw [netDefragment, defragment, if_pos hfar] at h
    split_ifs at h
    · cases h
    · cases h
  · cases h
  · cases h

/-- They lie in the buffer. -/
theorem putTogether_lt {s : Reasm} {got : Nat → Prop} {ip : Ptr} (hfar : ¬TooFar ip)
    (hgot : ∀ q, got q → q < IP_PKTSIZE) {q : Nat} (h : putTogether s got ip q) :
    q < IP_PKTSIZE := by
  rcases h with h | ⟨-, h⟩
  · split at h
    · exact h.trans (by decide)
    · exact hgot q h
  · have hsize : (IP_MAXUDP : Int) = IP_PKTSIZE - IP_HDR_SIZE := by decide
    rw [TooFar, not_or] at hfar
    omega

/-! ### What the UDP handler is given -/

/-- The UDP header and the payload of a call lie inside the bytes of the frame, or inside those
that were put together. -/
def Inside (frame : EtherFrame) (got : Nat → Prop) (call : UdpCall) : Prop :=
  UDP_HDR_SIZE ≤ call.pkt ∧
    match call.buffer with
    | .frame => call.pkt + call.len.toNat ≤ frame.len
    | .pktBuff => ∀ q, call.pkt - UDP_HDR_SIZE ≤ q → q < call.pkt + call.len.toNat → got q

/-- The handler is given nothing from outside of the bytes received. -/
def HandsOnInside (net : NetConfig) (s : Reasm) (got : Nat → Prop) (frame : EtherFrame) : Prop :=
  ∀ s' call, netReceive net s frame = some (s', .udp call) →
    ∀ link, linkHeader net frame = some link →
      Inside frame (putTogether s got (frame.inpkt.add link.pos)) call

structure IpFrame (net : NetConfig) (frame : EtherFrame) (link : Link) : Prop where
  long : ETHER_HDR_SIZE ≤ frame.len
  unpushed : net.pushPacket = false
  header : linkHeader net frame = some link
  noCdp : isCdp net frame = false
  vlan : onOurVlan net link = true
  proto : link.proto = PROT_IP
  accepted : acceptsIp net frame link = true

/-- The IP packet is a UDP packet, with a right checksum where it is looked at. -/
def IsUdp (net : NetConfig) (ip : Ptr) : Prop :=
  ip 9 = IPPROTO_UDP ∧ (net.udpChecksum = true → udpChecksumOk ip = true)

/-- Header and payload fit into `bytes` bytes from the start of the IP packet on. -/
def LengthFits (ip : Ptr) (bytes : Nat) : Prop :=
  UDP_HDR_SIZE ≤ udpLen ip ∧ IP_HDR_SIZE + udpLen ip ≤ bytes

/-- The length field of a UDP packet in the frame fits, and of one that the frame completes as
many bytes were put together. -/
def LengthsFit (net : NetConfig) (s : Reasm) (got : Nat → Prop) (frame : EtherFrame) : Prop :=
  ∀ link, IpFrame net frame link →
    let ip := frame.inpkt.add link.pos
    (∀ s', reassemble net s ip = some (s', .unchanged) → IsUdp net ip →
      LengthFits ip link.len.toNat) ∧
    ∀ s' n, reassemble net s ip = some (s', .whole n) → IsUdp net s'.pktBuff →
      UDP_HDR_SIZE ≤ udpLen s'.pktBuff ∧
        ∀ q, IP_HDR_SIZE ≤ q → q < IP_HDR_SIZE + udpLen s'.pktBuff → putTogether s got ip q

theorem deliver_udp_iff {net : NetConfig} {srcIp : List UInt8} {buffer : Buffer} {pos : Nat}
    {ip : Ptr} {call : UdpCall} : deliver net srcIp buffer pos ip = .udp call ↔
      IsUdp net ip ∧ call = udpCall srcIp buffer pos ip := by
  rw [deliver, IsUdp]
  split_ifs with hicmp hudp hsum
  · rw [hicmp]
    simp [IPPROTO_ICMP, IPPROTO_UDP]
  · simp [hudp]
  · simp [hsum]
  · rw [Delivery.udp.injEq]
    constructor
    · rintro rfl
      refine ⟨⟨not_not.mp hudp, fun hnet => ?_⟩, rfl⟩
      exact not_not.mp fun hwrong => hsum ⟨hnet, hwrong⟩
    · rintro ⟨-, rfl⟩
      rfl

theorem netReceive_udp_iff {net : NetConfig} {s s' : Reasm} {frame : EtherFrame}
    {call : UdpCall} : netReceive net s frame = some (s', .udp call) ↔
      ∃ link, IpFrame net frame link ∧ receiveIp net s frame link = some (s', .udp call) := by
  constructor
  · intro h
    rw [netReceive] at h
    by_cases hshort : frame.len < ETHER_HDR_SIZE
    · rw [if_pos hshort] at h
      cases h
    by_cases hpush : net.pushPacket = true
    · rw [if_neg hshort, if_pos hpush] at h
      cases h
    · rw [if_neg hshort, if_neg hpush] at h
      cases hlink : linkHeader net frame with
      | none =>
        rw [hlink] at h
        cases h
      | some link =>
        simp only [hlink] at h
        split_ifs at h with hcdp hvlan harp hrarp hip
        · cases h
        · cases h
        · cases h
        · have haccepted : acceptsIp net frame link = true := by
            by_contra hnot
            rw [receiveIp, if_neg hnot] at h
            cases h
          exact ⟨link, ⟨Nat.le_of_not_lt hshort, Bool.eq_false_of_not_eq_true hpush, hlink,
            Bool.eq_false_of_not_eq_true hcdp, hvlan, hip, haccepted⟩, h⟩
        · cases h
        · cases h
  · rintro ⟨link, hip, h⟩
    rw [netReceive, if_neg (Nat.not_lt.mpr hip.long), if_neg (by simp [hip.unpushed]), hip.header]
    simp only [hip.noCdp, hip.vlan, hip.proto]
    exact h

theorem linkHeader_len {net : NetConfig} {frame : EtherFrame} {link : Link}
    (h : linkHeader net frame = some link) : link.len = frame.len - link.pos := by
  simp only [linkHeader] at h
  split_ifs at h
  · cases h
    rfl
  · cases h
    rfl
  · cases h
    rfl

theorem udpLen_lt (ip : Ptr) : udpLen ip < 65536 := by
  have h0 := (ip 24).toNat_lt
  have h1 := (ip (24 + 1)).toNat_lt
  rw [udpLen, be16]
  omega

/-- The unsigned length that is handed on, in memory of less than 2 GiB. -/
theorem lengthFits_iff (ip : Ptr) {bytes : Nat} (h : bytes < 2 ^ 31) :
    LengthFits ip bytes ↔
      IP_UDP_HDR_SIZE + (UInt32.ofNat (udpLen ip) - UInt32.ofNat UDP_HDR_SIZE).toNat ≤ bytes := by
  have hlt := udpLen_lt ip
  rw [UInt32.toNat_sub, UInt32.toNat_ofNat', UInt32.toNat_ofNat', LengthFits,
    show UDP_HDR_SIZE = 8 from rfl, show IP_HDR_SIZE = 20 from rfl,
    show IP_UDP_HDR_SIZE = 28 from rfl]
  omega

/-- What is handed on of a packet in the buffer was put together exactly when the bytes that its
length field counts were. -/
theorem inside_pktBuff_iff (frame : EtherFrame) {got : Nat → Prop}
    (hgot : ∀ q, got q → q < IP_PKTSIZE) (srcIp : List UInt8) (ip : Ptr) :
    Inside frame got (udpCall srcIp .pktBuff 0 ip) ↔
      UDP_HDR_SIZE ≤ udpLen ip ∧ ∀ q, IP_HDR_SIZE ≤ q → q < IP_HDR_SIZE + udpLen ip → got q := by
  have hlt := udpLen_lt ip
  have hlen : (UInt32.ofNat (udpLen ip) - UInt32.ofNat UDP_HDR_SIZE).toNat =
      (2 ^ 32 - 8 + udpLen ip) % 2 ^ 32 := by
    rw [UInt32.toNat_sub, UInt32.toNat_ofNat', UInt32.toNat_ofNat', show UDP_HDR_SIZE = 8 from rfl]
    omega
  have hpkt : (udpCall srcIp .pktBuff 0 ip).pkt = 28 := rfl
  have hsize : UDP_HDR_SIZE = 8 ∧ IP_HDR_SIZE = 20 ∧ IP_PKTSIZE = 16484 := ⟨rfl, rfl, rfl⟩
  constructor
  · rintro ⟨-, hinside⟩
    have hinside : ∀ q, 28 - UDP_HDR_SIZE ≤ q →
      q < 28 + (UInt32.ofNat (udpLen ip) - UInt32.ofNat UDP_HDR_SIZE).toNat → got q := hinside
    rw [hlen] at hinside
    have hmin : 8 ≤ udpLen ip := by
      by_contra hshort
      have := hgot _ (hinside IP_PKTSIZE (by omega) (by omega))
      omega
    exact ⟨hmin, fun q hlow hhigh => hinside q (by omega) (by omega)⟩
  · rintro ⟨hmin, hstored⟩
    refine ⟨by rw [hpkt]; decide, ?_⟩
    show ∀ q, 28 - UDP_HDR_SIZE ≤ q →
      q < 28 + (UInt32.ofNat (udpLen ip) - UInt32.ofNat UDP_HDR_SIZE).toNat → got q
    rw [hlen]
    exact fun q hlow hhigh => hstored q (by omega) (by omega)

/-- What is handed on lies inside the received bytes exactly for packets whose
UDP length does: it is compared with nothing. -/
theorem handsOnInside_iff (net : NetConfig) (s : Reasm) {got : Nat → Prop}
    (hgot : ∀ q, got q → q < IP_PKTSIZE) {frame : EtherFrame} (hlen : frame.len < 2 ^ 31) :
    HandsOnInside net s got frame ↔ LengthsFit net s got frame := by
  constructor
  · intro hinside link hip
    have haccepted := hip.accepted
    have hpos := linkHeader_len hip.header
    rw [acceptsIp, Bool.and_eq_true, decide_eq_true_iff, decide_eq_true_iff] at haccepted
    refine ⟨fun s' hre hudp => ?_, fun s' n hre hudp => ?_⟩
    · have hcall := hinside s' _ (netReceive_udp_iff.mpr ⟨link, hip, by
        simp only [receiveIp, if_pos hip.accepted, hre]
        exact congrArg (fun d => some (s', d)) (deliver_udp_iff.mpr ⟨hudp, rfl⟩)⟩) link hip.header
      rw [lengthFits_iff _ (by omega)]
      have hle : link.pos + IP_UDP_HDR_SIZE + (UInt32.ofNat (udpLen (frame.inpkt.add link.pos)) -
        UInt32.ofNat UDP_HDR_SIZE).toNat ≤ frame.len := hcall.2
      omega
    · have hcall := hinside s' _ (netReceive_udp_iff.mpr ⟨link, hip, by
        simp only [receiveIp, if_pos hip.accepted, hre]
        exact congrArg (fun d => some (s', d)) (deliver_udp_iff.mpr ⟨hudp, rfl⟩)⟩) link hip.header
      exact (inside_pktBuff_iff frame (fun _ => putTogether_lt (not_tooFar_of_whole hre) hgot)
        _ _).mp hcall
  · intro hfit s' call hcall link' hlink'
    obtain ⟨link, hip, hreceive⟩ := netReceive_udp_iff.mp hcall
    obtain rfl := Option.some.inj (hip.header.symm.trans hlink')
    obtain ⟨hunchanged, hwhole⟩ := hfit link hip
    have haccepted := hip.accepted
    have hpos := linkHeader_len hip.header
    rw [acceptsIp, Bool.and_eq_true, decide_eq_true_iff, decide_eq_true_iff] at haccepted
    simp only [receiveIp, if_pos hip.accepted] at hreceive
    split at hreceive
    · cases hreceive
    · cases hreceive
    · next s₁ hre =>
        obtain ⟨rfl, hdeliver⟩ := Prod.mk.inj (Option.some.inj hreceive)
        obtain ⟨hudp, rfl⟩ := deliver_udp_iff.mp hdeliver
        have hle := (lengthFits_iff _ (by omega)).mp (hunchanged s₁ hre hudp)
        refine ⟨Nat.le_trans (by decide) (Nat.le_add_left IP_UDP_HDR_SIZE link.pos), ?_⟩
        show link.pos + IP_UDP_HDR_SIZE + (UInt32.ofNat (udpLen (frame.inpkt.add link.pos)) -
          UInt32.ofNat UDP_HDR_SIZE).toNat ≤ frame.len
        omega
    · next s₁ n hre =>
        obtain ⟨rfl, hdeliver⟩ := Prod.mk.inj (Option.some.inj hreceive)
        obtain ⟨hudp, rfl⟩ := deliver_udp_iff.mp hdeliver
        exact (inside_pktBuff_iff frame (fun _ => putTogether_lt (not_tooFar_of_whole hre) hgot)
          _ _).mpr (hwhole s₁ n hre hudp)

/-- A frame with a UDP packet, with this length field, from 192.168.0.1 to 192.168.0.2. -/
def udpFrame (len : UInt8) : EtherFrame where
  inpkt := Ptr.ofList
    [2, 0, 0, 0, 0, 2, 2, 0, 0, 0, 0, 1, 0x08, 0x00,
      69, 0, 0, 28, 0, 1, 0, 0, 64, 17, 249, 124,
      192, 168, 0, 1, 192, 168, 0, 2,
      0, 69, 0, 69, 0, len, 0, 0]
  len := 42

/-- No VLAN, and all options that are on by default. -/
def plainNet : NetConfig where
  pushPacket := false
  cmdCdp := false
  cmdRarp := false
  ipDefrag := true
  udpChecksum := false
  ourIp := [192, 168, 0, 2]
  ourVlan := 0xffff
  ourNativeVlan := 0xffff

/-- A frame with a fragment of 16 bytes, with these fields for its offset and its check sum. -/
def fragmentFrame (off sum data : List UInt8) : EtherFrame where
  inpkt := Ptr.ofList ([2, 0, 0, 0, 0, 2, 2, 0, 0, 0, 0, 1, 0x08, 0x00, 69, 0, 0, 36, 0, 1] ++ off ++
    [64, 17] ++ sum ++ [192, 168, 0, 1, 192, 168, 0, 2] ++ data)
  len := 50

/-- A UDP header and eight bytes of its payload, and sixteen bytes more. -/
def firstHalf : EtherFrame :=
  fragmentFrame [32, 0] [217, 116] [0, 69, 0, 69, 0, 32, 0, 0, 1, 2, 3, 4, 5, 6, 7, 8]

def secondHalf : EtherFrame :=
  fragmentFrame [0, 2] [249, 114] [9, 10, 11, 12, 13, 14, 15, 16, 17, 18, 19, 20, 21, 22, 23, 24]

/-- The state after the first half. -/
def halfReceived : Reasm :=
  ((netReceive plainNet ⟨fun _ => 0, 0, 0⟩ firstHalf).map Prod.fst).getD ⟨fun _ => 0, 0, 0⟩

/-- The second half completes 24 bytes of payload, all of which were received. -/
theorem handsOnInside_halves :
    (netReceive plainNet halfReceived secondHalf).map Prod.snd =
        some (.udp ⟨.pktBuff, 28, 69, [192, 168, 0, 1], 69, 24⟩) ∧
      HandsOnInside plainNet halfReceived (· < 36) secondHalf := by
  refine ⟨by decide, (handsOnInside_iff plainNet halfReceived (fun q hq => hq.trans (by decide))
    (by decide)).mpr fun link hip => ?_⟩
  have hheader : linkHeader plainNet secondHalf = some ⟨14, 36, 0x800, 4095⟩ := by decide
  obtain rfl := Option.some.inj (hheader.symm.trans hip.header)
  have hwhole : (reassemble plainNet halfReceived (secondHalf.inpkt.add 14)).map
      (fun r => (udpLen r.1.pktBuff, r.2)) = some (32, .whole 52) := by decide
  refine ⟨fun s' hre => ?_, fun s' n hre _ => ?_⟩
  · rw [hre] at hwhole
    cases (Prod.mk.inj (Option.some.inj hwhole)).2
  · rw [hre] at hwhole
    obtain ⟨hlen, -⟩ := Prod.mk.inj (Option.some.inj hwhole)
    have hnew : ¬NewPacket halfReceived (secondHalf.inpkt.add 14) := by decide
    have hoff : fragOffset (secondHalf.inpkt.add 14) = 2 ∧
        fragLen (secondHalf.inpkt.add 14) = 16 := by decide
    have hlen : udpLen s'.pktBuff = 32 := hlen
    rw [hlen]
    refine ⟨by decide, fun q hlow hhigh => ?_⟩
    rw [putTogether, if_neg hnew, hoff.1, hoff.2, IP_HDR_SIZE] at *
    omega

/-- A UDP length of 0 becomes 4294967288 bytes of payload. -/
theorem handed_on_outside :
    ¬∀ (net : NetConfig) (s : Reasm) (got : Nat → Prop) (frame : EtherFrame),
      (∀ q, got q → q < IP_PKTSIZE) → frame.len < 2 ^ 31 → HandsOnInside net s got frame := by
  intro claim
  have hreceive : (netReceive plainNet ⟨fun _ => 0, 0, 0⟩ (udpFrame 0)).map Prod.snd =
      some (.udp ⟨.frame, 42, 69, [192, 168, 0, 1], 69, 4294967288⟩) := by decide
  obtain ⟨⟨s', result⟩, hcall, rfl⟩ := Option.map_eq_some_iff.mp hreceive
  have hinside : 42 + (4294967288 : UInt32).toNat ≤ 42 :=
    (claim plainNet ⟨fun _ => 0, 0, 0⟩ (fun _ => False) (udpFrame 0) (fun _ h => h.elim) (by decide)
      s' _ hcall ⟨14, 28, 0x800, 4095⟩ (by decide)).2
  exact absurd hinside (by decide)

end UBoot.Net
