import UBoot.Verification.Bytes

/-!
# DHCP options

`DhcpHandler` in `net/bootp.c` with its two walks over the vendor area, without
`CONFIG_BOOTP_VENDOREX` and `CONFIG_SYS_BOOTFILE_PREFIX`. The vendor area is the
part of the packet behind the fixed fields, as far as it was received; a walk has
no result where it reads behind it. `BootpCopyNetParams` looks at no option and is
left out, as is what is sent.
-/

namespace UBoot.Net.Dhcp

open Verification

def OPT_FIELD_SIZE : Nat := 312
def BOOTP_HDR_SIZE : Nat := 548
def BOOTP_VENDOR_MAGIC : List UInt8 := [0x63, 0x82, 0x53, 0x63]
def PORT_BOOTPS : Nat := 67
def PORT_BOOTPC : Nat := 68
def OP_BOOTREQUEST : UInt8 := 1
def OP_BOOTREPLY : UInt8 := 2
def DHCP_OFFER : UInt8 := 2
def DHCP_ACK : UInt8 := 5
def DHCP_NAK : UInt8 := 6
def HWT_ETHER : UInt8 := 1
def HWL_ETHER : UInt8 := 6

/-- Where `DhcpOptionsProcess` ends: the size of the whole structure behind the
first option, counted from there. -/
def OPTIONS_END : Nat := BOOTP_HDR_SIZE

/-- Options of the build. -/
structure Config where
  /-- `CONFIG_CMD_SNTP` with `CONFIG_BOOTP_TIMEOFFSET` or `CONFIG_BOOTP_NTPSERVER` -/
  timeOffset : Bool
  ntpServer : Bool
  /-- `CONFIG_BOOTP_DNS2` -/
  dns2 : Bool

/-- What options are stored in. Addresses are the bytes as received. -/
structure NetParams where
  subnetMask : List UInt8
  timeOffset : UInt32
  gatewayIp : List UInt8
  dnsIp : List UInt8
  dns2Ip : List UInt8
  hostName : List UInt8
  rootPath : List UInt8
  ntpServerIp : List UInt8
  leasetime : List UInt8
  dhcpServerIp : List UInt8
  /-- `bp_file` of the packet that is processed. -/
  bpFile : List UInt8
  deriving DecidableEq, Repr

/-! ### The options -/

/-- `truncate_sz` -/
def truncateSz (maxlen curlen : Nat) : Nat := if curlen ≥ maxlen then maxlen - 1 else curlen

/-- The string in a buffer that bytes and a 0 were copied to. -/
def cString (bs : List UInt8) : List UInt8 := bs.takeWhile (· ≠ 0)

/-- The first bytes, if there are so many. -/
def firstBytes (data : List UInt8) (n : Nat) : Option (List UInt8) :=
  if n ≤ data.length then some (data.take n) else none

/-- The options with a word that is copied whatever their length is. -/
def takesWord (cfg : Config) (code : UInt8) : Bool :=
  code ∈ [1, 3, 6, 51, 54] || (code = 2 && cfg.timeOffset) || (code = 42 && cfg.ntpServer)

/-- How many bytes from `popt + 2` on the `switch` of `DhcpOptionsProcess` reads. -/
def optionBytes (cfg : Config) (code : UInt8) (oplen : Nat) (net : NetParams) : Nat :=
  if code = 6 ∧ cfg.dns2 ∧ oplen > 4 then 8
  else if takesWord cfg code then 4
  else if code = 12 then truncateSz 32 oplen
  else if code = 17 then truncateSz 64 oplen
  else if code = 67 ∧ net.bpFile = [] then truncateSz 128 oplen
  else 0

/-- What the `switch` does with these bytes. -/
def storeOption (cfg : Config) (code : UInt8) (bytes : List UInt8) (net : NetParams) : NetParams :=
  if code = 1 then { net with subnetMask := bytes }
  else if code = 2 ∧ cfg.timeOffset then
    { net with timeOffset := UInt32.ofNat (beValue bytes) }
  else if code = 3 then { net with gatewayIp := bytes }
  else if code = 6 ∧ bytes.length = 8 then
    { net with dnsIp := bytes.take 4, dns2Ip := bytes.drop 4 }
  else if code = 6 then { net with dnsIp := bytes }
  else if code = 12 then { net with hostName := cString bytes }
  else if code = 17 then { net with rootPath := cString bytes }
  else if code = 42 ∧ cfg.ntpServer then { net with ntpServerIp := bytes }
  else if code = 51 then { net with leasetime := bytes }
  else if code = 54 then { net with dhcpServerIp := bytes }
  else if code = 67 ∧ net.bpFile = [] ∧ bytes ≠ [] then { net with bpFile := cString bytes }
  else net

/-- The `switch`; `data` are the bytes from `popt + 2` on. -/
def applyOption (cfg : Config) (code : UInt8) (oplen : Nat) (data : List UInt8) (net : NetParams) :
    Option NetParams :=
  (firstBytes data (optionBytes cfg code oplen net)).map fun bytes => storeOption cfg code bytes net

/-- `DhcpOptionsProcess` with `popt` at an offset from the first option. The codes
of the options that it handled are only recorded. -/
def dhcpOptionsProcess (cfg : Config) (popt : Nat) (area : List UInt8) (net : NetParams) :
    Option (List UInt8 × NetParams) :=
  if OPTIONS_END ≤ popt then some ([], net)
  else match area with
    | [] => none
    | [code] => if code = 0xff then some ([], net) else none
    | code :: oplen :: data =>
      if code = 0xff then some ([], net)
      else (applyOption cfg code oplen.toNat data net).bind fun net =>
        (dhcpOptionsProcess cfg (popt + oplen.toNat + 2) (data.drop oplen.toNat) net).map
          fun r => (code :: r.1, r.2)
  termination_by area.length
  decreasing_by
    rw [List.length_drop, List.length_cons, List.length_cons]
    omega

/-- The loop of `DhcpMessageType`. The codes of the options that it passed over
are only recorded. -/
def dhcpMessageTypeLoop : List UInt8 → Option (List UInt8 × Option UInt8)
  | [] => none
  | [code] => if code = 0xff then some ([], none) else none
  | code :: oplen :: data =>
    if code = 0xff then some ([], none)
    else if code = 53 then data.head?.map fun type => ([], some type)
    else (dhcpMessageTypeLoop (data.drop oplen.toNat)).map fun r => (code :: r.1, r.2)
  termination_by area => area.length
  decreasing_by
    rw [List.length_drop, List.length_cons, List.length_cons]
    omega

/-- `DhcpMessageType` on the vendor area. -/
def dhcpMessageType (vend : List UInt8) : Option (List UInt8 × Option UInt8) :=
  (firstBytes vend 4).bind fun magic =>
    if magic ≠ BOOTP_VENDOR_MAGIC then some ([], none) else dhcpMessageTypeLoop (vend.drop 4)

/-- The call of `DhcpOptionsProcess` in `DhcpHandler`. -/
def processOptions (cfg : Config) (vend : List UInt8) (net : NetParams) :
    Option (List UInt8 × NetParams) :=
  (firstBytes vend 4).bind fun magic =>
    if magic = BOOTP_VENDOR_MAGIC then dhcpOptionsProcess cfg 0 (vend.drop 4) net
    else some ([], net)

/-! ### The handler -/

/-- `dhcp_state_t` -/
inductive DhcpState where
  | init
  | initReboot
  | rebooting
  | selecting
  | requesting
  | rebinding
  | bound
  | renewing
  deriving DecidableEq, Repr

structure Client where
  state : DhcpState
  /-- `bootp_ids` -/
  ids : List (List UInt8)
  net : NetParams

/-- The arguments of the UDP handler. -/
structure Packet where
  dest : Nat
  src : Nat
  bytes : List UInt8

/-- What is sent or started. -/
inductive Reaction where
  | ignored
  | request
  | bound
  deriving DecidableEq, Repr

/-- `BootpCheckPkt` -/
def bootpCheckPkt (ids : List (List UInt8)) (pkt : Packet) : Int :=
  let op := pkt.bytes.getD 0 0
  if pkt.dest ≠ PORT_BOOTPC ∨ pkt.src ≠ PORT_BOOTPS then -1
  else if pkt.bytes.length < BOOTP_HDR_SIZE - OPT_FIELD_SIZE then -2
  else if op ≠ OP_BOOTREQUEST ∧ op ≠ OP_BOOTREPLY ∧ op ≠ DHCP_OFFER ∧ op ≠ DHCP_ACK ∧
      op ≠ DHCP_NAK then -3
  else if pkt.bytes.getD 1 0 ≠ HWT_ETHER then -4
  else if pkt.bytes.getD 2 0 ≠ HWL_ETHER then -5
  else if slice pkt.bytes 4 4 ∉ ids then -6
  else 0

/-- `bp_vend`, as far as it was received. -/
def Packet.vend (pkt : Packet) : List UInt8 := pkt.bytes.drop (BOOTP_HDR_SIZE - OPT_FIELD_SIZE)

/-- `bp_yiaddr` and `bp_file` -/
def Packet.yiaddr (pkt : Packet) : List UInt8 := slice pkt.bytes 16 4
def Packet.file (pkt : Packet) : List UInt8 := cString (slice pkt.bytes 108 128)

/-- `DhcpHandler` with a way to find the message type and one to process options. -/
def handleWith (messageType : List UInt8 → Option (List UInt8 × Option UInt8))
    (process : List UInt8 → NetParams → Option (List UInt8 × NetParams)) (c : Client)
    (pkt : Packet) : Option (Client × Reaction) :=
  if bootpCheckPkt c.ids pkt ≠ 0 then some (c, .ignored)
  else if pkt.yiaddr = [0, 0, 0, 0] then some (c, .ignored)
  else match c.state with
    | .selecting =>
      (process pkt.vend { c.net with bpFile := pkt.file }).map fun r =>
        ({ c with state := .requesting, net := r.2 }, .request)
    | .requesting =>
      (messageType pkt.vend).bind fun r =>
      if r.2 = some DHCP_ACK then
        (process pkt.vend { c.net with bpFile := pkt.file }).map fun r =>
          ({ c with state := .bound, net := r.2 }, .bound)
      else some (c, .ignored)
    | _ => some (c, .ignored)

/-- `DhcpHandler` -/
def dhcpHandler (cfg : Config) (c : Client) (pkt : Packet) : Option (Client × Reaction) :=
  handleWith dhcpMessageType (processOptions cfg) c pkt

/-! ### The sequence of options -/

/-- The options of a vendor area behind the magic cookie: pads are one byte long,
255 ends the sequence, and so does an option that is not complete. -/
def rfcOptions : List UInt8 → List (UInt8 × List UInt8)
  | [] => []
  | [_] => []
  | code :: len :: data =>
    if code = 255 then []
    else if code = 0 then rfcOptions (len :: data)
    else if len.toNat ≤ data.length then
      (code, data.take len.toNat) :: rfcOptions (data.drop len.toNat)
    else []
  termination_by area => area.length
  decreasing_by
  · simp
  · rw [List.length_drop, List.length_cons, List.length_cons]
    omega

/-- The type in the first message type option, with the codes before it. -/
def typeOf : List (UInt8 × List UInt8) → Option (List UInt8 × Option UInt8)
  | [] => some ([], none)
  | (code, data) :: options =>
    if code = 53 then data.head?.map fun type => ([], some type)
    else (typeOf options).map fun r => (code :: r.1, r.2)

/-- The options one after the other; an option gives nothing but its own bytes. -/
def applyAll (cfg : Config) : List (UInt8 × List UInt8) → NetParams → Option (List UInt8 × NetParams)
  | [], net => some ([], net)
  | (code, data) :: options, net =>
    (applyOption cfg code data.length data net).bind fun net =>
      (applyAll cfg options net).map fun r => (code :: r.1, r.2)

def rfcMessageType (vend : List UInt8) : Option (List UInt8 × Option UInt8) :=
  if vend.take 4 = BOOTP_VENDOR_MAGIC then typeOf (rfcOptions (vend.drop 4)) else some ([], none)

def rfcProcess (cfg : Config) (vend : List UInt8) (net : NetParams) :
    Option (List UInt8 × NetParams) :=
  if vend.take 4 = BOOTP_VENDOR_MAGIC then applyAll cfg (rfcOptions (vend.drop 4)) net
  else some ([], net)

def SameResult {α : Type} (x y : Option α) : Prop := ∃ a, x = some a ∧ y = some a

/-- The two walks see the sequence of options in the vendor area and nothing else. -/
def ViewRight (cfg : Config) (vend : List UInt8) (net : NetParams) : Prop :=
  SameResult (dhcpMessageType vend) (rfcMessageType vend) ∧
    SameResult (processOptions cfg vend net) (rfcProcess cfg vend net)

/-! ### Vendor areas that are read right -/

/-- An option has the bytes that its handling takes. -/
def LongEnough (cfg : Config) (code : UInt8) (len : Nat) : Prop :=
  (takesWord cfg code → 4 ≤ len) ∧ (code = 6 → cfg.dns2 → 4 < len → 8 ≤ len)

/-- Options up to the end mark or a message type, all complete, without a pad. -/
inductive Typed : List UInt8 → Prop
  | stop (rest : List UInt8) : Typed (255 :: rest)
  | found {len type : UInt8} {data : List UInt8} (rest : List UInt8)
      (hlen : len.toNat = data.length + 1) : Typed (53 :: len :: (type :: data ++ rest))
  | option {code len : UInt8} {data rest : List UInt8} (hpad : code ≠ 0) (htype : code ≠ 53)
      (hend : code ≠ 255) (hlen : len.toNat = data.length) (hrest : Typed rest) :
      Typed (code :: len :: (data ++ rest))

/-- Options up to the end mark, or up to the limit with none behind, all complete
and long enough, without a pad. -/
inductive Processable (cfg : Config) : Nat → List UInt8 → Prop
  | limit {popt : Nat} {area : List UInt8} (hlimit : OPTIONS_END ≤ popt)
      (hnone : rfcOptions area = []) : Processable cfg popt area
  | stop {popt : Nat} (rest : List UInt8) (hlimit : popt < OPTIONS_END) :
      Processable cfg popt (255 :: rest)
  | option {popt : Nat} {code len : UInt8} {data rest : List UInt8} (hlimit : popt < OPTIONS_END)
      (hpad : code ≠ 0) (hend : code ≠ 255) (hlen : len.toNat = data.length)
      (hlong : LongEnough cfg code data.length)
      (hrest : Processable cfg (popt + data.length + 2) rest) :
      Processable cfg popt (code :: len :: (data ++ rest))

/-- The vendor area has a cookie, and behind the right one options that both walks
read right. -/
def Readable (cfg : Config) (vend : List UInt8) : Prop :=
  4 ≤ vend.length ∧ (vend.take 4 = BOOTP_VENDOR_MAGIC →
    Typed (vend.drop 4) ∧ Processable cfg 0 (vend.drop 4))

theorem firstBytes_append {data bs : List UInt8} {n : Nat} (more : List UInt8)
    (h : firstBytes data n = some bs) : firstBytes (data ++ more) n = some bs := by
  rw [firstBytes] at h
  split_ifs at h with hle
  rw [firstBytes, if_pos (by rw [List.length_append]; omega), List.take_append_of_le_length hle, h]

/-- Bytes behind those that are used make no difference. -/
theorem applyOption_append {cfg : Config} {code : UInt8} {oplen : Nat} {data : List UInt8}
    {net net' : NetParams} (more : List UInt8)
    (h : applyOption cfg code oplen data net = some net') :
    applyOption cfg code oplen (data ++ more) net = some net' := by
  rw [applyOption, Option.map_eq_some_iff] at h
  obtain ⟨bytes, hbytes, rfl⟩ := h
  rw [applyOption, firstBytes_append more hbytes, Option.map_some]

theorem optionBytes_le_iff (cfg : Config) (code : UInt8) (len : Nat) (net : NetParams) :
    optionBytes cfg code len net ≤ len ↔ LongEnough cfg code len := by
  have hsize (maxlen : Nat) : truncateSz maxlen len ≤ len := by
    rw [truncateSz]
    split_ifs <;> omega
  rw [optionBytes, LongEnough]
  by_cases hdns2 : code = 6 ∧ cfg.dns2 ∧ len > 4
  · obtain ⟨rfl, hcfg, hlen⟩ := hdns2
    rw [if_pos ⟨rfl, hcfg, hlen⟩]
    simp only [hcfg, forall_const]
    omega
  · have hsecond : code = 6 → cfg.dns2 → 4 < len → 8 ≤ len :=
      fun hcode hcfg hlen => absurd ⟨hcode, hcfg, hlen⟩ hdns2
    rw [if_neg hdns2, and_iff_left hsecond]
    by_cases hword : takesWord cfg code
    · rw [if_pos hword]
      exact ⟨fun h _ => h, fun h => h hword⟩
    · rw [if_neg hword]
      refine iff_of_true ?_ fun h => absurd h hword
      split_ifs
      · exact hsize 32
      · exact hsize 64
      · exact hsize 128
      · exact Nat.zero_le len

theorem applyOption_iff_longEnough (cfg : Config) (code : UInt8) (data : List UInt8)
    (net : NetParams) :
    (∃ net', applyOption cfg code data.length data net = some net') ↔
      LongEnough cfg code data.length := by
  rw [← optionBytes_le_iff cfg code data.length net, applyOption, firstBytes]
  split_ifs with hle
  · simp [hle]
  · simp [hle]

/-! ### The sequence of options -/

@[simp] theorem rfcOptions_end (rest : List UInt8) : rfcOptions (255 :: rest) = [] := by
  cases rest with
  | nil => rw [rfcOptions]
  | cons b rest => rw [rfcOptions, if_pos rfl]

theorem rfcOptions_option {code len : UInt8} {data rest : List UInt8} (hpad : code ≠ 0)
    (hend : code ≠ 255) (hlen : len.toNat = data.length) :
    rfcOptions (code :: len :: (data ++ rest)) = (code, data) :: rfcOptions rest := by
  rw [rfcOptions, if_neg hend, if_neg hpad, hlen, if_pos (by simp), List.take_left, List.drop_left]

/-- An option that is longer than what is left ends the sequence. -/
theorem rfcOptions_short {code len : UInt8} {data : List UInt8} (hpad : code ≠ 0)
    (hend : code ≠ 255) (hlen : ¬len.toNat ≤ data.length) :
    rfcOptions (code :: len :: data) = [] := by
  rw [rfcOptions, if_neg hend, if_neg hpad, if_neg hlen]

theorem rfcOptions_ne_pad {area : List UInt8} {option : UInt8 × List UInt8}
    (h : option ∈ rfcOptions area) : option.1 ≠ 0 := by
  induction area using rfcOptions.induct with
  | case1 => simp [rfcOptions] at h
  | case2 => simp [rfcOptions] at h
  | case3 len data =>
    rw [rfcOptions_end] at h
    cases h
  | case4 len data _ ih =>
    rw [rfcOptions, if_neg (by decide), if_pos rfl] at h
    exact ih h
  | case5 code len data hend hpad hlen ih =>
    rw [rfcOptions, if_neg hend, if_neg hpad, if_pos hlen] at h
    rcases List.mem_cons.mp h with rfl | h
    · exact hpad
    · exact ih h
  | case6 code len data hend hpad hlen =>
    rw [rfcOptions_short hpad hend hlen] at h
    cases h

theorem typeOf_codes {options : List (UInt8 × List UInt8)} {r : List UInt8 × Option UInt8}
    (h : typeOf options = some r) : r.1 ⊆ options.map Prod.fst := by
  induction options generalizing r with
  | nil =>
    obtain rfl := Option.some.inj h
    exact List.nil_subset _
  | cons option options ih =>
    rw [typeOf] at h
    split_ifs at h
    · obtain ⟨type, -, rfl⟩ := Option.map_eq_some_iff.mp h
      exact List.nil_subset _
    · obtain ⟨r', hr', rfl⟩ := Option.map_eq_some_iff.mp h
      exact List.cons_subset_cons _ (ih hr')

theorem applyAll_codes {cfg : Config} {options : List (UInt8 × List UInt8)} {net : NetParams}
    {r : List UInt8 × NetParams} (h : applyAll cfg options net = some r) :
    r.1 = options.map Prod.fst := by
  induction options generalizing net r with
  | nil =>
    obtain rfl := Option.some.inj h
    rfl
  | cons option options ih =>
    rw [applyAll] at h
    obtain ⟨net', -, h⟩ := Option.bind_eq_some_iff.mp h
    obtain ⟨r', hr', rfl⟩ := Option.map_eq_some_iff.mp h
    exact congrArg (option.1 :: ·) (ih hr')

/-! ### The walks -/

theorem exists_append_of_le {data : List UInt8} {n : Nat} (h : n ≤ data.length) :
    ∃ first rest, data = first ++ rest ∧ n = first.length :=
  ⟨data.take n, data.drop n, (List.take_append_drop n data).symm, by
    rw [List.length_take, Nat.min_eq_left h]⟩

theorem sameResult_of_typed {area : List UInt8} (h : Typed area) :
    SameResult (dhcpMessageTypeLoop area) (typeOf (rfcOptions area)) := by
  induction h with
  | stop rest =>
    refine ⟨([], none), ?_, ?_⟩
    · cases rest with
      | nil => rw [dhcpMessageTypeLoop, if_pos rfl]
      | cons b rest => rw [dhcpMessageTypeLoop, if_pos rfl]
    · rw [rfcOptions_end, typeOf]
  | @found len type data rest hlen =>
    refine ⟨([], some type), ?_, ?_⟩
    · rw [dhcpMessageTypeLoop, if_neg (by decide), if_pos rfl]
      rfl
    · rw [rfcOptions_option (by decide) (by decide) hlen, typeOf, if_pos rfl]
      rfl
  | @option code len data rest hpad htype hend hlen _ ih =>
    obtain ⟨r, hr, hr'⟩ := ih
    refine ⟨(code :: r.1, r.2), ?_, ?_⟩
    · rw [dhcpMessageTypeLoop, if_neg hend, if_neg htype, hlen, List.drop_left, hr]
      rfl
    · rw [rfcOptions_option hpad hend hlen, typeOf, if_neg htype, hr']
      rfl

theorem typed_of_sameResult {area : List UInt8}
    (h : SameResult (dhcpMessageTypeLoop area) (typeOf (rfcOptions area))) : Typed area := by
  obtain ⟨r, hcode, hrfc⟩ := h
  induction area using dhcpMessageTypeLoop.induct generalizing r with
  | case1 => simp [dhcpMessageTypeLoop] at hcode
  | case2 => exact .stop []
  | case3 code hend => simp [dhcpMessageTypeLoop, hend] at hcode
  | case4 len data => exact .stop _
  | case5 len data hend =>
    rw [dhcpMessageTypeLoop, if_neg hend, if_pos rfl] at hcode
    obtain ⟨type, htype, rfl⟩ := Option.map_eq_some_iff.mp hcode
    by_cases hlen : len.toNat ≤ data.length
    · obtain ⟨first, rest, rfl, hfirst⟩ := exists_append_of_le hlen
      rw [rfcOptions_option (by decide) hend hfirst, typeOf, if_pos rfl] at hrfc
      obtain ⟨type', htype', -⟩ := Option.map_eq_some_iff.mp hrfc
      obtain ⟨first', rfl⟩ := List.head?_eq_some_iff.mp htype'
      exact .found rest hfirst
    · rw [rfcOptions_short (by decide) hend hlen] at hrfc
      cases hrfc
  | case6 code len data hend htype ih =>
    rw [dhcpMessageTypeLoop, if_neg hend, if_neg htype] at hcode
    obtain ⟨r', hr', rfl⟩ := Option.map_eq_some_iff.mp hcode
    have hpad : code ≠ 0 := by
      intro hpad
      obtain ⟨option, hoption, hcode⟩ := List.mem_map.mp (typeOf_codes hrfc List.mem_cons_self)
      exact rfcOptions_ne_pad hoption (hcode.trans hpad)
    by_cases hlen : len.toNat ≤ data.length
    · obtain ⟨first, rest, rfl, hfirst⟩ := exists_append_of_le hlen
      rw [hfirst, List.drop_left] at hr' ih
      rw [rfcOptions_option hpad hend hfirst, typeOf, if_neg htype] at hrfc
      obtain ⟨r'', hr'', heq⟩ := Option.map_eq_some_iff.mp hrfc
      obtain ⟨hcodes, htypes⟩ := Prod.mk.inj heq
      obtain rfl : r'' = r' := Prod.ext (List.cons.inj hcodes).2 htypes
      exact .option hpad htype hend hfirst (ih r'' hr' hr'')
    · rw [rfcOptions_short hpad hend hlen] at hrfc
      cases hrfc

theorem dhcpOptionsProcess_limit (cfg : Config) {popt : Nat} (area : List UInt8) (net : NetParams)
    (h : OPTIONS_END ≤ popt) : dhcpOptionsProcess cfg popt area net = some ([], net) := by
  rw [dhcpOptionsProcess.eq_def, if_pos h]

theorem dhcpOptionsProcess_end (cfg : Config) {popt : Nat} (rest : List UInt8) (net : NetParams)
    (h : popt < OPTIONS_END) : dhcpOptionsProcess cfg popt (255 :: rest) net = some ([], net) := by
  cases rest with
  | nil => rw [dhcpOptionsProcess, if_neg (Nat.not_le.mpr h), if_pos rfl]
  | cons b rest => rw [dhcpOptionsProcess, if_neg (Nat.not_le.mpr h), if_pos rfl]

theorem sameResult_of_processable {cfg : Config} {popt : Nat} {area : List UInt8}
    (h : Processable cfg popt area) (net : NetParams) :
    SameResult (dhcpOptionsProcess cfg popt area net) (applyAll cfg (rfcOptions area) net) := by
  induction h generalizing net with
  | limit hlimit hnone =>
    refine ⟨([], net), dhcpOptionsProcess_limit cfg _ net hlimit, ?_⟩
    rw [hnone, applyAll]
  | stop rest hlimit =>
    refine ⟨([], net), dhcpOptionsProcess_end cfg rest net hlimit, ?_⟩
    rw [rfcOptions_end, applyAll]
  | @option popt code len data rest hlimit hpad hend hlen hlong _ ih =>
    obtain ⟨net', hnet'⟩ := (applyOption_iff_longEnough cfg code data net).mpr hlong
    obtain ⟨r, hr, hr'⟩ := ih net'
    refine ⟨(code :: r.1, r.2), ?_, ?_⟩
    · rw [dhcpOptionsProcess, if_neg (Nat.not_le.mpr hlimit), if_neg hend, hlen,
        applyOption_append rest hnet', Option.bind_some, List.drop_left, hr]
      rfl
    · rw [rfcOptions_option hpad hend hlen, applyAll, hnet', Option.bind_some, hr']
      rfl

theorem processable_of_sameResult {cfg : Config} {popt : Nat} {area : List UInt8} {net : NetParams}
    (h : SameResult (dhcpOptionsProcess cfg popt area net) (applyAll cfg (rfcOptions area) net)) :
    Processable cfg popt area := by
  obtain ⟨r, hcode, hrfc⟩ := h
  induction hn : area.length using Nat.strong_induction_on generalizing popt area net r with
  | h n ih =>
  by_cases hlimit : OPTIONS_END ≤ popt
  · refine .limit hlimit ?_
    rw [dhcpOptionsProcess_limit cfg area net hlimit] at hcode
    obtain rfl := Option.some.inj hcode
    exact List.map_eq_nil_iff.mp (applyAll_codes hrfc).symm
  match area with
  | [] => simp [dhcpOptionsProcess, hlimit] at hcode
  | [code] =>
    by_cases hend : code = 255
    · subst hend
      exact .stop [] (Nat.not_le.mp hlimit)
    · simp [dhcpOptionsProcess, hlimit, hend] at hcode
  | code :: len :: data =>
    by_cases hend : code = 255
    · subst hend
      exact .stop _ (Nat.not_le.mp hlimit)
    rw [dhcpOptionsProcess, if_neg hlimit, if_neg hend] at hcode
    obtain ⟨net', hnet', hcode⟩ := Option.bind_eq_some_iff.mp hcode
    obtain ⟨r', hr', rfl⟩ := Option.map_eq_some_iff.mp hcode
    have hcodes := applyAll_codes hrfc
    have hpad : code ≠ 0 := by
      intro hpad
      have hmem : code ∈ (rfcOptions (code :: len :: data)).map Prod.fst := by
        rw [← hcodes]
        exact List.mem_cons_self
      obtain ⟨option, hoption, hcode⟩ := List.mem_map.mp hmem
      exact rfcOptions_ne_pad hoption (hcode.trans hpad)
    by_cases hlen : len.toNat ≤ data.length
    · obtain ⟨first, rest, rfl, hfirst⟩ := exists_append_of_le hlen
      rw [rfcOptions_option hpad hend hfirst, applyAll] at hrfc
      obtain ⟨net'', hnet'', hrfc⟩ := Option.bind_eq_some_iff.mp hrfc
      obtain ⟨r'', hr'', heq⟩ := Option.map_eq_some_iff.mp hrfc
      obtain ⟨hrest, hresult⟩ := Prod.mk.inj heq
      obtain rfl : r'' = r' := Prod.ext (List.cons.inj hrest).2 hresult
      rw [hfirst, applyOption_append rest hnet''] at hnet'
      obtain rfl := Option.some.inj hnet'
      have hlong := (applyOption_iff_longEnough cfg code first net).mp ⟨_, hnet''⟩
      rw [hfirst, List.drop_left] at hr'
      refine .option (Nat.not_le.mp hlimit) hpad hend hfirst hlong ?_
      refine ih rest.length ?_ _ hr' hr'' rfl
      rw [← hn, List.length_cons, List.length_cons, List.length_append]
      omega
    · rw [rfcOptions_short hpad hend hlen] at hcodes
      cases hcodes

theorem firstBytes_of_le {vend : List UInt8} {n : Nat} (h : n ≤ vend.length) :
    firstBytes vend n = some (vend.take n) :=
  if_pos h

theorem viewRight_iff (cfg : Config) (vend : List UInt8) (net : NetParams) :
    ViewRight cfg vend net ↔ Readable cfg vend := by
  by_cases hlen : 4 ≤ vend.length
  · rw [ViewRight, Readable, and_iff_right hlen, dhcpMessageType, processOptions,
      firstBytes_of_le hlen, Option.bind_some, Option.bind_some, rfcMessageType, rfcProcess]
    by_cases hmagic : vend.take 4 = BOOTP_VENDOR_MAGIC
    · simp only [hmagic, forall_const]
      exact ⟨fun h => ⟨typed_of_sameResult h.1, processable_of_sameResult h.2⟩,
        fun h => ⟨sameResult_of_typed h.1, sameResult_of_processable h.2 net⟩⟩
    · simp only [if_pos (show vend.take 4 ≠ BOOTP_VENDOR_MAGIC from hmagic), if_neg hmagic]
      exact iff_of_true ⟨⟨_, rfl, rfl⟩, _, rfl, rfl⟩ fun h => absurd h hmagic
  · refine iff_of_false ?_ fun h => hlen h.1
    rintro ⟨⟨r, hr, -⟩, -⟩
    rw [dhcpMessageType, firstBytes, if_neg hlen] at hr
    cases hr

/-- A handler that is given the sequence of options. -/
def rfcHandler (cfg : Config) (c : Client) (pkt : Packet) : Option (Client × Reaction) :=
  handleWith rfcMessageType (rfcProcess cfg) c pkt

/-- The handler does what one that is given the sequence of options does. -/
theorem dhcpHandler_of_viewRight {cfg : Config} {c : Client} {pkt : Packet}
    (h : ViewRight cfg pkt.vend { c.net with bpFile := pkt.file }) :
    SameResult (dhcpHandler cfg c pkt) (rfcHandler cfg c pkt) := by
  obtain ⟨⟨type, htype, htype'⟩, ⟨r, hr, hr'⟩⟩ := h
  rw [dhcpHandler, rfcHandler, handleWith, handleWith]
  split_ifs
  · exact ⟨_, rfl, rfl⟩
  · exact ⟨_, rfl, rfl⟩
  · cases c.state
    case selecting => exact ⟨_, by rw [hr]; rfl, by rw [hr']; rfl⟩
    case requesting =>
      simp only [htype, htype', hr, hr', Option.bind_some, Option.map_some]
      split_ifs
      · exact ⟨_, rfl, rfl⟩
      · exact ⟨_, rfl, rfl⟩
    all_goals exact ⟨_, rfl, rfl⟩

/-- Both walks over the vendor area of a packet are right exactly for areas that are
readable, and then so is the handler in every state. -/
theorem options_right_iff (cfg : Config) :
    (∀ (vend : List UInt8) (net : NetParams), ViewRight cfg vend net ↔ Readable cfg vend) ∧
    ∀ (c : Client) (pkt : Packet), Readable cfg pkt.vend →
      SameResult (dhcpHandler cfg c pkt) (rfcHandler cfg c pkt) :=
  ⟨viewRight_iff cfg, fun _ _ h => dhcpHandler_of_viewRight ((viewRight_iff cfg _ _).mpr h)⟩

/-- An acknowledgement with a subnet mask, with a pad between them or without. -/
def ackWith (pads : List UInt8) : List UInt8 :=
  BOOTP_VENDOR_MAGIC ++ ([53, 1, 5] ++ pads ++ [1, 4, 255, 255, 255, 0, 255])

def plainConfig : Config := ⟨false, false, false⟩

def noParams : NetParams := ⟨[], 0, [], [], [], [], [], [], [], [], []⟩

theorem ackWith_nil_readable : Readable plainConfig (ackWith []) := by
  refine ⟨by decide, fun _ => ⟨?_, ?_⟩⟩
  · exact @Typed.found 1 5 [] [1, 4, 255, 255, 255, 0, 255] rfl
  · refine @Processable.option _ 0 53 1 [5] [1, 4, 255, 255, 255, 0, 255] (by decide) (by decide)
      (by decide) rfl ⟨by decide, by decide⟩ ?_
    refine @Processable.option _ 3 1 4 [255, 255, 255, 0] [255] (by decide) (by decide)
      (by decide) rfl ⟨by decide, by decide⟩ ?_
    exact .stop [] (by decide)

/-- The packet with the vendor area `ackWith []` for a client that waits for it. -/
def ackPacket : Packet where
  dest := PORT_BOOTPC
  src := PORT_BOOTPS
  bytes := [2, 1, 6, 0] ++ List.replicate 12 0 ++ [192, 168, 0, 2] ++ List.replicate 216 0 ++
    ackWith []

def waiting : Client := ⟨.requesting, [[0, 0, 0, 0]], noParams⟩

theorem options_right_ack :
    ViewRight plainConfig (ackWith []) noParams ∧
      SameResult (dhcpHandler plainConfig waiting ackPacket)
        (rfcHandler plainConfig waiting ackPacket) :=
  ⟨((options_right_iff plainConfig).1 _ _).mpr ackWith_nil_readable,
    (options_right_iff plainConfig).2 _ ackPacket ackWith_nil_readable⟩

/-- The pad and the two bytes behind it are taken for an option, and the address for
the end mark: the subnet mask is lost. -/
theorem pad_taken_for_option :
    ¬∀ (cfg : Config) (vend : List UInt8) (net : NetParams), ViewRight cfg vend net := by
  intro claim
  obtain ⟨-, r, hcode, hrfc⟩ := claim plainConfig (ackWith [0]) noParams
  have hseen : processOptions plainConfig (ackWith [0]) noParams = some ([53, 0], noParams) := by
    simp [processOptions, firstBytes, ackWith, BOOTP_VENDOR_MAGIC, dhcpOptionsProcess, OPTIONS_END,
      BOOTP_HDR_SIZE, applyOption, optionBytes, storeOption, takesWord, plainConfig]
  have hsent : (rfcProcess plainConfig (ackWith [0]) noParams).map Prod.fst = some [53, 1] := by
    simp [rfcProcess, rfcOptions, applyAll, firstBytes, ackWith, BOOTP_VENDOR_MAGIC, applyOption,
      optionBytes, storeOption, takesWord, plainConfig]
  rw [hseen] at hcode
  obtain rfl := Option.some.inj hcode
  rw [hrfc] at hsent
  exact absurd (Option.some.inj hsent) (by decide)

end UBoot.Net.Dhcp
