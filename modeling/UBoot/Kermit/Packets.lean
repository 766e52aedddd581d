import UBoot.Kermit.Basic

/-!
# The packets of a Kermit sender

A packet has a short or a long header; the long one has a block check of its
own. Data is quoted, and the packets split the quoted file as they like.
-/

namespace UBoot.Kermit

/-! ### Quoting -/

/-- The state of the decoder: whether the last character was the quote, and
the bytes so far. -/
abbrev Decoded := Bool × List UInt8

def decodeChar (quote : UInt8) (d : Decoded) (c : UInt8) : Decoded :=
  if d.1 then (false, d.2 ++ [ktrans c])
  else if c = quote then (true, d.2)
  else (false, d.2 ++ [c])

def decode (quote : UInt8) (d : Decoded) (data : List UInt8) : Decoded :=
  data.foldl (decodeChar quote) d

/-- A control character, with or without the high bit. -/
def IsControl (b : UInt8) : Prop := b &&& 0x7f < 0x20 ∨ b &&& 0x7f = 0x7f

/-- The characters that the quote may be chosen from. -/
def IsQuote (q : UInt8) : Prop := (33 ≤ q ∧ q ≤ 62) ∨ (96 ≤ q ∧ q ≤ 126)

instance : DecidablePred IsControl := fun _ => inferInstanceAs (Decidable (_ ∨ _))

instance : DecidablePred IsQuote := fun _ => inferInstanceAs (Decidable (_ ∨ _))

/-- What a sender may make of a file. -/
inductive Encodes (quote : UInt8) : List UInt8 → List UInt8 → Prop where
  | nil : Encodes quote [] []
  | plain (b : UInt8) {data file : List UInt8} (hb : b ≠ quote) (rest : Encodes quote data file) :
      Encodes quote (b :: data) (b :: file)
  | control (b : UInt8) {data file : List UInt8} (hb : IsControl b)
      (rest : Encodes quote data file) :
      Encodes quote (quote :: (b ^^^ 0x40) :: data) (b :: file)
  | quoted (b : UInt8) {data file : List UInt8} (hb : b &&& 0x7f = quote)
      (rest : Encodes quote data file) :
      Encodes quote (quote :: b :: data) (b :: file)

theorem ktrans_control {b : UInt8} (hb : IsControl b) : ktrans (b ^^^ 0x40) = b := by
  have all : ∀ n < 256, IsControl (UInt8.ofNat n) →
      ktrans (UInt8.ofNat n ^^^ 0x40) = UInt8.ofNat n := by
    decide +kernel
  rw [← UInt8.ofNat_toNat (x := b)] at hb ⊢
  exact all b.toNat b.toNat_lt hb

theorem ktrans_quoted {b quote : UInt8} (hq : IsQuote quote) (hb : b &&& 0x7f = quote) :
    ktrans b = b := by
  have all : ∀ n < 256, IsQuote (UInt8.ofNat n &&& 0x7f) →
      ktrans (UInt8.ofNat n) = UInt8.ofNat n := by
    decide +kernel
  subst hb
  rw [← UInt8.ofNat_toNat (x := b)] at hq ⊢
  exact all b.toNat b.toNat_lt hq

theorem decode_append (quote : UInt8) (d : Decoded) (first second : List UInt8) :
    decode quote d (first ++ second) = decode quote (decode quote d first) second :=
  List.foldl_append

theorem decodeChar_extends (quote : UInt8) (d : Decoded) (c : UInt8) :
    d.2 <+: (decodeChar quote d c).2 := by
  unfold decodeChar
  split_ifs
  · exact List.prefix_append _ _
  · exact List.prefix_rfl
  · exact List.prefix_append _ _

theorem decode_prefix (quote : UInt8) (d : Decoded) (data : List UInt8) :
    d.2 <+: (decode quote d data).2 := by
  induction data generalizing d with
  | nil => exact List.prefix_rfl
  | cons c data ih => exact (decodeChar_extends quote d c).trans (ih (decodeChar quote d c))

theorem length_decodeChar_le (quote : UInt8) (d : Decoded) (c : UInt8) :
    (decodeChar quote d c).2.length ≤ d.2.length + 1 := by
  unfold decodeChar
  split_ifs <;> simp

/-- Decoding gives the file back. -/
theorem Encodes.decode {quote : UInt8} {data file : List UInt8} (hq : IsQuote quote)
    (h : Encodes quote data file) (out : List UInt8) :
    decode quote (false, out) data = (false, out ++ file) := by
  induction h generalizing out with
  | nil => simp [Kermit.decode]
  | plain b hb _ ih =>
    have hstep : decodeChar quote (false, out) b = (false, out ++ [b]) := by
      simp [decodeChar, hb]
    simpa [Kermit.decode, hstep] using ih (out ++ [b])
  | control b hb _ ih =>
    have hstep : decodeChar quote (decodeChar quote (false, out) quote) (b ^^^ 0x40) =
        (false, out ++ [b]) := by
      simp [decodeChar, ktrans_control hb]
    simpa [Kermit.decode, hstep] using ih (out ++ [b])
  | quoted b hb _ ih =>
    have hstep : decodeChar quote (decodeChar quote (false, out) quote) b =
        (false, out ++ [b]) := by
      simp [decodeChar, ktrans_quoted hq hb]
    simpa [Kermit.decode, hstep] using ih (out ++ [b])

/-! ### Packets -/

/-- A packet without its number. -/
structure Packet where
  type : UInt8
  data : List UInt8
  long : Bool
  printable : ∀ b ∈ type :: data, control b = false
  fits : if long then data.length + 1 < 95 * 95 else data.length + 3 < 95

/-- The sum of the characters, as the block checks use it. -/
def sumOf (bytes : List UInt8) : Nat := bytes.foldl (fun sum b => sum + b.toNat) 0

/-- The header, with the sequence number. -/
def Packet.header (p : Packet) (n : Nat) : List UInt8 :=
  if p.long then
    let fields := [tochar 0, tochar n, p.type, tochar ((p.data.length + 1) / 95),
      tochar ((p.data.length + 1) % 95)]
    fields ++ [tochar (blockCheck (sumOf fields))]
  else [tochar (p.data.length + 3), tochar n, p.type]

/-- The characters of a packet behind the start character. -/
def Packet.wire (p : Packet) (n : Nat) : List UInt8 :=
  p.header n ++ p.data ++ [tochar (blockCheck (sumOf (p.header n ++ p.data))), END_CHAR]

/-- A sender's packets for a file: a send-init packet that may choose the
quote, then any others, then the break packet. The data packets hold the quoted
file. -/
structure Transfer (file : List UInt8) where
  init : Packet
  body : List Packet
  stop : Packet
  init_type : init.type = SEND_TYPE
  body_type : ∀ p ∈ body, p.type ≠ SEND_TYPE ∧ p.type ≠ BREAK_TYPE
  stop_type : stop.type = BREAK_TYPE
  quote : UInt8
  quote_eq : quote = if 6 ≤ init.data.length then init.data.getD 5 0 else K_ESCAPE
  isQuote : IsQuote quote
  encodes : Encodes quote ((body.filter (·.type = DATA_TYPE)).flatMap (·.data)) file

namespace Transfer

variable {file : List UInt8} (t : Transfer file)

def packets : List Packet := t.init :: t.body ++ [t.stop]

/-- What packet number `i` looks like. Numbers count modulo 64. -/
def frame (i : Nat) : Option (List UInt8) := t.packets[i]?.map fun p => p.wire (i % 64)

/-- A packet as the decoder sees it. -/
def payload (p : Packet) : List UInt8 := if p.type = DATA_TYPE then p.data else []

/-- What the first `i` packets decode to. -/
def decoded (i : Nat) : Decoded :=
  decode t.quote (false, []) ((t.packets.take i).flatMap payload)

/-- The first packet is the only send-init packet, the last one is the only
break packet. -/
theorem packet_cases {i : Nat} {p : Packet} (h : t.packets[i]? = some p) :
    (i = 0 ∧ p = t.init) ∨
      (0 < i ∧ p.type ≠ SEND_TYPE ∧ (p.type = BREAK_TYPE → i + 1 = t.packets.length)) := by
  cases i with
  | zero => exact .inl ⟨rfl, (Option.some.inj h).symm⟩
  | succ i =>
    right
    have hlen : t.packets.length = t.body.length + 2 := by simp [packets]
    have hi : i + 1 < t.packets.length := (List.getElem?_eq_some_iff.mp h).1
    have htail : (t.body ++ [t.stop])[i]? = some p := h
    obtain hlt | heq : i < t.body.length ∨ i = t.body.length := by omega
    · rw [List.getElem?_append_left hlt] at htail
      obtain ⟨hs, hb⟩ := t.body_type p (List.mem_of_getElem? htail)
      exact ⟨Nat.succ_pos i, hs, fun h => absurd h hb⟩
    · rw [heq, List.getElem?_concat_length] at htail
      obtain rfl := Option.some.inj htail
      exact ⟨Nat.succ_pos i, by rw [t.stop_type]; decide, fun _ => by omega⟩

theorem wire_sequence (p : Packet) (n : Nat) : (p.wire n)[1]? = some (tochar n) := by
  unfold Packet.wire Packet.header
  split_ifs <;> rfl

/-- Different numbers make different packets. -/
theorem frame_inj {i j : Nat} {bytes : List UInt8} (hi : t.frame i = some bytes)
    (hj : t.frame j = some bytes) : i % 64 = j % 64 := by
  obtain ⟨p, -, rfl⟩ := Option.map_eq_some_iff.mp hi
  obtain ⟨q, -, hq⟩ := Option.map_eq_some_iff.mp hj
  have hbyte : tochar (j % 64) = tochar (i % 64) := by
    have := congrArg (·[1]?) hq
    simpa [wire_sequence] using this
  have hall : ∀ a < 64, ∀ b < 64, tochar a = tochar b → a = b := by decide
  exact (hall _ (Nat.mod_lt _ (by decide)) _ (Nat.mod_lt _ (by decide)) hbyte).symm

theorem decoded_succ {i : Nat} {p : Packet} (h : t.packets[i]? = some p) :
    t.decoded (i + 1) = decode t.quote (t.decoded i) (payload p) := by
  obtain ⟨hlt, rfl⟩ := List.getElem?_eq_some_iff.mp h
  rw [decoded, decoded, List.take_succ_eq_append_getElem hlt, List.flatMap_append, decode_append]
  simp

/-- Only the data packets count. -/
theorem flatMap_payload (packets : List Packet) :
    packets.flatMap payload = (packets.filter (·.type = DATA_TYPE)).flatMap (·.data) := by
  induction packets with
  | nil => rfl
  | cons p packets ih =>
    by_cases hp : p.type = DATA_TYPE <;> simp [payload, hp, ih]

theorem decoded_all : t.decoded t.packets.length = (false, file) := by
  have hinit : payload t.init = [] := by simp [payload, t.init_type, SEND_TYPE, DATA_TYPE]
  have hstop : payload t.stop = [] := by simp [payload, t.stop_type, BREAK_TYPE, DATA_TYPE]
  have hall : t.packets.flatMap payload =
      (t.body.filter (·.type = DATA_TYPE)).flatMap (·.data) := by
    simp [packets, hinit, hstop, flatMap_payload t.body]
  rw [decoded, List.take_length, hall]
  simpa using t.encodes.decode t.isQuote []

/-- What is decoded from fewer packets is a part of the file. -/
theorem decoded_prefix (i : Nat) : (t.decoded i).2 <+: file := by
  have hall := t.decoded_all
  rw [decoded, List.take_length, ← List.take_append_drop i t.packets, List.flatMap_append,
    decode_append] at hall
  have h := decode_prefix t.quote (t.decoded i) ((t.packets.drop i).flatMap payload)
  rwa [decoded, hall] at h

end Transfer

end UBoot.Kermit
