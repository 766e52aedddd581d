import UBoot.Kermit.Frame
import UBoot.Verification.Run

/-!
# Downloading a file over a line that damages packets

A correct sender repeats a packet until it is acknowledged and then goes on to
the next one. What arrives is any stream of characters, as long as no packet is
acknowledged that is not the one sent: the current one, or the one before when
its acknowledgement was lost.

The receiver takes a checkpoint when it reads a new sequence number and goes
back to it after an error. When the error comes before the sequence number, or
the number is the old one, the checkpoint is that of the last acknowledged
packet.
-/

namespace UBoot.Kermit

open Verification

/-- The receiver, the characters since the last start character, the number of
packets acknowledged, and the number read in the first damaged packet since. -/
structure World where
  recv : Receiver
  frame : List UInt8
  acked : Nat
  damaged : Option (Option Nat)

/-- The character makes the receiver acknowledge a packet. -/
def acks (r : Receiver) (c : UInt8) : Bool := (kRecv r c).2.any (·.type = ACK_TYPE)

/-- The character makes the receiver refuse a packet. -/
def nacks (r : Receiver) (c : UInt8) : Bool := (kRecv r c).2.any (·.type = NACK_TYPE)

/-- The sequence number of the packet that is coming in. -/
def Receiver.seqRead (r : Receiver) : Option Nat :=
  if r.phase = .length ∨ r.phase = .sequence then none else some r.n

/-- The packet that the receiver can go on with after a damaged one. The damaged
packet undoes the last acknowledged one unless another number was read in it. -/
def resumes (acked : Nat) : Option Nat → Nat
  | none => acked - 1
  | some n => if 0 < acked ∧ n = (acked - 1) % 64 then acked - 1 else acked

section

variable {file : List UInt8} (t : Transfer file)

def World.step (w : World) (c : UInt8) : World where
  recv := (kRecv w.recv c).1
  frame := if w.recv.phase = .start then [] else w.frame ++ [c]
  acked := if acks w.recv c ∧ t.frame w.acked = some (w.frame ++ [c]) then w.acked + 1
    else w.acked
  damaged := if acks w.recv c then none
    else if nacks w.recv c then some (w.damaged.getD w.recv.seqRead)
    else w.damaged

/-- No packet is forged: one that is acknowledged is the one being sent. -/
def Genuine (w : World) (c : UInt8) : Prop :=
  acks w.recv c → t.frame w.acked = some (w.frame ++ [c]) ∨
    (0 < w.acked ∧ t.frame (w.acked - 1) = some (w.frame ++ [c]))

/-- After a damaged packet the sender goes on where the receiver does. -/
def Tolerated (w : World) (c : UInt8) : Prop :=
  acks w.recv c → ∀ first ∈ w.damaged, t.frame (resumes w.acked first) = some (w.frame ++ [c])

instance (w : World) (c : UInt8) : Decidable (Genuine t w c) :=
  inferInstanceAs (Decidable (_ → _))

instance (w : World) (c : UInt8) : Decidable (Tolerated t w c) :=
  inferInstanceAs (Decidable (_ → _))

/-- `k_recv` has returned after the break packet, and the file is there. -/
def Complete (file : List UInt8) (r : Receiver) : Prop :=
  r.phase = .done → r.size = file.length ∧ Stored r.mem file file.length

/-- Right after an acknowledgement the data of all packets acknowledged is
there, and nothing else. -/
def Acknowledged (w : World) : Prop :=
  w.recv.phase = .start → w.damaged = none →
    w.recv.addr = UInt32.ofNat (t.decoded w.acked).2.length ∧
      Stored w.recv.mem (t.decoded w.acked).2 (t.decoded w.acked).2.length

/-! ### Steps -/

theorem World.step_quiet {w : World} {c : UInt8} (hphase : w.recv.phase ≠ .start)
    (h : (kRecv w.recv c).2 = []) :
    w.step t c = ⟨(kRecv w.recv c).1, w.frame ++ [c], w.acked, w.damaged⟩ := by
  simp [World.step, acks, nacks, h, hphase]

theorem World.step_error {w : World} {c : UInt8} (hphase : w.recv.phase ≠ .start)
    (h : kRecv w.recv c = packetError w.recv) :
    w.step t c = ⟨(packetError w.recv).1, w.frame ++ [c], w.acked,
      some (w.damaged.getD w.recv.seqRead)⟩ := by
  simp [World.step, acks, nacks, h, hphase, packetError, sendNack, NACK_TYPE, ACK_TYPE]

theorem endOfPacket_acks (r : Receiver) : (endOfPacket r).2.any (·.type = ACK_TYPE) = true := by
  unfold endOfPacket handleSendPacket sendAck
  split_ifs <;> simp

theorem World.step_accept {w : World} {c : UInt8} (hphase : w.recv.phase ≠ .start)
    (h : kRecv w.recv c = endOfPacket w.recv) :
    w.step t c = ⟨(endOfPacket w.recv).1, w.frame ++ [c],
      if t.frame w.acked = some (w.frame ++ [c]) then w.acked + 1 else w.acked, none⟩ := by
  have hacks : acks w.recv c = true := by
    rw [acks, h]
    exact endOfPacket_acks w.recv
  simp [World.step, hacks, h, hphase]

/-! ### The invariant -/

/-- Between two packets. -/
def Between (r : Receiver) (acked : Nat) : Option (Option Nat) → Prop
  | none => Holds r (t.decoded acked) ∧ Saved r (t.decoded (acked - 1)) ∧
      r.lastN = if acked = 0 then -1 else (((acked - 1) % 64 : Nat) : Int)
  | some first => Holds r (t.decoded (resumes acked first)) ∧
      Saved r (t.decoded (resumes acked first))

/-- The parameters of the transfer. -/
structure Parms (r : Receiver) (acked : Nat) : Prop where
  size : r.sendParms.length = SEND_DATA_SIZE
  quote : 0 < acked → r.quote = t.quote

/-- In a packet, behind its sequence number: an error leads back to `d`. -/
def Inside (r : Receiver) (d : Decoded) : Prop :=
  Saved r d ∧
    match r.phase with
    | .type => Holds r d ∧ r.length ≤ 255
    | .lenHi => Holds r d
    | .lenLo => Holds r d ∧ r.lenHi ≤ 255
    | .headerCheck => Holds r d ∧ r.length ≤ 30000
    | .data => 1 < r.length ∧ ∃ now, Holds r now ∧ d.2 <+: now.2 ∧
        now.2.length + r.length ≤ d.2.length + 30000
    | .check | .eol => True
    | _ => False

/-- In a packet. -/
def Receiving (r : Receiver) (acked : Nat) (damaged : Option (Option Nat)) : Prop :=
  match r.phase with
  | .length => Between t r acked damaged
  | .sequence => Between t r acked damaged ∧ r.length ≤ 255
  | _ => Inside r (t.decoded (resumes acked (damaged.getD (some r.n))))

variable {t}

theorem Holds.congr {r r' : Receiver} {d : Decoded} (h : Holds r d) (hescape : r'.escape = r.escape)
    (haddr : r'.addr = r.addr) (hmem : r'.mem = r.mem) : Holds r' d :=
  ⟨hescape.trans h.escape, haddr.trans h.addr, hmem ▸ h.stored⟩

theorem Saved.congr {r r' : Receiver} {d : Decoded} (h : Saved r d)
    (hescape : r'.escapeSaved = r.escapeSaved) (haddr : r'.addrSaved = r.addrSaved)
    (hmem : r'.mem = r.mem) : Saved r' d :=
  ⟨hescape.trans h.escape, haddr.trans h.addr, hmem ▸ h.stored⟩

/-- What the check of the sequence number leaves alone. -/
structure SeqChecked (r r' : Receiver) : Prop where
  phase : r'.phase = r.phase
  length : r'.length = r.length
  n : r'.n = r.n
  lastN : r'.lastN = r.n
  quote : r'.quote = r.quote
  sendParms : r'.sendParms = r.sendParms
  sendPtr : r'.sendPtr = r.sendPtr

theorem seqChecked (r : Receiver) : SeqChecked r (checkSequence r) := by
  unfold checkSequence
  split_ifs with h
  · exact ⟨rfl, rfl, rfl, h.symm, rfl, rfl, rfl⟩
  · exact ⟨rfl, rfl, rfl, rfl, rfl, rfl, rfl⟩

/-- The place in the code does not matter between two packets. -/
theorem Between.moved {r : Receiver} {acked : Nat} {damaged : Option (Option Nat)}
    (h : Between t r acked damaged) (phase : Phase) (sum n : Nat) (length : Int) :
    Between t { r with phase := phase, sum := sum, n := n, length := length } acked damaged := by
  cases damaged with
  | none => exact ⟨h.1.congr rfl rfl rfl, h.2.1.congr rfl rfl rfl, h.2.2⟩
  | some first => exact ⟨h.1.congr rfl rfl rfl, h.2.congr rfl rfl rfl⟩

theorem Between.saved {r : Receiver} {acked : Nat} {damaged : Option (Option Nat)}
    (h : Between t r acked damaged) : Saved r (t.decoded (resumes acked (damaged.getD none))) := by
  cases damaged with
  | none => exact h.2.1
  | some first => exact h.2

/-- The sequence number decides which packet the receiver goes on with. -/
theorem Between.checkSequence {r : Receiver} {acked : Nat} {damaged : Option (Option Nat)}
    (h : Between t r acked damaged) :
    Holds (checkSequence r) (t.decoded (resumes acked (damaged.getD (some r.n)))) ∧
      Saved (checkSequence r) (t.decoded (resumes acked (damaged.getD (some r.n)))) := by
  cases damaged with
  | none =>
    obtain ⟨hholds, hsaved, hlast⟩ := h
    have hspec := checkSequence_spec (r := r) (d := t.decoded (resumes acked (some r.n)))
      (fun hn => ?_) (fun hn => ?_)
    · exact ⟨hspec.1, hspec.2.1⟩
    · have hresumes : resumes acked (some r.n) = acked - 1 := by
        rw [hlast] at hn
        by_cases hzero : acked = 0
        · rw [if_pos hzero] at hn
          omega
        · rw [if_neg hzero] at hn
          exact if_pos ⟨by omega, by omega⟩
      rw [hresumes]
      exact hsaved
    · have hresumes : resumes acked (some r.n) = acked := by
        rw [hlast] at hn
        refine if_neg fun hold => ?_
        rw [if_neg (by omega)] at hn
        omega
      rw [hresumes]
      exact hholds
  | some first =>
    have hspec := checkSequence_spec (r := r) (fun _ => h.2) (fun _ => h.1)
    exact ⟨hspec.1, hspec.2.1⟩

theorem Receiving.saved {r : Receiver} {acked : Nat} {damaged : Option (Option Nat)}
    (h : Receiving t r acked damaged) :
    Saved r (t.decoded (resumes acked (damaged.getD r.seqRead))) := by
  unfold Receiving at h
  unfold Receiver.seqRead
  split at h
  · rename_i hphase
    rw [if_pos (.inl hphase)]
    exact h.saved
  · rename_i hphase
    rw [if_pos (.inr hphase)]
    exact h.1.saved
  · rename_i hlength hsequence
    rw [if_neg (not_or.mpr ⟨hlength, hsequence⟩)]
    exact h.1

/-- An error leads back to the checkpoint. -/
theorem Receiving.error {r : Receiver} {acked : Nat} {damaged : Option (Option Nat)}
    (h : Receiving t r acked damaged) :
    Between t (packetError r).1 acked (some (damaged.getD r.seqRead)) := by
  have hsaved := h.saved
  exact ⟨⟨hsaved.escape, hsaved.addr, hsaved.stored⟩, ⟨hsaved.escape, hsaved.addr, hsaved.stored⟩⟩

/-- One step further in a packet. -/
structure Advanced (r next : Receiver) (d : Decoded) : Prop where
  inside : Inside next d
  n : next.n = r.n
  quote : next.quote = r.quote
  size : next.sendParms.length = r.sendParms.length

/-- What a character does inside of a packet: an error, the end of the packet,
or one step further. -/
inductive Stepped (r : Receiver) (d : Decoded) : Receiver × List Answer → Prop where
  | error : Stepped r d (packetError r)
  | accept : Stepped r d (endOfPacket r)
  | next (next : Receiver) (advanced : Advanced r next d) : Stepped r d (next, [])

theorem stepped_takeChar {r next : Receiver} {d : Decoded} (c : UInt8)
    (advanced : Advanced r next d) : Stepped r d (takeChar r c next) := by
  unfold takeChar
  split_ifs
  · exact .error
  · exact .next next advanced

/-- The rest of a packet, when the data is bounded. -/
theorem inside_rest {r : Receiver} {d now : Decoded} (hsaved : Saved r d) (hholds : Holds r now)
    (hp : d.2 <+: now.2) (hlen : now.2.length + r.length ≤ d.2.length + 30000) :
    Inside (restOfPacket r) d := by
  refine ⟨hsaved.congr rfl rfl rfl, ?_⟩
  unfold restOfPacket
  by_cases h : r.length > 1
  · simp only [if_pos h]
    exact ⟨h, now, hholds.congr rfl rfl rfl, hp, hlen⟩
  · simp only [if_neg h]

theorem untochar_le (c : UInt8) : untochar c ≤ 255 :=
  Nat.le_of_lt_succ (c - SPACE).toNat_lt

theorem Inside.step {r : Receiver} {d : Decoded} (hd : d.2.length < 2147483648) (h : Inside r d)
    (c : UInt8) : Stepped r d (kRecv r c) := by
  obtain ⟨hsaved, h⟩ := h
  have hc := untochar_le c
  cases hphase : r.phase with
  | start => simp [hphase] at h
  | length => simp [hphase] at h
  | sequence => simp [hphase] at h
  | done => simp [hphase] at h
  | interrupted => simp [hphase] at h
  | type =>
    simp only [kRecv, hphase] at h ⊢
    obtain ⟨hholds, hlen⟩ := h
    refine stepped_takeChar c ⟨?_, ?_, ?_, ?_⟩
    · split_ifs
      · exact ⟨hsaved.congr rfl rfl rfl, hholds.congr rfl rfl rfl⟩
      · exact inside_rest (hsaved.congr rfl rfl rfl) (hholds.congr rfl rfl rfl) List.prefix_rfl
          (by dsimp only; omega)
    · split_ifs <;> rfl
    · split_ifs <;> rfl
    · split_ifs <;> rfl
  | lenHi =>
    simp only [kRecv, hphase] at h ⊢
    refine stepped_takeChar c ⟨⟨hsaved.congr rfl rfl rfl, h.congr rfl rfl rfl, hc⟩, rfl, rfl, rfl⟩
  | lenLo =>
    simp only [kRecv, hphase] at h ⊢
    obtain ⟨hholds, hhi⟩ := h
    refine stepped_takeChar c
      ⟨⟨hsaved.congr rfl rfl rfl, hholds.congr rfl rfl rfl, ?_⟩, rfl, rfl, rfl⟩
    dsimp only
    omega
  | headerCheck =>
    simp only [kRecv, hphase] at h ⊢
    obtain ⟨hholds, hlen⟩ := h
    split_ifs
    · exact .error
    · refine .next _ ⟨inside_rest (hsaved.congr rfl rfl rfl) (hholds.congr rfl rfl rfl)
        List.prefix_rfl ?_, rfl, rfl, rfl⟩
      dsimp only
      omega
  | data =>
    simp only [hphase] at h
    obtain ⟨hmore, now, hholds, hp, hlen⟩ := h
    obtain ⟨hholds', hsaved', hp'⟩ := field_spec hholds hsaved hp c (by omega)
    have hgrow := length_fieldDecoded_le r now c
    rw [kRecv_data hphase]
    refine stepped_takeChar c ⟨inside_rest hsaved' hholds' hp' ?_, ?_, ?_, ?_⟩
    · rw [field_length]
      omega
    · exact (field_sameHeader r c).n
    · exact (field_sameHeader r c).quote
    · exact length_field_sendParms r c
  | check =>
    simp only [kRecv, hphase]
    split_ifs
    · exact .error
    · exact .next _ ⟨⟨hsaved.congr rfl rfl rfl, trivial⟩, rfl, rfl, rfl⟩
  | eol =>
    simp only [kRecv, hphase]
    split_ifs
    · exact .error
    · exact .accept

/-! ### Acknowledged packets -/

theorem endOfPacket_data (r : Receiver) :
    (endOfPacket r).1.escape = r.escape ∧ (endOfPacket r).1.addr = r.addr ∧
      (endOfPacket r).1.mem = r.mem ∧ (endOfPacket r).1.escapeSaved = r.escapeSaved ∧
      (endOfPacket r).1.addrSaved = r.addrSaved ∧ (endOfPacket r).1.lastN = r.lastN ∧
      (endOfPacket r).1.sendParms = r.sendParms := by
  unfold endOfPacket handleSendPacket
  split_ifs <;> exact ⟨rfl, rfl, rfl, rfl, rfl, rfl, rfl⟩

theorem endOfPacket_break {r : Receiver} (hk : r.kState = BREAK_TYPE) :
    (endOfPacket r).1.phase = .done := by
  have hne : ¬BREAK_TYPE = SEND_TYPE := by decide
  simp [endOfPacket, hk, hne]

theorem endOfPacket_next {r : Receiver} (hk : r.kState ≠ BREAK_TYPE) :
    (endOfPacket r).1.phase = .start ∧ (endOfPacket r).1.sendPtr = 0 := by
  unfold endOfPacket
  split_ifs with hsend
  · exact ⟨rfl, rfl⟩
  · exact ⟨rfl, rfl⟩

theorem handleSendPacket_quote {r : Receiver} {data : List UInt8} (hk : r.kState = SEND_TYPE)
    (hptr : r.sendPtr = 0) (hlen : r.sendParms.length = SEND_DATA_SIZE) (phase : Phase) :
    (handleSendPacket { data.foldl field r with phase := phase }).1.quote =
      if 6 ≤ data.length then data.getD 5 0 else K_ESCAPE := by
  have hptr' := foldl_field_sendPtr hk data (by rw [hptr]; decide)
  rw [hptr, Nat.zero_add] at hptr'
  simp only [handleSendPacket, nextPacket, hptr', SEND_DATA_SIZE]
  by_cases h : 6 ≤ data.length
  · rw [if_pos (by split_ifs <;> omega), if_pos h]
    exact foldl_field_quote hk hptr hlen h
  · rw [if_neg (by split_ifs <;> omega), if_neg h]

/-- The receiver right behind a start character. -/
structure Opened (r : Receiver) (acked : Nat) (damaged : Option (Option Nat)) : Prop where
  phase : r.phase = .length
  sum : r.sum = 0
  sendPtr : r.sendPtr = 0
  between : Between t r acked damaged
  parms : Parms t r acked

/-- The header of packet number `i`, when the receiver can go on with it. -/
theorem Opened.header {r : Receiver} {acked i : Nat} {damaged : Option (Option Nat)}
    (h : Opened (t := t) r acked damaged) (p : Packet)
    (hi : resumes acked (damaged.getD (some (i % 64))) = i) :
    Holds (opened r p (i % 64)) (t.decoded i) ∧ Saved (opened r p (i % 64)) (t.decoded i) ∧
      (opened r p (i % 64)).lastN = (i % 64 : Nat) := by
  have hbetween : Between t { r with n := i % 64 } acked damaged :=
    h.between.moved r.phase r.sum (i % 64) r.length
  obtain ⟨hholds, hsaved⟩ := hbetween.checkSequence
  rw [hi] at hholds hsaved
  exact ⟨hholds.congr rfl rfl rfl, hsaved.congr rfl rfl rfl, (seqChecked _).lastN⟩

/-- Packet number `i` adds its data, and the checkpoint is in front of it. -/
theorem Opened.data {r : Receiver} {acked i : Nat} {damaged : Option (Option Nat)}
    (hfile : file.length < 2147483648) (h : Opened (t := t) r acked damaged) {p : Packet}
    (hp : t.packets[i]? = some p) (hle : i ≤ acked)
    (hi : resumes acked (damaged.getD (some (i % 64))) = i) :
    Holds (p.data.foldl field (opened r p (i % 64))) (t.decoded (i + 1)) ∧
      Saved (p.data.foldl field (opened r p (i % 64))) (t.decoded i) := by
  obtain ⟨hholds, hsaved, -⟩ := h.header p hi
  have hshort := Nat.lt_of_le_of_lt (t.decoded_prefix i).length_le hfile
  have hfits : p.data.length < 9025 := by
    have := p.fits
    split_ifs at this <;> omega
  obtain ⟨hholds', hsaved'⟩ := foldl_field_spec hholds hsaved List.prefix_rfl p.data (by omega)
  refine ⟨?_, hsaved'⟩
  have hnext : (if p.type = DATA_TYPE then
      decode (opened r p (i % 64)).quote (t.decoded i) p.data else t.decoded i) =
        t.decoded (i + 1) := by
    rw [t.decoded_succ hp, Transfer.payload]
    split_ifs with hdata
    · have hpos : 0 < acked := by
        obtain ⟨-, rfl⟩ | ⟨hpos, -⟩ := t.packet_cases hp
        · exact absurd (t.init_type.symm.trans hdata) (by decide)
        · omega
      have hquote : (opened r p (i % 64)).quote = t.quote :=
        (seqChecked _).quote.trans (h.parms.quote hpos)
      rw [hquote]
    · rfl
  rw [← hnext]
  exact hholds'

/-- The receiver after packet number `i`. -/
theorem Opened.accept {r : Receiver} {acked i : Nat} {damaged : Option (Option Nat)}
    (hfile : file.length < 2147483648) (h : Opened (t := t) r acked damaged) {p : Packet}
    (hp : t.packets[i]? = some p) (hle : i ≤ acked)
    (hi : resumes acked (damaged.getD (some (i % 64))) = i) :
    Between t (receive r (p.wire (i % 64))) (i + 1) none ∧
      Parms t (receive r (p.wire (i % 64))) (i + 1) ∧
      (((receive r (p.wire (i % 64))).phase = .start ∧
        (receive r (p.wire (i % 64))).sendPtr = 0) ∨
        ((receive r (p.wire (i % 64))).phase = .done ∧ t.decoded (i + 1) = (false, file))) := by
  obtain ⟨hholds, hsaved⟩ := h.data hfile hp hle hi
  obtain ⟨-, -, hlast⟩ := h.header p hi
  have hsame := foldl_field_sameHeader (opened r p (i % 64)) p.data
  have hsize : (p.data.foldl field (opened r p (i % 64))).sendParms.length = SEND_DATA_SIZE := by
    rw [length_foldl_field_sendParms]
    exact (congrArg List.length (seqChecked _).sendParms).trans h.parms.size
  rw [receive_wire h.phase h.sum (Nat.mod_lt _ (by decide))]
  obtain ⟨he, ha, hm, hes, has, hl, hsp⟩ := endOfPacket_data
    { p.data.foldl field (opened r p (i % 64)) with phase := .eol }
  refine ⟨⟨hholds.congr he ha hm, hsaved.congr hes has hm, ?_⟩, ⟨?_, fun _ => ?_⟩, ?_⟩
  · rw [hl, if_neg (Nat.succ_ne_zero i), Nat.add_sub_cancel]
    exact hsame.lastN.trans hlast
  · rw [hsp]
    exact hsize
  · -- The first packet sets the quote, and the others leave it alone.
    obtain ⟨rfl, rfl⟩ | ⟨hpos, hsend, -⟩ := t.packet_cases hp
    · have hk : (opened r t.init (0 % 64)).kState = SEND_TYPE := t.init_type
      have hk' : (t.init.data.foldl field (opened r t.init (0 % 64))).kState = SEND_TYPE :=
        hsame.kState.trans hk
      have hptr : (opened r t.init (0 % 64)).sendPtr = 0 :=
        (seqChecked _).sendPtr.trans h.sendPtr
      have hsize' : (opened r t.init (0 % 64)).sendParms.length = SEND_DATA_SIZE :=
        (congrArg List.length (seqChecked _).sendParms).trans h.parms.size
      rw [endOfPacket, if_pos hk', handleSendPacket_quote hk hptr hsize', t.quote_eq]
    · have hk : ¬(p.data.foldl field (opened r p (i % 64))).kState = SEND_TYPE := by
        rw [hsame.kState]
        exact hsend
      have hquote : (p.data.foldl field (opened r p (i % 64))).quote = t.quote := by
        rw [hsame.quote]
        exact (seqChecked _).quote.trans (h.parms.quote (by omega))
      rw [endOfPacket, if_neg hk]
      split_ifs <;> exact hquote
  · have hk : (p.data.foldl field (opened r p (i % 64))).kState = p.type := hsame.kState
    by_cases hbreak : p.type = BREAK_TYPE
    · right
      refine ⟨endOfPacket_break (hk.trans hbreak), ?_⟩
      obtain ⟨-, rfl⟩ | ⟨-, -, hlength⟩ := t.packet_cases hp
      · exact absurd (t.init_type.symm.trans hbreak) (by decide)
      · rw [hlength hbreak]
        exact t.decoded_all
    · left
      exact endOfPacket_next (r := { p.data.foldl field (opened r p (i % 64)) with phase := .eol })
        (fun h => hbreak (hk.symm.trans h))

/-! ### Whole downloads -/

theorem Inside.receiving {r : Receiver} {acked : Nat} {damaged : Option (Option Nat)}
    (h : Inside r (t.decoded (resumes acked (damaged.getD (some r.n))))) :
    Receiving t r acked damaged := by
  unfold Receiving
  split
  · rename_i hphase
    exact absurd h.2 (by simp [hphase])
  · rename_i hphase
    exact absurd h.2 (by simp [hphase])
  · exact h

/-- Right behind the sequence number. -/
theorem Between.sequence {r : Receiver} {acked : Nat} {damaged : Option (Option Nat)}
    (h : Between t r acked damaged) (hphase : r.phase = .type) (hlen : r.length ≤ 255)
    (parms : Parms t r acked) :
    Receiving t (Kermit.checkSequence r) acked damaged ∧
      Parms t (Kermit.checkSequence r) acked := by
  obtain ⟨hholds, hsaved⟩ := h.checkSequence
  have checked := seqChecked r
  refine ⟨Inside.receiving ⟨?_, ?_⟩, ?_, fun hpos => ?_⟩
  · rw [checked.n]
    exact hsaved
  · rw [checked.phase, hphase, checked.n, checked.length]
    exact ⟨hholds, hlen⟩
  · rw [checked.sendParms]
    exact parms.size
  · rw [checked.quote]
    exact parms.quote hpos

/-- A character in a packet: an error, the end of the packet, or one step
further. -/
theorem Receiving.step {r : Receiver} {acked : Nat} {damaged : Option (Option Nat)}
    (hfile : file.length < 2147483648) (h : Receiving t r acked damaged)
    (parms : Parms t r acked) (c : UInt8) :
    kRecv r c = packetError r ∨ kRecv r c = endOfPacket r ∨
      ∃ next, kRecv r c = (next, []) ∧ Receiving t next acked damaged ∧ Parms t next acked := by
  have hc := untochar_le c
  have take : ∀ next, kRecv r c = takeChar r c next → Receiving t next acked damaged →
      Parms t next acked → kRecv r c = packetError r ∨ kRecv r c = endOfPacket r ∨
        ∃ next, kRecv r c = (next, []) ∧ Receiving t next acked damaged ∧ Parms t next acked := by
    intro next hnext receiving parms'
    rw [hnext]
    unfold takeChar
    split_ifs
    · exact .inl rfl
    · exact .inr (.inr ⟨next, rfl, receiving, parms'⟩)
  by_cases hlength : r.phase = .length
  · simp only [Receiving, hlength] at h
    refine take { r with phase := .sequence, sum := r.sum + c.toNat, length := untochar c }
      (by simp only [kRecv, hlength]) ⟨h.moved .sequence _ r.n _, ?_⟩ ⟨parms.size, parms.quote⟩
    dsimp only
    omega
  · by_cases hsequence : r.phase = .sequence
    · simp only [Receiving, hsequence] at h
      obtain ⟨hbetween, hlen⟩ := h
      have hlen' : r.length - 1 ≤ 255 := by omega
      obtain ⟨receiving, parms'⟩ :=
        (hbetween.moved .type (r.sum + c.toNat) (untochar c) (r.length - 1)).sequence rfl hlen'
          ⟨parms.size, parms.quote⟩
      exact take _ (by simp only [kRecv, hsequence]) receiving parms'
    · have hinside : Inside r (t.decoded (resumes acked (damaged.getD (some r.n)))) := by
        simpa [Receiving, hlength, hsequence] using h
      have stepped := hinside.step
        (Nat.lt_of_le_of_lt (t.decoded_prefix _).length_le hfile) c
      generalize kRecv r c = result at stepped
      cases stepped with
      | error => exact .inl rfl
      | accept => exact .inr (.inl rfl)
      | next next advanced =>
        refine .inr (.inr ⟨next, rfl, Inside.receiving ?_, ?_, fun hpos => ?_⟩)
        · rw [advanced.n]
          exact advanced.inside
        · rw [advanced.size]
          exact parms.size
        · rw [advanced.quote]
          exact parms.quote hpos

structure Sound (t : Transfer file) (w : World) : Prop where
  waiting : w.recv.phase = .start → Between t w.recv w.acked w.damaged ∧
    Parms t w.recv w.acked ∧ w.recv.sendPtr = 0
  receiving : w.recv.phase ≠ .start → w.recv.phase ≠ .done → w.recv.phase ≠ .interrupted →
    Receiving t w.recv w.acked w.damaged ∧ Parms t w.recv w.acked ∧
      ∃ base, Opened (t := t) base w.acked w.damaged ∧ w.recv = receive base w.frame
  complete : Complete file w.recv

theorem Receiving.phase_ne {r : Receiver} {acked : Nat} {damaged : Option (Option Nat)}
    (h : Receiving t r acked damaged) :
    r.phase ≠ .start ∧ r.phase ≠ .done ∧ r.phase ≠ .interrupted := by
  refine ⟨fun hphase => ?_, fun hphase => ?_, fun hphase => ?_⟩ <;>
  · simp [Receiving, Inside, hphase] at h

/-- A packet that is refused. -/
theorem Sound.error {w : World} {c : UInt8} (hphase : w.recv.phase ≠ .start)
    (h : kRecv w.recv c = packetError w.recv) (receiving : Receiving t w.recv w.acked w.damaged)
    (parms : Parms t w.recv w.acked) : Sound t (w.step t c) := by
  rw [World.step_error t hphase h]
  exact ⟨fun _ => ⟨receiving.error, ⟨parms.size, parms.quote⟩, rfl⟩, fun h => absurd rfl h,
    fun h => nomatch h⟩

/-- Which packet is acknowledged, and that the receiver is in front of it. -/
theorem acked_packet {w : World} {c : UInt8} (hacks : acks w.recv c = true)
    (genuine : Genuine t w c) (tolerated : Tolerated t w c) :
    ∃ i ≤ w.acked, t.frame i = some (w.frame ++ [c]) ∧
      resumes w.acked (w.damaged.getD (some (i % 64))) = i ∧
      (if t.frame w.acked = some (w.frame ++ [c]) then w.acked + 1 else w.acked) = i + 1 := by
  have count : ∀ i, t.frame i = some (w.frame ++ [c]) → i = w.acked ∨ i + 1 = w.acked →
      (if t.frame w.acked = some (w.frame ++ [c]) then w.acked + 1 else w.acked) = i + 1 := by
    rintro i hframe (rfl | hprev)
    · rw [if_pos hframe]
    · rw [if_neg, hprev]
      intro hcur
      have := t.frame_inj hframe hcur
      omega
  cases hd : w.damaged with
  | none =>
    obtain hframe | ⟨hpos, hframe⟩ := genuine hacks
    · refine ⟨w.acked, Nat.le_refl _, hframe, ?_, count _ hframe (.inl rfl)⟩
      exact if_neg (by omega)
    · refine ⟨w.acked - 1, Nat.sub_le _ _, hframe, ?_, count _ hframe (.inr (by omega))⟩
      exact if_pos ⟨hpos, rfl⟩
  | some first =>
    have hframe := tolerated hacks first hd
    have hresumes : resumes w.acked first = w.acked ∨ resumes w.acked first + 1 = w.acked := by
      unfold resumes
      split
      · omega
      · split_ifs <;> omega
    exact ⟨resumes w.acked first, by omega, hframe, rfl, count _ hframe hresumes⟩

/-- A packet that is acknowledged. -/
theorem Sound.accept {w : World} {c : UInt8} (hfile : file.length < 2147483648)
    (hphase : w.recv.phase ≠ .start) (h : kRecv w.recv c = endOfPacket w.recv)
    (genuine : Genuine t w c) (tolerated : Tolerated t w c) {base : Receiver}
    (opened : Opened (t := t) base w.acked w.damaged) (hbase : w.recv = receive base w.frame) :
    Sound t (w.step t c) := by
  have hacks : acks w.recv c = true := by
    rw [acks, h]
    exact endOfPacket_acks w.recv
  obtain ⟨i, hle, hframe, hi, hcount⟩ := acked_packet hacks genuine tolerated
  obtain ⟨p, hp, hwire⟩ := Option.map_eq_some_iff.mp hframe
  have hrecv : (endOfPacket w.recv).1 = receive base (p.wire (i % 64)) := by
    rw [hwire, receive_append, ← hbase, receive_cons, receive_nil, h]
  obtain ⟨between, parms, hend⟩ := opened.accept hfile hp hle hi
  rw [World.step_accept t hphase h, hcount, hrecv]
  obtain ⟨hstart, hptr⟩ | ⟨hdone, hall⟩ := hend
  · exact ⟨fun _ => ⟨between, parms, hptr⟩, fun hne => absurd hstart hne,
      fun hdone => nomatch hstart.symm.trans hdone⟩
  · refine ⟨fun hstart => (nomatch hstart.symm.trans hdone), fun _ hne => absurd hdone hne,
      fun _ => ?_⟩
    have hholds := between.1
    rw [hall] at hholds
    have haddr : (receive base (p.wire (i % 64))).addr.toNat = file.length := by
      rw [hholds.addr, ofNat_toNat_lt (by dsimp only; omega)]
    refine ⟨?_, hholds.stored⟩
    rw [Receiver.size, haddr, if_pos hfile]

theorem Sound.start {w : World} {c : UInt8} (ok : Sound t w) (hstart : w.recv.phase = .start) :
    Sound t (w.step t c) := by
  obtain ⟨between, parms, hptr⟩ := ok.waiting hstart
  have hanswers : (kRecv w.recv c).2 = [] := by
    simp only [kRecv, hstart]
    split_ifs <;> rfl
  have hstep : w.step t c = ⟨(kRecv w.recv c).1, [], w.acked, w.damaged⟩ := by
    simp [World.step, acks, nacks, hanswers, hstart]
  rw [hstep]
  by_cases hc : c = START_CHAR
  · have hrecv : (kRecv w.recv c).1 = { w.recv with phase := .length, sum := 0 } := by
      simp only [kRecv, hstart, if_pos hc]
    have between' : Between t { w.recv with phase := .length, sum := 0 } w.acked w.damaged :=
      between.moved .length 0 w.recv.n w.recv.length
    have opened : Opened (t := t) { w.recv with phase := .length, sum := 0 } w.acked w.damaged :=
      ⟨rfl, rfl, hptr, between', ⟨parms.size, parms.quote⟩⟩
    rw [hrecv]
    refine ⟨fun h => ?_, fun _ _ _ => ⟨between', opened.parms, _, opened, rfl⟩, fun h => ?_⟩
    · cases h
    · cases h
  · by_cases hetx : c = ETX_CHAR
    · have hrecv : (kRecv w.recv c).1 = { w.recv with phase := .interrupted } := by
        simp only [kRecv, hstart, if_neg hc, if_pos hetx]
      rw [hrecv]
      refine ⟨fun h => ?_, fun _ _ h => absurd rfl h, fun h => ?_⟩
      · cases h
      · cases h
    · have hrecv : (kRecv w.recv c).1 = w.recv := by
        simp only [kRecv, hstart, if_neg hc, if_neg hetx]
      rw [hrecv]
      exact ⟨fun _ => ⟨between, parms, hptr⟩, fun h => absurd hstart h, ok.complete⟩

theorem Sound.step {w : World} {c : UInt8} (hfile : file.length < 2147483648) (ok : Sound t w)
    (genuine : Genuine t w c) (tolerated : Tolerated t w c) : Sound t (w.step t c) := by
  by_cases hstart : w.recv.phase = .start
  · exact ok.start hstart
  · by_cases hdone : w.recv.phase = .done ∨ w.recv.phase = .interrupted
    · have hquiet : kRecv w.recv c = (w.recv, []) := by
        obtain hphase | hphase := hdone <;> simp only [kRecv, hphase]
      rw [World.step_quiet t hstart (by rw [hquiet]), hquiet]
      exact ⟨fun h => absurd h hstart, fun _ h h' => absurd hdone (not_or.mpr ⟨h, h'⟩),
        ok.complete⟩
    · obtain ⟨receiving, parms, base, opened, hbase⟩ :=
        ok.receiving hstart (fun h => hdone (.inl h)) (fun h => hdone (.inr h))
      obtain h | h | ⟨next, h, receiving', parms'⟩ := receiving.step hfile parms c
      · exact Sound.error hstart h receiving parms
      · exact Sound.accept hfile hstart h genuine tolerated opened hbase
      · rw [World.step_quiet t hstart (by rw [h]), h]
        obtain ⟨hstart', hdone', -⟩ := receiving'.phase_ne
        refine ⟨fun hphase => absurd hphase hstart',
          fun _ _ _ => ⟨receiving', parms', base, opened, ?_⟩, fun hphase => absurd hphase hdone'⟩
        rw [receive_append, ← hbase, receive_cons, receive_nil, h]

/-- The world when `k_recv` is entered; the buffer of the parameters is left
from an earlier download. -/
def World.init (sendParms : Vector UInt8 SEND_DATA_SIZE) (mem : UInt32 → UInt8) : World :=
  ⟨Receiver.init sendParms.toList mem, [], 0, none⟩

theorem Sound.init (t : Transfer file) (sendParms : Vector UInt8 SEND_DATA_SIZE)
    (mem : UInt32 → UInt8) : Sound t (World.init sendParms mem) := by
  have hzero : t.decoded 0 = (false, []) := rfl
  refine ⟨fun _ => ⟨⟨?_, ?_, rfl⟩, ⟨?_, fun h => absurd h (Nat.lt_irrefl 0)⟩, rfl⟩,
    fun h => absurd rfl h, fun h => (nomatch h)⟩
  · exact ⟨rfl, rfl, stored_zero _ _⟩
  · exact ⟨rfl, rfl, stored_zero _ _⟩
  · simp [World.init, Receiver.init]

theorem Sound.acknowledged {w : World} (ok : Sound t w) : Acknowledged t w := by
  intro hphase hd
  obtain ⟨between, -⟩ := ok.waiting hphase
  rw [hd] at between
  exact ⟨between.1.addr, between.1.stored⟩

variable (t)

/-- In every download in which no packet is forged and the sender goes on after
a damaged packet where the receiver does, the data of the acknowledged packets
is in memory after each acknowledgement, and the whole file is there when
`k_recv` returns after the break packet. -/
theorem kermit_download_complete (hfile : file.length < 2147483648)
    (sendParms : Vector UInt8 SEND_DATA_SIZE) (mem : UInt32 → UInt8) (stream : List UInt8)
    (ok : Guarded (World.step t) (fun w c => Genuine t w c ∧ Tolerated t w c)
      (World.init sendParms mem) stream) :
    Complete file (run (World.step t) (World.init sendParms mem) stream).recv ∧
      Acknowledged t (run (World.step t) (World.init sendParms mem) stream) := by
  have keep : ∀ w c, Sound t w → Genuine t w c ∧ Tolerated t w c → Sound t (w.step t c) :=
    fun w c hw hok => hw.step hfile hok.1 hok.2
  have sound := ok.invariant keep (Sound.init t sendParms mem)
  exact ⟨sound.complete, sound.acknowledged⟩

end

/-- A packet of a type with some letters in it. -/
def shortPacket (type : UInt8) (data : List UInt8)
    (printable : ∀ b ∈ type :: data, control b = false) (fits : data.length + 3 < 95) : Packet :=
  ⟨type, data, false, printable, fits⟩

theorem printable_of_all {bs : List UInt8} (h : bs.all (fun b => !control b) = true) :
    ∀ b ∈ bs, control b = false := by
  simpa using h

def twoLetters : Transfer [65, 66] where
  init := shortPacket SEND_TYPE [] (printable_of_all rfl) (by decide)
  body := [shortPacket 70 [97] (printable_of_all rfl) (by decide),
    shortPacket DATA_TYPE [65] (printable_of_all rfl) (by decide),
    shortPacket DATA_TYPE [66] (printable_of_all rfl) (by decide),
    shortPacket 90 [] (printable_of_all rfl) (by decide)]
  stop := shortPacket BREAK_TYPE [] (printable_of_all rfl) (by decide)
  init_type := rfl
  body_type := by decide
  stop_type := rfl
  quote := K_ESCAPE
  quote_eq := rfl
  isQuote := by decide
  encodes := .plain 65 (by decide) (.plain 66 (by decide) .nil)

/-- Packets as they are sent. -/
def sent (numbers : List Nat) : List UInt8 :=
  numbers.flatMap fun i => START_CHAR :: (twoLetters.frame i).getD []

/-- The second data packet is damaged behind its sequence number and repeated. -/
theorem kermit_download_complete_two :
    Complete [65, 66] (run (World.step twoLetters) (World.init (Vector.replicate 20 0) fun _ => 0)
      (sent [0, 1, 2] ++ [START_CHAR, 36, 35, 68, 0] ++ sent [3, 4, 5])).recv :=
  (kermit_download_complete twoLetters (by decide) (Vector.replicate 20 0) (fun _ => 0) _
    (by decide)).1

/-- The length of the second data packet is damaged. The first one, which was
acknowledged, is lost. -/
theorem acknowledged_packet_lost :
    ¬∀ (file : List UInt8) (t : Transfer file), file.length < 2147483648 →
      ∀ (sendParms : Vector UInt8 SEND_DATA_SIZE) (mem : UInt32 → UInt8) (stream : List UInt8),
        Guarded (World.step t) (Genuine t) (World.init sendParms mem) stream →
          Complete file (run (World.step t) (World.init sendParms mem) stream).recv ∧
            Acknowledged t (run (World.step t) (World.init sendParms mem) stream) := by
  intro h
  have hcomplete := (h [65, 66] twoLetters (by decide) (Vector.replicate 20 0) (fun _ => 0)
    (sent [0, 1, 2] ++ [START_CHAR, 0] ++ sent [3, 4, 5]) (by decide)).1
  have hsize := (hcomplete (by decide)).1
  exact absurd hsize (by decide)

end UBoot.Kermit
