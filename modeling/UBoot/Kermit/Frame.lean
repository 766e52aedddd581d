import UBoot.Kermit.Packets
import UBoot.Verification.Memory

/-!
# What the receiver makes of one packet

The receiver writes data to memory while a packet comes in. `Holds` says that
it has decoded some data, `Saved` that it would be back there after an error.
-/

namespace UBoot.Kermit

open Verification

/-- The data decoded so far. -/
structure Holds (r : Receiver) (d : Decoded) : Prop where
  escape : r.escape = d.1
  addr : r.addr = UInt32.ofNat d.2.length
  stored : Stored r.mem d.2 d.2.length

/-- The data decoded at the checkpoint. -/
structure Saved (r : Receiver) (d : Decoded) : Prop where
  escape : r.escapeSaved = d.1
  addr : r.addrSaved = UInt32.ofNat d.2.length
  stored : Stored r.mem d.2 d.2.length

theorem Holds.binDataChar {r : Receiver} {d : Decoded} (h : Holds r d) (c : UInt8)
    (hlen : d.2.length < 4294967296) : Holds (binDataChar r c) (d.1, d.2 ++ [c]) := by
  refine ⟨h.escape, ?_, ?_⟩
  · simp [Kermit.binDataChar, h.addr, UInt32.ofNat_add]
  · simp only [Kermit.binDataChar, h.addr, List.length_append, List.length_singleton]
    exact h.stored.write c hlen

theorem Holds.kDataChar {r : Receiver} {d : Decoded} (h : Holds r d) (c : UInt8)
    (hlen : d.2.length < 4294967296) : Holds (kDataChar r c) (decodeChar r.quote d c) := by
  unfold Kermit.kDataChar decodeChar
  rw [h.escape]
  split_ifs
  · obtain ⟨-, haddr, hstored⟩ := h.binDataChar (ktrans c) hlen
    exact ⟨rfl, haddr, hstored⟩
  · exact ⟨rfl, h.addr, h.stored⟩
  · obtain ⟨hescape, haddr, hstored⟩ := h.binDataChar c hlen
    exact ⟨by simp_all, haddr, hstored⟩

/-- Data comes behind what was saved. -/
theorem Saved.kDataChar {r : Receiver} {d saved : Decoded} (hs : Saved r saved) (h : Holds r d)
    (hp : saved.2 <+: d.2) (c : UInt8) (hlen : d.2.length < 4294967296) :
    Saved (kDataChar r c) saved := by
  have hstored := (h.kDataChar c hlen).stored.of_prefix
    (hp.trans (decodeChar_extends r.quote d c))
  refine ⟨?_, ?_, hstored⟩
  · rw [← hs.escape]
    unfold Kermit.kDataChar Kermit.binDataChar
    split_ifs <;> rfl
  · rw [← hs.addr]
    unfold Kermit.kDataChar Kermit.binDataChar
    split_ifs <;> rfl

/-! ### A whole packet -/

/-- The receiver after some characters. -/
def receive (r : Receiver) (bytes : List UInt8) : Receiver :=
  bytes.foldl (fun r c => (kRecv r c).1) r

@[simp] theorem receive_nil (r : Receiver) : receive r [] = r := rfl

@[simp] theorem receive_cons (r : Receiver) (c : UInt8) (bytes : List UInt8) :
    receive r (c :: bytes) = receive (kRecv r c).1 bytes := rfl

theorem receive_append (r : Receiver) (first second : List UInt8) :
    receive r (first ++ second) = receive (receive r first) second :=
  List.foldl_append

theorem control_tochar {x : Nat} (h : x < 95) : control (tochar x) = false := by
  revert x
  decide

theorem untochar_tochar {x : Nat} (h : x < 95) : untochar (tochar x) = x := by
  revert x
  decide

theorem blockCheck_lt (sum : Nat) : blockCheck sum < 95 :=
  Nat.lt_of_lt_of_le (Nat.mod_lt _ (by decide)) (by decide)

theorem takeChar_of_not_control {r next : Receiver} {c : UInt8} (h : control c = false) :
    takeChar r c next = (next, []) := by
  simp [takeChar, h]

theorem sumOf_append (first second : List UInt8) :
    sumOf (first ++ second) = second.foldl (fun sum b => sum + b.toNat) (sumOf first) := by
  simp [sumOf]

/-- The receiver behind the header of a packet. -/
def opened (r : Receiver) (p : Packet) (n : Nat) : Receiver :=
  { checkSequence { r with n := n } with
    sum := sumOf (p.header n)
    kState := p.type
    length := p.data.length + 1
    lenHi := if p.long then (p.data.length + 1) / 95 else r.lenHi }

/-- The receiver behind the sequence number. -/
theorem receive_sequence {r : Receiver} {x n : Nat} (hphase : r.phase = .length)
    (hsum : r.sum = 0) (hx : x < 95) (hn : n < 64) :
    receive r [tochar x, tochar n] =
      { checkSequence { r with n := n } with
        phase := .type
        sum := sumOf [tochar x, tochar n]
        length := x - 1 } := by
  have hn' : n < 95 := by omega
  simp only [receive_cons, receive_nil, kRecv, hphase,
    takeChar_of_not_control (control_tochar hx), takeChar_of_not_control (control_tochar hn'),
    untochar_tochar hx, untochar_tochar hn', hsum]
  unfold checkSequence
  split_ifs <;> rfl

theorem kRecv_type_short {r : Receiver} {c : UInt8} (hphase : r.phase = .type)
    (hc : control c = false) (hlen : r.length ≠ -1) :
    (kRecv r c).1 = restOfPacket { r with
      sum := r.sum + c.toNat, kState := c, length := r.length - 1 } := by
  simp only [kRecv, hphase, takeChar_of_not_control hc]
  rw [if_neg (by omega)]

/-- The type, the length and the block check of a long header. -/
theorem receive_type_long {r : Receiver} {c : UInt8} {x y : Nat} (hphase : r.phase = .type)
    (hc : control c = false) (hlen : r.length = -1) (hx : x < 95) (hy : y < 95) :
    receive r [c, tochar x, tochar y,
        tochar (blockCheck (r.sum + c.toNat + (tochar x).toNat + (tochar y).toNat))] =
      restOfPacket { r with
        sum := r.sum + c.toNat + (tochar x).toNat + (tochar y).toNat + (tochar (blockCheck
          (r.sum + c.toNat + (tochar x).toNat + (tochar y).toNat))).toNat
        kState := c
        length := x * 95 + y
        lenHi := x } := by
  have htwo : (-1 - 1 : Int) = -2 := rfl
  simp only [receive_cons, receive_nil, kRecv, hphase, hlen, htwo, if_true,
    takeChar_of_not_control hc, takeChar_of_not_control (control_tochar hx),
    takeChar_of_not_control (control_tochar hy), untochar_tochar hx, untochar_tochar hy,
    control_tochar (blockCheck_lt _), ne_eq, not_true_eq_false, Bool.false_eq_true, or_self,
    if_false]
  rfl

theorem receive_header {r : Receiver} {p : Packet} {n : Nat} (hphase : r.phase = .length)
    (hsum : r.sum = 0) (hn : n < 64) :
    receive r (p.header n) = restOfPacket (opened r p n) := by
  have htype : control p.type = false := p.printable _ List.mem_cons_self
  have hfits := p.fits
  unfold opened
  by_cases hlong : p.long
  · have hheader : p.header n = [tochar 0, tochar n] ++ [p.type,
        tochar ((p.data.length + 1) / 95), tochar ((p.data.length + 1) % 95),
        tochar (blockCheck (sumOf [tochar 0, tochar n] + p.type.toNat +
          (tochar ((p.data.length + 1) / 95)).toNat +
          (tochar ((p.data.length + 1) % 95)).toNat))] := by
      simp [Packet.header, hlong, sumOf]
    rw [if_pos hlong] at hfits
    have hsize : ((p.data.length + 1) / 95 * 95 + (p.data.length + 1) % 95 : Int) =
        p.data.length + 1 := by omega
    rw [hheader, receive_append, receive_sequence hphase hsum (by omega) hn,
      receive_type_long rfl htype rfl (by omega) (by omega)]
    simp [hlong, hsize, restOfPacket, sumOf]
  · have hheader : p.header n = [tochar (p.data.length + 3), tochar n] ++ [p.type] := by
      simp [Packet.header, hlong]
    rw [if_neg hlong] at hfits
    have hsize : ((p.data.length + 3 : Nat) : Int) - 1 - 1 = p.data.length + 1 := by omega
    rw [hheader, receive_append, receive_sequence hphase hsum (by omega) hn, receive_cons,
      receive_nil, kRecv_type_short rfl htype]
    · have hlenHi : (checkSequence { r with n := n }).lenHi = r.lenHi := by
        unfold checkSequence
        split_ifs <;> rfl
      simp only [hsize, hlong]
      simp [restOfPacket, sumOf, hlenHi]
    · dsimp only
      omega

/-- One character of the data field, with the sum and the count. -/
def field (r : Receiver) (c : UInt8) : Receiver :=
  dataField { r with sum := r.sum + c.toNat, length := r.length - 1 } c

theorem restOfPacket_field (r : Receiver) (c : UInt8) :
    restOfPacket (field (restOfPacket r) c) = restOfPacket (field r c) := by
  unfold field dataField kDataChar binDataChar restOfPacket
  dsimp only
  split_ifs <;> rfl

@[simp] theorem field_length (r : Receiver) (c : UInt8) : (field r c).length = r.length - 1 := by
  unfold field dataField kDataChar binDataChar
  dsimp only
  split_ifs <;> rfl

@[simp] theorem field_sum (r : Receiver) (c : UInt8) : (field r c).sum = r.sum + c.toNat := by
  unfold field dataField kDataChar binDataChar
  dsimp only
  split_ifs <;> rfl

theorem kRecv_data {r : Receiver} (hphase : r.phase = .data) (c : UInt8) :
    kRecv r c = takeChar r c (restOfPacket (field r c)) := by
  simp only [kRecv, field, hphase]

theorem receive_data {r : Receiver} {data : List UInt8} (hlen : r.length = data.length + 1)
    (hdata : ∀ c ∈ data, control c = false) :
    receive (restOfPacket r) data = restOfPacket (data.foldl field r) := by
  induction data generalizing r with
  | nil => rfl
  | cons c data ih =>
    have hc : control c = false := hdata c List.mem_cons_self
    have hphase : (restOfPacket r).phase = .data := by
      simp only [restOfPacket, hlen, List.length_cons]
      rw [if_pos (by omega)]
    have hstep : (kRecv (restOfPacket r) c).1 = restOfPacket (field r c) := by
      rw [kRecv_data hphase, takeChar_of_not_control hc, restOfPacket_field]
    rw [receive_cons, hstep, List.foldl_cons]
    apply ih
    · rw [field_length, hlen]
      simp
    · exact fun c' h => hdata c' (List.mem_cons_of_mem c h)

theorem foldl_field_length (r : Receiver) (data : List UInt8) :
    (data.foldl field r).length = r.length - data.length := by
  induction data generalizing r with
  | nil => simp
  | cons c data ih =>
    rw [List.foldl_cons, ih, field_length]
    simp only [List.length_cons]
    omega

theorem foldl_field_sum (r : Receiver) (data : List UInt8) :
    (data.foldl field r).sum = data.foldl (fun sum b => sum + b.toNat) r.sum := by
  induction data generalizing r with
  | nil => rfl
  | cons c data ih => rw [List.foldl_cons, ih, field_sum, List.foldl_cons]

/-- A packet that comes through as it was sent. -/
theorem receive_wire {r : Receiver} {p : Packet} {n : Nat} (hphase : r.phase = .length)
    (hsum : r.sum = 0) (hn : n < 64) :
    receive r (p.wire n) =
      (endOfPacket { p.data.foldl field (opened r p n) with phase := .eol }).1 := by
  have hdata : ∀ c ∈ p.data, control c = false :=
    fun c hc => p.printable c (List.mem_cons_of_mem _ hc)
  have hlen : (p.data.foldl field (opened r p n)).length = 1 := by
    rw [foldl_field_length]
    simp [opened]
  have hsum' : (p.data.foldl field (opened r p n)).sum = sumOf (p.header n ++ p.data) := by
    rw [foldl_field_sum, sumOf_append]
    rfl
  rw [Packet.wire, receive_append, receive_append, receive_header hphase hsum hn,
    receive_data rfl hdata]
  generalize p.data.foldl field (opened r p n) = q at hlen hsum'
  simp [receive_cons, kRecv, restOfPacket, hlen, ← hsum', control_tochar (blockCheck_lt _)]

/-! ### The data of a packet -/

/-- The sequence number decides between the data and the checkpoint; after
that they are the same. -/
theorem checkSequence_spec {r : Receiver} {d : Decoded}
    (hsame : (r.n : Int) = r.lastN → Saved r d) (hother : (r.n : Int) ≠ r.lastN → Holds r d) :
    Holds (checkSequence r) d ∧ Saved (checkSequence r) d ∧ (checkSequence r).lastN = r.n := by
  unfold checkSequence
  split_ifs with h
  · obtain ⟨hescape, haddr, hstored⟩ := hsame h
    exact ⟨⟨hescape, haddr, hstored⟩, ⟨hescape, haddr, hstored⟩, h.symm⟩
  · obtain ⟨hescape, haddr, hstored⟩ := hother h
    exact ⟨⟨hescape, haddr, hstored⟩, ⟨hescape, haddr, hstored⟩, rfl⟩

/-- The decoder takes notice of data packets only. -/
def fieldDecoded (r : Receiver) (d : Decoded) (c : UInt8) : Decoded :=
  if r.kState = DATA_TYPE then decodeChar r.quote d c else d

theorem length_fieldDecoded_le (r : Receiver) (d : Decoded) (c : UInt8) :
    (fieldDecoded r d c).2.length ≤ d.2.length + 1 := by
  unfold fieldDecoded
  split_ifs
  · exact length_decodeChar_le r.quote d c
  · omega

theorem field_spec {r : Receiver} {d saved : Decoded} (h : Holds r d) (hs : Saved r saved)
    (hp : saved.2 <+: d.2) (c : UInt8) (hlen : d.2.length < 4294967296) :
    Holds (field r c) (fieldDecoded r d c) ∧ Saved (field r c) saved ∧
      saved.2 <+: (fieldDecoded r d c).2 := by
  have h' : Holds { r with sum := r.sum + c.toNat, length := r.length - 1 } d :=
    ⟨h.escape, h.addr, h.stored⟩
  have hs' : Saved { r with sum := r.sum + c.toNat, length := r.length - 1 } saved :=
    ⟨hs.escape, hs.addr, hs.stored⟩
  unfold field dataField fieldDecoded
  by_cases hdata : r.kState = DATA_TYPE
  · simp only [if_pos hdata]
    exact ⟨h'.kDataChar c hlen, hs'.kDataChar h' hp c hlen,
      hp.trans (decodeChar_extends r.quote d c)⟩
  · simp only [if_neg hdata]
    by_cases hsend : r.kState = SEND_TYPE
    · rw [if_pos hsend]
      exact ⟨⟨h.escape, h.addr, h.stored⟩, ⟨hs.escape, hs.addr, hs.stored⟩, hp⟩
    · rw [if_neg hsend]
      exact ⟨h', hs', hp⟩

/-- What a character of the data field leaves alone. -/
structure SameHeader (r r' : Receiver) : Prop where
  kState : r'.kState = r.kState
  quote : r'.quote = r.quote
  n : r'.n = r.n
  lastN : r'.lastN = r.lastN

theorem SameHeader.refl (r : Receiver) : SameHeader r r := ⟨rfl, rfl, rfl, rfl⟩

theorem SameHeader.trans {r r' r'' : Receiver} (h : SameHeader r r') (h' : SameHeader r' r'') :
    SameHeader r r'' :=
  ⟨h'.kState.trans h.kState, h'.quote.trans h.quote, h'.n.trans h.n, h'.lastN.trans h.lastN⟩

theorem field_sameHeader (r : Receiver) (c : UInt8) : SameHeader r (field r c) := by
  unfold field dataField kDataChar binDataChar
  dsimp only
  split_ifs <;> exact ⟨rfl, rfl, rfl, rfl⟩

theorem foldl_field_sameHeader (r : Receiver) (data : List UInt8) :
    SameHeader r (data.foldl field r) := by
  induction data generalizing r with
  | nil => exact .refl r
  | cons c data ih => exact (field_sameHeader r c).trans (ih (field r c))

theorem foldl_field_spec {r : Receiver} {d saved : Decoded} (h : Holds r d) (hs : Saved r saved)
    (hp : saved.2 <+: d.2) (data : List UInt8)
    (hlen : d.2.length + data.length < 4294967296) :
    Holds (data.foldl field r) (if r.kState = DATA_TYPE then decode r.quote d data else d) ∧
      Saved (data.foldl field r) saved := by
  induction data generalizing r d with
  | nil => exact ⟨by simpa [decode] using h, hs⟩
  | cons c data ih =>
    simp only [List.length_cons] at hlen
    obtain ⟨h', hs', hp'⟩ := field_spec h hs hp c (by omega)
    have hgrow := length_fieldDecoded_le r d c
    obtain ⟨hfinal, hsfinal⟩ := ih h' hs' hp' (by omega)
    refine ⟨?_, hsfinal⟩
    rw [(field_sameHeader r c).kState, (field_sameHeader r c).quote] at hfinal
    unfold fieldDecoded at hfinal
    by_cases hd : r.kState = DATA_TYPE
    · simpa [hd, decode] using hfinal
    · simpa [hd] using hfinal

/-! ### The parameters -/

/-- The buffer of the parameters, after one more character. -/
theorem field_parms {r : Receiver} (hk : r.kState = SEND_TYPE) (c : UInt8) :
    (field r c).sendParms = r.sendParms.set r.sendPtr c ∧
      (field r c).sendPtr = if r.sendPtr + 1 ≥ SEND_DATA_SIZE then r.sendPtr
        else r.sendPtr + 1 := by
  have hd : ¬SEND_TYPE = DATA_TYPE := by decide
  simp [field, dataField, hk, hd]

/-- No other packet touches it. -/
theorem field_parms_of_ne {r : Receiver} (hk : r.kState ≠ SEND_TYPE) (c : UInt8) :
    (field r c).sendParms = r.sendParms ∧ (field r c).sendPtr = r.sendPtr := by
  unfold field dataField kDataChar binDataChar
  dsimp only
  split_ifs <;> exact ⟨rfl, rfl⟩

theorem length_field_sendParms (r : Receiver) (c : UInt8) :
    (field r c).sendParms.length = r.sendParms.length := by
  by_cases hk : r.kState = SEND_TYPE
  · simp [(field_parms hk c).1]
  · rw [(field_parms_of_ne hk c).1]

theorem length_foldl_field_sendParms (r : Receiver) (data : List UInt8) :
    (data.foldl field r).sendParms.length = r.sendParms.length := by
  induction data generalizing r with
  | nil => rfl
  | cons c data ih => rw [List.foldl_cons, ih, length_field_sendParms]

/-- Characters that came before keep their places in the buffer. -/
theorem foldl_field_getD {r : Receiver} (hk : r.kState = SEND_TYPE) (data : List UInt8) {j : Nat}
    (hj : j < r.sendPtr) :
    (data.foldl field r).sendParms.getD j 0 = r.sendParms.getD j 0 ∧
      r.sendPtr ≤ (data.foldl field r).sendPtr := by
  induction data generalizing r with
  | nil => exact ⟨rfl, Nat.le_refl _⟩
  | cons c data ih =>
    obtain ⟨hparms, hptr⟩ := field_parms hk c
    have hle : r.sendPtr ≤ (field r c).sendPtr := by
      rw [hptr]
      split_ifs <;> omega
    obtain ⟨hget, hle'⟩ := ih ((field_sameHeader r c).kState.trans hk) (by omega)
    refine ⟨?_, by rw [List.foldl_cons]; omega⟩
    rw [List.foldl_cons, hget, hparms, List.getD_eq_getElem?_getD, List.getD_eq_getElem?_getD,
      List.getElem?_set_ne (by omega)]

theorem foldl_field_sendPtr {r : Receiver} (hk : r.kState = SEND_TYPE) (data : List UInt8)
    (hlt : r.sendPtr < SEND_DATA_SIZE) :
    (data.foldl field r).sendPtr = min (r.sendPtr + data.length) (SEND_DATA_SIZE - 1) := by
  induction data generalizing r with
  | nil =>
    simp only [SEND_DATA_SIZE] at hlt ⊢
    simp only [List.foldl_nil, List.length_nil]
    omega
  | cons c data ih =>
    have hptr : (field r c).sendPtr = min (r.sendPtr + 1) (SEND_DATA_SIZE - 1) := by
      rw [(field_parms hk c).2]
      split_ifs <;> omega
    have hlt' : (field r c).sendPtr < SEND_DATA_SIZE := by omega
    rw [List.foldl_cons, ih ((field_sameHeader r c).kState.trans hk) hlt', hptr,
      List.length_cons]
    omega

/-- The sixth parameter is the quote. -/
theorem foldl_field_quote {r : Receiver} {data : List UInt8} (hk : r.kState = SEND_TYPE)
    (hptr : r.sendPtr = 0) (hlen : r.sendParms.length = SEND_DATA_SIZE) (hdata : 6 ≤ data.length) :
    (data.foldl field r).sendParms.getD 5 0 = data.getD 5 0 := by
  have hfirst : (data.take 5).length = 5 := by
    rw [List.length_take]
    omega
  have hsplit : data = data.take 5 ++ data[5] :: data.drop 6 := by
    rw [List.getElem_cons_drop, List.take_append_drop]
  have hk' := (foldl_field_sameHeader r (data.take 5)).kState.trans hk
  have hptr' : ((data.take 5).foldl field r).sendPtr = 5 := by
    rw [foldl_field_sendPtr hk _ (by rw [hptr]; decide), hptr, hfirst]
    rfl
  have hlen' := (length_foldl_field_sendParms r (data.take 5)).trans hlen
  obtain ⟨hparms, hnext⟩ := field_parms hk' data[5]
  rw [hptr'] at hparms hnext
  have hsixth : 5 < (field ((data.take 5).foldl field r) data[5]).sendPtr := by
    rw [hnext]
    decide
  have hget : data.getD 5 0 = data[5] := by
    rw [List.getD_eq_getElem?_getD, List.getElem?_eq_getElem (by omega), Option.getD_some]
  calc (data.foldl field r).sendParms.getD 5 0
      = ((data.drop 6).foldl field (field ((data.take 5).foldl field r) data[5])).sendParms.getD
          5 0 := by
        conv_lhs => rw [hsplit, List.foldl_append, List.foldl_cons]
    _ = (field ((data.take 5).foldl field r) data[5]).sendParms.getD 5 0 :=
        (foldl_field_getD ((field_sameHeader _ _).kState.trans hk') _ hsixth).1
    _ = data.getD 5 0 := by
        rw [hparms, hget, List.getD_eq_getElem?_getD, List.getElem?_set_self, Option.getD_some]
        rw [hlen']
        decide

end UBoot.Kermit
