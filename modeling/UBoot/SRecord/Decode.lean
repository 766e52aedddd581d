import Mathlib.Tactic.Linarith
import UBoot.Verification.Bytes

/-!
# Decoding an S-record

`srec_decode` of `common/s_record.c` over a line of characters. The line ends
with a zero and nothing behind that belongs to it, so that a read which goes on
is `outside`.
-/

namespace UBoot.SRecord

open Verification

def SREC_MAXRECLEN : Nat := 512 + 4
def SREC_MAXBINLEN : Nat := 255

/-- The return codes of `srec_decode` without a record. -/
inductive Code where
  | empty
  | badType
  | noSrec
  | badChks
  deriving DecidableEq, Repr

/-- Why there is no record. -/
inductive Stop where
  | outside
  | code (c : Code)
  deriving DecidableEq, Repr

/-- The codes `SREC_START` to `SREC_END2`. -/
inductive RecordType where
  | start
  | data2
  | data3
  | data4
  | count
  | end4
  | end3
  | end2
  deriving DecidableEq, Repr

namespace RecordType

/-- The bytes of the address field. -/
def width : RecordType → Nat
  | start | data2 | count | end2 => 2
  | data3 | end3 => 3
  | data4 | end4 => 4

def isData : RecordType → Bool
  | data2 | data3 | data4 => true
  | _ => false

def isEnd : RecordType → Bool
  | end2 | end3 | end4 => true
  | _ => false

/-- The character behind `S`; 4 and 6 are not used. -/
def ofChar (v : UInt8) : Option RecordType :=
  if v = 48 then some start
  else if v = 49 then some data2
  else if v = 50 then some data3
  else if v = 51 then some data4
  else if v = 53 then some count
  else if v = 55 then some end4
  else if v = 56 then some end3
  else if v = 57 then some end2
  else none

end RecordType

/-- What `srec_decode` returns and stores. -/
structure Record where
  type : RecordType
  count : Int
  addr : UInt32
  data : List UInt8
  deriving DecidableEq, Repr

/-- `hex1_bin`; `none` for -1. -/
def hex1Bin (c : UInt8) : Option UInt8 :=
  if 48 ≤ c ∧ c ≤ 57 then some (c - 48)
  else if 97 ≤ c ∧ c ≤ 102 then some (c + 10 - 97)
  else if 65 ≤ c ∧ c ≤ 70 then some (c + 10 - 65)
  else none

/-- `hex2_bin` -/
def hex2Bin : List UInt8 → Except Stop (Option UInt8)
  | [] => .error .outside
  | c :: s => match hex1Bin c with
    | none => .ok none
    | some i => match s with
      | [] => .error .outside
      | d :: _ => match hex1Bin d with
        | none => .ok none
        | some j => .ok (some (16 * i + j))

/-- A byte is read from `input`, which moves on behind it. -/
def nextByte (input : List UInt8) : Except Stop (UInt8 × List UInt8) := do
  match ← hex2Bin input with
  | none => .error (.code .noSrec)
  | some v => .ok (v, input.drop 2)

/-- The search for the `S`. -/
def skipToS : List UInt8 → Except Stop (List UInt8)
  | [] => .error .outside
  | c :: input =>
    if c = 0 then .ok (c :: input)
    else if c = 83 then .ok input
    else skipToS input

/-- The address field, one byte after another, with the sum so far. -/
def readAddr : Nat → List UInt8 → UInt32 → UInt8 → Except Stop (UInt32 × UInt8 × List UInt8)
  | 0, input, addr, chksum => .ok (addr, chksum, input)
  | n + 1, input, addr, chksum => do
    let (v, input) ← nextByte input
    readAddr n input ((addr <<< 8) + v.toUInt32) (chksum + v)

/-- The loop over the data. -/
def readData : Nat → List UInt8 → UInt8 → Except Stop (List UInt8 × UInt8 × List UInt8)
  | 0, input, chksum => .ok ([], chksum, input)
  | n + 1, input, chksum => do
    let (v, input) ← nextByte input
    let (data, chksum, input) ← readData n input (chksum + v)
    .ok (v :: data, chksum, input)

/-- `*count` after the first `switch`. -/
def dataCount (type : RecordType) (len : UInt8) : Int :=
  if type = .count then 0 else len.toNat - (type.width + 1 : Nat)

/-- `srec_decode` behind the record type `v`. -/
def decodeText (v : UInt8) (input : List UInt8) : Except Stop Record := do
  let (len, input) ← nextByte input
  match RecordType.ofChar v with
  | none => .error (.code .badType)
  | some type =>
    let count := dataCount type len
    let (addr, chksum, input) ← readAddr type.width input 0 len
    let (data, chksum, input) ← readData count.toNat input chksum
    let (v, _) ← nextByte input
    if v = ~~~chksum then .ok ⟨type, count, addr, data⟩ else .error (.code .badChks)

/-- `srec_decode` -/
def srecDecode (input : List UInt8) : Except Stop Record := do
  match ← skipToS input with
  | [] => .error .outside
  | v :: input => if v = 0 then .error (.code .empty) else decodeText v input

/-! ### The bytes of a text -/

/-- The bytes that a text begins with in hexadecimal digits. -/
def hexBytes : List UInt8 → List UInt8
  | c :: d :: text => match hex1Bin c, hex1Bin d with
    | some i, some j => (16 * i + j) :: hexBytes text
    | _, _ => []
  | _ => []

/-- The text behind the first `S` of a line. -/
def afterS (line : List UInt8) : List UInt8 := (line.dropWhile (· ≠ 83)).drop 1

/-- The checksum over count, address and data. -/
def checksum (bytes : List UInt8) : UInt8 := ~~~(bytes.foldl (· + ·) 0)

theorem nextByte_of_nil {text : List UInt8} (h : hexBytes text = []) :
    nextByte (text ++ [0]) = .error (.code .noSrec) := by
  match text with
  | [] => rfl
  | [c] =>
    have hread : hex2Bin [c, 0] = .ok none := by
      rw [hex2Bin]
      cases hex1Bin c with
      | none => rfl
      | some i => rfl
    rw [List.singleton_append, nextByte, hread]
    rfl
  | c :: d :: text =>
    have hread : hex2Bin (c :: d :: (text ++ [0])) = .ok none := by
      rw [hexBytes] at h
      rw [hex2Bin]
      cases hc : hex1Bin c with
      | none => rfl
      | some i =>
        cases hd : hex1Bin d with
        | none => simp only [hd]
        | some j =>
          rw [hc, hd] at h
          cases h
    rw [List.cons_append, List.cons_append, nextByte, hread]
    rfl

theorem nextByte_of_cons {text bytes : List UInt8} {b : UInt8} (h : hexBytes text = b :: bytes) :
    ∃ rest, nextByte (text ++ [0]) = .ok (b, rest ++ [0]) ∧ hexBytes rest = bytes := by
  match text with
  | [] => cases h
  | [c] => cases h
  | c :: d :: text =>
    rw [hexBytes] at h
    split at h
    · next i j hi hj =>
        obtain ⟨rfl, rfl⟩ := List.cons.inj h
        refine ⟨text, ?_, rfl⟩
        have hread : hex2Bin (c :: d :: (text ++ [0])) = .ok (some (16 * i + j)) := by
          simp only [hex2Bin, hi, hj]
        rw [List.cons_append, List.cons_append, nextByte, hread]
        rfl
    · cases h

theorem readAddr_of_append {as bytes : List UInt8} : ∀ {text : List UInt8} (addr : UInt32)
    (chksum : UInt8), hexBytes text = as ++ bytes →
    ∃ rest, readAddr as.length (text ++ [0]) addr chksum =
      .ok (as.foldl (fun addr v => (addr <<< 8) + v.toUInt32) addr, as.foldl (· + ·) chksum,
        rest ++ [0]) ∧ hexBytes rest = bytes := by
  induction as with
  | nil => exact fun {text} addr chksum h => ⟨text, rfl, h⟩
  | cons a as ih =>
    intro text addr chksum h
    obtain ⟨rest, hnext, hrest⟩ := nextByte_of_cons h
    obtain ⟨rest', hread, hrest'⟩ := ih ((addr <<< 8) + a.toUInt32) (chksum + a) hrest
    refine ⟨rest', ?_, hrest'⟩
    rw [List.length_cons, readAddr, hnext]
    exact hread

theorem readAddr_of_short {n : Nat} : ∀ {text : List UInt8} (addr : UInt32) (chksum : UInt8),
    (hexBytes text).length < n →
    readAddr n (text ++ [0]) addr chksum = .error (.code .noSrec) := by
  induction n with
  | zero => exact fun _ _ h => absurd h (Nat.not_lt_zero _)
  | succ n ih =>
    intro text addr chksum h
    cases hbytes : hexBytes text with
    | nil =>
      rw [readAddr, nextByte_of_nil hbytes]
      rfl
    | cons b bytes =>
      obtain ⟨rest, hnext, hrest⟩ := nextByte_of_cons hbytes
      rw [hbytes, List.length_cons] at h
      rw [readAddr, hnext]
      exact ih _ _ (by rw [hrest]; omega)

theorem readData_of_append {data bytes : List UInt8} : ∀ {text : List UInt8} (chksum : UInt8),
    hexBytes text = data ++ bytes →
    ∃ rest, readData data.length (text ++ [0]) chksum =
      .ok (data, data.foldl (· + ·) chksum, rest ++ [0]) ∧ hexBytes rest = bytes := by
  induction data with
  | nil => exact fun {text} chksum h => ⟨text, rfl, h⟩
  | cons b data ih =>
    intro text chksum h
    obtain ⟨rest, hnext, hrest⟩ := nextByte_of_cons h
    obtain ⟨rest', hread, hrest'⟩ := ih (chksum + b) hrest
    refine ⟨rest', ?_, hrest'⟩
    simp only [List.length_cons, readData, hnext, hread, bind, Except.bind, List.foldl_cons]

theorem readData_of_short {n : Nat} : ∀ {text : List UInt8} (chksum : UInt8),
    (hexBytes text).length < n →
    readData n (text ++ [0]) chksum = .error (.code .noSrec) := by
  induction n with
  | zero => exact fun _ h => absurd h (Nat.not_lt_zero _)
  | succ n ih =>
    intro text chksum h
    cases hbytes : hexBytes text with
    | nil =>
      rw [readData, nextByte_of_nil hbytes]
      rfl
    | cons b bytes =>
      obtain ⟨rest, hnext, hrest⟩ := nextByte_of_cons hbytes
      rw [hbytes, List.length_cons] at h
      have hshort := ih (chksum + b) (show (hexBytes rest).length < n by rw [hrest]; omega)
      simp only [readData, hnext, hshort, bind, Except.bind]

/-- The address, most significant byte first. -/
theorem foldl_addr (as : List UInt8) :
    as.foldl (fun (addr : UInt32) v => (addr <<< 8) + v.toUInt32) 0 = UInt32.ofNat (beValue as) := by
  induction as using List.reverseRecOn with
  | nil => rfl
  | append_singleton as a ih =>
    rw [List.foldl_append, ih, beValue_concat, List.foldl_cons, List.foldl_nil,
      ← UInt32.toNat_inj, UInt32.toNat_add, UInt32.toNat_shiftLeft, UInt32.toNat_ofNat',
      UInt32.toNat_ofNat', UInt8.toNat_toUInt32, show (8 : UInt32).toNat % 32 = 8 from rfl,
      Nat.shiftLeft_eq]
    omega

/-! ### A line -/

theorem skipToS_line {line : List UInt8} (h : 0 ∉ line) :
    skipToS (line ++ [0]) = .ok (afterS line ++ [0]) := by
  induction line with
  | nil => rfl
  | cons c line ih =>
    rw [List.mem_cons, not_or] at h
    rw [List.cons_append, skipToS, if_neg (Ne.symm h.1), afterS, List.dropWhile_cons]
    by_cases hs : c = 83
    · rw [if_pos hs, if_neg (by simp [hs])]
      rfl
    · rw [if_neg hs, if_pos (by simp [hs])]
      exact ih h.2

theorem mem_of_mem_afterS {line : List UInt8} {c : UInt8} (h : c ∈ afterS line) : c ∈ line :=
  (List.dropWhile_sublist _).mem ((List.drop_sublist _ _).mem h)

theorem srecDecode_of_nil {line : List UInt8} (h : 0 ∉ line) (hs : afterS line = []) :
    srecDecode (line ++ [0]) = .error (.code .empty) := by
  rw [srecDecode, skipToS_line h, hs]
  rfl

theorem srecDecode_of_cons {line text : List UInt8} {v : UInt8} (h : 0 ∉ line)
    (hs : afterS line = v :: text) : srecDecode (line ++ [0]) = decodeText v (text ++ [0]) := by
  have hv : v ≠ 0 := by
    rintro rfl
    exact h (mem_of_mem_afterS (hs ▸ List.mem_cons_self))
  rw [srecDecode, skipToS_line h, hs]
  exact if_neg hv

theorem decodeText_of_nil {text : List UInt8} (v : UInt8) (h : hexBytes text = []) :
    decodeText v (text ++ [0]) = .error (.code .noSrec) := by
  rw [decodeText, nextByte_of_nil h]
  rfl

theorem decodeText_of_badType {text bytes : List UInt8} {v len : UInt8}
    (h : hexBytes text = len :: bytes) (hv : RecordType.ofChar v = none) :
    decodeText v (text ++ [0]) = .error (.code .badType) := by
  obtain ⟨rest, hnext, -⟩ := nextByte_of_cons h
  rw [decodeText, hnext]
  simp only [hv, bind, Except.bind]

/-- A record that ends before its checksum. -/
theorem decodeText_of_short {text bytes : List UInt8} {v len : UInt8} {type : RecordType}
    (h : hexBytes text = len :: bytes) (hv : RecordType.ofChar v = some type)
    (hshort : bytes.length < type.width + (dataCount type len).toNat + 1) :
    decodeText v (text ++ [0]) = .error (.code .noSrec) := by
  obtain ⟨rest, hnext, hrest⟩ := nextByte_of_cons h
  simp only [decodeText, hnext, hv, bind, Except.bind]
  rcases Nat.lt_or_ge bytes.length type.width with haddr | haddr
  · rw [readAddr_of_short 0 len (by rwa [hrest])]
  obtain ⟨as, tail, hlen, rfl⟩ : ∃ as tail, as.length = type.width ∧ bytes = as ++ tail :=
    ⟨bytes.take type.width, bytes.drop type.width, List.length_take_of_le haddr,
      (List.take_append_drop _ _).symm⟩
  obtain ⟨rest', hread, hrest'⟩ := readAddr_of_append 0 len hrest
  rw [← hlen, hread]
  rw [List.length_append, hlen] at hshort
  rcases Nat.lt_or_ge tail.length (dataCount type len).toNat with hdata | hdata
  · simp only [readData_of_short (as.foldl (· + ·) len)
      (show (hexBytes rest').length < (dataCount type len).toNat by rwa [hrest'])]
  have hdataLen : tail.length = (dataCount type len).toNat := by omega
  obtain ⟨rest'', hread', hrest''⟩ :=
    readData_of_append (as.foldl (· + ·) len) (hrest'.trans (List.append_nil tail).symm)
  simp only [← hdataLen, hread', nextByte_of_nil hrest'']

theorem decodeText_of_append {text as data rest : List UInt8} {v len chk : UInt8}
    {type : RecordType} (h : hexBytes text = len :: (as ++ (data ++ chk :: rest)))
    (hv : RecordType.ofChar v = some type) (has : as.length = type.width)
    (hdata : data.length = (dataCount type len).toNat) :
    decodeText v (text ++ [0]) =
      if chk = checksum (len :: (as ++ data)) then
        .ok ⟨type, dataCount type len, UInt32.ofNat (beValue as), data⟩
      else .error (.code .badChks) := by
  obtain ⟨text1, hnext, h1⟩ := nextByte_of_cons h
  obtain ⟨text2, hread, h2⟩ := readAddr_of_append 0 len h1
  obtain ⟨text3, hread', h3⟩ := readData_of_append (as.foldl (· + ·) len) h2
  obtain ⟨text4, hlast, -⟩ := nextByte_of_cons h3
  have hsum : data.foldl (· + ·) (as.foldl (· + ·) len) =
      (len :: (as ++ data)).foldl (· + ·) 0 := by
    rw [List.foldl_cons, UInt8.zero_add, List.foldl_append]
  simp only [decodeText, hnext, hv, bind, Except.bind, ← has, hread, ← hdata, hread', hlast]
  rw [hsum, foldl_addr, checksum]

/-! ### Which lines are decoded right -/

/-- The record lies behind the first `S` of the line: its count byte counts the
address, the data and the checksum, and the checksum is the one over them. -/
def RecordOf (line : List UInt8) (r : Record) : Prop :=
  ∃ v text len as data chk rest, afterS line = v :: text ∧ RecordType.ofChar v = some r.type ∧
    hexBytes text = len :: (as ++ (data ++ chk :: rest)) ∧ as.length = r.type.width ∧
    (data.length : Int) = r.count ∧ len.toNat = as.length + data.length + 1 ∧
    r.addr.toNat = beValue as ∧ r.data = data ∧ chk = checksum (len :: (as ++ data))

/-- No read leaves the line, and a data or end record is what the line says. -/
def DecodedRight (line : List UInt8) : Prop :=
  srecDecode (line ++ [0]) ≠ .error .outside ∧
  ∀ r, srecDecode (line ++ [0]) = .ok r → r.type.isData ∨ r.type.isEnd →
    0 ≤ r.count ∧ r.count ≤ SREC_MAXBINLEN ∧ RecordOf line r

/-- A data or end record whose count byte does not count its whole address and
the checksum, although the byte behind the address is the right checksum. -/
def ShortRecord (line : List UInt8) : Prop :=
  ∃ v text type len as chk rest, afterS line = v :: text ∧ RecordType.ofChar v = some type ∧
    (type.isData ∨ type.isEnd) ∧ hexBytes text = len :: (as ++ chk :: rest) ∧
    as.length = type.width ∧ len.toNat < type.width + 1 ∧ chk = checksum (len :: as)

/-- The bytes of a record in its fields, when there are enough of them. -/
theorem fields_of_le {bytes : List UInt8} {m n : Nat} (h : m + n + 1 ≤ bytes.length) :
    ∃ as data chk rest, bytes = as ++ (data ++ chk :: rest) ∧ as.length = m ∧ data.length = n := by
  have hrest : (bytes.drop m).drop n ≠ [] := by
    apply List.ne_nil_of_length_pos
    rw [List.length_drop, List.length_drop]
    omega
  obtain ⟨chk, rest, hcons⟩ := List.exists_cons_of_ne_nil hrest
  refine ⟨bytes.take m, (bytes.drop m).take n, chk, rest, ?_, ?_, ?_⟩
  · rw [← hcons, List.take_append_drop, List.take_append_drop]
  · exact List.length_take_of_le (by omega)
  · exact List.length_take_of_le (by rw [List.length_drop]; omega)

theorem srecDecode_cases {line : List UInt8} (h : 0 ∉ line) :
    (∃ c, srecDecode (line ++ [0]) = .error (.code c)) ∨
    ∃ v text type len as data chk rest, afterS line = v :: text ∧
      RecordType.ofChar v = some type ∧ hexBytes text = len :: (as ++ (data ++ chk :: rest)) ∧
      as.length = type.width ∧ data.length = (dataCount type len).toNat ∧
      chk = checksum (len :: (as ++ data)) ∧
      srecDecode (line ++ [0]) =
        .ok ⟨type, dataCount type len, UInt32.ofNat (beValue as), data⟩ := by
  cases hs : afterS line with
  | nil => exact .inl ⟨_, srecDecode_of_nil h hs⟩
  | cons v text =>
    rw [srecDecode_of_cons h hs]
    cases hbytes : hexBytes text with
    | nil => exact .inl ⟨_, decodeText_of_nil v hbytes⟩
    | cons len bytes =>
      cases hv : RecordType.ofChar v with
      | none => exact .inl ⟨_, decodeText_of_badType hbytes hv⟩
      | some type =>
        rcases Nat.lt_or_ge bytes.length (type.width + (dataCount type len).toNat + 1) with
          hshort | hlong
        · exact .inl ⟨_, decodeText_of_short hbytes hv hshort⟩
        obtain ⟨as, data, chk, rest, rfl, has, hdata⟩ := fields_of_le hlong
        rw [decodeText_of_append hbytes hv has hdata]
        split_ifs with hchk
        · exact .inr ⟨v, text, type, len, as, data, chk, rest, rfl, hv, hbytes, has, hdata,
            hchk, rfl⟩
        · exact .inl ⟨_, rfl⟩

theorem dataCount_of_kind {type : RecordType} (h : type.isData ∨ type.isEnd) (len : UInt8) :
    dataCount type len = len.toNat - (type.width + 1 : Nat) := by
  rw [dataCount, if_neg]
  rintro rfl
  simp [RecordType.isData, RecordType.isEnd] at h

/-- A short record is taken for one with a negative count. -/
theorem not_decodedRight_of_short {line : List UInt8} (h : 0 ∉ line) (short : ShortRecord line) :
    ¬DecodedRight line := by
  rintro ⟨-, right⟩
  obtain ⟨v, text, type, len, as, chk, rest, hs, hv, hkind, hbytes, has, hlt, hchk⟩ := short
  have hcount := dataCount_of_kind hkind len
  have hdecode : decodeText v (text ++ [0]) = if chk = checksum (len :: (as ++ [])) then
      .ok ⟨type, dataCount type len, UInt32.ofNat (beValue as), []⟩
      else .error (.code .badChks) :=
    decodeText_of_append hbytes hv has (by rw [hcount, List.length_nil]; omega)
  rw [List.append_nil, if_pos hchk, ← srecDecode_of_cons h hs] at hdecode
  obtain ⟨hpos, -⟩ := right _ hdecode hkind
  have hpos : 0 ≤ dataCount type len := hpos
  omega

/-- `srec_decode` is right about every line but those with a short record, whose
data count is negative. -/
theorem decodedRight_iff {line : List UInt8} (h : 0 ∉ line) :
    DecodedRight line ↔ ¬ShortRecord line := by
  constructor
  · exact fun right short => not_decodedRight_of_short h short right
  · intro hlong
    rcases srecDecode_cases h with ⟨c, hcode⟩ |
      ⟨v, text, type, len, as, data, chk, rest, hs, hv, hbytes, has, hdata, hchk, hok⟩
    · rw [DecodedRight, hcode]
      exact ⟨by simp, fun r hr => by cases hr⟩
    · rw [DecodedRight, hok]
      refine ⟨by simp, fun r hr hkind => ?_⟩
      obtain rfl := Except.ok.inj hr
      have hkind : type.isData ∨ type.isEnd := hkind
      have hcount := dataCount_of_kind hkind len
      have hle : type.width + 1 ≤ len.toNat := by
        by_contra hlt
        obtain rfl : data = [] := List.length_eq_zero_iff.mp (by omega)
        rw [List.append_nil] at hchk
        exact hlong ⟨v, text, type, len, as, chk, rest, hs, hv, hkind, hbytes, has, by omega, hchk⟩
      have hlen := len.toNat_lt
      have hbound : beValue as < 2 ^ 32 := by
        have hvalue := beValue_lt as
        have hwidth : as.length ≤ 4 := by
          rw [has]
          cases type <;> decide
        exact hvalue.trans_le (Nat.pow_le_pow_right (by decide) hwidth)
      refine ⟨?_, ?_, v, text, len, as, data, chk, rest, hs, hv, hbytes, has, ?_, ?_, ?_, rfl, hchk⟩
      · show 0 ≤ dataCount type len
        omega
      · show dataCount type len ≤ (255 : Nat)
        omega
      · show (data.length : Int) = dataCount type len
        omega
      · omega
      · show (UInt32.ofNat (beValue as)).toNat = beValue as
        rw [UInt32.toNat_ofNat', Nat.mod_eq_of_lt hbound]

/-- The data record of two bytes. -/
theorem decodedRight_data : DecodedRight (ascii "S1050000616237") :=
  (decodedRight_iff (by decide)).mpr (by
    rintro ⟨v, text, type, len, as, chk, rest, hs, hv, -, hbytes, has, hlt, -⟩
    obtain ⟨rfl, rfl⟩ := List.cons.inj ((show afterS (ascii "S1050000616237") =
      49 :: ascii "050000616237" by decide).symm.trans hs)
    obtain ⟨rfl, -⟩ := List.cons.inj ((show hexBytes (ascii "050000616237") =
      [5, 0, 0, 0x61, 0x62, 0x37] by decide).symm.trans hbytes)
    obtain rfl := Option.some.inj ((show RecordType.ofChar 49 = some .data2 by decide).symm.trans hv)
    exact absurd hlt (by decide))

/-- `S1020000FD` is taken for a data record with -1 bytes. -/
theorem negative_count :
    ¬∀ line : List UInt8, 0 ∉ line → DecodedRight line := by
  intro claim
  refine not_decodedRight_of_short (by decide) ?_ (claim (ascii "S1020000FD") (by decide))
  exact ⟨49, ascii "020000FD", .data2, 2, [0, 0], 0xfd, [], by decide, by decide, by decide,
    by decide, by decide, by decide, by decide⟩

end UBoot.SRecord
