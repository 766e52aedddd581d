import UBoot.SRecord.Load

/-!
# Saving memory as S-records

`save_serial` of `common/cmd_load.c` on a console that is not interrupted, and
what `srec_decode` makes of its records.
-/

namespace UBoot.SRecord

open Verification

def SREC3_START : List UInt8 := ascii "S0030000FC\n"
def SREC3_END : List UInt8 := ascii "S70500000000FA\n"
def SREC_BYTES_PER_RECORD : Nat := 16

/-- The string `hex`. -/
def hexDigit (n : Nat) : UInt8 := (ascii "0123456789ABCDEF").getD n 0

/-- `%02X` and `%08lX`, for values that have no more digits. -/
def upperHex : Nat → Nat → List UInt8
  | 0, _ => []
  | digits + 1, value => upperHex digits (value / 16) ++ [hexDigit (value % 16)]

/-- The variables of `save_serial`; `data` holds the digits. -/
structure Save where
  address : UInt32
  reclen : Nat
  checksum : Nat
  data : List UInt8

def collect (mem : Memory) (s : Save) : Save :=
  let c := (mem (s.address + UInt32.ofNat s.reclen)).toNat
  { s with
    checksum := s.checksum + c
    data := s.data ++ [hexDigit ((c >>> 4) &&& 0x0f), hexDigit (c &&& 0x0f)]
    reclen := s.reclen + 1 }

/-- The low `n` bytes of a number added up. -/
def byteSum (n value : Nat) : Nat :=
  ((List.range n).map fun i => (value >>> (8 * i)) &&& 0xff).sum

/-- The record of what was collected, `SREC3_FORMAT`. -/
def dump (s : Save) : List UInt8 :=
  let length := 4 + s.reclen + 1
  let checksum := s.checksum + byteSum 2 length + byteSum 4 s.address.toNat
  let checksum := (~~~(UInt32.ofNat checksum) &&& 0xff).toNat
  ascii "S3" ++ upperHex 2 length ++ upperHex 8 s.address.toNat ++ s.data ++
    upperHex 2 checksum ++ [10]

/-- The loop over the remaining `count` bytes. -/
def saveLoop (mem : Memory) : Nat → Save → List UInt8
  | 0, _ => []
  | count + 1, s =>
    let s := collect mem s
    if s.reclen = SREC_BYTES_PER_RECORD ∨ count = 0 then
      dump s ++ saveLoop mem count ⟨s.address + UInt32.ofNat s.reclen, 0, 0, []⟩
    else saveLoop mem count s

/-- `save_serial`: the characters written. -/
def saveSerial (mem : Memory) (address count : UInt32) : List UInt8 :=
  SREC3_START ++ saveLoop mem count.toNat ⟨address, 0, 0, []⟩ ++ SREC3_END

/-! ### Digits -/

/-- The digits of some bytes. -/
def hexText (bytes : List UInt8) : List UInt8 :=
  bytes.flatMap fun b => [hexDigit (b.toNat / 16), hexDigit (b.toNat % 16)]

theorem hex1Bin_hexDigit : ∀ n < 16, hex1Bin (hexDigit n) = some (UInt8.ofNat n) := by decide

theorem hexDigit_gt : ∀ n < 16, 31 < hexDigit n := by decide

theorem hexText_append (xs ys : List UInt8) : hexText (xs ++ ys) = hexText xs ++ hexText ys :=
  List.flatMap_append

theorem length_hexText (bytes : List UInt8) : (hexText bytes).length = 2 * bytes.length := by
  induction bytes with
  | nil => rfl
  | cons b bytes ih =>
    rw [hexText, List.flatMap_cons, ← hexText, List.length_append, ih, List.length_cons]
    simp only [List.length_cons, List.length_nil]
    omega

theorem plain_hexText (bytes : List UInt8) : Plain (hexText bytes) := by
  intro c hc
  obtain ⟨b, -, hb⟩ := List.mem_flatMap.mp hc
  have hlt := b.toNat_lt
  simp only [List.mem_cons, List.not_mem_nil, or_false] at hb
  rcases hb with rfl | rfl
  · exact hexDigit_gt _ (by omega)
  · exact hexDigit_gt _ (by omega)

theorem hexBytes_hexText (bytes : List UInt8) : hexBytes (hexText bytes) = bytes := by
  induction bytes with
  | nil => rfl
  | cons b bytes ih =>
    have hlt := b.toNat_lt
    have hbyte : 16 * UInt8.ofNat (b.toNat / 16) + UInt8.ofNat (b.toNat % 16) = b := by
      rw [← UInt8.toNat_inj, UInt8.toNat_add, UInt8.toNat_mul, UInt8.toNat_ofNat',
        UInt8.toNat_ofNat', show (16 : UInt8).toNat = 16 from rfl]
      omega
    show hexBytes (hexDigit (b.toNat / 16) :: hexDigit (b.toNat % 16) :: hexText bytes) = _
    rw [hexBytes, hex1Bin_hexDigit _ (by omega), hex1Bin_hexDigit _ (by omega)]
    simp only [hbyte, ih]

theorem upperHex_eq (n value : Nat) : upperHex (2 * n) value = hexText (beBytes n value) := by
  induction n generalizing value with
  | zero => rfl
  | succ n ih =>
    rw [Nat.mul_succ, upperHex, upperHex, Nat.div_div_eq_div_mul, ih, beBytes, hexText_append,
      List.append_assoc]
    refine congrArg (hexText (beBytes n (value / 256)) ++ ·) ?_
    show [hexDigit (value / 16 % 16), hexDigit (value % 16)] =
      [hexDigit ((UInt8.ofNat value).toNat / 16), hexDigit ((UInt8.ofNat value).toNat % 16)]
    rw [UInt8.toNat_ofNat', show value % 2 ^ 8 / 16 = value / 16 % 16 by omega,
      show value % 2 ^ 8 % 16 = value % 16 by omega]

/-! ### Checksums -/

theorem toNat_foldl_add (bytes : List UInt8) (sum : UInt8) :
    (bytes.foldl (· + ·) sum).toNat = (sum.toNat + (bytes.map UInt8.toNat).sum) % 256 := by
  induction bytes generalizing sum with
  | nil =>
    have hlt := sum.toNat_lt
    rw [List.foldl_nil, List.map_nil, List.sum_nil]
    omega
  | cons b bytes ih =>
    rw [List.foldl_cons, ih, UInt8.toNat_add, List.map_cons, List.sum_cons]
    omega

theorem toNat_checksum (bytes : List UInt8) :
    (checksum bytes).toNat = 255 - (bytes.map UInt8.toNat).sum % 256 := by
  rw [checksum, UInt8.toNat_not, toNat_foldl_add, show (0 : UInt8).toNat = 0 from rfl,
    Nat.zero_add]
  rfl

/-- The bytes of a number in either order have the same sum. -/
theorem byteSum_eq (n value : Nat) :
    byteSum n value = ((beBytes n value).map UInt8.toNat).sum := by
  induction n generalizing value with
  | zero => rfl
  | succ n ih =>
    have hshift (i : Nat) : (value >>> (8 * (i + 1))) &&& 0xff =
        (value / 256) >>> (8 * i) &&& 0xff := by
      rw [Nat.shiftRight_eq_div_pow, Nat.shiftRight_eq_div_pow, Nat.div_div_eq_div_mul,
        show 256 = 2 ^ 8 from rfl, ← Nat.pow_add, Nat.mul_succ, Nat.add_comm (8 * i) 8]
    have hlow : value &&& 0xff = (UInt8.ofNat value).toNat :=
      (Nat.and_two_pow_sub_one_eq_mod value 8).trans UInt8.toNat_ofNat'.symm
    rw [byteSum, List.range_succ_eq_map, List.map_cons, List.map_map, List.sum_cons, beBytes,
      List.map_append, List.sum_append, ← ih, byteSum]
    simp only [Function.comp_def, Nat.succ_eq_add_one, hshift, Nat.mul_zero, Nat.shiftRight_zero,
      hlow, List.map_cons, List.map_nil, List.sum_singleton]
    exact Nat.add_comm _ _

theorem toNat_not_byte (n : Nat) : (~~~(UInt32.ofNat n) &&& 0xff).toNat = 255 - n % 256 := by
  have hx := (UInt32.ofNat n).toNat_lt
  rw [UInt32.toNat_and, UInt32.toNat_not, show (0xff : UInt32).toNat = 2 ^ 8 - 1 from rfl,
    Nat.and_two_pow_sub_one_eq_mod, UInt32.size, UInt32.toNat_ofNat']
  omega

/-! ### Records -/

/-- What was collected of some bytes. -/
def collected (address : UInt32) (bytes : List UInt8) : Save :=
  ⟨address, bytes.length, (bytes.map UInt8.toNat).sum, hexText bytes⟩

theorem collect_collected (mem : Memory) (address : UInt32) (bytes : List UInt8) :
    collect mem (collected address bytes) =
      collected address (bytes ++ [mem (address + UInt32.ofNat bytes.length)]) := by
  have hhigh (c : Nat) (hc : c < 256) : (c >>> 4) &&& 0x0f = c / 16 := by
    have hand : (c >>> 4) &&& 0x0f = (c >>> 4) % 16 := Nat.and_two_pow_sub_one_eq_mod (c >>> 4) 4
    rw [hand, Nat.shiftRight_eq_div_pow]
    omega
  have hlow (c : Nat) : c &&& 0x0f = c % 16 := Nat.and_two_pow_sub_one_eq_mod c 4
  simp only [collect, collected, hhigh _ (UInt8.toNat_lt _), hlow, hexText_append, List.map_append,
    List.sum_append, List.length_append, List.length_singleton, List.map_cons, List.map_nil,
    List.sum_singleton]
  rfl

/-- The bytes of a record behind its type. -/
def recordBytes (address : UInt32) (data : List UInt8) : List UInt8 :=
  UInt8.ofNat (data.length + 5) :: (beBytes 4 address.toNat ++ data)

def recordLine (address : UInt32) (data : List UInt8) : List UInt8 :=
  ascii "S3" ++ hexText (recordBytes address data ++ [checksum (recordBytes address data)])

theorem dump_collected (address : UInt32) {data : List UInt8} (h : data.length ≤ 16) :
    dump (collected address data) = recordLine address data ++ [10] := by
  have hsum : (~~~(UInt32.ofNat ((data.map UInt8.toNat).sum + byteSum 2 (4 + data.length + 1) +
      byteSum 4 address.toNat)) &&& 0xff).toNat =
        (checksum (recordBytes address data)).toNat := by
    have hlength : byteSum 2 (4 + data.length + 1) = data.length + 5 := by
      simp [byteSum_eq, beBytes]
      omega
    have hbyte : (UInt8.ofNat (data.length + 5)).toNat = data.length + 5 := by
      rw [UInt8.toNat_ofNat']
      omega
    rw [toNat_not_byte, toNat_checksum, recordBytes, List.map_cons, List.map_append,
      List.sum_cons, List.sum_append, hlength, hbyte, byteSum_eq]
    refine congrArg (fun n => 255 - n % 256) ?_
    omega
  have hbyte (b : UInt8) : upperHex 2 b.toNat = hexText [b] := by
    rw [show 2 = 2 * 1 from rfl, upperHex_eq]
    simp [beBytes]
  have hlength : upperHex 2 (4 + data.length + 1) = hexText [UInt8.ofNat (data.length + 5)] := by
    rw [← hbyte, UInt8.toNat_ofNat']
    refine congrArg (upperHex 2) ?_
    omega
  have haddress : upperHex 8 address.toNat = hexText (beBytes 4 address.toNat) := upperHex_eq 4 _
  simp only [dump, collected, hsum, hbyte, hlength, haddress, recordLine, recordBytes,
    ← hexText_append, List.append_assoc, List.cons_append, List.nil_append]

theorem plain_recordLine (address : UInt32) (data : List UInt8) :
    Plain (recordLine address data) := by
  intro c hc
  rcases List.mem_append.mp hc with hstart | htext
  · have hplain : Plain (ascii "S3") := by decide
    exact hplain c hstart
  · exact plain_hexText _ c htext

theorem length_recordLine (address : UInt32) (data : List UInt8) :
    (recordLine address data).length = 14 + 2 * data.length := by
  rw [recordLine, List.length_append, length_hexText, recordBytes]
  simp only [List.length_append, List.length_cons, length_beBytes, List.length_nil]
  have hstart : (ascii "S3").length = 2 := by decide
  omega

/-- The record read back. -/
theorem srecDecode_recordLine (address : UInt32) {data : List UInt8} (h : data.length ≤ 16) :
    srecDecode (recordLine address data ++ [0]) =
      .ok ⟨.data4, data.length, address, data⟩ := by
  have hs : afterS (recordLine address data) =
      51 :: hexText (recordBytes address data ++ [checksum (recordBytes address data)]) := rfl
  have hbytes : hexBytes (hexText (recordBytes address data ++
      [checksum (recordBytes address data)])) = UInt8.ofNat (data.length + 5) ::
        (beBytes 4 address.toNat ++ (data ++ checksum (recordBytes address data) :: [])) := by
    rw [hexBytes_hexText, recordBytes, List.cons_append, List.append_assoc]
  have hcount : dataCount .data4 (UInt8.ofNat (data.length + 5)) = data.length := by
    rw [dataCount, if_neg (by decide), UInt8.toNat_ofNat', RecordType.width]
    omega
  rw [srecDecode_of_cons (plain_recordLine address data).zero_not_mem hs,
    decodeText_of_append hbytes (show RecordType.ofChar 51 = some .data4 from rfl)
      (length_beBytes 4 _) (by rw [hcount]; rfl), ← recordBytes, if_pos rfl, hcount,
    beValue_beBytes, Nat.mod_eq_of_lt (show address.toNat < 256 ^ 4 from address.toNat_lt),
    UInt32.ofNat_toNat]

end UBoot.SRecord
