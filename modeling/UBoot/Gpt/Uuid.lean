import Mathlib.Data.List.Basic
import Mathlib.Data.List.TakeWhile
import UBoot.Verification.Bytes

/-!
# UUID strings

`lib/uuid.c` character by character: the test of a string, the fields that `simple_strtoul`
reads and `cpu_to_be` swaps, the bytes that are printed one by one. There are two orders of the
bytes: in a GUID the first three groups of digits are little-endian. A string is the list of its
characters; the host is little-endian, and an `unsigned long` has 32 bits.
-/

namespace UBoot.Uuid

open Verification

inductive UuidFormat where
  | std
  | guid
  deriving DecidableEq, Repr

def isdigit (c : UInt8) : Bool := 48 ≤ c ∧ c ≤ 57

def islowerHex (c : UInt8) : Bool := 97 ≤ c ∧ c ≤ 102

def isxdigit (c : UInt8) : Bool := isdigit c || (65 ≤ c ∧ c ≤ 70) || islowerHex c

def isDash (i : Nat) : Bool := i = 8 ∨ i = 13 ∨ i = 18 ∨ i = 23

def UUID_STR_LEN : Nat := 36

/-- The character that `uuid_str_valid` accepts at a place. -/
def charValid (i : Nat) (c : UInt8) : Bool := if isDash i then c = 45 else isxdigit c

/-- The loop of `uuid_str_valid`: `i` and `valid` behind it. -/
def validLoop : List UInt8 → Nat → Bool → Nat × Bool
  | c :: uuid, i, true => validLoop uuid (i + 1) (charValid i c)
  | _, i, valid => (i, valid)

/-- `uuid_str_valid` -/
def uuidStrValid (uuid : List UInt8) : Bool :=
  let (i, valid) := validLoop uuid 0 true
  if i ≠ UUID_STR_LEN ∨ valid = false then false else true

/-! ### Numbers -/

def islower (c : UInt8) : Bool := 97 ≤ c ∧ c ≤ 122

def toupper (c : UInt8) : UInt8 := if islower c then c - 32 else c

def tolower (c : UInt8) : UInt8 := if 65 ≤ c ∧ c ≤ 90 then c + 32 else c

/-- The value of a character that `isxdigit` accepts. -/
def strtoulValue (c : UInt8) : Nat :=
  if isdigit c then c.toNat - 48 else (if islower c then toupper c else c).toNat - 65 + 10

/-- The loop of `simple_strtoul`, for a result type of `size` values. -/
def strtoulLoop (size base : Nat) : List UInt8 → Nat → Nat
  | [], result => result
  | c :: cp, result =>
    if isxdigit c ∧ strtoulValue c < base then
      strtoulLoop size base cp ((result * base + strtoulValue c) % size)
    else result

/-- `simple_strtoul` and `simple_strtoull` -/
def simpleStrtoul (size : Nat) (cp : List UInt8) (base : Nat) : Nat :=
  if cp[0]? = some 48 then
    if cp[1]? = some 120 ∧ cp[2]?.any isxdigit then strtoulLoop size 16 (cp.drop 2) 0
    else strtoulLoop size (if base = 0 then 8 else base) (cp.drop 1) 0
  else strtoulLoop size (if base = 0 then 10 else base) cp 0

/-- `cpu_to_be16`, `cpu_to_be32` and `cpu_to_be64`, for `n` bytes. -/
def cpuToBe (n x : Nat) : Nat := beValue (leBytes n x)

/-- A field that is stored in network order, as it stands in memory. -/
def beField (n : Nat) (cp : List UInt8) : List UInt8 :=
  leBytes n (cpuToBe n (simpleStrtoul (2 ^ 32) cp 16))

/-- A field that is stored in the order of the host. -/
def leField (n : Nat) (cp : List UInt8) : List UInt8 :=
  leBytes n (simpleStrtoul (2 ^ 32) cp 16)

/-- `uuid_str_to_bin` -/
def uuidStrToBin (uuid : List UInt8) (format : UuidFormat) : Option (List UInt8) :=
  if uuidStrValid uuid then
    let fields := match format with
      | .std => beField 4 uuid ++ beField 2 (uuid.drop 9) ++ beField 2 (uuid.drop 14)
      | .guid => leField 4 uuid ++ leField 2 (uuid.drop 9) ++ leField 2 (uuid.drop 14)
    let tmp64 := cpuToBe 8 (simpleStrtoul (2 ^ 64) (uuid.drop 24) 16)
    some (fields ++ beField 2 (uuid.drop 19) ++ slice (leBytes 8 tmp64) 2 6)
  else none

/-- A digit of `%x`. -/
def hexDigit (n : Nat) : UInt8 := if n < 10 then UInt8.ofNat (48 + n) else UInt8.ofNat (87 + n)

/-- `%02x` -/
def hexByte (b : UInt8) : List UInt8 := [hexDigit (b.toNat / 16), hexDigit (b.toNat % 16)]

/-- `uuid_char_order` and `guid_char_order` -/
def charOrder : UuidFormat → List Nat
  | .std => [0, 1, 2, 3, 4, 5, 6, 7, 8, 9, 10, 11, 12, 13, 14, 15]
  | .guid => [3, 2, 1, 0, 5, 4, 7, 6, 8, 9, 10, 11, 12, 13, 14, 15]

def printByte (bin : List UInt8) (format : UuidFormat) (i : Nat) : List UInt8 :=
  hexByte (bin.getD ((charOrder format).getD i 0) 0) ++
    if i = 3 ∨ i = 5 ∨ i = 7 ∨ i = 9 then [45] else []

/-- `uuid_bin_to_str` -/
def uuidBinToStr (bin : List UInt8) (format : UuidFormat) : List UInt8 :=
  (List.range 16).flatMap (printByte bin format)

/-! ### Valid strings -/

theorem validLoop_false (uuid : List UInt8) (i : Nat) : validLoop uuid i false = (i, false) := by
  cases uuid <;> rfl

/-- The loop comes to the end of the string when it accepts all characters. -/
theorem validLoop_eq_true_iff (uuid : List UInt8) (i j : Nat) :
    validLoop uuid i true = (j, true) ↔
      j = i + uuid.length ∧ ∀ k c, uuid[k]? = some c → charValid (i + k) c = true := by
  induction uuid generalizing i with
  | nil =>
    constructor
    · intro h
      cases h
      exact ⟨rfl, fun k c hc => by cases hc⟩
    · rintro ⟨rfl, -⟩
      rfl
  | cons c uuid ih =>
    rw [validLoop]
    cases hc : charValid i c with
    | false =>
      rw [validLoop_false]
      constructor
      · intro h
        cases h
      · intro h
        have := h.2 0 c rfl
        rw [Nat.add_zero, hc] at this
        cases this
    | true =>
      rw [ih, List.length_cons, Nat.add_right_comm i 1, Nat.add_assoc]
      refine and_congr_right fun _ => ⟨fun h k d hd => ?_, fun h k d hd => ?_⟩
      · cases k with
        | zero =>
          rw [List.getElem?_cons_zero, Option.some.injEq] at hd
          rwa [Nat.add_zero, ← hd]
        | succ k =>
          have := h k d (by simpa using hd)
          rwa [Nat.add_right_comm, Nat.add_assoc] at this
      · have := h (k + 1) d (by simpa using hd)
        rwa [Nat.add_right_comm, Nat.add_assoc]

theorem uuidStrValid_iff (uuid : List UInt8) : uuidStrValid uuid = true ↔
    uuid.length = 36 ∧ ∀ k c, uuid[k]? = some c → charValid k c = true := by
  have hloop := validLoop_eq_true_iff uuid 0 36
  simp only [Nat.zero_add] at hloop
  rw [eq_comm (a := uuid.length), ← hloop, uuidStrValid]
  obtain ⟨i, valid⟩ := validLoop uuid 0 true
  cases valid with
  | false => simp
  | true => simp [UUID_STR_LEN]

/-- A character of a group is a digit. -/
theorem isxdigit_of_valid {uuid : List UInt8} (h : uuidStrValid uuid = true) {k : Nat} {c : UInt8}
    (hc : uuid[k]? = some c) (hk : isDash k = false) : isxdigit c = true := by
  have := ((uuidStrValid_iff uuid).mp h).2 k c hc
  rwa [charValid, hk] at this

def LowerCase (s : List UInt8) : Prop := ∀ c ∈ s, ¬(65 ≤ c ∧ c ≤ 70)

instance : DecidablePred LowerCase := fun _ => inferInstanceAs (Decidable (∀ _ ∈ _, _))

/-- The first three groups read the same in both byte orders. -/
def Mirrored (s : List UInt8) : Prop :=
  s.take 2 = (s.drop 6).take 2 ∧ (s.drop 2).take 2 = (s.drop 4).take 2 ∧
    (s.drop 9).take 2 = (s.drop 11).take 2 ∧ (s.drop 14).take 2 = (s.drop 16).take 2

instance : DecidablePred Mirrored := fun _ => inferInstanceAs (Decidable (_ ∧ _))

/-! ### Digits -/

def IsLowerDigit (c : UInt8) : Prop := isxdigit c = true ∧ ¬(65 ≤ c ∧ c ≤ 70)

instance : DecidablePred IsLowerDigit := fun _ => inferInstanceAs (Decidable (_ ∧ _))

/-- The value of some digits. -/
def hexValue (digits : List UInt8) : Nat :=
  digits.foldl (fun result c => result * 16 + strtoulValue c) 0

/-- The value of the digits that a string begins with. -/
def hexPrefix (s : List UInt8) : Nat := hexValue (s.takeWhile isxdigit)

/-- The digits at a place as a number of `n` bytes. -/
def hexField (n at' : Nat) (s : List UInt8) : List UInt8 := beBytes n (hexPrefix (s.drop at'))

theorem strtoulValue_lower {c : UInt8} (h : IsLowerDigit c) :
    strtoulValue c < 16 ∧ hexDigit (strtoulValue c) = c := by
  have all : ∀ n < 256, IsLowerDigit (UInt8.ofNat n) → strtoulValue (UInt8.ofNat n) < 16 ∧
      hexDigit (strtoulValue (UInt8.ofNat n)) = UInt8.ofNat n := by
    decide +kernel
  rw [← UInt8.ofNat_toNat (x := c)] at h ⊢
  exact all c.toNat c.toNat_lt h

theorem hexDigit_inj {m n : Nat} (hm : m < 16) (hn : n < 16) (h : hexDigit m = hexDigit n) :
    m = n := by
  have all : ∀ a < 16, ∀ b < 16, hexDigit a = hexDigit b → a = b := by decide
  exact all m hm n hn h

theorem hexByte_inj {a b : UInt8} (h : hexByte a = hexByte b) : a = b := by
  have ha := a.toNat_lt
  have hb := b.toNat_lt
  simp only [hexByte, List.cons.injEq, and_true] at h
  have hhi := hexDigit_inj (by omega) (by omega) h.1
  have hlo := hexDigit_inj (by omega) (by omega) h.2
  apply UInt8.toNat_inj.mp
  omega

theorem hexByte_digits {a b : UInt8} (value : Nat) (ha : IsLowerDigit a) (hb : IsLowerDigit b) :
    hexByte (UInt8.ofNat (value * 256 + (strtoulValue a * 16 + strtoulValue b))) = [a, b] := by
  obtain ⟨ha, ha'⟩ := strtoulValue_lower ha
  obtain ⟨hb, hb'⟩ := strtoulValue_lower hb
  have hbyte : (UInt8.ofNat (value * 256 + (strtoulValue a * 16 + strtoulValue b))).toNat =
      strtoulValue a * 16 + strtoulValue b := by
    rw [UInt8.toNat_ofNat']
    omega
  simp only [hexByte, hbyte]
  rw [show (strtoulValue a * 16 + strtoulValue b) / 16 = strtoulValue a by omega,
    show (strtoulValue a * 16 + strtoulValue b) % 16 = strtoulValue b by omega, ha', hb']

/-- The bytes of a number print as the digits it was read from. -/
theorem flatMap_hexByte_beBytes {n : Nat} {digits : List UInt8} (hlen : digits.length = 2 * n)
    (hdigits : ∀ c ∈ digits, IsLowerDigit c) :
    (beBytes n (hexValue digits)).flatMap hexByte = digits := by
  induction n generalizing digits with
  | zero =>
    obtain rfl : digits = [] := List.eq_nil_of_length_eq_zero hlen
    rfl
  | succ n ih =>
    obtain ⟨first, a, b, rfl⟩ : ∃ first a b, digits = first ++ [a, b] := by
      obtain ⟨a, b, hlast⟩ : ∃ a b, digits.drop (2 * n) = [a, b] := by
        apply List.length_eq_two.mp
        rw [List.length_drop]
        omega
      exact ⟨digits.take (2 * n), a, b, by rw [← hlast, List.take_append_drop]⟩
    have ha : IsLowerDigit a := hdigits a (by simp)
    have hb : IsLowerDigit b := hdigits b (by simp)
    have hvalue : hexValue (first ++ [a, b]) =
        hexValue first * 256 + (strtoulValue a * 16 + strtoulValue b) := by
      simp only [hexValue, List.foldl_append, List.foldl_cons, List.foldl_nil]
      omega
    have hlow := (strtoulValue_lower ha).1
    have hlow' := (strtoulValue_lower hb).1
    have hhigh : (hexValue first * 256 + (strtoulValue a * 16 + strtoulValue b)) / 256 =
        hexValue first := by omega
    have hlen' : first.length = 2 * n := by
      simp only [List.length_append, List.length_cons, List.length_nil] at hlen
      omega
    rw [beBytes, hvalue, hhigh, List.flatMap_append, List.flatMap_singleton,
      hexByte_digits _ ha hb, ih hlen' fun c hc => hdigits c (List.mem_append_left _ hc)]

/-! ### Numbers in a valid string -/

/-- What a digit is worth, and what it becomes in lower case. -/
theorem strtoulValue_spec {c : UInt8} (h : isxdigit c = true) :
    strtoulValue c < 16 ∧ strtoulValue (tolower c) = strtoulValue c := by
  have all : ∀ n < 256, isxdigit (UInt8.ofNat n) = true →
      strtoulValue (UInt8.ofNat n) < 16 ∧
        strtoulValue (tolower (UInt8.ofNat n)) = strtoulValue (UInt8.ofNat n) := by
    decide +kernel
  rw [← UInt8.ofNat_toNat (x := c)] at h ⊢
  exact all c.toNat c.toNat_lt h

theorem strtoulLoop_eq (size : Nat) (cp : List UInt8) {result : Nat} (hlt : result < size) :
    strtoulLoop size 16 cp result = (cp.takeWhile isxdigit).foldl
      (fun result c => result * 16 + strtoulValue c) result % size := by
  have hpos : 0 < size := by omega
  suffices h : ∀ n, strtoulLoop size 16 cp (n % size) = (cp.takeWhile isxdigit).foldl
      (fun result c => result * 16 + strtoulValue c) n % size by
    have := h result
    rwa [Nat.mod_eq_of_lt hlt] at this
  induction cp with
  | nil =>
    intro n
    rfl
  | cons c cp ih =>
    intro n
    rw [strtoulLoop]
    by_cases hc : isxdigit c = true
    · obtain ⟨hsmall, -⟩ := strtoulValue_spec hc
      rw [if_pos ⟨hc, hsmall⟩, List.takeWhile_cons_of_pos hc, List.foldl_cons, ← ih]
      congr 1
      rw [Nat.add_mod, Nat.mod_mul_mod, ← Nat.add_mod]
    · rw [if_neg (fun h => hc h.1), List.takeWhile_cons_of_neg hc, List.foldl_nil]

/-- No field of a valid string begins with `0x`. -/
theorem simpleStrtoul_eq {size : Nat} (hsize : 0 < size) {cp : List UInt8}
    (hradix : cp[1]? ≠ some 120) :
    simpleStrtoul size cp 16 = hexPrefix cp % size := by
  have hloop := strtoulLoop_eq size cp hsize
  rw [simpleStrtoul, hexPrefix, hexValue, ← hloop]
  split
  · rename_i hzero
    rw [if_neg (fun h => hradix h.1), if_neg (by decide)]
    cases cp with
    | nil => cases hzero
    | cons c cp =>
      rw [List.getElem?_cons_zero, Option.some.injEq] at hzero
      subst hzero
      have hdigit : isxdigit 48 = true ∧ strtoulValue 48 < 16 := by decide
      rw [strtoulLoop, if_pos hdigit, List.drop_one, List.tail_cons]
      rw [show strtoulValue 48 = 0 by decide, Nat.zero_mul, Nat.zero_add, Nat.zero_mod]
  · rw [if_neg (by decide)]

theorem getElem?_ne_x {uuid : List UInt8} (h : uuidStrValid uuid = true) {k : Nat}
    (hk : isDash (k + 1) = false) : (uuid.drop k)[1]? ≠ some 120 := by
  intro hx
  rw [List.getElem?_drop] at hx
  exact absurd (isxdigit_of_valid h hx hk) (by decide)

theorem leBytes_cpuToBe (n x : Nat) : leBytes n (cpuToBe n x) = beBytes n x := by
  have h := beBytes_beValue (leBytes n x)
  rw [length_leBytes] at h
  rw [cpuToBe, leBytes, h, leBytes, List.reverse_reverse]

theorem beBytes_mod_of_dvd {n k x : Nat} (h : n ≤ k) :
    beBytes n (x % 256 ^ k) = beBytes n x := by
  rw [← beBytes_mod n, Nat.mod_mod_of_dvd _ (Nat.pow_dvd_pow 256 h), beBytes_mod]

theorem beField_eq {n k : Nat} (hn : n ≤ 4) {uuid : List UInt8} (h : uuidStrValid uuid = true)
    (hk : isDash (k + 1) = false) : beField n (uuid.drop k) = hexField n k uuid := by
  rw [beField, leBytes_cpuToBe, simpleStrtoul_eq (by decide) (getElem?_ne_x h hk),
    show 2 ^ 32 = 256 ^ 4 by decide, beBytes_mod_of_dvd hn, hexField]

theorem leField_eq {n k : Nat} (hn : n ≤ 4) {uuid : List UInt8} (h : uuidStrValid uuid = true)
    (hk : isDash (k + 1) = false) : leField n (uuid.drop k) = (hexField n k uuid).reverse := by
  rw [leField, leBytes, simpleStrtoul_eq (by decide) (getElem?_ne_x h hk),
    show 2 ^ 32 = 256 ^ 4 by decide, beBytes_mod_of_dvd hn, hexField]

/-- The node: the last six bytes of a 64-bit number. -/
theorem node_eq {uuid : List UInt8} (h : uuidStrValid uuid = true) :
    slice (leBytes 8 (cpuToBe 8 (simpleStrtoul (2 ^ 64) (uuid.drop 24) 16))) 2 6 =
      hexField 6 24 uuid := by
  rw [leBytes_cpuToBe, simpleStrtoul_eq (by decide) (getElem?_ne_x h rfl),
    show 2 ^ 64 = 256 ^ 8 by decide, beBytes_mod_of_dvd (by decide), hexField,
    beBytes_add 2 6, slice, List.drop_left' (length_beBytes 2 _), List.take_of_length_le (by simp)]

/-! ### Groups -/

/-- The five groups of a valid string. -/
structure Groups (s : List UInt8) where
  g0 : List UInt8
  g1 : List UInt8
  g2 : List UInt8
  g3 : List UInt8
  g4 : List UInt8
  eq : s = g0 ++ 45 :: (g1 ++ 45 :: (g2 ++ 45 :: (g3 ++ 45 :: g4)))
  length0 : g0.length = 8
  length1 : g1.length = 4
  length2 : g2.length = 4
  length3 : g3.length = 4
  length4 : g4.length = 12
  digits : ∀ c ∈ g0 ++ g1 ++ g2 ++ g3 ++ g4, isxdigit c = true

theorem mem_slice {s : List UInt8} {i n : Nat} {c : UInt8} (h : c ∈ slice s i n) :
    ∃ k, i ≤ k ∧ k < i + n ∧ s[k]? = some c := by
  obtain ⟨j, hj⟩ := List.mem_iff_getElem?.mp h
  rw [slice, List.getElem?_take] at hj
  split_ifs at hj with hlt
  rw [List.getElem?_drop] at hj
  exact ⟨i + j, by omega, by omega, hj⟩

theorem uuidStrValid_spec {s : List UInt8} (h : uuidStrValid s = true) :
    s.length = 36 ∧ ∀ i c, s[i]? = some c → if isDash i then c = 45 else isxdigit c = true := by
  obtain ⟨hlen, hchars⟩ := (uuidStrValid_iff s).mp h
  refine ⟨hlen, fun i c hc => ?_⟩
  have hchar := hchars i c hc
  rw [charValid] at hchar
  split_ifs at hchar ⊢ with hdash
  · exact of_decide_eq_true hchar
  · exact hchar

theorem drop_dash {s : List UInt8} {i : Nat} (h : uuidStrValid s = true) (hi : i < 36)
    (hdash : isDash i = true) : s.drop i = 45 :: s.drop (i + 1) := by
  obtain ⟨hlen, hspec⟩ := uuidStrValid_spec h
  have hc := hspec i s[i] (List.getElem?_eq_getElem _)
  rw [if_pos hdash] at hc
  rw [List.drop_eq_getElem_cons (by omega), hc]

theorem length_slice_valid {s : List UInt8} (h : uuidStrValid s = true) {i n : Nat}
    (hle : i + n ≤ 36) : (slice s i n).length = n := by
  have hlen := (uuidStrValid_spec h).1
  rw [slice, List.length_take, List.length_drop]
  omega

theorem slices_valid {s : List UInt8} (h : uuidStrValid s = true) :
    s = slice s 0 8 ++ 45 :: (slice s 9 4 ++ 45 :: (slice s 14 4 ++ 45 :: (slice s 19 4 ++
      45 :: slice s 24 12))) := by
  have hlen := (uuidStrValid_spec h).1
  have step : ∀ i n, i + n < 36 → isDash (i + n) = true →
      s.drop i = slice s i n ++ 45 :: s.drop (i + n + 1) := by
    intro i n hlt hdash
    rw [← drop_dash h hlt hdash, slice, ← List.drop_drop, List.take_append_drop]
  have hlast : s.drop 24 = slice s 24 12 := by
    rw [slice, List.take_of_length_le]
    rw [List.length_drop]
    omega
  calc s = s.drop 0 := rfl
    _ = _ := by
      rw [step 0 8 (by decide) rfl, step 9 4 (by decide) rfl, step 14 4 (by decide) rfl,
        step 19 4 (by decide) rfl, hlast]

theorem slices_xdigit {s : List UInt8} (h : uuidStrValid s = true) :
    ∀ c ∈ slice s 0 8 ++ slice s 9 4 ++ slice s 14 4 ++ slice s 19 4 ++ slice s 24 12,
      isxdigit c = true := by
  have hslice : ∀ i n, (∀ k < 36, i ≤ k → k < i + n → isDash k = false) → i + n ≤ 36 →
      ∀ c ∈ slice s i n, isxdigit c = true := by
    intro i n hdash hle c hc
    obtain ⟨k, hik, hkn, hk⟩ := mem_slice hc
    have := (uuidStrValid_spec h).2 k c hk
    rwa [hdash k (by omega) hik hkn, if_neg Bool.false_ne_true] at this
  intro c hc
  simp only [List.mem_append] at hc
  obtain (((hc | hc) | hc) | hc) | hc := hc
  · exact hslice 0 8 (by decide) (by decide) c hc
  · exact hslice 9 4 (by decide) (by decide) c hc
  · exact hslice 14 4 (by decide) (by decide) c hc
  · exact hslice 19 4 (by decide) (by decide) c hc
  · exact hslice 24 12 (by decide) (by decide) c hc

/-- The groups of a valid string. -/
def groups {s : List UInt8} (h : uuidStrValid s = true) : Groups s where
  g0 := slice s 0 8
  g1 := slice s 9 4
  g2 := slice s 14 4
  g3 := slice s 19 4
  g4 := slice s 24 12
  eq := slices_valid h
  length0 := length_slice_valid h (by decide)
  length1 := length_slice_valid h (by decide)
  length2 := length_slice_valid h (by decide)
  length3 := length_slice_valid h (by decide)
  length4 := length_slice_valid h (by decide)
  digits := slices_xdigit h

theorem hexPrefix_digits {digits rest : List UInt8}
    (hdigits : ∀ c ∈ digits, isxdigit c = true) (hrest : rest.head?.all (fun c => !isxdigit c)) :
    hexPrefix (digits ++ rest) = hexValue digits := by
  have htake : (digits ++ rest).takeWhile isxdigit = digits := by
    rw [List.takeWhile_append_of_pos hdigits]
    cases rest with
    | nil => simp
    | cons c rest =>
      have hc : isxdigit c = false := by simpa using hrest
      simp [hc]
  rw [hexPrefix, htake]

/-- Dashes between the groups. -/
def dashed (digits : List UInt8) : List UInt8 :=
  digits.take 8 ++ 45 :: ((digits.drop 8).take 4 ++ 45 :: ((digits.drop 12).take 4 ++
    45 :: ((digits.drop 16).take 4 ++ 45 :: digits.drop 20)))

theorem dashed_groups {s : List UInt8} (g : Groups s) :
    dashed (g.g0 ++ g.g1 ++ g.g2 ++ g.g3 ++ g.g4) = s := by
  obtain ⟨g0, g1, g2, g3, g4, rfl, h0, h1, h2, h3, h4, -⟩ := g
  have drop8 : (g0 ++ (g1 ++ (g2 ++ (g3 ++ g4)))).drop 8 = g1 ++ (g2 ++ (g3 ++ g4)) :=
    List.drop_left' h0
  have drop12 : (g0 ++ (g1 ++ (g2 ++ (g3 ++ g4)))).drop 12 = g2 ++ (g3 ++ g4) := by
    rw [show 12 = 8 + 4 from rfl, ← List.drop_drop, drop8]
    exact List.drop_left' h1
  have drop16 : (g0 ++ (g1 ++ (g2 ++ (g3 ++ g4)))).drop 16 = g3 ++ g4 := by
    rw [show 16 = 12 + 4 from rfl, ← List.drop_drop, drop12]
    exact List.drop_left' h2
  have drop20 : (g0 ++ (g1 ++ (g2 ++ (g3 ++ g4)))).drop 20 = g4 := by
    rw [show 20 = 16 + 4 from rfl, ← List.drop_drop, drop16]
    exact List.drop_left' h3
  rw [dashed, List.append_assoc, List.append_assoc, List.append_assoc, drop8, drop12, drop16,
    drop20, List.take_left' h0, List.take_left' h1, List.take_left' h2, List.take_left' h3]

theorem hexField_group {s b digits r : List UInt8} {i n : Nat}
    (hs : s = b ++ (digits ++ r)) (hi : b.length = i)
    (hdigits : ∀ c ∈ digits, isxdigit c = true) (hrest : r.head?.all (fun c => !isxdigit c)) :
    hexField n i s = beBytes n (hexValue digits) := by
  rw [hexField, hs, List.drop_left' hi, hexPrefix_digits hdigits hrest]

/-- The fields of a string in the order in which they are stored. -/
def fields (s : List UInt8) : UuidFormat → List UInt8
  | .std => hexField 4 0 s ++ hexField 2 9 s ++ hexField 2 14 s ++ hexField 2 19 s ++
      hexField 6 24 s
  | .guid => (hexField 4 0 s).reverse ++ (hexField 2 9 s).reverse ++
      (hexField 2 14 s).reverse ++ hexField 2 19 s ++ hexField 6 24 s

/-- The fields are those of the groups of digits. -/
theorem uuidStrToBin_eq {uuid : List UInt8} (h : uuidStrValid uuid = true) (format : UuidFormat) :
    uuidStrToBin uuid format = some (fields uuid format) := by
  have b0 := @beField_eq 4 0 (by decide) uuid h rfl
  have l0 := @leField_eq 4 0 (by decide) uuid h rfl
  rw [List.drop_zero] at b0 l0
  unfold uuidStrToBin fields
  dsimp only
  rw [if_pos h, node_eq h]
  cases format with
  | std =>
    simp only [b0, beField_eq (show 2 ≤ 4 by decide) h (show isDash (9 + 1) = false from rfl),
      beField_eq (show 2 ≤ 4 by decide) h (show isDash (14 + 1) = false from rfl),
      beField_eq (show 2 ≤ 4 by decide) h (show isDash (19 + 1) = false from rfl)]
  | guid =>
    simp only [l0, leField_eq (show 2 ≤ 4 by decide) h (show isDash (9 + 1) = false from rfl),
      leField_eq (show 2 ≤ 4 by decide) h (show isDash (14 + 1) = false from rfl),
      beField_eq (show 2 ≤ 4 by decide) h (show isDash (19 + 1) = false from rfl)]

theorem fields_std {s : List UInt8} (h : uuidStrValid s = true) (hlower : LowerCase s) :
    (fields s .std).length = 16 ∧ s = dashed ((fields s .std).flatMap hexByte) := by
  obtain ⟨g0, g1, g2, g3, g4, heq, h0, h1, h2, h3, h4, hdigits⟩ := id (groups h)
  have lower : ∀ c ∈ g0 ++ g1 ++ g2 ++ g3 ++ g4, IsLowerDigit c := by
    intro c hc
    refine ⟨hdigits c hc, hlower c ?_⟩
    rw [heq]
    simp only [List.mem_append, List.mem_cons] at hc ⊢
    tauto
  have f0 : hexField 4 0 s = beBytes 4 (hexValue g0) :=
    hexField_group (b := []) heq rfl (fun c hc => hdigits c (by simp [hc])) rfl
  have f1 : hexField 2 9 s = beBytes 2 (hexValue g1) :=
    hexField_group (b := g0 ++ [45]) (by simpa using heq) (by simp [h0])
      (fun c hc => hdigits c (by simp [hc])) rfl
  have f2 : hexField 2 14 s = beBytes 2 (hexValue g2) :=
    hexField_group (b := g0 ++ 45 :: (g1 ++ [45])) (by simpa using heq) (by simp [h0, h1])
      (fun c hc => hdigits c (by simp [hc])) rfl
  have f3 : hexField 2 19 s = beBytes 2 (hexValue g3) :=
    hexField_group (b := g0 ++ 45 :: (g1 ++ 45 :: (g2 ++ [45]))) (by simpa using heq)
      (by simp [h0, h1, h2]) (fun c hc => hdigits c (by simp [hc])) rfl
  have f4 : hexField 6 24 s = beBytes 6 (hexValue g4) :=
    hexField_group (b := g0 ++ 45 :: (g1 ++ 45 :: (g2 ++ 45 :: (g3 ++ [45])))) (r := [])
      (by simpa using heq) (by simp [h0, h1, h2, h3]) (fun c hc => hdigits c (by simp [hc])) rfl
  have hall : (beBytes 4 (hexValue g0) ++ beBytes 2 (hexValue g1) ++ beBytes 2 (hexValue g2) ++
      beBytes 2 (hexValue g3) ++ beBytes 6 (hexValue g4)).flatMap hexByte =
        g0 ++ g1 ++ g2 ++ g3 ++ g4 := by
    simp only [List.flatMap_append]
    rw [flatMap_hexByte_beBytes h0 fun c hc => lower c (by simp [hc]),
      flatMap_hexByte_beBytes h1 fun c hc => lower c (by simp [hc]),
      flatMap_hexByte_beBytes h2 fun c hc => lower c (by simp [hc]),
      flatMap_hexByte_beBytes h3 fun c hc => lower c (by simp [hc]),
      flatMap_hexByte_beBytes h4 fun c hc => lower c (by simp [hc])]
  rw [fields, f0, f1, f2, f3, f4]
  constructor
  · simp
  · rw [hall]
    exact (dashed_groups ⟨g0, g1, g2, g3, g4, heq, h0, h1, h2, h3, h4, hdigits⟩).symm

theorem length_fields (s : List UInt8) (format : UuidFormat) : (fields s format).length = 16 := by
  cases format <;> simp [fields, hexField]

theorem uuidStrToBin_some {s bin : List UInt8} {format : UuidFormat}
    (h : uuidStrToBin s format = some bin) : uuidStrValid s = true ∧ bin = fields s format := by
  have hvalid : uuidStrValid s = true := by
    by_contra hno
    simp [uuidStrToBin, hno] at h
  exact ⟨hvalid, Option.some.inj (h.symm.trans (uuidStrToBin_eq hvalid format))⟩

theorem length_uuidStrToBin {s bin : List UInt8} {format : UuidFormat}
    (h : uuidStrToBin s format = some bin) : bin.length = 16 := by
  rw [(uuidStrToBin_some h).2, length_fields]

/-- A string that is stored as a UUID and printed as a GUID comes back if and
only if its first three groups are mirrored. -/
theorem guid_of_std_eq_iff {s bin : List UInt8} (hlower : LowerCase s)
    (hbin : uuidStrToBin s .std = some bin) : uuidBinToStr bin .guid = s ↔ Mirrored s := by
  obtain ⟨hvalid, rfl⟩ := uuidStrToBin_some hbin
  obtain ⟨hlen, hs⟩ := fields_std hvalid hlower
  generalize fields s .std = bin at hlen hs ⊢
  match bin, hlen with
  | [b0, b1, b2, b3, b4, b5, b6, b7, b8, b9, b10, b11, b12, b13, b14, b15], _ =>
    have hmirrored : Mirrored s ↔ hexByte b0 = hexByte b3 ∧ hexByte b1 = hexByte b2 ∧
        hexByte b4 = hexByte b5 ∧ hexByte b6 = hexByte b7 := by
      rw [hs]
      exact Iff.rfl
    rw [hmirrored, hs]
    constructor
    · intro h
      have h0 : hexByte b3 = hexByte b0 := congrArg (List.take 2) h
      have h1 : hexByte b2 = hexByte b1 := congrArg (fun s => (s.drop 2).take 2) h
      have h4 : hexByte b5 = hexByte b4 := congrArg (fun s => (s.drop 9).take 2) h
      have h6 : hexByte b7 = hexByte b6 := congrArg (fun s => (s.drop 14).take 2) h
      exact ⟨h0.symm, h1.symm, h4.symm, h6.symm⟩
    · rintro ⟨h0, h1, h4, h6⟩
      obtain rfl := hexByte_inj h0
      obtain rfl := hexByte_inj h1
      obtain rfl := hexByte_inj h4
      obtain rfl := hexByte_inj h6
      rfl

end UBoot.Uuid
