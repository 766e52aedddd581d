import UBoot.Gpt.Uuid

/-!
# From UUID strings to bytes and back

`uuid_str_to_bin` and `uuid_bin_to_str` undo each other in both formats, up to the case of the
digits.
-/

namespace UBoot.Uuid

open Verification

/-! ### Printing -/

/-- The digits of a string without the dashes. -/
def undashed (s : List UInt8) : List UInt8 :=
  s.take 8 ++ ((s.drop 9).take 4 ++ ((s.drop 14).take 4 ++ ((s.drop 19).take 4 ++ s.drop 24)))

theorem flatMap_hexByte_inj {bs cs : List UInt8} (h : bs.flatMap hexByte = cs.flatMap hexByte) :
    bs = cs := by
  induction bs generalizing cs with
  | nil =>
    cases cs with
    | nil => rfl
    | cons c cs => cases h
  | cons b bs ih =>
    cases cs with
    | nil => cases h
    | cons c cs =>
      rw [List.flatMap_cons, List.flatMap_cons] at h
      obtain ⟨hbyte, hrest⟩ := List.append_inj h rfl
      rw [hexByte_inj hbyte, ih hrest]

/-- Different bytes are printed differently. -/
theorem uuidBinToStr_inj {bin bin' : List UInt8} (hlen : bin.length = 16)
    (hlen' : bin'.length = 16) {format : UuidFormat}
    (h : uuidBinToStr bin format = uuidBinToStr bin' format) : bin = bin' := by
  have hdigits : ∀ {b : List UInt8}, b.length = 16 → undashed (uuidBinToStr b format) =
      ((charOrder format).map fun i => b.getD i 0).flatMap hexByte := by
    intro b hb
    cases format <;> rfl
  have hmap := congrArg undashed h
  rw [hdigits hlen, hdigits hlen'] at hmap
  have hbytes := flatMap_hexByte_inj hmap
  match bin, hlen, bin', hlen' with
  | [_, _, _, _, _, _, _, _, _, _, _, _, _, _, _, _], _,
      [_, _, _, _, _, _, _, _, _, _, _, _, _, _, _, _], _ =>
    cases format <;> cases hbytes <;> rfl

/-- The lower case of a string is in lower case. -/
theorem tolower_spec (c : UInt8) :
    isxdigit (tolower c) = isxdigit c ∧ ¬(65 ≤ tolower c ∧ tolower c ≤ 70) := by
  have all : ∀ n < 256, isxdigit (tolower (UInt8.ofNat n)) = isxdigit (UInt8.ofNat n) ∧
      ¬(65 ≤ tolower (UInt8.ofNat n) ∧ tolower (UInt8.ofNat n) ≤ 70) := by
    decide +kernel
  rw [← UInt8.ofNat_toNat (x := c)]
  exact all c.toNat c.toNat_lt

/-! ### The round trips -/

theorem uuidStrValid_map_tolower {uuid : List UInt8} (h : uuidStrValid uuid = true) :
    uuidStrValid (uuid.map tolower) = true := by
  obtain ⟨hlen, hchars⟩ := (uuidStrValid_iff uuid).mp h
  refine (uuidStrValid_iff _).mpr ⟨by rw [List.length_map, hlen], fun k c hc => ?_⟩
  rw [List.getElem?_map, Option.map_eq_some_iff] at hc
  obtain ⟨d, hd, rfl⟩ := hc
  have := hchars k d hd
  rw [charValid] at this ⊢
  split_ifs at this ⊢ with hdash
  · obtain rfl : d = 45 := by simpa using this
    rfl
  · rw [(tolower_spec d).1, this]

theorem lowerCase_map_tolower (uuid : List UInt8) : LowerCase (uuid.map tolower) := by
  intro c hc
  obtain ⟨d, -, rfl⟩ := List.mem_map.mp hc
  exact (tolower_spec d).2

/-- The case of the digits makes no difference to the fields. -/
theorem hexField_map_tolower (n k : Nat) (uuid : List UInt8) :
    hexField n k (uuid.map tolower) = hexField n k uuid := by
  have htake : ∀ s : List UInt8, (s.map tolower).takeWhile isxdigit =
      (s.takeWhile isxdigit).map tolower := by
    intro s
    rw [List.takeWhile_map]
    congr 2
    funext c
    exact (tolower_spec c).1
  have hvalue : ∀ s : List UInt8, (∀ c ∈ s, isxdigit c = true) → ∀ m,
      s.foldl (fun result c => result * 16 + strtoulValue (tolower c)) m =
        s.foldl (fun result c => result * 16 + strtoulValue c) m := by
    intro s hs
    induction s with
    | nil => exact fun _ => rfl
    | cons c s ih =>
      intro m
      rw [List.foldl_cons, List.foldl_cons, (strtoulValue_spec (hs c List.mem_cons_self)).2]
      exact ih (fun d hd => hs d (List.mem_cons_of_mem c hd)) _
  rw [hexField, hexField, ← List.map_drop, hexPrefix, hexPrefix, hexValue, hexValue, htake,
    List.foldl_map, hvalue _ fun c hc => List.mem_takeWhile_imp hc]

theorem length_eq_six {l : List UInt8} (h : l.length = 6) :
    ∃ a b c d e f, l = [a, b, c, d, e, f] := by
  obtain _ | ⟨a, _ | ⟨b, l⟩⟩ := l
  · exact absurd h (by decide)
  · exact absurd h (by simp)
  · obtain ⟨c, d, e, f, rfl⟩ := List.length_eq_four.mp (Nat.add_right_cancel (m := 2) h)
    exact ⟨a, b, c, d, e, f, rfl⟩

/-- Printed as it was read: the order of the bytes cancels out. -/
theorem uuidBinToStr_uuidStrToBin {uuid : List UInt8} (h : uuidStrValid uuid = true)
    (format : UuidFormat) : ∃ bin, uuidStrToBin uuid format = some bin ∧ bin.length = 16 ∧
      uuidBinToStr bin format = uuid.map tolower := by
  obtain ⟨-, hprint⟩ := fields_std (uuidStrValid_map_tolower h) (lowerCase_map_tolower uuid)
  simp only [fields, hexField_map_tolower] at hprint
  rw [uuidStrToBin_eq h, hprint]
  simp only [fields]
  have h0 := length_beBytes 4 (hexPrefix (uuid.drop 0))
  have h1 := length_beBytes 2 (hexPrefix (uuid.drop 9))
  have h2 := length_beBytes 2 (hexPrefix (uuid.drop 14))
  have h3 := length_beBytes 2 (hexPrefix (uuid.drop 19))
  have h4 := length_beBytes 6 (hexPrefix (uuid.drop 24))
  simp only [hexField]
  generalize beBytes 4 (hexPrefix (uuid.drop 0)) = f0 at *
  generalize beBytes 2 (hexPrefix (uuid.drop 9)) = f1 at *
  generalize beBytes 2 (hexPrefix (uuid.drop 14)) = f2 at *
  generalize beBytes 2 (hexPrefix (uuid.drop 19)) = f3 at *
  generalize beBytes 6 (hexPrefix (uuid.drop 24)) = f4 at *
  obtain ⟨_, _, _, _, rfl⟩ := List.length_eq_four.mp h0
  obtain ⟨_, _, rfl⟩ := List.length_eq_two.mp h1
  obtain ⟨_, _, rfl⟩ := List.length_eq_two.mp h2
  obtain ⟨_, _, rfl⟩ := List.length_eq_two.mp h3
  obtain ⟨_, _, _, _, _, _, rfl⟩ := length_eq_six h4
  cases format with
  | std => exact ⟨_, rfl, rfl, rfl⟩
  | guid => exact ⟨_, rfl, rfl, rfl⟩

theorem hexDigit_spec {n : Nat} (h : n < 16) :
    isxdigit (hexDigit n) = true ∧ tolower (hexDigit n) = hexDigit n := by
  have all : ∀ m < 16, isxdigit (hexDigit m) = true ∧ tolower (hexDigit m) = hexDigit m := by
    decide
  exact all n h

/-- What is printed is valid, and in lower case. -/
theorem uuidStrValid_uuidBinToStr {bin : List UInt8} (hlen : bin.length = 16)
    (format : UuidFormat) : uuidStrValid (uuidBinToStr bin format) = true ∧
      (uuidBinToStr bin format).map tolower = uuidBinToStr bin format := by
  have hdigit : ∀ b : UInt8, isxdigit (hexDigit (b.toNat / 16)) = true ∧
      isxdigit (hexDigit (b.toNat % 16)) = true ∧
        tolower (hexDigit (b.toNat / 16)) = hexDigit (b.toNat / 16) ∧
          tolower (hexDigit (b.toNat % 16)) = hexDigit (b.toNat % 16) := by
    intro b
    have hb := b.toNat_lt
    have hhigh := hexDigit_spec (show b.toNat / 16 < 16 by omega)
    have hlow := hexDigit_spec (show b.toNat % 16 < 16 by omega)
    exact ⟨hhigh.1, hlow.1, hhigh.2, hlow.2⟩
  have hrange : List.range 16 = [0, 1, 2, 3, 4, 5, 6, 7, 8, 9, 10, 11, 12, 13, 14, 15] := rfl
  have hdash : tolower 45 = 45 := rfl
  match bin, hlen with
  | [_, _, _, _, _, _, _, _, _, _, _, _, _, _, _, _], _ =>
    cases format with
    | std =>
      simp [uuidBinToStr, hrange, printByte, charOrder, hexByte, uuidStrValid, validLoop,
        charValid, isDash, UUID_STR_LEN, hdigit, hdash]
    | guid =>
      simp [uuidBinToStr, hrange, printByte, charOrder, hexByte, uuidStrValid, validLoop,
        charValid, isDash, UUID_STR_LEN, hdigit, hdash]

theorem uuidStrToBin_uuidBinToStr {bin : List UInt8} (hlen : bin.length = 16)
    (format : UuidFormat) : uuidStrToBin (uuidBinToStr bin format) format = some bin := by
  obtain ⟨hvalid, hlower⟩ := uuidStrValid_uuidBinToStr hlen format
  obtain ⟨bin', hbin', hlen', hprint⟩ := uuidBinToStr_uuidStrToBin hvalid format
  rw [hlower] at hprint
  rw [hbin', uuidBinToStr_inj hlen' hlen hprint]

/-- Reading and printing undo each other in both formats, up to the case of the digits,
and the strings that are accepted are those of 36 characters with dashes in four places
and digits elsewhere. -/
theorem uuid_strings (format : UuidFormat) :
    (∀ s, uuidStrValid s = true → ∃ bin, uuidStrToBin s format = some bin ∧ bin.length = 16 ∧
      uuidBinToStr bin format = s.map tolower) ∧
    (∀ b : List UInt8, b.length = 16 →
      uuidStrToBin (uuidBinToStr b format) format = some b) ∧
    ∀ s : List UInt8, uuidStrValid s = true ↔ s.length = 36 ∧ ∀ i c, s[i]? = some c →
      if i = 8 ∨ i = 13 ∨ i = 18 ∨ i = 23 then c = 45
      else (48 ≤ c ∧ c ≤ 57) ∨ (65 ≤ c ∧ c ≤ 70) ∨ (97 ≤ c ∧ c ≤ 102) := by
  refine ⟨fun s h => uuidBinToStr_uuidStrToBin h format,
    fun b h => uuidStrToBin_uuidBinToStr h format, fun s => ?_⟩
  have hchar : ∀ i c, charValid i c = true ↔ if i = 8 ∨ i = 13 ∨ i = 18 ∨ i = 23 then c = 45
      else (48 ≤ c ∧ c ≤ 57) ∨ (65 ≤ c ∧ c ≤ 70) ∨ (97 ≤ c ∧ c ≤ 102) := by
    intro i c
    simp only [charValid, isDash, isxdigit, isdigit, islowerHex, decide_eq_true_eq]
    split_ifs <;> simp [or_assoc]
  rw [uuidStrValid_iff]
  refine and_congr_right fun _ => forall_congr' fun i => forall_congr' fun c => ?_
  rw [hchar]

example : uuidBinToStr ((List.range 16).map UInt8.ofNat) .guid =
    ascii "03020100-0504-0706-0809-0a0b0c0d0e0f" := by
  decide

end UBoot.Uuid
