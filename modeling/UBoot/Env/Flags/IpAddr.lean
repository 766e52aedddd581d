import Mathlib.Tactic.Ring
import UBoot.Env.Flags.Basic

/-!
# Values of type ipaddr

The check of a value counts digits, and `string_to_ip` converts numbers and keeps
eight bits of each. They agree on where a component ends, but the check lets
numbers above 255 through, of which the conversion drops the upper bits.
-/

namespace UBoot.Env.Flags

open HashTable (Str)

/-! ### Converting -/

/-- The value of a digit in `simple_strtoul`. -/
def digitValue (c : UInt8) : Nat :=
  if isdigit c then c.toNat - 48 else if 97 ≤ c then c.toNat - 87 else c.toNat - 55

/-- The base in which `simple_strtoul` reads, called with base 10, and from where on. -/
def numberBase (cp : Str) : Nat × Str :=
  match cp with
  | 48 :: 120 :: c :: rest => if isxdigit c then (16, c :: rest) else (10, 120 :: c :: rest)
  | 48 :: rest => (10, rest)
  | cp => (10, cp)

/-- `simple_strtoul` with base 10: the number, and what follows it. -/
def simpleStrtoul (cp : Str) : Nat × Str :=
  let (base, cp) := numberBase cp
  let digit := fun c => decide (isxdigit c ∧ digitValue c < base)
  ((cp.takeWhile digit).foldl (fun result c => (result * base + digitValue c) % 4294967296) 0,
    cp.dropWhile digit)

/-- `htonl` and `ntohl` on a machine with the low byte first. -/
def htonl (x : Nat) : Nat :=
  x % 256 * 16777216 + x / 256 % 256 * 65536 + x / 65536 % 256 * 256 + x / 16777216 % 256

/-- The loop of `string_to_ip`. -/
def stringToIpLoop : Nat → Str → Nat → Nat
  | 0, _, addr => addr
  | parts + 1, s, addr =>
    let (val, e) := simpleStrtoul s
    stringToIpLoop parts (e.drop 1) ((addr <<< 8) % 4294967296 ||| (val &&& 0xFF))

/-- `string_to_ip` -/
def stringToIp (s : Option Str) : Nat :=
  match s with
  | none => 0
  | some s => htonl (stringToIpLoop 4 s 0)

/-- `put_dec_trunc`, with the least significant digit first. -/
def putDecTrunc (q : Nat) : Str :=
  let d1 := (q >>> 4) &&& 0xf
  let d2 := (q >>> 8) &&& 0xf
  let d3 := q >>> 12
  let d0 := 6 * (d3 + d2 + d1) + (q &&& 0xf)
  let q := (d0 * 0xcd) >>> 11
  let c0 := UInt8.ofNat (d0 - 10 * q + 48)
  let d1 := q + 9 * d3 + 5 * d2 + d1
  if d1 ≠ 0 then
    let q := (d1 * 0xcd) >>> 11
    let c1 := UInt8.ofNat (d1 - 10 * q + 48)
    let d2 := q + 2 * d2
    if d2 ≠ 0 ∨ d3 ≠ 0 then
      let q := (d2 * 0xd) >>> 7
      let c2 := UInt8.ofNat (d2 - 10 * q + 48)
      let d3 := q + 4 * d3
      if d3 ≠ 0 then
        let q := (d3 * 0xcd) >>> 11
        let c3 := UInt8.ofNat (d3 - 10 * q + 48)
        if q ≠ 0 then [c0, c1, c2, c3, UInt8.ofNat (q + 48)] else [c0, c1, c2, c3]
      else [c0, c1, c2]
    else [c0, c1]
  else [c0]

/-- `%d` for a number below 100000. -/
def formatD (num : Nat) : Str := if num = 0 then [48] else (putDecTrunc num).reverse

/-- `ip_to_string` -/
def ipToString (x : Nat) : Str :=
  let x := htonl x
  [46].intercalate [formatD ((x >>> 24) &&& 0xff), formatD ((x >>> 16) &&& 0xff),
    formatD ((x >>> 8) &&& 0xff), formatD ((x >>> 0) &&& 0xff)]

/-! ### What a value stands for -/

/-- The number that decimal digits stand for. -/
def decimalValue (digits : Str) : Nat := digits.foldl (fun n c => n * 10 + (c.toNat - 48)) 0

/-- The numbers between the dots. -/
def components (s : Str) : List Nat := (s.splitOn 46).map decimalValue

/-- The address with these components, the first one in the upper bits. -/
def address (numbers : List Nat) : Nat := numbers.foldl (fun addr n => addr * 256 + n) 0

/-- The value is an address with four components, which converting gives, and which
formatting and converting again gives back. -/
structure StandsForAddress (s : Str) : Prop where
  four : (components s).length = 4
  bounded : ∀ n ∈ components s, n ≤ 255
  converted : stringToIp (some s) = htonl (address (components s))
  formatted : stringToIp (some (ipToString (stringToIp (some s)))) = stringToIp (some s)

/-- What the check lets through between the dots. -/
structure Component (part : Str) : Prop where
  nonempty : part ≠ []
  short : part.length ≤ 3
  digits : ∀ c ∈ part, isdigit c = true

/-! ### Numbers -/

theorem isdigit_dot : isdigit 46 = false := by decide

theorem Component.noDot {part : Str} (h : Component part) : 46 ∉ part := by
  intro hmem
  have := h.digits 46 hmem
  rw [isdigit_dot] at this
  cases this

theorem digitValue_of_isdigit {c : UInt8} (h : isdigit c = true) :
    digitValue c = c.toNat - 48 ∧ c.toNat - 48 < 10 := by
  refine ⟨if_pos h, ?_⟩
  simp only [isdigit, decide_eq_true_eq, UInt8.le_iff_toNat_le] at h
  have := h.2
  simp at this
  omega

/-- Reading digits in 32 bits, as long as there is room. -/
theorem foldl_digits {digits : Str} (hdigits : ∀ c ∈ digits, isdigit c = true) (n : Nat)
    (hroom : (n + 1) * 10 ^ digits.length ≤ 4294967296) :
    digits.foldl (fun result c => (result * 10 + digitValue c) % 4294967296) n =
      digits.foldl (fun n c => n * 10 + (c.toNat - 48)) n := by
  induction digits generalizing n with
  | nil => rfl
  | cons c digits ih =>
    obtain ⟨hvalue, hlt⟩ := digitValue_of_isdigit (hdigits c List.mem_cons_self)
    rw [List.length_cons, Nat.pow_succ'] at hroom
    have hpos : 0 < 10 ^ digits.length := Nat.pow_pos (by decide)
    have hnext : (n * 10 + (c.toNat - 48) + 1) * 10 ^ digits.length ≤ 4294967296 := by
      refine Nat.le_trans (Nat.mul_le_mul_right _ (show _ ≤ (n + 1) * 10 by omega)) ?_
      rwa [Nat.mul_assoc]
    have hfits : n * 10 + (c.toNat - 48) < 4294967296 := by
      have := Nat.le_trans (Nat.le_mul_of_pos_right _ hpos) hnext
      omega
    rw [List.foldl_cons, List.foldl_cons, hvalue, Nat.mod_eq_of_lt hfits]
    exact ih (fun d hd => hdigits d (List.mem_cons_of_mem _ hd)) _ hnext

/-- What follows a component: another one, or nothing. -/
def AtDot (rest : Str) : Prop := ∀ c ∈ rest.head?, c = 46

theorem numberBase_component {part rest : Str} (h : Component part) (hrest : AtDot rest) :
    ∃ digits, numberBase (part ++ rest) = (10, digits ++ rest) ∧
      (∀ c ∈ digits, isdigit c = true) ∧ digits.length ≤ 3 ∧
      decimalValue digits = decimalValue part := by
  obtain ⟨c, part, rfl⟩ := List.exists_cons_of_ne_nil h.nonempty
  have hshort := h.short
  rw [List.length_cons] at hshort
  by_cases hc : c = 48
  · subst hc
    refine ⟨part, ?_, fun d hd => h.digits d (List.mem_cons_of_mem _ hd), by omega, rfl⟩
    -- no `x` follows the zero
    rw [List.cons_append, numberBase.eq_def]
    split
    · rename_i c rest' heq
      have hx : (120 : UInt8) ∈ (part ++ rest).head? := by
        rw [(List.cons.inj heq).2]
        rfl
      cases part with
      | nil => exact absurd (hrest 120 hx) (by decide)
      | cons d part =>
        obtain rfl : d = 120 := Option.some.inj hx
        exact absurd (h.digits 120 (by simp)) (by decide)
    · rename_i heq
      rw [(List.cons.inj heq).2]
    · rename_i hno
      exact absurd rfl (hno _)
  · refine ⟨c :: part, ?_, h.digits, h.short, rfl⟩
    rw [numberBase.eq_def]
    split
    · rename_i heq
      exact absurd (List.cons.inj heq).1 hc
    · rename_i heq
      exact absurd (List.cons.inj heq).1 hc
    · rfl

theorem simpleStrtoul_component {part : Str} (h : Component part) (rest : Str)
    (hrest : AtDot rest) :
    simpleStrtoul (part ++ rest) = (decimalValue part, rest) := by
  obtain ⟨digits, hbase, hdigits, hshort, hvalue⟩ := numberBase_component h hrest
  have hpass : ∀ c ∈ digits, decide (isxdigit c = true ∧ digitValue c < 10) = true := by
    intro c hc
    obtain ⟨heq, hlt⟩ := digitValue_of_isdigit (hdigits c hc)
    rw [decide_eq_true_eq, heq]
    exact ⟨by simp [isxdigit, hdigits c hc], hlt⟩
  have hstop : rest.takeWhile (fun c => decide (isxdigit c = true ∧ digitValue c < 10)) = [] ∧
      rest.dropWhile (fun c => decide (isxdigit c = true ∧ digitValue c < 10)) = rest := by
    cases rest with
    | nil => exact ⟨rfl, rfl⟩
    | cons c rest =>
      obtain rfl : c = 46 := hrest c rfl
      exact ⟨rfl, rfl⟩
  have hroom : (0 + 1) * 10 ^ digits.length ≤ 4294967296 := by
    rw [Nat.zero_add, Nat.one_mul]
    exact Nat.le_trans (Nat.pow_le_pow_right (by decide) hshort) (by decide)
  simp only [simpleStrtoul, hbase]
  rw [List.takeWhile_append_of_pos hpass, hstop.1, List.append_nil,
    List.dropWhile_append_of_pos hpass, hstop.2, foldl_digits hdigits 0 hroom, ← hvalue]
  rfl

/-! ### Addresses -/

/-- One turn of `string_to_ip`. -/
theorem shift_or (addr val : Nat) :
    (addr <<< 8) % 4294967296 ||| (val &&& 0xFF) = addr * 256 % 4294967296 + val % 256 := by
  have hval : val &&& 0xFF = val % 256 := Nat.and_two_pow_sub_one_eq_mod val 8
  have haddr : addr * 256 % 4294967296 = (addr % 16777216) <<< 8 := by
    rw [Nat.shiftLeft_eq]
    omega
  rw [hval, Nat.shiftLeft_eq, haddr]
  exact (Nat.shiftLeft_add_eq_or_of_lt (show val % 2 ^ 8 < 2 ^ 8 by omega) _).symm

theorem stringToIpLoop_intercalate {parts : List Str} (hparts : ∀ part ∈ parts, Component part)
    (addr : Nat) :
    stringToIpLoop parts.length ([46].intercalate parts) addr =
      (parts.map decimalValue).foldl
        (fun addr n => addr * 256 % 4294967296 + n % 256) addr := by
  induction parts generalizing addr with
  | nil => rfl
  | cons part parts ih =>
    have hpart := hparts part List.mem_cons_self
    have hrest := ih fun part hmem => hparts part (List.mem_cons_of_mem _ hmem)
    cases parts with
    | nil =>
      have hread := simpleStrtoul_component hpart [] (by simp [AtDot])
      rw [List.append_nil] at hread
      rw [List.intercalate_singleton, List.length_singleton, stringToIpLoop, hread]
      simp only [stringToIpLoop, shift_or, List.map_cons, List.map_nil, List.foldl_cons,
        List.foldl_nil]
    | cons next parts =>
      have hread := simpleStrtoul_component hpart (46 :: [46].intercalate (next :: parts))
        (by simp [AtDot])
      rw [List.intercalate_cons_cons, List.append_assoc, List.singleton_append,
        List.length_cons, stringToIpLoop, hread]
      simp only [List.drop_one, List.tail_cons]
      rw [shift_or, hrest, @List.map_cons _ _ decimalValue part, List.foldl_cons]

/-- Only eight bits of every component count. -/
theorem stringToIp_intercalate {parts : List Str} (hparts : ∀ part ∈ parts, Component part)
    (hfour : parts.length = 4) :
    stringToIp (some ([46].intercalate parts)) =
      htonl (address (parts.map fun part => decimalValue part % 256)) := by
  have hloop := stringToIpLoop_intercalate hparts 0
  rw [hfour] at hloop
  rw [stringToIp, hloop]
  obtain ⟨a, b, c, d, rfl⟩ : ∃ a b c d, parts = [a, b, c, d] :=
    match parts, hfour with
    | [a, b, c, d], _ => ⟨a, b, c, d, rfl⟩
  simp only [address, List.map_cons, List.map_nil, List.foldl_cons, List.foldl_nil]
  congr 1
  omega

theorem components_intercalate {parts : List Str} (hparts : ∀ part ∈ parts, Component part)
    (hne : parts ≠ []) : components ([46].intercalate parts) = parts.map decimalValue := by
  rw [components, List.splitOn_intercalate 46 (fun part hmem => (hparts part hmem).noDot) hne]

/-- `%d` writes a byte as a component with its number. -/
theorem formatD_byte {n : Nat} (h : n < 256) :
    Component (formatD n) ∧ decimalValue (formatD n) = n := by
  have hall : ∀ n < 256, formatD n ≠ [] ∧ (formatD n).length ≤ 3 ∧
      (formatD n).all isdigit = true ∧ decimalValue (formatD n) = n := by
    decide +kernel
  obtain ⟨hne, hshort, hdigits, hvalue⟩ := hall n h
  exact ⟨⟨hne, hshort, List.all_eq_true.mp hdigits⟩, hvalue⟩

theorem htonl_lt (x : Nat) : htonl x < 4294967296 := by
  rw [htonl]
  omega

theorem address_bytes {a b c d : Nat} (ha : a < 256) (hb : b < 256) (hc : c < 256) (hd : d < 256) :
    address [a, b, c, d] / 16777216 % 256 = a ∧ address [a, b, c, d] / 65536 % 256 = b ∧
      address [a, b, c, d] / 256 % 256 = c ∧ address [a, b, c, d] % 256 = d := by
  simp only [address, List.foldl_cons, List.foldl_nil]
  refine ⟨?_, ?_, ?_, ?_⟩ <;> omega

theorem exists_address {x : Nat} (h : x < 4294967296) :
    ∃ a b c d, a < 256 ∧ b < 256 ∧ c < 256 ∧ d < 256 ∧ x = address [a, b, c, d] := by
  refine ⟨x / 16777216, x / 65536 % 256, x / 256 % 256, x % 256, by omega, by omega, by omega,
    by omega, ?_⟩
  simp only [address, List.foldl_cons, List.foldl_nil]
  omega

/-- The bytes in the other order. -/
theorem htonl_address {a b c d : Nat} (ha : a < 256) (hb : b < 256) (hc : c < 256) (hd : d < 256) :
    htonl (address [a, b, c, d]) = address [d, c, b, a] := by
  obtain ⟨h3, h2, h1, h0⟩ := address_bytes ha hb hc hd
  rw [htonl, h0, h1, h2, h3]
  simp only [address, List.foldl_cons, List.foldl_nil]
  omega

/-- Formatting an address and converting it again gives it back. -/
theorem stringToIp_ipToString {x : Nat} (h : x < 4294967296) :
    stringToIp (some (ipToString x)) = x := by
  obtain ⟨a, b, c, d, ha, hb, hc, hd, rfl⟩ := exists_address h
  obtain ⟨h3, h2, h1, h0⟩ := address_bytes hd hc hb ha
  have hbyte : ∀ n : Nat, n &&& 0xff = n % 256 := fun n => Nat.and_two_pow_sub_one_eq_mod n 8
  have htext : ipToString (address [a, b, c, d]) =
      [46].intercalate ([d, c, b, a].map formatD) := by
    simp only [ipToString, htonl_address ha hb hc hd, hbyte, Nat.shiftRight_eq_div_pow]
    norm_num only
    rw [Nat.div_one, h0, h1, h2, h3]
    rfl
  have hbytes : ∀ n ∈ [d, c, b, a], n < 256 := by
    simp [ha, hb, hc, hd]
  have hparts : ∀ part ∈ [d, c, b, a].map formatD, Component part := by
    intro part hpart
    obtain ⟨n, hn, rfl⟩ := List.mem_map.mp hpart
    exact (formatD_byte (hbytes n hn)).1
  have hnumbers : ([d, c, b, a].map formatD).map (fun part => decimalValue part % 256) =
      [d, c, b, a] := by
    rw [List.map_map, List.map_congr_left, List.map_id]
    intro n hn
    rw [Function.comp_apply, (formatD_byte (hbytes n hn)).2]
    exact Nat.mod_eq_of_lt (hbytes n hn)
  rw [htext, stringToIp_intercalate hparts rfl, hnumbers, htonl_address hd hc hb ha]

/-! ### Accepted values -/

/-- One component of an accepted value. -/
theorem validateParts_component {parts : Nat} {s : Str} (hnul : 0 ∉ s)
    (h : validateParts false 3 46 (parts + 1) s = true) :
    ∃ part rest, s = part ++ rest ∧ Component part ∧
      ((parts = 0 ∧ rest = []) ∨
        parts ≠ 0 ∧ ∃ rest', rest = 46 :: rest' ∧ validateParts false 3 46 parts rest' = true) := by
  -- the digits are the first ones among three bytes
  have hskip : s = (s.take 3).takeWhile isdigit ++ skipNum false s (some 3) := by
    simp only [skipNum, Bool.false_and, Bool.false_eq_true, if_false]
    rw [← List.append_assoc, List.takeWhile_append_dropWhile, List.take_append_drop]
  refine ⟨_, skipNum false s (some 3), hskip, ?_⟩
  have hlen := congrArg List.length hskip
  rw [List.length_append] at hlen
  have hnul' : 0 ∉ skipNum false s (some 3) := fun hmem => hnul (by
    rw [hskip]
    exact List.mem_append_right _ hmem)
  have hshort : ((s.take 3).takeWhile isdigit).length ≤ 3 :=
    ((List.takeWhile_prefix isdigit).length_le).trans (List.length_take_le 3 s)
  generalize hpart : (s.take 3).takeWhile isdigit = part at hlen hshort ⊢
  rw [validateParts] at h
  generalize skipNum false s (some 3) = rest at h hlen hnul' ⊢
  by_cases hne : rest.length = s.length
  · rw [if_pos hne] at h
    cases h
  by_cases hend : rest.headD 0 = if parts = 0 then 0 else 46
  · rw [if_neg hne, if_neg (by simp), if_neg (not_not.mpr hend)] at h
    refine ⟨⟨?_, hshort, ?_⟩, ?_⟩
    · rintro rfl
      exact hne (by simpa using hlen.symm)
    · intro c hc
      rw [← hpart] at hc
      exact List.mem_takeWhile_imp hc
    · by_cases hparts : parts = 0
      · rw [if_pos hparts] at hend
        refine Or.inl ⟨hparts, ?_⟩
        cases rest with
        | nil => rfl
        | cons c rest => exact absurd (hend ▸ List.mem_cons_self) hnul'
      · rw [if_neg hparts] at hend
        refine Or.inr ⟨hparts, rest.tail, ?_, by rwa [← List.drop_one]⟩
        cases rest with
        | nil => exact absurd hend (by decide)
        | cons c rest => exact congrArg (· :: rest) hend
  · rw [if_neg hne, if_neg (by simp), if_pos hend] at h
    cases h

/-- An accepted value has the right number of components, with dots between them. -/
theorem validateParts_components {parts : Nat} (hparts : parts ≠ 0) {s : Str} (hnul : 0 ∉ s)
    (h : validateParts false 3 46 parts s = true) :
    ∃ list : List Str, list.length = parts ∧ (∀ part ∈ list, Component part) ∧
      s = [46].intercalate list := by
  induction parts generalizing s with
  | zero => exact absurd rfl hparts
  | succ parts ih =>
    obtain ⟨part, rest, rfl, hpart, hend⟩ := validateParts_component hnul h
    rcases hend with ⟨rfl, rfl⟩ | ⟨hne, rest, rfl, hrest⟩
    · refine ⟨[part], rfl, ?_, by rw [List.append_nil, List.intercalate_singleton]⟩
      intro p hp
      rwa [List.mem_singleton.mp hp]
    · obtain ⟨list, hlen, hlist, rfl⟩ := ih hne
        (fun hmem => hnul (List.mem_append_right _ (List.mem_cons_of_mem _ hmem))) hrest
      obtain ⟨next, list, rfl⟩ := List.exists_cons_of_length_pos
        (show 0 < list.length by omega)
      refine ⟨part :: next :: list, by rw [List.length_cons, hlen], ?_, ?_⟩
      · intro p hp
        rcases List.mem_cons.mp hp with rfl | hp
        · exact hpart
        · exact hlist p hp
      · rw [List.intercalate_cons_cons, List.append_assoc, List.singleton_append]

/-- An accepted value is converted to the address of its components without their upper
bits. -/
theorem stringToIp_accepted {s : Str} (hnul : 0 ∉ s) (h : validateType s .ipaddr = true) :
    (components s).length = 4 ∧
      stringToIp (some s) = htonl (address ((components s).map (· % 256))) := by
  obtain ⟨list, hlen, hlist, rfl⟩ := validateParts_components (by decide) hnul h
  have hne : list ≠ [] := List.ne_nil_of_length_pos (by omega)
  rw [components_intercalate hlist hne, stringToIp_intercalate hlist hlen, List.length_map,
    List.map_map]
  exact ⟨hlen, rfl⟩

/-- An accepted value stands for the address that it is converted to, exactly when none of
its components is above 255. -/
theorem ipaddr_stands_iff (s : Str) (hnul : 0 ∉ s) (h : validateType s .ipaddr = true) :
    StandsForAddress s ↔ ∀ n ∈ components s, n ≤ 255 := by
  obtain ⟨hfour, hconverted⟩ := stringToIp_accepted hnul h
  refine ⟨fun hstands => hstands.bounded, fun hbounded => ⟨hfour, hbounded, ?_, ?_⟩⟩
  · have hsame : (components s).map (· % 256) = components s := by
      rw [List.map_congr_left fun n hn => Nat.mod_eq_of_lt (Nat.lt_succ_of_le (hbounded n hn)),
        List.map_id']
    rw [hconverted, hsame]
  · rw [hconverted]
    exact stringToIp_ipToString (htonl_lt _)

/-- `192.168.0.1` -/
theorem ipaddr_stands_private :
    StandsForAddress [49, 57, 50, 46, 49, 54, 56, 46, 48, 46, 49] :=
  (ipaddr_stands_iff _ (by decide) (by decide)).mpr (by decide)

/-- `256.0.0.1` is accepted, and converted to `0.0.0.1`. -/
theorem ipaddr_drops_bits :
    ¬∀ s : Str, 0 ∉ s → validateType s .ipaddr = true → StandsForAddress s := by
  intro hall
  have hstands := hall [50, 53, 54, 46, 48, 46, 48, 46, 49] (by decide) (by decide)
  exact absurd (hstands.bounded 256 (by decide)) (by decide)

end UBoot.Env.Flags
