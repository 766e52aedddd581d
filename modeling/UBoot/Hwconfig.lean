import UBoot.Env.Flags.Attr
import UBoot.Verification.Bytes

/-!
# Hardware options

`common/hwconfig.c`: a list of options `name[:arguments]` with separators between
them. `hwconfig_parse` searches the list for the text of a name, and goes on
behind a place that is no whole item.
-/

namespace UBoot.Hwconfig

open HashTable (Str)
open Verification (ascii)
open Env.Flags (strstr strstr_cases)

/-- A character of the set stands at a place: `strpbrk(p, stopchs) == p`. -/
def AtStop (s stopchs : Str) (p : Nat) : Prop := s.getD p 0 ≠ 0 ∧ s.getD p 0 ∈ stopchs

instance (s stopchs : Str) (p : Nat) : Decidable (AtStop s stopchs p) :=
  inferInstanceAs (Decidable (_ ∧ _))

/-- A name may end in front of this place. -/
def Ends (s stopchs : Str) (eqch : UInt8) (p : Nat) : Prop :=
  AtStop s stopchs p ∨ s.getD p 0 = eqch ∨ s.getD p 0 = 0

instance (s stopchs : Str) (eqch : UInt8) (p : Nat) : Decidable (Ends s stopchs eqch p) :=
  inferInstanceAs (Decidable (_ ∨ _ ∨ _))

/-- Subtraction of `size_t`. -/
def sizeSub (a b : Nat) : Nat := (a + (2 ^ 32 - b % 2 ^ 32)) % 2 ^ 32

/-- The argument behind the name at `str`, and its length. -/
def argument (start : Str) (maxlen : Nat) (opt stopchs : Str) (eqch : UInt8) (str : Nat) :
    Option (Nat × Nat) :=
  let ende := str + opt.length
  if start.getD ende 0 ≠ eqch then none
  else
    let arglen :=
      match (start.drop str).findIdx? (· ∈ stopchs) with
      | none => sizeSub (sizeSub (min maxlen (start.length - str)) opt.length) 1
      | some argEnd => sizeSub (sizeSub (str + argEnd) ende) 1
    some (ende + 1, arglen)

/-- `hwconfig_parse` from the place `opts` of the list on: the place of the name, or
with `arglen` the place and the length of the argument. A search that never ends
runs out of fuel. -/
def parseFrom (start : Str) (maxlen : Nat) (opt stopchs : Str) (eqch : UInt8) (arglen : Bool) :
    Nat → Nat → Option (Option (Nat × Option Nat))
  | 0, _ => none
  | fuel + 1, opts =>
    match strstr opt (start.drop opts) with
    | none => some none
    | some i =>
      let str := opts + i
      let ende := str + opt.length
      if ende > maxlen then some none
      else if (str = opts ∨ AtStop start stopchs (str - 1)) ∧ Ends start stopchs eqch ende then
        if !arglen then some (some (str, none))
        else some ((argument start maxlen opt stopchs eqch str).map fun (p, n) => (p, some n))
      else parseFrom start maxlen opt stopchs eqch arglen fuel ende

/-- `hwconfig_parse` -/
def hwconfigParse (opts : Str) (maxlen : Nat) (opt stopchs : Str) (eqch : UInt8) (arglen : Bool)
    (fuel : Nat) : Option (Option (Nat × Option Nat)) :=
  parseFrom opts maxlen opt stopchs eqch arglen fuel 0

/-! ### Items -/

section Items

variable (opts : Str) (maxlen : Nat) (opt stopchs : Str) (eqch : UInt8)

/-- The word stands at a place. -/
def Stands (p : Nat) : Prop := opt <+: opts.drop p ∧ p ≤ opts.length

/-- The word is a whole item of the first `maxlen` characters. -/
structure Item (p : Nat) : Prop where
  stands : Stands opts opt p
  fits : p + opt.length ≤ maxlen
  starts : p = 0 ∨ AtStop opts stopchs (p - 1)
  ends : Ends opts stopchs eqch (p + opt.length)

/-- The first item, or none where there is no item. -/
def FirstItem : Option Nat → Prop
  | none => ∀ p, ¬Item opts maxlen opt stopchs eqch p
  | some p => Item opts maxlen opt stopchs eqch p ∧ ∀ q < p, ¬Item opts maxlen opt stopchs eqch q

/-- The search ends and returns the first item. -/
def Finds : Prop :=
  ∃ fuel r, hwconfigParse opts maxlen opt stopchs eqch false fuel = some (r.map fun p => (p, none)) ∧
    FirstItem opts maxlen opt stopchs eqch r

/-- The places reached when the list is read from the left, and each copy of the
word that is met is taken off as a whole. -/
inductive Reads : Nat → Prop
  | start : Reads 0
  | skip {p : Nat} : Reads p → ¬Stands opts opt p → Reads (p + 1)
  | copy {p : Nat} : Reads p → Stands opts opt p → Reads (p + opt.length)

/-- A copy of the word is followed at once by another one, which ends like an item. -/
structure Doubled (p : Nat) : Prop where
  reads : Reads opts opt p
  first : Stands opts opt p
  second : Stands opts opt (p + opt.length)
  fits : p + opt.length + opt.length ≤ maxlen
  ends : Ends opts stopchs eqch (p + opt.length + opt.length)

end Items

section Reading

variable {opts opt stopchs : Str} {maxlen : Nat} {eqch : UInt8}

theorem Stands.le_length {p : Nat} (hne : opt ≠ []) (h : Stands opts opt p) :
    p + opt.length ≤ opts.length := by
  have hlen := h.1.length_le
  have hpos := List.length_pos_iff.mpr hne
  rw [List.length_drop] at hlen
  omega

/-- A character inside a copy is one of the word. -/
theorem Stands.mem {p q : Nat} (h : Stands opts opt p) (hp : p ≤ q) (hq : q < p + opt.length) :
    opts.getD q 0 ∈ opt := by
  obtain ⟨rest, hrest⟩ := h.1
  have hi : q - p < opt.length := by omega
  have hget : (opts.drop p)[q - p]? = some opt[q - p] := by
    rw [← hrest, List.getElem?_append_left hi, List.getElem?_eq_getElem hi]
  rw [List.getElem?_drop, show p + (q - p) = q by omega] at hget
  rw [List.getD_eq_getElem?_getD, hget]
  exact List.getElem_mem hi

/-- No item begins inside or behind a copy without a separator. -/
theorem not_starts_of_copy {p q : Nat} (hword : ∀ c ∈ opt, c ∉ stopchs)
    (h : Stands opts opt p) (hp : p < q) (hq : q ≤ p + opt.length) :
    ¬(q = 0 ∨ AtStop opts stopchs (q - 1)) := by
  rintro (rfl | hstop)
  · exact absurd hp (Nat.not_lt_zero p)
  · exact hword _ (h.mem (by omega) (by omega)) hstop.2

/-- Copies that are taken off do not overlap. -/
theorem Reads.le_of_lt (hne : opt ≠ []) {o : Nat} (ho : Reads opts opt o) :
    ∀ {p : Nat}, Reads opts opt p → Stands opts opt p → p < o → p + opt.length ≤ o := by
  have hpos := List.length_pos_iff.mpr hne
  induction o using Nat.strong_induction_on with
  | _ n ih =>
    intro p hp hstands hlt
    cases ho with
    | start => exact absurd hlt (Nat.not_lt_zero p)
    | @skip o ho hnot =>
      by_cases heq : p = o
      · exact absurd (heq ▸ hstands) hnot
      · exact Nat.le_succ_of_le (ih o (by omega) ho hp hstands (by omega))
    | @copy o ho hstands' =>
      rcases Nat.lt_trichotomy p o with hbefore | rfl | hbehind
      · have hle := ih o (by omega) ho hp hstands hbefore
        omega
      · exact Nat.le_refl _
      · have hle := ih p (by omega) hp ho hstands' hbehind
        omega

/-- Without a copy in between the reading goes on character by character. -/
theorem Reads.skips {o i : Nat} (h : Reads opts opt o)
    (hnot : ∀ q, o ≤ q → q < o + i → ¬Stands opts opt q) : Reads opts opt (o + i) := by
  induction i with
  | zero => exact h
  | succ i ih =>
    exact (ih fun q hle hlt => hnot q hle (by omega)).skip (hnot _ (by omega) (by omega))

/-- What `strstr` finds from a place on. -/
theorem strstr_spec {o : Nat} (ho : o ≤ opts.length) :
    (strstr opt (opts.drop o) = none ∧ ∀ q, o ≤ q → ¬Stands opts opt q) ∨
      ∃ i, strstr opt (opts.drop o) = some i ∧ Stands opts opt (o + i) ∧
        ∀ q, o ≤ q → q < o + i → ¬Stands opts opt q := by
  rcases strstr_cases opt (opts.drop o) with ⟨hnone, hall⟩ | ⟨i, hsome, hpre, hle, hmin⟩
  · refine .inl ⟨hnone, fun q hq hstands => ?_⟩
    have hlen := hstands.2
    have hat := hall (q - o) (by rw [List.length_drop]; omega)
    rw [List.drop_drop, show o + (q - o) = q by omega] at hat
    exact hat hstands.1
  · rw [List.length_drop] at hle
    rw [List.drop_drop] at hpre
    refine .inr ⟨i, hsome, ⟨hpre, by omega⟩, fun q hq hlt hstands => ?_⟩
    have hat := hmin (q - o) (by omega)
    rw [List.drop_drop, show o + (q - o) = q by omega] at hat
    exact hat hstands.1

end Reading

/-! ### The search -/

section Search

variable {opts opt stopchs : Str} {maxlen : Nat} {eqch : UInt8}

/-- The search from a place on ends with the first item of the list. -/
def FindsFrom (opts : Str) (maxlen : Nat) (opt stopchs : Str) (eqch : UInt8) (o : Nat) : Prop :=
  ∃ fuel r, parseFrom opts maxlen opt stopchs eqch false fuel o = some (r.map fun p => (p, none)) ∧
    FirstItem opts maxlen opt stopchs eqch r

/-- What is known where the search is taken up at `o`. -/
structure Searched (opts : Str) (maxlen : Nat) (opt stopchs : Str) (eqch : UInt8) (o : Nat) :
    Prop where
  reads : Reads opts opt o
  le_length : o ≤ opts.length
  noItem : ∀ q < o, ¬Item opts maxlen opt stopchs eqch q
  behindCopy : o = 0 ∨ ∃ q, q + opt.length = o ∧ Reads opts opt q ∧ Stands opts opt q
  noDouble : ∀ p, Doubled opts maxlen opt stopchs eqch p → o ≤ p + opt.length

/-- A search whose first round ends it. -/
theorem findsFrom_iff {o : Nat} {r : Option Nat}
    (h : ∀ fuel, parseFrom opts maxlen opt stopchs eqch false (fuel + 1) o =
      some (r.map fun p => (p, none))) :
    FindsFrom opts maxlen opt stopchs eqch o ↔ FirstItem opts maxlen opt stopchs eqch r := by
  constructor
  · rintro ⟨_ | fuel, r', hrun, hfirst⟩
    · cases hrun
    · rw [h fuel, Option.some_inj] at hrun
      have hinj : Function.Injective fun p : Nat => (p, (none : Option Nat)) := fun p q hpq =>
        congrArg Prod.fst hpq
      rwa [Option.map_injective hinj hrun]
  · exact fun hfirst => ⟨1, r, h 0, hfirst⟩

/-- A search that is taken up again behind a copy. -/
theorem findsFrom_congr {o o' : Nat}
    (h : ∀ fuel, parseFrom opts maxlen opt stopchs eqch false (fuel + 1) o =
      parseFrom opts maxlen opt stopchs eqch false fuel o') :
    FindsFrom opts maxlen opt stopchs eqch o ↔ FindsFrom opts maxlen opt stopchs eqch o' := by
  constructor
  · rintro ⟨_ | fuel, r, hrun, hfirst⟩
    · cases hrun
    · exact ⟨fuel, r, (h fuel).symm.trans hrun, hfirst⟩
  · rintro ⟨fuel, r, hrun, hfirst⟩
    exact ⟨fuel + 1, r, (h fuel).trans hrun, hfirst⟩

namespace Searched

variable {o i : Nat}

/-- The second copy of a doubled word is at or behind the first place found. -/
theorem le_double (hs : Searched opts maxlen opt stopchs eqch o)
    (hnot : ∀ q, o ≤ q → q < o + i → ¬Stands opts opt q) {p : Nat}
    (hd : Doubled opts maxlen opt stopchs eqch p) : o + i ≤ p + opt.length := by
  by_contra hlt
  exact hnot _ (hs.noDouble p hd) (by omega) hd.second

/-- The first copy of a doubled word is the one just in front, or at or behind the
first place found. -/
theorem double_cases (hne : opt ≠ []) (hs : Searched opts maxlen opt stopchs eqch o)
    (hnot : ∀ q, o ≤ q → q < o + i → ¬Stands opts opt q) {p : Nat}
    (hd : Doubled opts maxlen opt stopchs eqch p) :
    o + i ≤ p ∨ (p + opt.length = o ∧ i = 0) := by
  have hsecond := hs.le_double hnot hd
  by_cases hp : o ≤ p
  · refine .inl ?_
    by_contra hlt
    exact hnot p hp (by omega) hd.first
  · have hle := hs.reads.le_of_lt hne hd.reads hd.first (by omega)
    exact .inr (by omega)

theorem noItem_of_not_stands (hs : Searched opts maxlen opt stopchs eqch o)
    (hnot : ∀ q, o ≤ q → q < o + i → ¬Stands opts opt q) :
    ∀ q < o + i, ¬Item opts maxlen opt stopchs eqch q := by
  intro q hq hitem
  rcases Nat.lt_or_ge q o with hlt | hge
  · exact hs.noItem q hlt hitem
  · exact hnot q hge hq hitem.stands

/-- A rejected copy is passed over as a whole. -/
theorem next (hne : opt ≠ []) (hword : ∀ c ∈ opt, c ∉ stopchs)
    (hs : Searched opts maxlen opt stopchs eqch o) (hstands : Stands opts opt (o + i))
    (hnot : ∀ q, o ≤ q → q < o + i → ¬Stands opts opt q)
    (hfits : o + i + opt.length ≤ maxlen)
    (hreject : ¬((o + i = o ∨ AtStop opts stopchs (o + i - 1)) ∧
      Ends opts stopchs eqch (o + i + opt.length))) :
    Searched opts maxlen opt stopchs eqch (o + i + opt.length) where
  reads := (hs.reads.skips hnot).copy hstands
  le_length := hstands.le_length hne
  noItem := by
    intro q hq hitem
    rcases Nat.lt_trichotomy q (o + i) with hlt | rfl | hgt
    · exact hs.noItem_of_not_stands hnot q hlt hitem
    · refine hreject ⟨?_, hitem.ends⟩
      rcases hitem.starts with hzero | hstop
      · exact .inl (by omega)
      · exact .inr hstop
    · exact not_starts_of_copy hword hstands hgt hq.le hitem.starts
  behindCopy := .inr ⟨o + i, rfl, hs.reads.skips hnot, hstands⟩
  noDouble := by
    intro p hd
    rcases hs.double_cases hne hnot hd with hle | ⟨heq, rfl⟩
    · exact Nat.add_le_add_right hle _
    · rw [Nat.add_zero] at hreject
      exact absurd ⟨.inl rfl, heq ▸ hd.ends⟩ hreject

/-- The place just behind a copy is taken for the start of an item. -/
theorem doubled_of_accepted (hs : Searched opts maxlen opt stopchs eqch o)
    (hstands : Stands opts opt o) (hfits : o + opt.length ≤ maxlen)
    (hends : Ends opts stopchs eqch (o + opt.length))
    (hnot : ¬Item opts maxlen opt stopchs eqch o) :
    ∃ p, p + opt.length = o ∧ Doubled opts maxlen opt stopchs eqch p := by
  rcases hs.behindCopy with rfl | ⟨q, rfl, hreads, hcopy⟩
  · exact absurd ⟨hstands, hfits, .inl rfl, hends⟩ hnot
  · exact ⟨q, rfl, hreads, hcopy, hstands, hfits, hends⟩

end Searched

/-- The search finds the first item unless a copy behind another one is taken for it. -/
theorem findsFrom_iff_noDouble (hne : opt ≠ []) (hword : ∀ c ∈ opt, c ∉ stopchs) {o : Nat}
    (hs : Searched opts maxlen opt stopchs eqch o) :
    FindsFrom opts maxlen opt stopchs eqch o ↔
      ∀ p, Doubled opts maxlen opt stopchs eqch p →
        ∃ e ≤ p, Item opts maxlen opt stopchs eqch e := by
  have hpos := List.length_pos_iff.mpr hne
  induction hn : opts.length - o using Nat.strong_induction_on generalizing o with
  | _ n ih =>
    rcases @strstr_spec opts opt o hs.le_length with ⟨hnone, hall⟩ | ⟨i, hsome, hstands, hnot⟩
    · -- the word is not found any more
      rw [@findsFrom_iff opts opt stopchs maxlen eqch o none fun fuel => by
        rw [parseFrom, hnone]; rfl]
      refine iff_of_true (fun q hitem => ?_) fun p hd => ?_
      · rcases Nat.lt_or_ge q o with hlt | hge
        · exact hs.noItem q hlt hitem
        · exact hall q hge hitem.stands
      · exact absurd hd.second (hall _ (hs.noDouble p hd))
    · by_cases hfits : o + i + opt.length > maxlen
      · -- it ends behind the list
        rw [@findsFrom_iff opts opt stopchs maxlen eqch o none fun fuel => by
          rw [parseFrom, hsome]; exact if_pos hfits]
        refine iff_of_true (fun q hitem => ?_) fun p hd => ?_
        · rcases Nat.lt_or_ge q (o + i) with hlt | hge
          · exact hs.noItem_of_not_stands hnot q hlt hitem
          · have hle := hitem.fits
            omega
        · have hle := hs.le_double hnot hd
          have hend := hd.fits
          omega
      by_cases haccept : (o + i = o ∨ AtStop opts stopchs (o + i - 1)) ∧
          Ends opts stopchs eqch (o + i + opt.length)
      · rw [@findsFrom_iff opts opt stopchs maxlen eqch o (some (o + i)) fun fuel => by
          rw [parseFrom, hsome]; exact (if_neg hfits).trans (if_pos haccept)]
        by_cases hitem : Item opts maxlen opt stopchs eqch (o + i)
        · refine iff_of_true ⟨hitem, hs.noItem_of_not_stands hnot⟩ fun p hd => ?_
          rcases hs.double_cases hne hnot hd with hle | ⟨heq, rfl⟩
          · exact ⟨o + i, hle, hitem⟩
          · exact absurd hitem.starts
              (not_starts_of_copy hword hd.first (by omega) (by omega))
        · have hi : o + i = o := haccept.1.resolve_right fun hstop =>
            hitem ⟨hstands, by omega, .inr hstop, haccept.2⟩
          obtain rfl : i = 0 := by omega
          obtain ⟨p, hp, hd⟩ := hs.doubled_of_accepted hstands (by omega) haccept.2 hitem
          refine iff_of_false (fun hfirst => hitem hfirst.1) fun hall => ?_
          obtain ⟨e, he, hfound⟩ := hall p hd
          exact hs.noItem e (by omega) hfound
      · have hle := hstands.le_length hne
        rw [findsFrom_congr fun fuel => by
          rw [parseFrom, hsome]; exact (if_neg hfits).trans (if_neg haccept)]
        exact ih _ (by omega) (hs.next hne hword hstands hnot (by omega) haccept) rfl

theorem searched_start : Searched opts maxlen opt stopchs eqch 0 :=
  ⟨.start, Nat.zero_le _, fun _ hq => absurd hq (Nat.not_lt_zero _), .inl rfl,
    fun _ _ => Nat.zero_le _⟩

/-- An empty word is found at the start of the list, or searched for ever. -/
theorem findsFrom_nil_iff :
    FindsFrom opts maxlen [] stopchs eqch 0 ↔ Ends opts stopchs eqch 0 := by
  have hstart : strstr [] (opts.drop 0) = some 0 := by cases opts <;> rfl
  by_cases hends : Ends opts stopchs eqch 0
  · rw [@findsFrom_iff opts [] stopchs maxlen eqch 0 (some 0) fun fuel => by
      rw [parseFrom, hstart]
      exact (if_neg (Nat.not_lt_zero _)).trans (if_pos ⟨.inl rfl, hends⟩)]
    exact iff_of_true ⟨⟨⟨List.nil_prefix, Nat.zero_le _⟩, Nat.zero_le _, .inl rfl, hends⟩,
      fun _ hq => absurd hq (Nat.not_lt_zero _)⟩ hends
  · refine iff_of_false ?_ hends
    rintro ⟨fuel, r, hrun, -⟩
    have hforever : parseFrom opts maxlen [] stopchs eqch false fuel 0 = none := by
      clear hrun
      induction fuel with
      | zero => rfl
      | succ fuel ih =>
        rw [parseFrom, hstart]
        exact (if_neg (Nat.not_lt_zero _)).trans ((if_neg fun h => hends h.2).trans ih)
    rw [hforever] at hrun
    cases hrun

/-- The search returns the first item exactly when no doubled word comes in front of
every item; an empty word has to end where the list starts. -/
theorem finds_iff (opts : Str) (maxlen : Nat) (opt stopchs : Str) (eqch : UInt8)
    (hword : ∀ c ∈ opt, c ∉ stopchs) :
    Finds opts maxlen opt stopchs eqch ↔
      if opt = [] then Ends opts stopchs eqch 0
      else ∀ p, Doubled opts maxlen opt stopchs eqch p →
        ∃ e ≤ p, Item opts maxlen opt stopchs eqch e := by
  by_cases hne : opt = []
  · subst hne
    rw [if_pos rfl]
    exact findsFrom_nil_iff
  · rw [if_neg hne]
    exact findsFrom_iff_noDouble hne hword searched_start

-- the instance for lists: the one for finite types goes through all bytes
theorem key_noStop : ∀ c ∈ ascii "key", c ∉ ascii ";" :=
  @of_decide_eq_true _ (List.decidableBAll _ _) rfl

/-- The word `key` in the list `a;key:1`. -/
theorem finds_key : Finds (ascii "a;key:1") 7 (ascii "key")
    (ascii ";") 58 ↔
      if ascii "key" = [] then
        Ends (ascii "a;key:1") (ascii ";") 58 0
      else ∀ p, Doubled (ascii "a;key:1") 7 (ascii "key")
          (ascii ";") 58 p →
        ∃ e ≤ p, Item (ascii "a;key:1") 7 (ascii "key")
          (ascii ";") 58 e :=
  finds_iff _ _ _ _ _ key_noStop

/-- The list `keykey` has no item `key`, but its second half is found. -/
theorem not_finds_keykey : ¬Finds (ascii "keykey") 6 (ascii "key")
    (ascii ";") 58 := by
  intro hfinds
  have hdouble : Doubled (ascii "keykey") 6 (ascii "key")
      (ascii ";") 58 0 :=
    ⟨.start, ⟨by decide, by decide⟩, ⟨by decide, by decide⟩, by decide, by decide⟩
  obtain ⟨e, he, hitem⟩ :=
    (findsFrom_iff_noDouble (by decide) key_noStop searched_start).mp hfinds 0 hdouble
  obtain rfl : e = 0 := Nat.le_zero.mp he
  exact absurd hitem.ends (by decide)

example : hwconfigParse (ascii "keykey") 6 (ascii "key")
    (ascii ";") 58 false 3 = some (some (3, none)) := by decide

end Search

end UBoot.Hwconfig
