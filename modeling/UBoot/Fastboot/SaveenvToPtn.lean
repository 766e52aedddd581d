import Mathlib.Data.List.Basic
import Mathlib.Data.List.TakeWhile
import UBoot.Fastboot.ParseEnv

/-!
# When the text is saved as it is

A line is read by the pieces that are left of it: behind its first blanks, behind its name
and behind the blanks after the name. At each character the pointers of `parse_env` point to
the starts of these pieces.
-/

namespace UBoot.Fastboot.Saveenv

open Verification

/-! ## The pieces of a line -/

/-- A line from its name on, nothing for a comment. -/
def word (line : List UInt8) : List UInt8 :=
  if (line.dropWhile isBlank).head? = some 35 then [] else line.dropWhile isBlank

/-- What is behind the name. -/
def gap (w : List UInt8) : List UInt8 := w.dropWhile fun c => !isBlank c

def value (w : List UInt8) : List UInt8 := (gap w).dropWhile isBlank

@[simp] theorem word_nil : word [] = [] := rfl

@[simp] theorem gap_nil : gap [] = [] := rfl

@[simp] theorem value_nil : value [] = [] := rfl

theorem dropWhile_concat (p : UInt8 → Bool) (l : List UInt8) (c : UInt8) :
    (l ++ [c]).dropWhile p =
      if l.dropWhile p = [] then (if p c then [] else [c]) else l.dropWhile p ++ [c] := by
  rw [List.dropWhile_append]
  by_cases h : l.dropWhile p = []
  · cases hc : p c <;> simp [h, hc]
  · simp [h]

theorem word_suffix (line : List UInt8) : word line <:+ line := by
  rw [word]
  split_ifs with h
  · exact List.nil_suffix
  · exact List.dropWhile_suffix _

theorem word_eq_nil {line : List UInt8} :
    word line = [] ↔ (line.dropWhile isBlank).head? = some 35 ∨ line.dropWhile isBlank = [] := by
  rw [word]
  split_ifs with h <;> simp [h]

theorem dropWhile_comment {line : List UInt8} (h : (line.dropWhile isBlank).head? = some 35)
    (c : UInt8) : ((line ++ [c]).dropWhile isBlank).head? = some 35 := by
  have hne : line.dropWhile isBlank ≠ [] := by
    intro hempty
    simp [hempty] at h
  rw [dropWhile_concat, if_neg hne, List.head?_append, h]
  rfl

theorem word_comment {line : List UInt8} (h : (line.dropWhile isBlank).head? = some 35)
    (c : UInt8) : word (line ++ [c]) = [] :=
  if_pos (dropWhile_comment h c)

theorem word_ne_comment {line : List UInt8} (h : word line ≠ []) :
    (line.dropWhile isBlank).head? ≠ some 35 :=
  fun hhead => h (word_eq_nil.mpr (.inl hhead))

theorem word_eq {line : List UInt8} (h : word line ≠ []) : word line = line.dropWhile isBlank :=
  if_neg (word_ne_comment h)

theorem word_concat {line : List UInt8} (h : word line ≠ []) (c : UInt8) :
    word (line ++ [c]) = word line ++ [c] := by
  have hconcat : (line ++ [c]).dropWhile isBlank = word line ++ [c] := by
    rw [dropWhile_concat, ← word_eq h, if_neg h]
  have hhead : (word line ++ [c]).head? ≠ some 35 := by
    rw [List.head?_append_of_ne_nil _ h, word_eq h]
    exact word_ne_comment h
  rw [word, hconcat, if_neg hhead]

theorem gap_suffix (w : List UInt8) : gap w <:+ w := List.dropWhile_suffix _

theorem value_suffix (w : List UInt8) : value w <:+ gap w := List.dropWhile_suffix _

theorem name_gap (w : List UInt8) : (w.takeWhile fun c => !isBlank c) ++ gap w = w :=
  List.takeWhile_append_dropWhile

theorem isBlank_gap {w tail : List UInt8} {c : UInt8} (h : gap w = c :: tail) :
    isBlank c = true := by
  have hne : gap w ≠ [] := by simp [h]
  have hhead : (!isBlank ((gap w).head hne)) = false := List.head_dropWhile_not _ hne
  simpa [h] using hhead

theorem value_length_lt {w : List UInt8} (h : gap w ≠ []) :
    (value w).length < (gap w).length := by
  obtain ⟨c, tail, hgap⟩ := List.exists_cons_of_ne_nil h
  have hle : (tail.dropWhile isBlank).length ≤ tail.length :=
    (List.dropWhile_suffix isBlank).length_le
  rw [value, hgap, List.dropWhile_cons_of_pos (isBlank_gap hgap), List.length_cons]
  omega

theorem gap_concat (w : List UInt8) (c : UInt8) :
    gap (w ++ [c]) = if gap w = [] then (if isBlank c then [c] else []) else gap w ++ [c] := by
  rw [gap, dropWhile_concat, ← gap]
  cases isBlank c <;> rfl

theorem value_concat {w : List UInt8} (h : gap w ≠ []) (c : UInt8) :
    value (w ++ [c]) =
      if value w = [] then (if isBlank c then [] else [c]) else value w ++ [c] := by
  rw [value, gap_concat, if_neg h, dropWhile_concat, ← value]

theorem lineAssignment_eq (line : List UInt8) :
    lineAssignment line = if word line = [] then none else
      some ((word line).takeWhile fun c => !isBlank c,
        if value (word line) = [] then none else some (value (word line))) := by
  rw [lineAssignment, word]
  split <;> rename_i heq
  · simp [heq]
  · rename_i c rest
    by_cases hc : c = 35
    · simp [heq, hc]
    · simp [heq, hc, value, gap]

theorem endsEscaped_iff (line : List UInt8) :
    EndsEscaped line ↔ value (word line) ≠ [] ∧ line.getLast? = some 92 := by
  rw [EndsEscaped, lineAssignment_eq]
  apply and_congr_left
  intro hlast
  by_cases hw : word line = []
  · simp [hw, value, gap]
  · by_cases hv : value (word line) = []
    · simp [hw, hv]
    · simp [hw, hv]

/-! ## The pointers -/

/-- The pointer to a piece that ends at `i`. -/
def back (i : Nat) (l : List UInt8) : Option Nat := if l = [] then none else some (i - l.length)

@[simp] theorem back_nil (i : Nat) : back i [] = none := rfl

theorem back_eq {l : List UInt8} (i : Nat) (h : l ≠ []) : back i l = some (i - l.length) :=
  if_neg h

theorem back_eq_none {i : Nat} {l : List UInt8} : back i l = none ↔ l = [] := by
  rw [back]
  split_ifs with h <;> simp [h]

theorem back_single (i : Nat) (c : UInt8) : back (i + 1) [c] = some i := rfl

theorem back_concat {l : List UInt8} (i : Nat) (h : l ≠ []) (c : UInt8) :
    back (i + 1) (l ++ [c]) = back i l := by
  rw [back_eq _ h, back_eq _ (by simp)]
  simp

/-- The state at `i` behind a part of a line. -/
def lineState (buff : Ptr) (sets : Nat) (log : List Assignment) (i : Nat)
    (line : List UInt8) : Parse where
  buff := buff
  commentStart := (line.dropWhile isBlank).head? = some 35
  var := back i (word line)
  varEnd := back i (gap (word line))
  val := back i (value (word line))
  valEnd := none
  sets := sets
  log := log

section

variable {save : Bool} {size : Nat} {buff : Ptr} {sets : Nat} {log : List Assignment} {i : Nat}
  {line : List UInt8}

/-- A character that does not end the line belongs to it. -/
theorem scanChar_concat (h : isEol (buff i) = false) :
    scanChar save size i (lineState buff sets log i line) =
      .ok (lineState buff sets log (i + 1) (line ++ [buff i])) := by
  obtain hw | hw := eq_or_ne (word line) []
  · obtain hcomment | hempty := word_eq_nil.mp hw
    · simp [scanChar, lineState, hw, hcomment, word_comment, dropWhile_comment, gap, value, h]
    · by_cases hc : buff i = 35
      · simp [scanChar, lineState, word, hempty, hc, dropWhile_concat, gap, value, isBlank,
          isEol]
      · cases hb : isBlank (buff i)
        · simp [scanChar, lineState, word, hempty, hc, h, dropWhile_concat, gap, value, hb, back]
        · simp [scanChar, lineState, word, hempty, hc, dropWhile_concat, gap, value, hb]
  · have hstart := word_ne_comment hw
    have hnext : word (line ++ [buff i]) ≠ [] := by simp [word_concat hw]
    have hstart' := word_ne_comment hnext
    obtain hg | hg := eq_or_ne (gap (word line)) []
    · cases hb : isBlank (buff i)
      · simp [scanChar, lineState, hstart, hstart', back_eq_none, hw, hg, h, hb,
          word_concat hw, back_concat, gap_concat, value]
      · simp [scanChar, lineState, hstart, hstart', back_eq_none, hw, hg, h, hb,
          word_concat hw, back_concat, gap_concat, value, back_single]
    · obtain hv | hv := eq_or_ne (value (word line)) []
      · cases hb : isBlank (buff i)
        · simp [scanChar, lineState, hstart, hstart', back_eq_none, hw, hg, hv, h, hb,
            word_concat hw, back_concat, gap_concat, value_concat hg, back_single]
        · simp [scanChar, lineState, hstart, hstart', back_eq_none, hw, hg, hv, h, hb,
            word_concat hw, back_concat, gap_concat, value_concat hg]
      · simp [scanChar, lineState, hstart, hstart', back_eq_none, hw, hg, hv, h,
          word_concat hw, back_concat, gap_concat, value_concat hg]

@[simp] theorem finishPair_lineState :
    finishPair save size (lineState buff sets log i line) = .ok (lineState buff sets log i line) :=
  rfl

@[simp] theorem lineState_nil (buff : Ptr) (sets : Nat) (log : List Assignment) (i : Nat) :
    lineState buff sets log i [] = ⟨buff, false, none, none, none, none, sets, log⟩ := rfl

theorem isEol_cases {c : UInt8} (h : isEol c = true) : c = 13 ∨ c = 10 := by
  simpa [isEol] using h

theorem scanChar_none (h : isEol (buff i) = true) (hw : word line = []) :
    scanChar save size i (lineState buff sets log i line) =
      .ok (lineState buff sets log (i + 1) []) := by
  obtain hcomment | hempty := word_eq_nil.mp hw
  · simp [scanChar, lineState, hw, hcomment, h]
  · obtain heq | heq := isEol_cases h <;>
      simp [scanChar, lineState, hw, hempty, heq, isEol]

theorem scanChar_unset (h : isEol (buff i) = true) (hw : word line ≠ [])
    (hv : value (word line) = []) {name : List UInt8}
    (hname : save = true →
      cString (poke buff i 0) (size + 1 - (i - (word line).length)) (i - (word line).length) =
        .ok name) :
    scanChar save size i (lineState buff sets log i line) =
      .ok (lineState (if save then poke buff i 0 else buff) (sets + 1)
        (if save then log ++ [(name, none)] else log) (i + 1) []) := by
  have hstart := word_ne_comment hw
  cases save
  · simp [scanChar, lineState, hstart, back_eq_none, hw, hv, h]
    rfl
  · simp [scanChar, lineState, hstart, back_eq_none, hw, hv, h, saveEnv, hname rfl, back_eq]
    rfl

theorem scanChar_set (h : isEol (buff i) = true) (hv : value (word line) ≠ [])
    (hesc : buff (i - 1) ≠ 92) :
    scanChar save size i (lineState buff sets log i line) =
      .ok { lineState buff sets log i line with valEnd := some i } := by
  have hg : gap (word line) ≠ [] := by
    intro hg
    simp [value, hg] at hv
  have hw : word line ≠ [] := by
    intro hw
    simp [hw] at hv
  simp [scanChar, lineState, back_eq_none, hw, hg, hv, h, hesc]

end

/-! ## The strings -/

/-- What a string function sees of some bytes with a NUL behind them. -/
def cut (bs : List UInt8) : List UInt8 := bs.takeWhile (· ≠ 0)

theorem bytes_add_cons (buff : Ptr) (p n : Nat) :
    (buff.add p).bytes (n + 1) = buff p :: (buff.add (p + 1)).bytes n := by
  rw [Nat.add_comm n 1, Ptr.bytes_add, Ptr.add_add]
  rfl

theorem cString_eq {buff : Ptr} {p n left : Nat} (h0 : buff (p + n) = 0) (hlt : n < left) :
    cString buff left p = .ok (cut ((buff.add p).bytes n)) := by
  induction n generalizing p left with
  | zero =>
    obtain ⟨left, rfl⟩ := Nat.exists_eq_add_of_lt hlt
    exact if_pos h0
  | succ n ih =>
    obtain ⟨left, rfl⟩ : ∃ l, left = l + 1 := ⟨left - 1, by omega⟩
    rw [cString, bytes_add_cons, cut]
    split_ifs with h
    · simp [h]
    · rw [ih (p := p + 1) (by rw [← h0]; congr 1; omega) (by omega)]
      simp [Except.map, cut, h]

/-- A part of a line ends at `i` and the rest of the text begins there. -/
structure Reads (buff : Ptr) (i : Nat) (line text : List UInt8) : Prop where
  le : line.length ≤ i
  behind : (buff.add (i - line.length)).bytes line.length = line
  ahead : (buff.add i).bytes text.length = text

namespace Reads

variable {buff : Ptr} {i : Nat} {line text : List UInt8} {c : UInt8}

theorem char (h : Reads buff i line (c :: text)) : buff i = c := by
  have hahead := h.ahead
  rw [List.length_cons, bytes_add_cons] at hahead
  exact (List.cons.inj hahead).1

theorem rest (h : Reads buff i line (c :: text)) :
    (buff.add (i + 1)).bytes text.length = text := by
  have hahead := h.ahead
  rw [List.length_cons, bytes_add_cons] at hahead
  exact (List.cons.inj hahead).2

theorem concat (h : Reads buff i line (c :: text)) : Reads buff (i + 1) (line ++ [c]) text where
  le := by simpa using h.le
  behind := by
    have hlast : (buff.add (i - line.length)) line.length = c := by
      rw [Ptr.add, Nat.sub_add_cancel h.le, h.char]
    rw [List.length_append, List.length_singleton, Nat.add_sub_add_right, Ptr.bytes_succ,
      h.behind, hlast]
  ahead := h.rest

theorem newline (h : Reads buff i line (c :: text)) {buff' : Ptr}
    (heq : ∀ k, i < k → buff' k = buff k) : Reads buff' (i + 1) [] text where
  le := Nat.zero_le _
  behind := rfl
  ahead := by
    refine Eq.trans (Ptr.bytes_congr ?_) h.rest
    intro j _
    exact heq _ (by omega)

/-- A piece of a line that ends at `i`. -/
theorem suffix (h : Reads buff i line text) {piece : List UInt8} (hs : piece <:+ line) :
    (buff.add (i - piece.length)).bytes piece.length = piece := by
  obtain ⟨front, rfl⟩ := hs
  have hle := h.le
  have hbehind := h.behind
  rw [List.length_append] at hle hbehind
  rw [Ptr.bytes_add, Ptr.add_add,
    show i - (front.length + piece.length) + front.length = i - piece.length by omega] at hbehind
  exact (List.append_inj hbehind (Ptr.length_bytes _ _)).2

theorem last (h : Reads buff i line text) (hne : line ≠ []) :
    line.getLast? = some (buff (i - 1)) := by
  obtain ⟨front, a, rfl⟩ := List.eq_nil_or_concat line |>.resolve_left hne
  have hpiece := @suffix _ _ _ _ h [a] ⟨front, by simp⟩
  simp [Ptr.bytes, Ptr.add] at hpiece
  simp [hpiece]

end Reads

/-! ## The end of a line -/

/-- The string that is taken for the name on a line. -/
def savedName (l : List UInt8 × Bool) : List UInt8 :=
  if l.2 = true ∧ value (word l.1) = [] then word l.1
  else (word l.1).takeWhile fun c => !isBlank c

/-- The call of `save_env` for a line. -/
def savedAssignment (l : List UInt8 × Bool) : Option Assignment :=
  if word l.1 = [] then none else
    some (cut (savedName l),
      if value (word l.1) = [] then none else some (cut (value (word l.1))))

section

variable {size : Nat} {buff : Ptr} {sets : Nat} {log : List Assignment} {i : Nat}
  {line text : List UInt8} {c : UInt8}

theorem name_length (w : List UInt8) :
    (w.takeWhile fun c => !isBlank c).length + (gap w).length = w.length := by
  rw [← List.length_append, name_gap]

/-- The name, with a NUL behind it. -/
theorem name_string (h : Reads buff i line text) (hsize : i ≤ size) {buff' : Ptr}
    (h0 : buff' (i - (gap (word line)).length) = 0)
    (heq : ∀ k < i - (gap (word line)).length, buff' k = buff k) :
    cString buff' (size + 1 - (i - (word line).length)) (i - (word line).length) =
      .ok (cut ((word line).takeWhile fun c => !isBlank c)) := by
  have hlen := name_length (word line)
  have hle : (word line).length ≤ i := (word_suffix line).length_le.trans h.le
  have hend : i - (word line).length + ((word line).takeWhile fun c => !isBlank c).length =
      i - (gap (word line)).length := by omega
  have hword := h.suffix (word_suffix line)
  rw [← hlen, Ptr.bytes_add] at hword
  have hname := (List.append_inj (hword.trans (name_gap _).symm) (Ptr.length_bytes _ _)).1
  rw [hlen] at hname
  rw [cString_eq (by rw [hend, h0]) (by omega)]
  refine congrArg (Except.ok ∘ cut) (Eq.trans (Ptr.bytes_congr ?_) hname)
  intro j hj
  exact heq _ (by omega)

/-- A piece that ends at `i`, with a NUL behind it. -/
theorem piece_string (h : Reads buff i line text) (hsize : i ≤ size) {piece : List UInt8}
    (hs : piece <:+ line) {buff' : Ptr} (h0 : buff' i = 0)
    (heq : ∀ k < i, i - piece.length ≤ k → buff' k = buff k) :
    cString buff' (size + 1 - (i - piece.length)) (i - piece.length) = .ok (cut piece) := by
  have hle : piece.length ≤ i := hs.length_le.trans h.le
  rw [cString_eq (by rw [Nat.sub_add_cancel hle, h0]) (by omega)]
  refine congrArg (Except.ok ∘ cut) (Eq.trans (Ptr.bytes_congr ?_) (h.suffix hs))
  intro j hj
  exact heq _ (by omega) (by omega)

/-- What is noted for some calls of `save_env`. -/
def noted (save : Bool) (log calls : List Assignment) : List Assignment :=
  if save then log ++ calls else log

theorem noted_noted (save : Bool) (log calls calls' : List Assignment) :
    noted save (noted save log calls) calls' = noted save log (calls ++ calls') := by
  cases save
  · rfl
  · exact List.append_assoc _ _ _

theorem noted_nil (save : Bool) (log : List Assignment) : noted save log [] = log := by
  cases save
  · rfl
  · exact List.append_nil _

/-- Nothing is changed behind `i`, and nothing at all in the first pass. -/
structure Kept (save : Bool) (i : Nat) (buff buff' : Ptr) : Prop where
  behind : ∀ k, i < k → buff' k = buff k
  first : save = false → buff' = buff

theorem Kept.refl (save : Bool) (i : Nat) (buff : Ptr) : Kept save i buff buff :=
  ⟨fun _ _ => rfl, fun _ => rfl⟩

theorem Kept.trans {save : Bool} {i j : Nat} {buff buff' buff'' : Ptr}
    (h : Kept save i buff buff') (hle : i ≤ j) (h' : Kept save j buff' buff'') :
    Kept save j buff buff'' :=
  ⟨fun k hk => (h'.behind k hk).trans (h.behind k (by omega)),
    fun hs => (h'.first hs).trans (h.first hs)⟩

theorem Kept.poke {i k : Nat} {buff buff' : Ptr} (h : Kept true i buff buff') (hk : k ≤ i)
    (c : UInt8) : Kept true i buff (poke buff' k c) :=
  ⟨fun j hj => (Function.update_of_ne (by omega) _ _).trans (h.behind j hj), nofun⟩

theorem Kept.ite (save : Bool) {i : Nat} {buff buff' : Ptr} (h : Kept true i buff buff') :
    Kept save i buff (if save then buff' else buff) := by
  cases save
  · exact .refl false i buff
  · exact h

variable {save : Bool}

theorem prev_ne_of_not_escaped (h : Reads buff i line text) (hv : value (word line) ≠ [])
    (hesc : ¬EndsEscaped line) : buff (i - 1) ≠ 92 := by
  intro h92
  have hne : line ≠ [] := by
    rintro rfl
    simp at hv
  exact hesc ((endsEscaped_iff line).mpr ⟨hv, by rw [h.last hne, h92]⟩)

theorem gap_ne_nil {w : List UInt8} (hv : value w ≠ []) : gap w ≠ [] := by
  intro hg
  simp [value, hg] at hv

theorem word_ne_nil (hv : value (word line) ≠ []) : word line ≠ [] := by
  intro hw
  simp [hw] at hv

theorem finishPair_set (h : Reads buff i line text) (hsize : i ≤ size)
    (hv : value (word line) ≠ []) :
    finishPair save size { lineState buff sets log i line with valEnd := some i } =
      .ok (lineState
        (if save then poke (poke buff (i - (gap (word line)).length) 0) i 0 else buff)
        (sets + 1) (noted save log (savedAssignment (line, true)).toList) (i + 1) []) := by
  have hg := gap_ne_nil hv
  have hw := word_ne_nil hv
  have hle : (gap (word line)).length ≤ i :=
    ((gap_suffix _).trans (word_suffix line)).length_le.trans h.le
  have hlt := value_length_lt hg
  generalize hb : poke (poke buff (i - (gap (word line)).length) 0) i 0 = b
  have hbi : b i = 0 := by rw [← hb, poke, Function.update_self]
  have hbg : b (i - (gap (word line)).length) = 0 := by
    rw [← hb, poke, Function.update_of_ne (by omega), poke, Function.update_self]
  have hbk : ∀ k < i, k ≠ i - (gap (word line)).length → b k = buff k := by
    intro k hk hne
    rw [← hb, poke, Function.update_of_ne (by omega), poke, Function.update_of_ne hne]
  have hname := name_string h hsize hbg fun k hk => hbk k (by omega) (by omega)
  have hvalue := piece_string h hsize
    ((value_suffix _).trans ((gap_suffix _).trans (word_suffix line))) hbi
    fun k hk hge => hbk k hk (by omega)
  have hstart := word_ne_comment hw
  cases save
  · simp [finishPair, lineState, hstart, back_eq, hg, noted]
    rfl
  · simp [finishPair, lineState, hstart, saveEnv, back_eq, hg, hw, hv, hb, hname, hvalue, noted,
      savedAssignment, savedName]
    rfl

theorem parseLoop_newline (h : Reads buff i line (c :: text)) (hc : isEol c = true)
    (hesc : ¬EndsEscaped line) (hsize : i < size) :
    ∃ buff', Kept save i buff buff' ∧ ∀ left,
      parseLoop save size (left + 1) i (lineState buff sets log i line) =
        parseLoop save size left (i + 1)
          (lineState buff' (sets + (savedAssignment (line, true)).toList.length)
            (noted save log (savedAssignment (line, true)).toList) (i + 1) []) := by
  have heol : isEol (buff i) = true := by rw [h.char, hc]
  obtain hw | hw := eq_or_ne (word line) []
  · refine ⟨buff, .refl save i buff, fun left => ?_⟩
    have hnone : savedAssignment (line, true) = none := if_pos hw
    rw [parseLoop, scanChar_none heol hw, hnone, Option.toList_none, noted_nil]
    rfl
  obtain hv | hv := eq_or_ne (value (word line)) []
  · have hname := piece_string h hsize.le (word_suffix line) (Function.update_self i 0 buff)
      fun k hk _ => Function.update_of_ne hk.ne _ _
    have hsome : savedAssignment (line, true) = some (cut (word line), none) := by
      simp [savedAssignment, savedName, hw, hv]
    refine ⟨_, .ite save ((Kept.refl true i buff).poke le_rfl 0), fun left => ?_⟩
    rw [parseLoop, scanChar_unset heol hw hv fun _ => hname, hsome]
    rfl
  · have hsome : (savedAssignment (line, true)).toList.length = 1 := by
      simp [savedAssignment, word_ne_nil hv]
    refine ⟨_, .ite save (((Kept.refl true i buff).poke
      (Nat.sub_le i (gap (word line)).length) 0).poke le_rfl 0), fun left => ?_⟩
    rw [parseLoop, scanChar_set heol hv (prev_ne_of_not_escaped h hv hesc), hsome]
    simp only [bind, Except.bind, finishPair_set h hsize.le hv]

theorem finishText_spec (h : Reads buff size line []) (h0 : save = true → buff size = 0) :
    ∃ s, finishText save size (lineState buff sets log size line) = .ok s ∧
      Kept save size buff s.buff ∧ s.sets = sets + (savedAssignment (line, false)).toList.length ∧
      s.log = noted save log (savedAssignment (line, false)).toList := by
  obtain hw | hw := eq_or_ne (word line) []
  · have hnone : savedAssignment (line, false) = none := if_pos hw
    refine ⟨_, if_neg ?_, .refl save size buff, ?_, ?_⟩
    · simp [lineState, hw]
    · simp [hnone, lineState]
    · simp [hnone, lineState, noted_nil]
  have hsaved : savedAssignment (line, false) =
      some (cut ((word line).takeWhile fun c => !isBlank c),
        if value (word line) = [] then none else some (cut (value (word line)))) := by
    simp [savedAssignment, savedName, hw]
  rw [hsaved]
  cases save with
  | false =>
    refine ⟨{ lineState buff sets log size line with sets := sets + 1 }, ?_,
      .refl false size buff, rfl, rfl⟩
    simp [finishText, lineState, back_eq_none, hw]
    rfl
  | true =>
    obtain hg | hg := eq_or_ne (gap (word line)) []
    · have hname := @name_string _ _ _ _ _ h le_rfl buff (by simpa [hg] using h0 rfl)
        fun _ _ => rfl
      have hv : value (word line) = [] := by simp [value, hg]
      refine ⟨{ lineState buff sets (log ++ [(cut ((word line).takeWhile fun c => !isBlank c),
        none)]) size line with sets := sets + 1 }, ?_, .refl true size buff, rfl, ?_⟩
      · simp [finishText, lineState, saveEnv, back_eq, hw, hg, hv, hname]
        rfl
      · simp [lineState, noted, hv]
    · have hle : (gap (word line)).length ≤ size :=
        ((gap_suffix _).trans (word_suffix line)).length_le.trans h.le
      have hlt := value_length_lt hg
      generalize hb : poke buff (size - (gap (word line)).length) 0 = b
      have hkept : Kept true size buff b := by
        rw [← hb]
        exact (Kept.refl true size buff).poke (Nat.sub_le _ _) 0
      have hbk : ∀ k, k ≠ size - (gap (word line)).length → b k = buff k := by
        intro k hne
        rw [← hb, poke, Function.update_of_ne hne]
      have hname := @name_string _ _ _ _ _ h le_rfl b (by rw [← hb, poke, Function.update_self])
        fun k hk => hbk k (by omega)
      have hvalue := @piece_string _ _ _ _ _ h le_rfl _
        ((value_suffix _).trans ((gap_suffix _).trans (word_suffix line))) b
        ((hbk size (by omega)).trans (h0 rfl)) fun k hk hge => hbk k (by omega)
      refine ⟨{ lineState b sets (log ++ [(cut ((word line).takeWhile fun c => !isBlank c),
        if value (word line) = [] then none else some (cut (value (word line))))]) size line with
        sets := sets + 1 }, ?_, hkept, rfl, rfl⟩
      obtain hv | hv := eq_or_ne (value (word line)) []
      · simp [finishText, lineState, saveEnv, back_eq, hw, hg, hv, hb, hname]
        rfl
      · simp [finishText, lineState, saveEnv, back_eq, hw, hg, hv, hb, hname, hvalue]
        rfl

theorem filterMap_cons_toList {α β : Type} (f : α → Option β) (a : α) (l : List α) :
    (a :: l).filterMap f = (f a).toList ++ l.filterMap f := by
  rw [List.filterMap_cons]
  cases f a <;> rfl

/-- The rest of a text that is read from `i` on. -/
theorem parseRest_spec {left : Nat} (hlen : text.length = left) (h : Reads buff i line text)
    (hsize : i + left = size) (h0 : save = true → buff size = 0) (hplain : Plain line text) :
    ∃ s, (parseLoop save size left i (lineState buff sets log i line) >>= finishText save size) =
        .ok s ∧
      Kept save size buff s.buff ∧
      s.sets = sets + ((logicalLines false line text).filterMap savedAssignment).length ∧
      s.log = noted save log ((logicalLines false line text).filterMap savedAssignment) := by
  induction left generalizing i buff sets log line text with
  | zero =>
    obtain rfl := List.length_eq_zero_iff.mp hlen
    obtain rfl : i = size := by omega
    have hcalls : (logicalLines false line []).filterMap savedAssignment =
        (savedAssignment (line, false)).toList := by
      rw [logicalLines, filterMap_cons_toList, List.filterMap_nil, List.append_nil]
    rw [hcalls]
    exact finishText_spec h h0
  | succ left ih =>
    obtain ⟨c, text, rfl⟩ := List.exists_cons_of_length_eq_add_one hlen
    have hlen' : text.length = left := by simpa using hlen
    cases hc : isEol c with
    | false =>
      have hlines : logicalLines false line (c :: text) =
          logicalLines false (line ++ [c]) text := by
        simp [logicalLines, hc]
      have hplain' : Plain (line ++ [c]) text := by
        simpa [Plain, hc] using hplain
      have hchar : isEol (buff i) = false := by rw [h.char, hc]
      rw [parseLoop, scanChar_concat hchar, hlines, h.char]
      exact ih hlen' h.concat (by omega) h0 hplain'
    | true =>
      obtain ⟨hesc, hplain'⟩ : ¬EndsEscaped line ∧ Plain [] text := by
        simpa [Plain, hc] using hplain
      have hlines : (logicalLines false line (c :: text)).filterMap savedAssignment =
          (savedAssignment (line, true)).toList ++
            (logicalLines false [] text).filterMap savedAssignment := by
        simp [logicalLines, hc, hesc, filterMap_cons_toList]
      obtain ⟨buff', hkept, hloop⟩ :=
        @parseLoop_newline size buff sets log i line text c save h hc hesc (by omega)
      have hnext := h.newline hkept.behind
      obtain ⟨s, hs, hskept, hsets, hlog⟩ := ih hlen' hnext (by omega)
        (fun hsave => (hkept.behind size (by omega)).trans (h0 hsave)) hplain'
      rw [hloop, hlines]
      refine ⟨s, hs, hkept.trans (by omega) hskept, ?_, ?_⟩
      · rw [hsets, List.length_append, Nat.add_assoc]
      · rw [hlog, noted_noted]

/-! ## Escaped line ends -/

theorem joinLines_blank {k : Nat} (h : buff k = 32) : joinLines buff i k = 32 := by
  have hpoke : ∀ {b : Ptr} {j : Nat}, b k = 32 → poke b j 32 k = 32 := by
    intro b j hb
    rw [poke, Function.update_apply]
    split_ifs
    · rfl
    · exact hb
  rw [joinLines]
  split_ifs
  · exact hpoke (hpoke (hpoke h))
  · exact hpoke (hpoke h)

/-- What the first pass can do to the text at one character. -/
theorem scanChar_first {s s' : Parse} (h : scanChar false size i s = .ok s') :
    s'.buff = s.buff ∨ s'.buff = joinLines s.buff i := by
  simp only [scanChar, bind, Except.bind, Bool.false_eq_true, if_false] at h
  split_ifs at h <;> cases h <;> simp

theorem finishPair_first {s s' : Parse} (h : finishPair false size s = .ok s') :
    s'.buff = s.buff := by
  rw [finishPair] at h
  split at h <;> cases h <;> rfl

theorem finishText_first {s s' : Parse} (h : finishText false size s = .ok s') :
    s'.buff = s.buff := by
  rw [finishText] at h
  split at h <;> cases h <;> rfl

theorem parseRest_blank {left k : Nat} {s s' : Parse}
    (h : (parseLoop false size left i s >>= finishText false size) = .ok s')
    (hk : s.buff k = 32) : s'.buff k = 32 := by
  induction left generalizing i s with
  | zero => rw [finishText_first h, hk]
  | succ left ih =>
    cases hscan : scanChar false size i s with
    | error fault => simp [parseLoop, hscan, bind, Except.bind] at h
    | ok s₁ =>
      cases hpair : finishPair false size s₁ with
      | error fault => simp [parseLoop, hscan, hpair, bind, Except.bind] at h
      | ok s₂ =>
        rw [parseLoop, hscan] at h
        simp only [bind, Except.bind, hpair] at h ih
        apply ih h
        rw [finishPair_first hpair]
        obtain heq | heq := scanChar_first hscan
        · rw [heq, hk]
        · rw [heq, joinLines_blank hk]

theorem scanChar_escaped (h : isEol (buff i) = true) (hv : value (word line) ≠ [])
    (hesc : buff (i - 1) = 92) :
    scanChar save size i (lineState buff sets log i line) =
      .ok { lineState buff sets log i line with buff := joinLines buff i } := by
  have hg := gap_ne_nil hv
  have hw := word_ne_nil hv
  simp [scanChar, lineState, back_eq_none, hw, hg, hv, h, hesc]

/-- The first pass changes a text with an escaped line end. -/
theorem parseRest_escaped {left : Nat} (hlen : text.length = left) (h : Reads buff i line text)
    (hsize : i + left = size) (hplain : ¬Plain line text) {s : Parse}
    (hs : (parseLoop false size left i (lineState buff sets log i line) >>=
      finishText false size) = .ok s) : ∃ k < size, s.buff k ≠ buff k := by
  induction left generalizing sets log i line text with
  | zero =>
    obtain rfl := List.length_eq_zero_iff.mp hlen
    exact absurd trivial hplain
  | succ left ih =>
    obtain ⟨c, text, rfl⟩ := List.exists_cons_of_length_eq_add_one hlen
    have hlen' : text.length = left := by simpa using hlen
    cases hc : isEol c with
    | false =>
      have hplain' : ¬Plain (line ++ [c]) text := by
        simpa [Plain, hc] using hplain
      have hchar : isEol (buff i) = false := by rw [h.char, hc]
      rw [parseLoop, scanChar_concat hchar, h.char] at hs
      exact ih hlen' h.concat (by omega) hplain' hs
    | true =>
      by_cases hesc : EndsEscaped line
      · obtain ⟨hv, hlast⟩ := (endsEscaped_iff line).mp hesc
        have hne : line ≠ [] := by
          rintro rfl
          simp at hv
        have h92 : buff (i - 1) = 92 := Option.some.inj ((h.last hne).symm.trans hlast)
        have heol : isEol (buff i) = true := by rw [h.char, hc]
        have hblank : joinLines buff i (i - 1) = 32 := Function.update_self _ _ _
        rw [parseLoop, scanChar_escaped heol hv h92] at hs
        have hfinal : s.buff (i - 1) = 32 :=
          parseRest_blank (s := { lineState buff sets log i line with
            buff := joinLines buff i }) hs hblank
        refine ⟨i - 1, by omega, ?_⟩
        rw [hfinal, h92]
        decide
      · have hplain' : ¬Plain [] text := by
          simpa [Plain, hc, hesc] using hplain
        obtain ⟨buff', hkept, hloop⟩ :=
          @parseLoop_newline size buff sets log i line text c false h hc hesc (by omega)
        obtain rfl : buff' = buff := hkept.first rfl
        rw [hloop] at hs
        exact ih hlen' (h.newline fun _ _ => rfl) (by omega) hplain' hs

end

/-! ## The lines that are saved as they are -/

theorem cut_eq {bs : List UInt8} : cut bs = bs ↔ 0 ∉ bs := by
  rw [cut, List.takeWhile_eq_self_iff]
  constructor
  · intro h h0
    simpa using h 0 h0
  · intro h b hb
    have hne : b ≠ 0 := fun h0 => h (h0 ▸ hb)
    simpa using hne

/-- The blanks behind a name are cut off only by a NUL in the name. -/
theorem cut_word {w : List UInt8} :
    cut w = (w.takeWhile fun c => !isBlank c) ↔
      0 ∉ (w.takeWhile fun c => !isBlank c) ∧ w = w.takeWhile fun c => !isBlank c := by
  constructor
  · intro h
    have h0 : 0 ∉ w.takeWhile fun c => !isBlank c := by
      intro hmem
      rw [← h] at hmem
      simpa using List.mem_takeWhile_imp hmem
    have hgap : gap w = [] := by
      by_contra hne
      obtain ⟨c, tail, hcons⟩ := List.exists_cons_of_ne_nil hne
      have hc : c ≠ 0 := by
        rintro rfl
        exact absurd (isBlank_gap hcons) (by decide)
      have happend := congrArg cut (name_gap w)
      rw [h, cut, List.takeWhile_append_of_pos, hcons] at happend
      · simp [hc] at happend
      · intro b hb
        have hne : b ≠ 0 := fun hb0 => h0 (hb0 ▸ hb)
        simpa using hne
    refine ⟨h0, ?_⟩
    have hname := name_gap w
    rw [hgap, List.append_nil] at hname
    exact hname.symm
  · rintro ⟨h0, hw⟩
    rw [← hw] at h0 ⊢
    exact cut_eq.mpr h0

theorem lineFine_iff (l : List UInt8 × Bool) :
    LineFine l ↔ savedAssignment l = lineAssignment l.1 := by
  rw [LineFine, lineAssignment_eq, savedAssignment]
  obtain hw | hw := eq_or_ne (word l.1) []
  · simp [hw]
  · rw [if_neg hw, if_neg hw, ← word_eq hw, savedName]
    obtain hv | hv := eq_or_ne (value (word l.1)) []
    · cases hl : l.2
      · simp [hv, cut_eq]
      · simp [hv, cut_word]
    · simp [hv, cut_eq]

theorem isSome_savedAssignment (l : List UInt8 × Bool) :
    (savedAssignment l).isSome = (lineAssignment l.1).isSome := by
  rw [savedAssignment, lineAssignment_eq]
  split_ifs <;> rfl

theorem filterMap_eq_iff {α β : Type} {f g : α → Option β} (h : ∀ a, (f a).isSome = (g a).isSome)
    (l : List α) : l.filterMap f = l.filterMap g ↔ ∀ a ∈ l, f a = g a := by
  induction l with
  | nil => simp
  | cons a l ih =>
    rw [List.forall_mem_cons, ← ih, filterMap_cons_toList, filterMap_cons_toList]
    have ha := h a
    cases hf : f a <;> cases hg : g a <;> simp_all

/-- The calls of `save_env` for a text. -/
def savedAssignments (text : List UInt8) : List Assignment :=
  (logicalLines false [] text).filterMap savedAssignment

theorem savedAssignments_eq_iff (text : List UInt8) :
    savedAssignments text = assignments text ↔
      ∀ l ∈ logicalLines false [] text, LineFine l := by
  rw [savedAssignments, assignments, filterMap_eq_iff isSome_savedAssignment]
  exact forall₂_congr fun l _ => (lineFine_iff l).symm

/-! ## Both passes -/

theorem parseEnv_spec (save : Bool) (size : Nat) (buff : Ptr)
    (hplain : Plain [] (buff.bytes size)) :
    ∃ s, parseEnv save size buff = .ok s ∧ (∀ k, size < k → s.buff k = buff k) ∧
      (save = false → s.buff = buff) ∧ s.sets = (savedAssignments (buff.bytes size)).length ∧
      s.log = noted save [] (savedAssignments (buff.bytes size)) := by
  generalize htext : buff.bytes size = text at hplain ⊢
  have hlen : text.length = size := by rw [← htext, Ptr.length_bytes]
  have hkept : Kept save size buff (if save then poke buff size 0 else buff) :=
    .ite save ((Kept.refl true size buff).poke le_rfl 0)
  have hreads : Reads (if save then poke buff size 0 else buff) 0 [] text := by
    refine ⟨le_rfl, rfl, ?_⟩
    rw [Ptr.add_zero, hlen, ← htext]
    apply Ptr.bytes_congr
    intro k hk
    cases save
    · rfl
    · exact Function.update_of_ne hk.ne _ _
  have h0 : save = true → (if save then poke buff size 0 else buff) size = 0 := by
    rintro rfl
    exact Function.update_self _ _ _
  obtain ⟨s, hs, hskept, hsets, hlog⟩ :=
    @parseRest_spec size _ 0 [] 0 [] text save size hlen hreads (Nat.zero_add size) h0 hplain
  have hall := hkept.trans le_rfl hskept
  exact ⟨s, hs, hall.behind, hall.first, hsets.trans (Nat.zero_add _), hlog⟩

theorem saveenvToPtn_spec (size : Nat) (buff : Ptr) (hplain : Plain [] (buff.bytes size)) :
    ∃ r, saveenvToPtn size buff = .ok r ∧ (∀ k, size < k → r.buff k = buff k) ∧
      r.log = savedAssignments (buff.bytes size) ∧
      (r.ret = 0 ↔ savedAssignments (buff.bytes size) ≠ []) := by
  obtain ⟨first, hfirst, hbehind, hbuff, hsets, hlog⟩ := parseEnv_spec false size buff hplain
  obtain ⟨second, hsecond, hbehind', -, hsets', hlog'⟩ := parseEnv_spec true size buff hplain
  have hnone : first.sets = 0 ↔ savedAssignments (buff.bytes size) = [] := by
    rw [hsets, List.length_eq_zero_iff]
  rw [saveenvToPtn, hfirst]
  simp only [bind, Except.bind, hbuff rfl, hsecond, hsets', ← hsets, hnone]
  split_ifs with hempty
  · exact ⟨_, rfl, fun _ _ => rfl, by rw [hlog, hempty]; rfl, by simp [hempty]⟩
  · exact ⟨_, rfl, hbehind', hlog', by simp [hempty]⟩

/-- The text is saved as it says and the first pass does not change it exactly if no line end
in a value is escaped, no name and no value contains a NUL and the line end is right behind a
name without a value. -/
theorem saveenvRight_iff (buff : Ptr) (size : Nat) :
    SaveenvRight buff size ↔ EnvText (buff.bytes size) := by
  have hfine := savedAssignments_eq_iff (buff.bytes size)
  constructor
  · intro h
    have hplain : Plain [] (buff.bytes size) := by
      by_contra hplain
      obtain ⟨s, hs, hsame⟩ := h.first
      have hreads : Reads buff 0 [] (buff.bytes size) :=
        ⟨le_rfl, rfl, by rw [Ptr.length_bytes, Ptr.add_zero]⟩
      obtain ⟨k, hk, hne⟩ := @parseRest_escaped size buff 0 [] 0 [] (buff.bytes size) size
        (Ptr.length_bytes _ _) hreads (Nat.zero_add size) hplain s hs
      have hbyte := congrArg (·[k]?) hsame
      simp only [Ptr.getElem?_bytes _ hk] at hbyte
      exact hne (Option.some.inj hbyte)
    refine ⟨hplain, hfine.mp ?_⟩
    obtain ⟨r, hr, -, hlog, -⟩ := saveenvToPtn_spec size buff hplain
    obtain ⟨r', hr', hlog', -, -⟩ := h.saved
    obtain rfl : r = r' := Except.ok.inj (hr.symm.trans hr')
    rw [← hlog, hlog']
  · intro h
    obtain ⟨first, hfirst, -, hbuff, -, -⟩ := parseEnv_spec false size buff h.plain
    obtain ⟨r, hr, hbehind, hlog, hret⟩ := saveenvToPtn_spec size buff h.plain
    have hcalls := hfine.mpr h.fine
    rw [hcalls] at hlog hret
    exact ⟨⟨first, hfirst, by rw [hbuff rfl]⟩, r, hr, hlog, hret, hbehind⟩

/-- A blank between a name and the line end becomes a part of the name that is unset. -/
theorem unset_with_blank : ¬∀ (buff : Ptr) (size : Nat), SaveenvRight buff size := by
  intro h
  obtain ⟨r, hr, hlog, -⟩ := (h (Ptr.ofList [97, 32, 10]) 3).saved
  have hlog' : (saveenvToPtn 3 (Ptr.ofList [97, 32, 10])).toOption.map Saved.log =
      some [([97, 32], none)] := by decide
  rw [hr] at hlog'
  have hsame : r.log = [([97, 32], none)] := Option.some.inj hlog'
  rw [hlog] at hsame
  revert hsame
  decide

end UBoot.Fastboot.Saveenv
