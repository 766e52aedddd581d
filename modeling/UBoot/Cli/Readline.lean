import Mathlib.Data.List.GetD
import UBoot.Cli.History

/-!
# Command line editing

`cread_add_char`, `cread_add_str` and `cread_line` (`common/cli_readline.c`) without
`CONFIG_AUTO_COMPLETE` and without timeouts. An access of the buffer behind its
`CONFIG_SYS_CBSIZE + 1` bytes has no result. What is written to the console is left out.
-/

namespace UBoot.Cli

open Verification

/-- The variables of `cread_line`; of `esc_save` the first `esc_len` bytes. -/
structure Line where
  num : Nat
  eolNum : Nat
  buf : Ptr
  insert : Bool
  escSave : List UInt8

section

variable (cbsize : Nat)

/-- An access of `n` bytes of the buffer. -/
def touch (start n : Nat) : Option Unit := if start + n ≤ cbsize + 1 then some () else none

def memmove (buf : Ptr) (dst src n : Nat) : Option Ptr := do
  touch cbsize dst n
  touch cbsize src n
  some (buf.write dst n (buf.add src))

def strlen (buf : Ptr) : Option Nat := (List.range (cbsize + 1)).find? fun i => buf i = 0

/-- `cread_add_char` where there is room. -/
def putChar (ichar : UInt8) (insert : Bool) (l : Line) : Option Line :=
  if insert then do
    let wlen := l.eolNum - l.num
    let buf ← if 1 < wlen then memmove cbsize l.buf (l.num + 1) l.num (wlen - 1) else some l.buf
    touch cbsize l.num 1
    touch cbsize l.num wlen
    some { l with num := l.num + 1, buf := Function.update buf l.num ichar }
  else do
    touch cbsize l.num 1
    some { l with num := l.num + 1, buf := Function.update l.buf l.num ichar }

def creadAddChar (ichar : UInt8) (insert : Bool) (l : Line) : Option Line :=
  if insert ∨ l.num = l.eolNum then
    if cbsize - 1 < l.eolNum then some l
    else putChar cbsize ichar insert { l with eolNum := l.eolNum + 1 }
  else putChar cbsize ichar insert l

def creadAddStr (str : List UInt8) (insert : Bool) (l : Line) : Option Line :=
  str.foldlM (fun l ichar => creadAddChar cbsize ichar insert l) l

/-- `cread_add_str` with the buffer as its own source. -/
def addInitial : Nat → Nat → Line → Option Line
  | 0, _, l => some l
  | left + 1, i, l => do
    touch cbsize i 1
    addInitial left (i + 1) (← creadAddChar cbsize (l.buf i) true l)

/-- Between two calls of `cread_line`, or in one. -/
inductive Session
  | idle (h : Hist)
  | editing (l : Line) (h : Hist)

/-- The cases of `^P` and `^N`. -/
def recallLine (l : Line) : Option (List UInt8) × Hist → Option Session
  | (none, h) => some (.editing l h)
  | (some hline, h) => do
    touch cbsize 0 (hline.length + 1)
    let buf := l.buf.write 0 (hline.length + 1) (Ptr.ofList hline)
    let eolNum ← strlen cbsize buf
    touch cbsize 0 eolNum
    some (.editing { l with num := eolNum, eolNum, buf } h)

/-- The second `switch` of `cread_line`. -/
def creadSwitch (l : Line) (h : Hist) (ichar : UInt8) : Option Session :=
  let edit (l : Line) : Option Session := some (.editing l h)
  if ichar = 0x1b then edit { l with escSave := if l.escSave = [] then [ichar] else [] }
  else if ichar = 1 then edit { l with num := 0 }
  else if ichar = 3 then (touch cbsize 0 1).map fun _ => .idle h
  else if ichar = 6 then
    if l.num < l.eolNum then do
      touch cbsize l.num 1
      edit { l with num := l.num + 1 }
    else edit l
  else if ichar = 2 then edit { l with num := l.num - 1 }
  else if ichar = 4 then
    if l.num < l.eolNum then do
      let wlen := l.eolNum - l.num - 1
      let buf ← if wlen = 0 then some l.buf else memmove cbsize l.buf l.num (l.num + 1) wlen
      touch cbsize l.num wlen
      edit { l with eolNum := l.eolNum - 1, buf }
    else edit l
  else if ichar = 11 then edit { l with eolNum := min l.num l.eolNum }
  else if ichar = 5 then do
    touch cbsize l.num (l.eolNum - l.num)
    edit { l with num := max l.num l.eolNum }
  else if ichar = 15 then edit { l with insert := !l.insert }
  else if ichar = 24 ∨ ichar = 21 then edit { l with num := 0, eolNum := 0 }
  else if ichar = 255 ∨ ichar = 127 ∨ ichar = 8 then
    if l.num = 0 then edit l
    else do
      let wlen := l.eolNum - l.num
      let buf ← memmove cbsize l.buf (l.num - 1) l.num wlen
      touch cbsize (l.num - 1) wlen
      edit { l with num := l.num - 1, eolNum := l.eolNum - 1, buf }
  else if ichar = 16 then do recallLine cbsize { l with escSave := [] } (← histPrev h)
  else if ichar = 14 then do recallLine cbsize { l with escSave := [] } (← histNext h)
  else do edit (← creadAddChar cbsize ichar l.insert l)

/-- The lines behind the loop of `cread_line`. -/
def creadEnter (l : Line) (h : Hist) : Option Session := do
  touch cbsize l.eolNum 1
  let buf : Ptr := Function.update l.buf l.eolNum 0
  touch cbsize 0 1
  let h ← if buf 0 ≠ 0 ∧ buf 0 ≠ 33 then
      do creadAddToHist cbsize h (buf.bytes (← strlen cbsize buf))
    else some h
  some (.idle { h with histCur := h.histAddIdx })

/-- The control character that the last byte of an escape sequence stands for. -/
def escapeKey (ichar : UInt8) : Option UInt8 :=
  if ichar = 68 then some 2
  else if ichar = 67 then some 6
  else if ichar = 72 then some 1
  else if ichar = 65 then some 16
  else if ichar = 66 then some 14
  else none

/-- A round of the loop of `cread_line`. -/
def creadKey (l : Line) (h : Hist) (ichar : UInt8) : Option Session :=
  if ichar = 10 ∨ ichar = 13 then creadEnter cbsize l h
  else if l.escSave.length = 0 then creadSwitch cbsize l h ichar
  else if l.escSave.length = 1 then
    if ichar = 91 then some (.editing { l with escSave := l.escSave ++ [ichar] } h)
    else do
      let l ← creadAddStr cbsize l.escSave l.insert l
      some (.editing { l with escSave := [] } h)
  else
    match escapeKey ichar with
    | some ichar => creadSwitch cbsize { l with escSave := [] } h ichar
    | none =>
      if l.escSave.length < 8 then do
        let l ← creadAddStr cbsize (l.escSave ++ [ichar]) l.insert l
        some (.editing { l with escSave := [] } h)
      else none

/-- A call of `cread_line` with a buffer, or a character that it reads. -/
inductive Event
  | start (buf : Ptr)
  | key (ichar : UInt8)

def Session.step : Session → Event → Option Session
  | .idle h, .start buf => do
    let l ← addInitial cbsize (← strlen cbsize buf) 0 ⟨0, 0, buf, true, []⟩
    some (.editing l h)
  | .editing l h, .key ichar => creadKey cbsize l h ichar
  | _, _ => none

/-- A buffer with a text shorter than `CONFIG_SYS_CBSIZE`, or a character that is no TAB. -/
def Proper : Session → Event → Prop
  | .idle _, .start buf => ∃ n < cbsize, buf n = 0
  | .editing _ _, .key ichar => ichar ≠ 9
  | _, _ => False

end

/-! ## Strings -/

section

variable {cbsize : Nat}

theorem touch_eq {start n : Nat} (h : start + n ≤ cbsize + 1) : touch cbsize start n = some () :=
  if_pos h

theorem memmove_eq {buf : Ptr} {dst src n : Nat} (hdst : dst + n ≤ cbsize + 1)
    (hsrc : src + n ≤ cbsize + 1) :
    memmove cbsize buf dst src n = some (buf.write dst n (buf.add src)) := by
  rw [memmove, touch_eq hdst, touch_eq hsrc]
  rfl

theorem strlen_spec {buf : Ptr} {m : Nat} (hm : m ≤ cbsize) (hzero : buf m = 0) :
    ∃ n ≤ m, strlen cbsize buf = some n ∧ buf n = 0 ∧ ∀ i < n, buf i ≠ 0 := by
  cases h : strlen cbsize buf with
  | none =>
    have := List.find?_eq_none.mp h m (List.mem_range.mpr (by omega))
    simp [hzero] at this
  | some n =>
    obtain ⟨hn, _, hbefore⟩ := List.find?_range_eq_some.mp h
    have hne : ∀ i < n, buf i ≠ 0 := fun i hi => by simpa using hbefore i hi
    refine ⟨n, ?_, rfl, by simpa using hn, hne⟩
    by_contra hlt
    exact hne m (by omega) hzero

/-- The string at the start of a buffer. -/
theorem takeWhile_bytes {buf : Ptr} {n m : Nat} (hnm : n ≤ m) (hne : ∀ i < n, buf i ≠ 0)
    (hend : n = m ∨ buf n = 0) :
    (buf.bytes m).takeWhile (· ≠ 0) = buf.bytes n := by
  obtain ⟨k, rfl⟩ := Nat.exists_eq_add_of_le hnm
  have hall : ∀ b ∈ buf.bytes n, decide (b ≠ 0) = true := by
    intro b hb
    obtain ⟨i, hi, rfl⟩ := List.mem_map.mp hb
    exact decide_eq_true (hne i (List.mem_range.mp hi))
  rw [Ptr.bytes_add, List.takeWhile_append_of_pos hall]
  cases k with
  | zero => simp [Ptr.bytes]
  | succ k =>
    have hzero : buf n = 0 := hend.resolve_left (by omega)
    rw [Nat.add_comm k 1, Ptr.bytes_add, Ptr.bytes_succ]
    simp [Ptr.bytes, Ptr.add, hzero]

end

/-! ## The bounds of the line -/

/-- `num <= eol_num <= CONFIG_SYS_CBSIZE`, and an escape sequence that is not complete. -/
structure Line.Ok (cbsize : Nat) (l : Line) : Prop where
  cbsize_pos : 0 < cbsize
  num_le : l.num ≤ l.eolNum
  eolNum_le : l.eolNum ≤ cbsize
  escSave_le : l.escSave.length ≤ 2

/-- The line is this text, with the cursor at its end. -/
structure Line.Shows (l : Line) (text : List UInt8) : Prop where
  num_eq : l.num = text.length
  eolNum_eq : l.eolNum = text.length
  bytes_eq : l.buf.bytes text.length = text

section

variable {cbsize : Nat} {l : Line} {h : Hist}

theorem Line.Ok.moved (hl : l.Ok cbsize) {num eolNum : Nat} {buf : Ptr} {insert : Bool}
    (hnum : num ≤ eolNum) (heol : eolNum ≤ cbsize) :
    Line.Ok cbsize { l with num, eolNum, buf, insert } :=
  ⟨hl.cbsize_pos, hnum, heol, hl.escSave_le⟩

theorem Line.Ok.withEscSave (hl : l.Ok cbsize) {escSave : List UInt8}
    (hesc : escSave.length ≤ 2) : Line.Ok cbsize { l with escSave } :=
  ⟨hl.cbsize_pos, hl.num_le, hl.eolNum_le, hesc⟩

/-- A character in front of the end of the line. -/
theorem putChar_ok (ichar : UInt8) (insert : Bool) (hnum : l.num < l.eolNum)
    (heol : l.eolNum ≤ cbsize) :
    ∃ buf, putChar cbsize ichar insert l = some { l with num := l.num + 1, buf } := by
  rw [putChar]
  have hone : touch cbsize l.num 1 = some () := touch_eq (by omega)
  have hwlen : touch cbsize l.num (l.eolNum - l.num) = some () := touch_eq (by omega)
  cases insert with
  | false => exact ⟨_, by rw [hone]; rfl⟩
  | true =>
    rw [if_pos rfl]
    dsimp only
    rw [hone, hwlen]
    split_ifs
    · exact ⟨_, by rw [memmove_eq (by omega) (by omega)]; rfl⟩
    · exact ⟨_, rfl⟩

theorem creadAddChar_ok (hl : l.Ok cbsize) (ichar : UInt8) (insert : Bool) :
    ∃ l', creadAddChar cbsize ichar insert l = some l' ∧ l'.Ok cbsize := by
  have hpos := hl.cbsize_pos
  have hnum := hl.num_le
  have heol := hl.eolNum_le
  rw [creadAddChar]
  split_ifs with hgrow hfull
  · exact ⟨l, rfl, hl⟩
  · obtain ⟨buf, hput⟩ := @putChar_ok cbsize { l with eolNum := l.eolNum + 1 } ichar insert
      (Nat.lt_succ_of_le hnum) (Nat.succ_le_of_lt (by omega))
    have hroom : l.eolNum + 1 ≤ cbsize := by omega
    exact ⟨_, hput, hl.moved (Nat.succ_le_succ hnum) hroom⟩
  · have hne := (not_or.mp hgrow).2
    obtain ⟨buf, hput⟩ := putChar_ok ichar insert (by omega) heol
    exact ⟨_, hput, hl.moved (by omega) heol⟩

theorem creadAddStr_ok (hl : l.Ok cbsize) (str : List UInt8) (insert : Bool) :
    ∃ l', creadAddStr cbsize str insert l = some l' ∧ l'.Ok cbsize := by
  induction str generalizing l with
  | nil => exact ⟨l, rfl, hl⟩
  | cons ichar str ih =>
    obtain ⟨l', hchar, hl'⟩ := creadAddChar_ok hl ichar insert
    obtain ⟨l'', hstr, hl''⟩ := ih hl'
    refine ⟨l'', ?_, hl''⟩
    rw [creadAddStr, List.foldlM_cons, hchar]
    exact hstr

/-- The initial text is the line, and the buffer is as it was. -/
theorem addInitial_eq (buf : Ptr) {n : Nat} (hn : n < cbsize) (left i : Nat)
    (hi : i + left = n) :
    addInitial cbsize left i ⟨i, i, buf, true, []⟩ = some ⟨n, n, buf, true, []⟩ := by
  induction left generalizing i with
  | zero =>
    obtain rfl : i = n := hi
    rfl
  | succ left ih =>
    have hone : touch cbsize i 1 = some () := touch_eq (by omega)
    have hchar : creadAddChar cbsize (buf i) true ⟨i, i, buf, true, []⟩ =
        some ⟨i + 1, i + 1, buf, true, []⟩ := by
      rw [creadAddChar, if_pos (.inl rfl), if_neg (show ¬cbsize - 1 < i by omega), putChar,
        if_pos rfl]
      dsimp only
      rw [if_neg (by omega), Nat.add_sub_cancel_left, hone]
      simp
    rw [addInitial, hone]
    change (creadAddChar cbsize (buf i) true ⟨i, i, buf, true, []⟩ >>=
      addInitial cbsize left (i + 1)) = _
    rw [hchar]
    exact ih (i + 1) (by omega)

/-- A line of the history takes the place of the text. -/
theorem recall_some (hl : l.Ok cbsize) {line : List UInt8} (hlen : line.length ≤ cbsize)
    (hzero : 0 ∉ line) :
    ∃ l', recallLine cbsize l (some line, h) = some (.editing l' h) ∧ l'.Ok cbsize ∧
      l'.Shows line ∧ l'.escSave = l.escSave := by
  obtain ⟨buf, hbuf⟩ : ∃ buf, buf = l.buf.write 0 (line.length + 1) (Ptr.ofList line) := ⟨_, rfl⟩
  have hat : ∀ i ≤ line.length, buf i = line.getD i 0 := by
    intro i hi
    rw [hbuf, Ptr.write, if_pos (by omega)]
    rfl
  have hend : buf line.length = 0 := by
    rw [hat _ (Nat.le_refl _), List.getD_eq_default _ _ (Nat.le_refl _)]
  have hne : ∀ i < line.length, buf i ≠ 0 := by
    intro i hi h0
    rw [hat i hi.le, List.getD_eq_getElem _ _ hi] at h0
    exact hzero (h0 ▸ List.getElem_mem hi)
  obtain ⟨n, hn, hstrlen, hzero', hbefore⟩ := strlen_spec hlen hend
  obtain rfl : n = line.length := by
    by_contra hlt
    exact hne n (by omega) hzero'
  refine ⟨{ l with num := line.length, eolNum := line.length, buf }, ?_,
    hl.moved (Nat.le_refl _) hlen, ⟨rfl, rfl, ?_⟩, rfl⟩
  · have hwrite : touch cbsize 0 (line.length + 1) = some () := touch_eq (by omega)
    have hread : touch cbsize 0 line.length = some () := touch_eq (by omega)
    rw [recallLine, hwrite, Option.bind_eq_bind, Option.bind_some, ← hbuf]
    dsimp only
    rw [hstrlen, Option.bind_eq_bind, Option.bind_some]
    rw [hread]
    rfl
  · rw [hbuf]
    refine Eq.trans (Ptr.bytes_congr fun i hi => ?_) (Ptr.bytes_ofList line)
    exact if_pos ⟨Nat.zero_le i, by omega⟩

end

end UBoot.Cli
