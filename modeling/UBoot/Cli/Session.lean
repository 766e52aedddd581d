import Mathlib.Data.List.TakeWhile
import UBoot.Cli.Readline

/-!
# Sessions on the command line

Any number of calls of `cread_line`, each with its characters. The bounds of the line hold
in every session. `^P` and `^N` show the stored lines at the start of a call, as long as
no call is left by `^C` away from the end of the history.
-/

namespace UBoot.Cli

open Verification

/-! ## A step -/

def Line.entered (l : Line) : List UInt8 := (l.buf.bytes l.eolNum).takeWhile (· ≠ 0)

/-- The lines that are stored, the newest first, after an event: Enter stores the line
unless it is empty or begins with `CREAD_HIST_CHAR`. -/
def storedAfter (stored : List (List UInt8)) : Session → Event → List (List UInt8)
  | .editing l _, .key ichar =>
    if (ichar = 10 ∨ ichar = 13) ∧ l.entered ≠ [] ∧ l.entered.head? ≠ some 33 then
      l.entered :: stored
    else stored
  | _, _ => stored

/-- The stored lines are strings that fit in the buffer. -/
def Storable (cbsize : Nat) (stored : List (List UInt8)) : Prop :=
  ∀ line ∈ stored, line.length ≤ cbsize ∧ 0 ∉ line

/-- The line is in its bounds, and the history holds the stored lines. -/
def Session.Ok (cbsize : Nat) (stored : List (List UInt8)) : Session → Prop
  | .idle h => ∃ cursor, Tracks h stored cursor
  | .editing l h => l.Ok cbsize ∧ ∃ cursor, Tracks h stored cursor

section

variable {cbsize : Nat} {l : Line} {h : Hist} {stored : List (List UInt8)} {cursor : Nat}

theorem Storable.shown (hs : Storable cbsize stored) {c : Nat} (hc : c ≤ reach stored) :
    (shown stored c).length ≤ cbsize ∧ 0 ∉ shown stored c := by
  cases c with
  | zero => exact ⟨Nat.zero_le _, List.not_mem_nil⟩
  | succ c =>
    have hlt : c < stored.length := by
      rw [reach] at hc
      omega
    rw [Cli.shown, List.getD_eq_getElem _ _ hlt]
    exact hs _ (List.getElem_mem hlt)

/-- `^P` shows the next line further back, if there is one that can be shown. -/
theorem recall_histPrev (hl : l.Ok cbsize) (hs : Storable cbsize stored)
    (ht : Tracks h stored cursor) :
    (cursor < reach stored ∧ ∃ l', (do recallLine cbsize l (← histPrev h)) =
      some (.editing l' (h.back stored (cursor + 1))) ∧ l'.Ok cbsize ∧
        l'.Shows (shown stored (cursor + 1)) ∧ l'.escSave = l.escSave) ∨
    cursor = reach stored ∧ (do recallLine cbsize l (← histPrev h)) = some (.editing l h) := by
  obtain hlt | heq := Nat.lt_or_eq_of_le ht.cursor_le
  · obtain ⟨hlen, hzero⟩ := hs.shown (Nat.succ_le_of_lt hlt)
    refine .inl ⟨hlt, ?_⟩
    rw [histPrev_of_lt ht hlt]
    exact recall_some hl hlen hzero
  · refine .inr ⟨heq, ?_⟩
    rw [histPrev_of_eq ht heq]
    rfl

/-- `^N` shows the next line towards the end. -/
theorem recall_histNext (hl : l.Ok cbsize) (hs : Storable cbsize stored)
    (ht : Tracks h stored cursor) :
    (0 < cursor ∧ ∃ l', (do recallLine cbsize l (← histNext h)) =
      some (.editing l' (h.back stored (cursor - 1))) ∧ l'.Ok cbsize ∧
        l'.Shows (shown stored (cursor - 1)) ∧ l'.escSave = l.escSave) ∨
    cursor = 0 ∧ (do recallLine cbsize l (← histNext h)) = some (.editing l h) := by
  obtain rfl | hpos := Nat.eq_zero_or_pos cursor
  · refine .inr ⟨rfl, ?_⟩
    rw [histNext_of_zero ht]
    rfl
  · obtain ⟨hlen, hzero⟩ := hs.shown ((Nat.sub_le cursor 1).trans ht.cursor_le)
    refine .inl ⟨hpos, ?_⟩
    rw [histNext_of_pos ht hpos]
    exact recall_some hl hlen hzero

/-- A step has a result, which is a line in its bounds or one of those at the end. -/
def Fine (cbsize : Nat) (stored : List (List UInt8)) (ends : Session → Prop)
    (o : Option Session) : Prop :=
  ∃ s, o = some s ∧ ((∃ l h, s = .editing l h ∧ l.Ok cbsize ∧ ∃ cursor, Tracks h stored cursor) ∨
    ends s)

variable {ends : Session → Prop}

theorem Fine.mono {ends' : Session → Prop} {o : Option Session} (h : Fine cbsize stored ends o)
    (himp : ∀ s, ends s → ends' s) : Fine cbsize stored ends' o := by
  obtain ⟨s, ho, hs⟩ := h
  exact ⟨s, ho, hs.imp_right (himp s)⟩

theorem Fine.ite {p : Prop} [Decidable p] {a b : Option Session}
    (ha : p → Fine cbsize stored ends a) (hb : ¬p → Fine cbsize stored ends b) :
    Fine cbsize stored ends (if p then a else b) := by
  by_cases hp : p
  · rw [if_pos hp]
    exact ha hp
  · rw [if_neg hp]
    exact hb hp

theorem fine_editing (ht : Tracks h stored cursor) (hl : l.Ok cbsize) :
    Fine cbsize stored ends (some (.editing l h)) := ⟨_, rfl, .inl ⟨l, h, rfl, hl, cursor, ht⟩⟩

theorem creadSwitch_ok (hl : l.Ok cbsize) (hs : Storable cbsize stored)
    (ht : Tracks h stored cursor) (ichar : UInt8) :
    Fine cbsize stored (fun s => ichar = 3 ∧ s = .idle h) (creadSwitch cbsize l h ichar) := by
  have hpos := hl.cbsize_pos
  have hnum := hl.num_le
  have heol := hl.eolNum_le
  have hquiet : Line.Ok cbsize { l with escSave := [] } := hl.withEscSave (Nat.zero_le _)
  have hedit := fun {l : Line} (hl : l.Ok cbsize) =>
    @fine_editing cbsize l h stored cursor (fun s => ichar = 3 ∧ s = .idle h) ht hl
  rw [creadSwitch]
  -- the escape sequences, home and break
  refine .ite (fun _ => hedit (hl.withEscSave ?_)) fun _ => .ite (fun _ => ?_) fun _ =>
    .ite (fun hbreak => ?_) fun _ => ?_
  · split_ifs
    · exact Nat.le_succ 1
    · exact Nat.zero_le 2
  · exact hedit (hl.moved (Nat.zero_le _) heol)
  · rw [touch_eq (by omega)]
    exact ⟨_, rfl, .inr ⟨hbreak, rfl⟩⟩
  -- forward and backward
  refine .ite (fun _ => .ite (fun hlt => ?_) fun _ => hedit hl) fun _ =>
    .ite (fun _ => hedit (hl.moved (by omega) heol)) fun _ => ?_
  · rw [touch_eq (by omega)]
    exact hedit (hl.moved (Nat.succ_le_of_lt hlt) heol)
  -- the character under the cursor is deleted
  refine .ite (fun _ => .ite (fun hlt => ?_) fun _ => hedit hl) fun _ => ?_
  · have hless : l.num ≤ l.eolNum - 1 := by omega
    have hless' : l.eolNum - 1 ≤ cbsize := by omega
    have htouch : touch cbsize l.num (l.eolNum - l.num - 1) = some () := touch_eq (by omega)
    dsimp only
    rw [htouch]
    split_ifs
    · exact hedit (hl.moved hless hless')
    · rw [memmove_eq (by omega) (by omega)]
      exact hedit (hl.moved hless hless')
  -- the end of the line, insertion, and the whole line
  refine .ite (fun _ => hedit (hl.moved (by omega) (by omega))) fun _ => .ite (fun _ => ?_)
    fun _ => .ite (fun _ => hedit (hl.moved hnum heol)) fun _ =>
      .ite (fun _ => hedit (hl.moved (Nat.le_refl 0) (Nat.zero_le _))) fun _ => ?_
  · rw [touch_eq (by omega)]
    exact hedit (hl.moved (by omega) heol)
  -- the character before the cursor is deleted
  refine .ite (fun _ => .ite (fun _ => hedit hl) fun hne => ?_) fun _ => ?_
  · have htouch : touch cbsize (l.num - 1) (l.eolNum - l.num) = some () := touch_eq (by omega)
    have hless : l.num - 1 ≤ l.eolNum - 1 := by omega
    have hless' : l.eolNum - 1 ≤ cbsize := by omega
    dsimp only
    rw [htouch, memmove_eq (by omega) (by omega)]
    exact hedit (hl.moved hless hless')
  -- the history
  refine .ite (fun _ => ?_) fun _ => .ite (fun _ => ?_) fun _ => ?_
  · obtain ⟨hlt, l', hrecall, hl', _⟩ | ⟨_, hrecall⟩ := recall_histPrev hquiet hs ht
    · rw [hrecall]
      exact fine_editing (ht.back hlt) hl'
    · rw [hrecall]
      exact hedit hquiet
  · obtain ⟨hlt, l', hrecall, hl', _⟩ | ⟨_, hrecall⟩ := recall_histNext hquiet hs ht
    · rw [hrecall]
      exact fine_editing (ht.back ((Nat.sub_le _ _).trans ht.cursor_le)) hl'
    · rw [hrecall]
      exact hedit hquiet
  · obtain ⟨l', hchar, hl'⟩ := creadAddChar_ok hl ichar l.insert
    rw [hchar]
    exact hedit hl'

theorem zero_not_mem_entered : 0 ∉ l.entered := fun h0 => by
  have := List.mem_takeWhile_imp h0
  simp at this

theorem Storable.after (hl : l.Ok cbsize) (hs : Storable cbsize stored) (e : Event) :
    Storable cbsize (storedAfter stored (.editing l h) e) := by
  cases e with
  | start buf => exact hs
  | key ichar =>
    rw [storedAfter]
    split_ifs
    · intro line hline
      obtain rfl | hline := List.mem_cons.mp hline
      · refine ⟨?_, zero_not_mem_entered⟩
        have hle := (List.takeWhile_sublist (· ≠ 0) (l := l.buf.bytes l.eolNum)).length_le
        rw [Ptr.length_bytes] at hle
        exact hle.trans hl.eolNum_le
      · exact hs line hline
    · exact hs

/-- Enter ends the call with the line stored and the history at its end. -/
theorem creadEnter_ok (hl : l.Ok cbsize) (ht : Tracks h stored cursor) {ichar : UInt8}
    (henter : ichar = 10 ∨ ichar = 13) :
    ∃ h', creadEnter cbsize l h = some (.idle h') ∧
      Tracks h' (storedAfter stored (.editing l h) (.key ichar)) 0 := by
  have heol := hl.eolNum_le
  obtain ⟨buf, hbuf⟩ : ∃ buf : Ptr, buf = Function.update l.buf l.eolNum 0 := ⟨_, rfl⟩
  have hzero : buf l.eolNum = 0 := by rw [hbuf, Function.update_self]
  obtain ⟨n, hn, hstrlen, hend, hne⟩ := strlen_spec heol hzero
  have hentered : l.entered = buf.bytes n := by
    rw [← takeWhile_bytes hn hne (.inr hend), Line.entered]
    congr 1
    refine Ptr.bytes_congr fun i hi => ?_
    rw [hbuf, Function.update_of_ne (by omega)]
  have hfirst : (buf 0 ≠ 0 ∧ buf 0 ≠ 33) ↔ l.entered ≠ [] ∧ l.entered.head? ≠ some 33 := by
    rw [hentered]
    cases n with
    | zero => exact iff_of_false (fun h0 => h0.1 hend) (fun h0 => h0.1 rfl)
    | succ n =>
      have h0 := hne 0 (Nat.succ_pos n)
      rw [Nat.add_comm, Ptr.bytes_add]
      simp [Ptr.bytes, h0]
  have hone : touch cbsize l.eolNum 1 = some () := touch_eq (by omega)
  have hone' : touch cbsize 0 1 = some () := touch_eq (by omega)
  rw [creadEnter, hone, Option.bind_eq_bind, Option.bind_some, ← hbuf]
  dsimp only
  rw [hone', Option.bind_eq_bind, Option.bind_some, storedAfter]
  by_cases hstore : buf 0 ≠ 0 ∧ buf 0 ≠ 33
  · rw [if_pos hstore, if_pos ⟨henter, hfirst.mp hstore⟩, hstrlen, hentered]
    obtain ⟨h', hadd, ht'⟩ := @creadAddToHist_tracks h stored cursor cbsize ht
      (buf.bytes n) (by rw [Ptr.length_bytes]; omega)
    refine ⟨_, ?_, ht'⟩
    rw [Option.bind_eq_bind, Option.bind_some, hadd]
    rfl
  · rw [if_neg hstore, if_neg (fun h0 => hstore (hfirst.mpr h0.2))]
    exact ⟨_, rfl, ht.at_end⟩

/-- How a character ends the call. -/
def Ends (stored : List (List UInt8)) (l : Line) (h : Hist) (ichar : UInt8) (s : Session) : Prop :=
  (∃ h', s = .idle h' ∧ Tracks h' (storedAfter stored (.editing l h) (.key ichar)) 0) ∨
    ichar = 3 ∧ l.escSave = [] ∧ s = .idle h

theorem escapeKey_ne_break {ichar key : UInt8} (h : escapeKey ichar = some key) : key ≠ 3 := by
  rw [escapeKey] at h
  split_ifs at h <;> obtain rfl := Option.some.inj h <;> decide

theorem creadKey_ok (hl : l.Ok cbsize) (hs : Storable cbsize stored)
    (ht : Tracks h stored cursor) (ichar : UInt8) :
    Fine cbsize stored (Ends stored l h ichar) (creadKey cbsize l h ichar) := by
  have hquiet : ∀ {l : Line}, l.Ok cbsize → Line.Ok cbsize { l with escSave := [] } :=
    fun hl => hl.withEscSave (Nat.zero_le _)
  have hesc := hl.escSave_le
  rw [creadKey]
  refine .ite (fun henter => ?_) fun _ => .ite (fun hnone => ?_) fun hsome =>
    .ite (fun hone => .ite (fun _ => ?_) fun _ => ?_) fun hmore => ?_
  · obtain ⟨h', hstep, ht'⟩ := creadEnter_ok hl ht henter
    exact ⟨_, hstep, .inr (.inl ⟨h', rfl, ht'⟩)⟩
  · exact (creadSwitch_ok hl hs ht ichar).mono fun s hs =>
      .inr ⟨hs.1, List.length_eq_zero_iff.mp hnone, hs.2⟩
  · refine fine_editing ht (hl.withEscSave ?_)
    rw [List.length_append, hone]
    exact Nat.le_refl 2
  · obtain ⟨l', hstr, hl'⟩ := creadAddStr_ok hl l.escSave l.insert
    rw [hstr]
    exact fine_editing ht (hquiet hl')
  · cases hkey : escapeKey ichar with
    | some key =>
      exact (creadSwitch_ok (hquiet hl) hs ht key).mono fun s hs =>
        absurd hs.1 (escapeKey_ne_break hkey)
    | none =>
      dsimp only
      rw [if_pos (by omega)]
      obtain ⟨l', hstr, hl'⟩ := creadAddStr_ok hl (l.escSave ++ [ichar]) l.insert
      rw [hstr]
      exact fine_editing ht (hquiet hl')

/-- A call begins with its initial text. -/
theorem step_start {buf : Ptr} (hproper : Proper cbsize (.idle h) (.start buf)) :
    ∃ n < cbsize, buf n = 0 ∧ (∀ i < n, buf i ≠ 0) ∧
      Session.step cbsize (.idle h) (.start buf) = some (.editing ⟨n, n, buf, true, []⟩ h) := by
  obtain ⟨m, hm, hzero⟩ := hproper
  obtain ⟨n, hn, hstrlen, hend, hne⟩ := strlen_spec hm.le hzero
  refine ⟨n, by omega, hend, hne, ?_⟩
  rw [Session.step, hstrlen, Option.bind_eq_bind, Option.bind_some,
    addInitial_eq buf (by omega) n 0 (Nat.zero_add n)]
  rfl

/-! ## Runs -/

/-- The sessions that the events of a kind lead to, with the lines that they store. -/
inductive Run (cbsize : Nat) (allowed : Session → Event → Prop) :
    Session → List (List UInt8) → Prop
  | init : Run cbsize allowed (.idle histInit) []
  | step {s s' : Session} {e : Event} {stored : List (List UInt8)} :
      Run cbsize allowed s stored → Proper cbsize s e → allowed s e →
      s.step cbsize e = some s' → Run cbsize allowed s' (storedAfter stored s e)

variable {s s' : Session} {e : Event}

theorem step_cases (hs : Storable cbsize stored) (hok : s.Ok cbsize stored)
    (hproper : Proper cbsize s e) :
    Storable cbsize (storedAfter stored s e) ∧
    ∃ s', s.step cbsize e = some s' ∧ s'.Ok cbsize (storedAfter stored s e) ∧
      ∀ h', s' = .idle h' → Tracks h' (storedAfter stored s e) 0 ∨
        ∃ l, s = .editing l h' ∧ e = .key 3 ∧ l.escSave = [] := by
  match s, e, hok, hproper with
  | .idle h, .start buf, ⟨cursor, ht⟩, hproper =>
    obtain ⟨n, hn, _, _, hstep⟩ := step_start hproper
    refine ⟨hs, _, hstep, ⟨⟨by omega, Nat.le_refl n, hn.le, Nat.zero_le 2⟩, cursor, ht⟩, ?_⟩
    exact fun h' h0 => Session.noConfusion h0
  | .editing l h, .key ichar, ⟨hl, cursor, ht⟩, _ =>
    refine ⟨hs.after hl _, ?_⟩
    by_cases henter : ichar = 10 ∨ ichar = 13
    · obtain ⟨h', hstep, ht'⟩ := creadEnter_ok hl ht henter
      refine ⟨_, (if_pos henter).trans hstep, ⟨0, ht'⟩, fun h'' h0 => .inl ?_⟩
      obtain rfl := Session.idle.inj h0
      exact ht'
    have hsame : storedAfter stored (.editing l h) (.key ichar) = stored :=
      if_neg fun h0 => henter h0.1
    obtain ⟨s', hstep, hline | ⟨h', rfl, ht'⟩ | ⟨hbreak, hesc, rfl⟩⟩ := creadKey_ok hl hs ht ichar
    · obtain ⟨l', h', rfl, hl', hcursor⟩ := hline
      refine ⟨_, hstep, ?_, fun h'' h0 => Session.noConfusion h0⟩
      rw [hsame]
      exact ⟨hl', hcursor⟩
    · refine ⟨_, hstep, ⟨0, ht'⟩, fun h'' h0 => .inl ?_⟩
      obtain rfl := Session.idle.inj h0
      exact ht'
    · refine ⟨_, hstep, ?_, fun h'' h0 => .inr ⟨l, ?_, by rw [hbreak], hesc⟩⟩
      · rw [hsame]
        exact ⟨cursor, ht⟩
      · rw [Session.idle.inj h0]

/-- In every run the line is in its bounds and the history holds the stored lines. -/
theorem Run.ok {allowed : Session → Event → Prop} (hrun : Run cbsize allowed s stored) :
    Storable cbsize stored ∧ s.Ok cbsize stored := by
  induction hrun with
  | init => exact ⟨fun _ h => absurd h List.not_mem_nil, 0, tracks_histInit⟩
  | step _ hproper _ hstep ih =>
    obtain ⟨hs, s', hstep', hok, _⟩ := step_cases ih.1 ih.2 hproper
    obtain rfl := Option.some.inj (hstep.symm.trans hstep')
    exact ⟨hs, hok⟩

/-- `^C` is not pressed away from the end of the history. -/
def Careful (s : Session) (e : Event) : Prop :=
  ∀ l h, s = .editing l h → e = .key 3 → l.escSave = [] →
    h.histCur < 0 ∨ h.histCur = h.histAddIdx

/-- Between the calls of a careful run the history stands at its end. -/
theorem Run.at_end {allowed : Session → Event → Prop} (hrun : Run cbsize allowed s stored)
    (hcareful : ∀ s e, allowed s e → Careful s e) {h : Hist} (hidle : s = .idle h) :
    Tracks h stored 0 := by
  cases hrun with
  | init =>
    obtain rfl := Session.idle.inj hidle
    exact tracks_histInit
  | @step s _ e stored hrun hproper hallowed hstep =>
    obtain ⟨hs, hok⟩ := hrun.ok
    obtain ⟨_, s', hstep', hok', hends⟩ := step_cases hs hok hproper
    obtain rfl := Option.some.inj (hstep.symm.trans hstep')
    obtain ht | ⟨l, rfl, rfl, hesc⟩ := hends h hidle
    · exact ht
    · rw [hidle] at hok'
      obtain ⟨cursor, ht⟩ := hok'
      obtain rfl := ht.cursor_eq_zero (hcareful _ _ hallowed l h rfl rfl hesc)
      exact ht

/-! ## The history that a call shows -/

/-- The line is in its bounds, and so are the accesses of each step that follows. -/
def Safe (cbsize : Nat) (s : Session) : Prop :=
  (∀ l h, s = .editing l h → l.num ≤ l.eolNum ∧ l.eolNum ≤ cbsize) ∧
    ∀ e, Proper cbsize s e → s.step cbsize e ≠ none

/-- The characters of a call, one after the other. -/
def keys (cbsize : Nat) (s : Session) (ichars : List UInt8) : Option Session :=
  ichars.foldlM (fun s ichar => s.step cbsize (.key ichar)) s

def up (k : Nat) : List UInt8 := List.replicate k 16

def down (k : Nat) : List UInt8 := List.replicate k 14

/-- A call that begins now shows its initial text, and with `k` times `^P` the `k`-th newest
line, as far as the history reaches. There a further `^P` changes nothing, and each `^N`
undoes one `^P`: the history is as before it, and so is the text, or empty in front of the
first line. -/
def HistoryRight (cbsize : Nat) (s : Session) (stored : List (List UInt8)) : Prop :=
  ∀ h buf, s = .idle h → Proper cbsize s (.start buf) →
    ∃ l₀, s.step cbsize (.start buf) = some (.editing l₀ h) ∧
      l₀.Shows ((buf.bytes cbsize).takeWhile (· ≠ 0)) ∧
      ∀ k ≤ reach stored, ∃ l h', keys cbsize (.editing l₀ h) (up k) = some (.editing l h') ∧
        (0 < k → l.Shows (shown stored k)) ∧
        (k = reach stored →
          ∀ more, keys cbsize (.editing l₀ h) (up (k + more)) = some (.editing l h')) ∧
        ∀ j, 0 < j → j ≤ k → ∃ l' l'' h'',
          keys cbsize (.editing l₀ h) (up (k - j)) = some (.editing l' h'') ∧
          keys cbsize (.editing l h') (down j) = some (.editing l'' h'') ∧
          l''.Shows (shown stored (k - j))

theorem keys_append (s : Session) (xs ys : List UInt8) :
    keys cbsize s (xs ++ ys) = (keys cbsize s xs).bind fun s => keys cbsize s ys :=
  List.foldlM_append

theorem keys_singleton (ichar : UInt8) :
    keys cbsize (.editing l h) [ichar] = creadKey cbsize l h ichar := by
  rw [keys, List.foldlM_cons]
  exact bind_pure _

theorem creadKey_up (hesc : l.escSave = []) :
    creadKey cbsize l h 16 = (do recallLine cbsize l (← histPrev h)) := by
  obtain ⟨num, eolNum, buf, insert, escSave⟩ := l
  obtain rfl : escSave = [] := hesc
  rfl

theorem creadKey_down (hesc : l.escSave = []) :
    creadKey cbsize l h 14 = (do recallLine cbsize l (← histNext h)) := by
  obtain ⟨num, eolNum, buf, insert, escSave⟩ := l
  obtain rfl : escSave = [] := hesc
  rfl

theorem Hist.back_back (h : Hist) (c c' : Nat) : (h.back stored c).back stored c' =
    h.back stored c' := rfl

/-- The history where some line is stored is where its cursor says. -/
theorem Tracks.back_self (ht : Tracks h stored cursor) (hpos : 0 < stored.length) :
    h.back stored cursor = h := by
  obtain hcur | ⟨_, hzero⟩ := ht.histCur_eq
  · rw [Hist.back, ← hcur]
  · omega

/-- `^P` from the end of the history on. -/
theorem keys_up (hl : l.Ok cbsize) (hesc : l.escSave = []) (hs : Storable cbsize stored)
    (ht : Tracks h stored 0) {k : Nat} (hk : k ≤ reach stored) :
    ∃ l' h', keys cbsize (.editing l h) (up k) = some (.editing l' h') ∧
      (h' = if k = 0 then h else h.back stored k) ∧ l'.Ok cbsize ∧ l'.escSave = [] ∧
      Tracks h' stored k ∧ (0 < k → l'.Shows (shown stored k)) := by
  induction k with
  | zero => exact ⟨l, h, rfl, rfl, hl, hesc, ht, fun h0 => absurd h0 (Nat.lt_irrefl 0)⟩
  | succ k ih =>
    obtain ⟨l', h', hkeys, hh', hl', hesc', ht', _⟩ := ih (Nat.le_of_succ_le hk)
    obtain ⟨_, l'', hrecall, hl'', hshows, hesc''⟩ | ⟨heq, _⟩ := recall_histPrev hl' hs ht'
    swap
    · omega
    have hback : h'.back stored (k + 1) = h.back stored (k + 1) := by
      rw [hh']
      split_ifs <;> rfl
    rw [hback] at hrecall
    refine ⟨l'', _, ?_, (if_neg (Nat.succ_ne_zero k)).symm, hl'', hesc''.trans hesc', ht.back hk,
      fun _ => hshows⟩
    rw [up, List.replicate_succ', keys_append, ← up, hkeys, Option.bind_some, keys_singleton,
      creadKey_up hesc']
    exact hrecall

/-- `^P` at the line that is furthest back. -/
theorem keys_up_stays (hl : l.Ok cbsize) (hesc : l.escSave = []) (hs : Storable cbsize stored)
    (ht : Tracks h stored (reach stored)) (more : Nat) :
    keys cbsize (.editing l h) (up more) = some (.editing l h) := by
  induction more with
  | zero => rfl
  | succ more ih =>
    rw [up, List.replicate_succ', keys_append, ← up, ih, Option.bind_some, keys_singleton,
      creadKey_up hesc]
    exact ((recall_histPrev hl hs ht).resolve_left fun h0 => absurd h0.1 (Nat.lt_irrefl _)).2

/-- `^N` towards the end of the history. -/
theorem keys_down (hl : l.Ok cbsize) (hesc : l.escSave = []) (hs : Storable cbsize stored)
    {k : Nat} (ht : Tracks h stored k) {j : Nat} (hj : j ≤ k) :
    ∃ l' h', keys cbsize (.editing l h) (down j) = some (.editing l' h') ∧
      (h' = if j = 0 then h else h.back stored (k - j)) ∧ l'.Ok cbsize ∧ l'.escSave = [] ∧
      Tracks h' stored (k - j) ∧ (0 < j → l'.Shows (shown stored (k - j))) := by
  induction j with
  | zero => exact ⟨l, h, rfl, rfl, hl, hesc, ht, fun h0 => absurd h0 (Nat.lt_irrefl 0)⟩
  | succ j ih =>
    obtain ⟨l', h', hkeys, hh', hl', hesc', ht', _⟩ := ih (Nat.le_of_succ_le hj)
    obtain ⟨_, l'', hrecall, hl'', hshows, hesc''⟩ | ⟨heq, _⟩ := recall_histNext hl' hs ht'
    swap
    · omega
    have hback : h'.back stored (k - j - 1) = h.back stored (k - (j + 1)) := by
      rw [hh', Nat.sub_sub]
      split_ifs <;> rfl
    rw [hback] at hrecall
    rw [Nat.sub_sub] at hshows
    refine ⟨l'', _, ?_, (if_neg (Nat.succ_ne_zero j)).symm, hl'', hesc''.trans hesc',
      ht.back ((Nat.sub_le _ _).trans ht.cursor_le), fun _ => hshows⟩
    rw [down, List.replicate_succ', keys_append, ← down, hkeys, Option.bind_some,
      keys_singleton, creadKey_down hesc']
    exact hrecall

/-- At the end of the history the calls show it rightly. -/
theorem historyRight_of_tracks (hs : Storable cbsize stored) (ht : Tracks h stored 0) :
    HistoryRight cbsize (.idle h) stored := by
  intro h₀ buf hidle hproper
  obtain rfl := Session.idle.inj hidle
  obtain ⟨n, hn, hend, hne, hstep⟩ := step_start hproper
  have hl₀ : Line.Ok cbsize ⟨n, n, buf, true, []⟩ := ⟨by omega, Nat.le_refl n, hn.le, Nat.zero_le 2⟩
  refine ⟨_, hstep, ?_, fun k hk => ?_⟩
  · rw [takeWhile_bytes hn.le hne (.inr hend)]
    exact ⟨(Ptr.length_bytes buf n).symm, (Ptr.length_bytes buf n).symm, by rw [Ptr.length_bytes]⟩
  obtain ⟨l, h', hkeys, hh', hl, hesc, ht', hshows⟩ := keys_up hl₀ rfl hs ht hk
  refine ⟨l, h', hkeys, hshows, fun hlast more => ?_, fun j hj hjk => ?_⟩
  · rw [up, ← List.replicate_append_replicate, ← up, ← up, keys_append, hkeys, Option.bind_some]
    rw [hlast] at ht'
    exact keys_up_stays hl hesc hs ht' more
  · obtain ⟨l', h₁, hkeys', hh₁, _⟩ := keys_up hl₀ rfl hs ht ((Nat.sub_le k j).trans hk)
    obtain ⟨l'', h₂, hkeys'', hh₂, _, _, _, hshows''⟩ := keys_down hl hesc hs ht' hjk
    have hpos : 0 < stored.length := by
      rw [reach] at hk
      omega
    have hsame : h₁ = h₂ := by
      rw [hh₁, hh₂, hh', if_neg (by omega : ¬j = 0), if_neg (by omega : ¬k = 0), Hist.back_back]
      split_ifs with hzero
      · rw [hzero, ht.back_self hpos]
      · rfl
    rw [hsame] at hkeys'
    exact ⟨l', l'', h₂, hkeys', hkeys'', hshows'' hj⟩

/-- Every session is safe, and the sessions of careful runs show the history rightly. -/
theorem session_right {allowed : Session → Event → Prop} (hrun : Run cbsize allowed s stored) :
    Safe cbsize s ∧ ((∀ s e, allowed s e → Careful s e) → HistoryRight cbsize s stored) := by
  obtain ⟨hs, hok⟩ := hrun.ok
  refine ⟨⟨fun l h hediting => ?_, fun e hproper hnone => ?_⟩, fun hcareful => ?_⟩
  · subst hediting
    exact ⟨hok.1.num_le, hok.1.eolNum_le⟩
  · obtain ⟨_, s', hstep, _⟩ := step_cases hs hok hproper
    rw [hnone] at hstep
    cases hstep
  · intro h buf hidle
    have ht := hrun.at_end hcareful hidle
    subst hidle
    exact historyRight_of_tracks hs ht h buf rfl

end

/-! ### Two runs -/

def emptyLine : Event := .start fun _ => 0

/-- Events in a session, with the lines that they store. -/
def play (cbsize : Nat) (p : Session × List (List UInt8)) (events : List Event) :
    Option (Session × List (List UInt8)) :=
  events.foldlM (fun p e => (p.1.step cbsize e).map fun s => (s, storedAfter p.2 p.1 e)) p

/-- A call with an empty line, or a character that is no TAB. -/
def Typed : Event → Prop
  | .start buf => buf 0 = 0
  | .key ichar => ichar ≠ 9

instance : DecidablePred Typed
  | .start buf => inferInstanceAs (Decidable (buf 0 = 0))
  | .key ichar => inferInstanceAs (Decidable (ichar ≠ 9))

theorem Typed.proper {cbsize : Nat} {s s' : Session} {e : Event} (h : Typed e)
    (hpos : 0 < cbsize) (hstep : s.step cbsize e = some s') : Proper cbsize s e := by
  match s, e, h, hstep with
  | .idle _, .start buf, h, _ => exact ⟨0, hpos, h⟩
  | .editing _ _, .key ichar, h, _ => exact h

theorem Run.play {cbsize : Nat} {p q : Session × List (List UInt8)} {events : List Event}
    (hpos : 0 < cbsize) (htyped : ∀ e ∈ events, Typed e)
    (hrun : Run cbsize (fun _ _ => True) p.1 p.2) (hevents : play cbsize p events = some q) :
    Run cbsize (fun _ _ => True) q.1 q.2 := by
  induction events generalizing p with
  | nil =>
    obtain rfl := Option.some.inj hevents
    exact hrun
  | cons e events ih =>
    rw [Cli.play, List.foldlM_cons] at hevents
    cases hstep : p.1.step cbsize e with
    | none =>
      rw [hstep] at hevents
      cases hevents
    | some s =>
      rw [hstep] at hevents
      obtain ⟨hhead, htail⟩ := List.forall_mem_cons.mp htyped
      exact ih (p := (s, storedAfter p.2 p.1 e)) htail
        (hrun.step (hhead.proper hpos hstep) trivial hstep) hevents

/-- Enter stores a line, `^C` gives up the one behind it, and the next call shows the first. -/
theorem session_right_line : ∃ s, Safe 256 s ∧ HistoryRight 256 s [[97]] := by
  have hline : Run 256 Careful _ _ := (((@Run.init 256 Careful).step
    (e := emptyLine) ⟨0, by decide, rfl⟩ (by nofun) rfl).step
    (e := .key 97) (show (97 : UInt8) ≠ 9 by decide) (by nofun) rfl).step
    (e := .key 13) (show (13 : UInt8) ≠ 9 by decide) (by nofun) rfl
  have hrun : Run 256 Careful _ _ := ((hline.step
    (e := emptyLine) ⟨0, by decide, rfl⟩ (by nofun) rfl).step
    (e := .key 98) (show (98 : UInt8) ≠ 9 by decide) (by nofun) rfl).step
    (e := .key 3) (show (3 : UInt8) ≠ 9 by decide)
      (fun l h hediting _ _ => by
        obtain ⟨-, rfl⟩ := Session.editing.inj hediting
        exact .inr rfl) rfl
  exact ⟨_, (session_right hrun).1, (session_right hrun).2 fun _ _ h => h⟩

/-- The lines `a` and `b`, and a call that is left by `^C` after `^P`. -/
def interrupted : List Event :=
  [emptyLine, .key 97, .key 13, emptyLine, .key 98, .key 13, emptyLine, .key 16, .key 3]

/-- The first byte that `^P` shows at the start of a call. -/
def shownByUp (p : Session × List (List UInt8)) : Option UInt8 := do
  let s ← p.1.step 256 emptyLine
  match ← keys 256 s (up 1) with
  | .editing l _ => some (l.buf 0)
  | .idle _ => none

/-- After that call `^P` shows `a`, not `b`. -/
theorem interrupted_not_right : ¬∀ s stored, Run 256 (fun _ _ => True) s stored →
    Safe 256 s ∧ HistoryRight 256 s stored := by
  intro hall
  have hplay : (play 256 (.idle histInit, []) interrupted).map
      (fun p => (p.2, shownByUp p)) = some ([[98], [97]], some 97) := by decide
  obtain ⟨⟨s, stored⟩, hevents, hresult⟩ := Option.map_eq_some_iff.mp hplay
  obtain ⟨rfl, hup⟩ := Prod.mk.inj hresult
  have hrun := Run.play (by decide) (by decide : ∀ e ∈ interrupted, Typed e) .init hevents
  cases s with
  | editing l h => cases hup
  | idle h =>
    obtain ⟨l₀, hstart, _, hshow⟩ := (hall _ _ hrun).2 h (fun _ => 0) rfl
      ⟨0, by decide, rfl⟩
    obtain ⟨l, h', hkeys, hshows, _⟩ := hshow 1
      (show 1 ≤ reach [[98], [97]] by decide)
    have hbyte : l.buf 0 = 97 := by
      rw [shownByUp, emptyLine, hstart, Option.bind_eq_bind, Option.bind_some, hkeys] at hup
      exact Option.some.inj hup
    have hfirst := List.head_eq_of_cons_eq (hshows (by decide)).bytes_eq
    rw [hbyte] at hfirst
    exact absurd hfirst (by decide)

end UBoot.Cli
