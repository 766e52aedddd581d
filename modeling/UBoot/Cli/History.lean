import Mathlib.Order.MinMax
import UBoot.Verification.Bytes

/-!
# The history of the command line

`hist_init`, `cread_add_to_hist`, `hist_prev` and `hist_next` (`common/cli_readline.c`): a
ring of lines with three counters. A line is the string in its buffer of `HIST_SIZE + 1`
bytes.
-/

namespace UBoot.Cli

def HIST_MAX : Nat := 20

structure Hist where
  histMax : Nat
  histAddIdx : Nat
  histCur : Int
  histNum : UInt32
  histList : Nat → List UInt8

def histInit : Hist where
  histMax := 0
  histAddIdx := 0
  histCur := -1
  histNum := 0
  histList := fun _ => []

/-- `hist_list[i]`: nothing outside of the array. -/
def Hist.line (h : Hist) (i : Int) : Option (List UInt8) :=
  if 0 ≤ i ∧ i < HIST_MAX then some (h.histList i.toNat) else none

/-- `cread_add_to_hist`: nothing when the line does not fit. -/
def creadAddToHist (histSize : Nat) (h : Hist) (line : List UInt8) : Option Hist :=
  if h.histAddIdx < HIST_MAX ∧ line.length ≤ histSize then
    let histList := Function.update h.histList h.histAddIdx line
    let histAddIdx := if HIST_MAX ≤ h.histAddIdx + 1 then 0 else h.histAddIdx + 1
    let histMax := if h.histMax < histAddIdx then histAddIdx else h.histMax
    some { h with histList, histAddIdx, histMax, histNum := h.histNum + 1 }
  else none

/-- `hist_prev`: the line that is returned, if any. -/
def histPrev (h : Hist) : Option (Option (List UInt8) × Hist) :=
  if h.histCur < 0 then some (none, h)
  else
    let histCur := if h.histCur - 1 < 0 then (h.histMax : Int) else h.histCur - 1
    if histCur = h.histAddIdx then some (none, h)
    else (h.line histCur).map fun ret => (some ret, { h with histCur })

/-- `hist_next` -/
def histNext (h : Hist) : Option (Option (List UInt8) × Hist) :=
  if h.histCur < 0 then some (none, h)
  else if h.histCur = h.histAddIdx then some (none, h)
  else
    let histCur := if (h.histMax : Int) < h.histCur + 1 then 0 else h.histCur + 1
    let h := { h with histCur }
    if histCur = h.histAddIdx then some (some [], h)
    else (h.line histCur).map fun ret => (some ret, h)

/-! ## What the ring holds -/

/-- How many of the stored lines can be shown. -/
def reach (stored : List (List UInt8)) : Nat := min stored.length 19

/-- The line that is shown at a distance from the end, the newest line being at distance 1. -/
def shown (stored : List (List UInt8)) : Nat → List UInt8
  | 0 => []
  | c + 1 => stored.getD c []

/-- The history holds the newest of the stored lines, given newest first, and stands at a
distance from its end. -/
structure Tracks (h : Hist) (stored : List (List UInt8)) (cursor : Nat) : Prop where
  histMax_eq : h.histMax = min stored.length 19
  histAddIdx_eq : h.histAddIdx = stored.length % 20
  cursor_le : cursor ≤ reach stored
  histCur_eq : h.histCur = ((stored.length - cursor) % 20 : Nat) ∨
    h.histCur = -1 ∧ stored.length = 0
  line_eq : ∀ j < stored.length, j < 20 →
    h.histList ((stored.length - 1 - j) % 20) = stored.getD j []

/-- The history at a distance from its end. -/
def Hist.back (h : Hist) (stored : List (List UInt8)) (c : Nat) : Hist :=
  { h with histCur := ((stored.length - c) % 20 : Nat) }

theorem tracks_histInit : Tracks histInit [] 0 where
  histMax_eq := rfl
  histAddIdx_eq := rfl
  cursor_le := Nat.le_refl 0
  histCur_eq := .inr ⟨rfl, rfl⟩
  line_eq := fun j hj => absurd hj (Nat.not_lt_zero j)

section

variable {h : Hist} {stored : List (List UInt8)} {cursor : Nat}

theorem Tracks.line (ht : Tracks h stored cursor) {c : Nat} (hc : c < reach stored) :
    h.line ((stored.length - (c + 1)) % 20 : Nat) = some (shown stored (c + 1)) := by
  rw [reach] at hc
  have hslot : (((stored.length - (c + 1)) % 20 : Nat) : Int) < HIST_MAX :=
    Int.ofNat_lt.mpr (Nat.mod_lt _ (by decide))
  rw [Hist.line, if_pos ⟨Int.natCast_nonneg _, hslot⟩, Int.toNat_natCast,
    show stored.length - (c + 1) = stored.length - 1 - c by omega,
    ht.line_eq c (by omega) (by omega), shown]

/-- A position of the ring, as the distance of its slot from the end. -/
theorem Tracks.back (ht : Tracks h stored cursor) {c : Nat} (hc : c ≤ reach stored) :
    Tracks (h.back stored c) stored c where
  histMax_eq := ht.histMax_eq
  histAddIdx_eq := ht.histAddIdx_eq
  cursor_le := hc
  histCur_eq := .inl rfl
  line_eq := ht.line_eq

theorem histPrev_of_lt (ht : Tracks h stored cursor) (hlt : cursor < reach stored) :
    histPrev h = some (some (shown stored (cursor + 1)), h.back stored (cursor + 1)) := by
  have hline := ht.line hlt
  have hreach : reach stored = min stored.length 19 := rfl
  obtain hcur | ⟨_, hzero⟩ := ht.histCur_eq
  swap
  · omega
  have hnew : (if h.histCur - 1 < 0 then (h.histMax : Int) else h.histCur - 1) =
      ((stored.length - (cursor + 1)) % 20 : Nat) := by
    have hmax := ht.histMax_eq
    split_ifs <;> omega
  have hadd := ht.histAddIdx_eq
  rw [histPrev, if_neg (by omega)]
  dsimp only
  rw [hnew, if_neg (by omega), hline, Option.map_some]
  rfl

/-- At the line that is furthest back. -/
theorem histPrev_of_eq (ht : Tracks h stored cursor) (heq : cursor = reach stored) :
    histPrev h = some (none, h) := by
  have hreach : reach stored = min stored.length 19 := rfl
  rw [histPrev]
  obtain hcur | ⟨hcur, _⟩ := ht.histCur_eq
  swap
  · rw [if_pos (by omega)]
  have hmax := ht.histMax_eq
  have hadd := ht.histAddIdx_eq
  rw [if_neg (by omega)]
  dsimp only
  rw [if_pos (by split_ifs <;> omega)]

/-- A line towards the end. -/
theorem histNext_of_pos (ht : Tracks h stored cursor) (hpos : 0 < cursor) :
    histNext h = some (some (shown stored (cursor - 1)), h.back stored (cursor - 1)) := by
  have hreach : reach stored = min stored.length 19 := rfl
  have hle := ht.cursor_le
  have hmax := ht.histMax_eq
  have hadd := ht.histAddIdx_eq
  obtain hcur | ⟨_, hzero⟩ := ht.histCur_eq
  swap
  · omega
  have hnew : (if (h.histMax : Int) < h.histCur + 1 then 0 else h.histCur + 1) =
      ((stored.length - (cursor - 1)) % 20 : Nat) := by
    split_ifs <;> omega
  rw [histNext, if_neg (by omega), if_neg (by omega)]
  dsimp only
  rw [hnew]
  cases cursor with
  | zero => omega
  | succ c =>
    rw [Nat.add_sub_cancel] at *
    cases c with
    | zero =>
      rw [if_pos (by omega)]
      rfl
    | succ c =>
      have hline := ht.line (c := c) (by omega)
      rw [if_neg (by omega)]
      exact congrArg (Option.map _) hline

/-- At the end. -/
theorem histNext_of_zero (ht : Tracks h stored 0) : histNext h = some (none, h) := by
  have hadd := ht.histAddIdx_eq
  rw [histNext]
  obtain hcur | ⟨hcur, _⟩ := ht.histCur_eq
  · rw [if_neg (by omega), if_pos (by omega)]
  · rw [if_pos (by omega)]

/-- A new line takes the place of the oldest one, or a free one. -/
theorem creadAddToHist_tracks {histSize : Nat} (ht : Tracks h stored cursor) {line : List UInt8}
    (hline : line.length ≤ histSize) :
    ∃ h', creadAddToHist histSize h line = some h' ∧
      Tracks { h' with histCur := h'.histAddIdx } (line :: stored) 0 := by
  have hmax := ht.histMax_eq
  have hadd := ht.histAddIdx_eq
  have hmod := Nat.mod_lt stored.length (show 20 > 0 by decide)
  rw [creadAddToHist, if_pos ⟨by rw [hadd]; exact hmod, hline⟩]
  have hadd' : (if HIST_MAX ≤ h.histAddIdx + 1 then 0 else h.histAddIdx + 1) =
      (stored.length + 1) % 20 := by
    rw [show HIST_MAX = 20 from rfl]
    split_ifs <;> omega
  refine ⟨_, rfl, ?_, hadd', Nat.zero_le _, .inl ?_, fun j hj hj20 => ?_⟩
  · dsimp only
    rw [hadd', List.length_cons]
    split_ifs <;> omega
  · exact congrArg Nat.cast hadd'
  · rw [List.length_cons] at hj ⊢
    dsimp only
    cases j with
    | zero =>
      rw [show (stored.length + 1 - 1 - 0) % 20 = h.histAddIdx by omega, Function.update_self]
      rfl
    | succ j =>
      rw [Function.update_of_ne (by omega), List.getD_cons_succ,
        ← ht.line_eq j (by omega) (by omega)]
      congr 1
      omega

/-- The counters after a line: the history stands at its end. -/
theorem Tracks.at_end (ht : Tracks h stored cursor) :
    Tracks { h with histCur := h.histAddIdx } stored 0 where
  histMax_eq := ht.histMax_eq
  histAddIdx_eq := ht.histAddIdx_eq
  cursor_le := Nat.zero_le _
  histCur_eq := .inl (congrArg Nat.cast ht.histAddIdx_eq)
  line_eq := ht.line_eq

/-- Where the history stands at its end. -/
theorem Tracks.cursor_eq_zero (ht : Tracks h stored cursor)
    (hend : h.histCur < 0 ∨ h.histCur = h.histAddIdx) : cursor = 0 := by
  have hreach : reach stored = min stored.length 19 := rfl
  have hle := ht.cursor_le
  have hadd := ht.histAddIdx_eq
  obtain hcur | ⟨_, hzero⟩ := ht.histCur_eq
  · omega
  · omega

end

end UBoot.Cli
