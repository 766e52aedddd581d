import UBoot.SRecord.Decode

/-!
# Loading S-records

`load_serial` and `read_record` of `common/cmd_load.c` without flash memory
(`CONFIG_SYS_NO_FLASH`), on a console that is not interrupted. The echo and the
dots are left out.
-/

namespace UBoot.SRecord

open Verification

/-- A 32-bit memory. -/
abbrev Memory := UInt32 → UInt8

/-- `memcpy` to an address. -/
def memcpy (mem : Memory) (dest : UInt32) (data : List UInt8) : Memory :=
  fun q => if (q - dest).toNat < data.length then data.getD (q - dest).toNat 0 else mem q

/-- What `read_record` makes of the characters from the console, with room for
`len` more of them: the characters of a line or, for -1, none. There is no
result as long as `getc` waits. -/
def readRecord : Nat → List UInt8 → Option (Option (List UInt8) × List UInt8)
  | 0, input => some (some [], input)
  | _ + 1, [] => none
  | len + 1, c :: input =>
    if c = 13 ∨ c = 10 then some (some [], input)
    else if c = 0 ∨ c = 3 then some (none, input)
    else (readRecord len input).map fun (line, rest) => (line.map (c :: ·), rest)

theorem readRecord_length_lt {len : Nat} {input rest : List UInt8} {line : Option (List UInt8)}
    (hlen : 0 < len) (h : readRecord len input = some (line, rest)) :
    rest.length < input.length := by
  have hle (len : Nat) : ∀ (input rest : List UInt8) (line : Option (List UInt8)),
      readRecord len input = some (line, rest) → rest.length ≤ input.length := by
    induction len with
    | zero =>
      intro input rest line h
      cases h
      exact Nat.le_refl _
    | succ len ih =>
      intro input rest line h
      cases input with
      | nil => cases h
      | cons c input =>
        rw [readRecord] at h
        split_ifs at h
        · cases h
          exact Nat.le_succ _
        · cases h
          exact Nat.le_succ _
        · obtain ⟨⟨line', rest'⟩, hrec, heq⟩ := Option.map_eq_some_iff.mp h
          cases heq
          exact Nat.le_succ_of_le (ih input _ _ hrec)
  cases len with
  | zero => exact absurd hlen (Nat.lt_irrefl 0)
  | succ len =>
    cases input with
    | nil => cases h
    | cons c input =>
      rw [readRecord] at h
      split_ifs at h
      · cases h
        exact Nat.lt_succ_self _
      · cases h
        exact Nat.lt_succ_self _
      · obtain ⟨⟨line', rest'⟩, hrec, heq⟩ := Option.map_eq_some_iff.mp h
        cases heq
        exact Nat.lt_succ_of_le (hle len input _ _ hrec)

/-- The variables of `load_serial` and the memory. -/
structure Load where
  startAddr : UInt32
  endAddr : UInt32
  mem : Memory

/-- What is printed when a load is complete; `size` goes to `filesize` too. -/
structure Report where
  first : UInt32
  last : UInt32
  size : UInt32
  deriving DecidableEq, Repr

/-- How `load_serial` ends. -/
inductive Loaded where
  /-- It waits for another character. -/
  | waits
  /-- It copies from behind `binbuf`, or reads behind the line. -/
  | outside
  /-- It returns -1. -/
  | aborted (mem : Memory)
  /-- It returns the address of the end record. -/
  | complete (addr : UInt32) (report : Report) (mem : Memory) (rest : List UInt8)

def storeRecord (offset : UInt32) (s : Load) (r : Record) : Load :=
  let storeAddr := r.addr + offset
  let last := storeAddr + UInt32.ofNat r.count.toNat - 1
  { startAddr := if storeAddr < s.startAddr then storeAddr else s.startAddr
    endAddr := if last > s.endAddr then last else s.endAddr
    mem := memcpy s.mem storeAddr r.data }

/-- What is reported at an end record. -/
def report (s : Load) : Report :=
  ⟨s.startAddr, s.endAddr, s.endAddr - s.startAddr + 1⟩

/-- The loop of `load_serial`. -/
def loadLoop (offset : UInt32) (s : Load) (input : List UInt8) : Loaded :=
  match h : readRecord SREC_MAXRECLEN input with
  | none => .waits
  | some (none, _) => .aborted s.mem
  | some (some line, rest) =>
    match srecDecode (line ++ [0]) with
    | .error .outside => .outside
    | .error (.code .empty) => loadLoop offset s rest
    | .error (.code _) => .aborted s.mem
    | .ok r =>
      if r.type.isData then
        -- a negative `binlen` is a huge `size_t`
        if r.count < 0 then .outside else loadLoop offset (storeRecord offset s r) rest
      else if r.type.isEnd then .complete r.addr (report s) s.mem rest
      else loadLoop offset s rest
  termination_by input.length
  decreasing_by
    all_goals exact readRecord_length_lt (by decide) h

/-- `load_serial` -/
def loadSerial (offset : UInt32) (mem : Memory) (input : List UInt8) : Loaded :=
  loadLoop offset ⟨0xffffffff, 0, mem⟩ input

/-! ### A line of a load -/

/-- No character of a line ends it or the load. -/
def Plain (line : List UInt8) : Prop := ∀ c ∈ line, 31 < c

instance : DecidablePred Plain := fun line => List.decidableBAll (31 < ·) line

theorem Plain.zero_not_mem {line : List UInt8} (h : Plain line) : 0 ∉ line :=
  fun hmem => absurd (h 0 hmem) (by decide)

theorem readRecord_line {line rest : List UInt8} (plain : Plain line) {len : Nat}
    (h : line.length < len) :
    readRecord len (line ++ 10 :: rest) = some (some line, rest) := by
  induction line generalizing len with
  | nil =>
    obtain ⟨len, rfl⟩ := Nat.exists_eq_succ_of_ne_zero (Nat.ne_of_gt h)
    rw [List.nil_append, readRecord, if_pos (.inr rfl)]
  | cons c line ih =>
    obtain ⟨len, rfl⟩ := Nat.exists_eq_succ_of_ne_zero (Nat.ne_of_gt (Nat.zero_lt_of_lt h))
    have hc := plain c List.mem_cons_self
    have hne {k : UInt8} (hk : k ≤ 31) : c ≠ k := by
      rintro rfl
      exact absurd hc (UInt8.not_lt.mpr hk)
    rw [List.cons_append, readRecord,
      if_neg (not_or.mpr ⟨hne (by decide), hne (by decide)⟩),
      if_neg (not_or.mpr ⟨hne (by decide), hne (by decide)⟩),
      ih (fun d hd => plain d (List.mem_cons_of_mem c hd)) (by simpa using h)]
    rfl

theorem loadLoop_data {line : List UInt8} {r : Record} (offset : UInt32) (s : Load)
    (rest : List UInt8) (plain : Plain line) (hlen : line.length < SREC_MAXRECLEN)
    (hdecode : srecDecode (line ++ [0]) = .ok r) (hdata : r.type.isData) (hpos : 0 ≤ r.count) :
    loadLoop offset s (line ++ 10 :: rest) = loadLoop offset (storeRecord offset s r) rest := by
  rw [loadLoop]
  split
  · next h => cases (readRecord_line plain hlen).symm.trans h
  · next h => cases (readRecord_line plain hlen).symm.trans h
  · next h =>
      cases (readRecord_line plain hlen).symm.trans h
      simp only [hdecode, if_pos hdata, if_neg (Int.not_lt.mpr hpos)]

theorem loadLoop_end {line : List UInt8} {r : Record} (offset : UInt32) (s : Load)
    (rest : List UInt8) (plain : Plain line) (hlen : line.length < SREC_MAXRECLEN)
    (hdecode : srecDecode (line ++ [0]) = .ok r) (hdata : ¬r.type.isData) (hend : r.type.isEnd) :
    loadLoop offset s (line ++ 10 :: rest) = .complete r.addr (report s) s.mem rest := by
  rw [loadLoop]
  split
  · next h => cases (readRecord_line plain hlen).symm.trans h
  · next h => cases (readRecord_line plain hlen).symm.trans h
  · next h =>
      cases (readRecord_line plain hlen).symm.trans h
      simp only [hdecode, if_neg hdata, if_pos hend]

theorem loadLoop_skip {line : List UInt8} {r : Record} (offset : UInt32) (s : Load)
    (rest : List UInt8) (plain : Plain line) (hlen : line.length < SREC_MAXRECLEN)
    (hdecode : srecDecode (line ++ [0]) = .ok r) (hdata : ¬r.type.isData) (hend : ¬r.type.isEnd) :
    loadLoop offset s (line ++ 10 :: rest) = loadLoop offset s rest := by
  rw [loadLoop]
  split
  · next h => cases (readRecord_line plain hlen).symm.trans h
  · next h => cases (readRecord_line plain hlen).symm.trans h
  · next h =>
      cases (readRecord_line plain hlen).symm.trans h
      simp only [hdecode, if_neg hdata, if_neg hend]

end UBoot.SRecord
