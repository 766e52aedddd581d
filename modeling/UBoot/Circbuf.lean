import UBoot.Verification.Ring

/-!
# The circular buffer

`lib/circbuf.c`: bytes are pushed at `tail` and popped at `top`, and a push that
does not fit takes the place of the oldest bytes.
-/

namespace UBoot.Circbuf

open Verification

/-- `circbuf_t`. The pointers `top` and `tail` are offsets from `data`, and `end`
is the offset `totalsize`. -/
structure CircbufT where
  size : Nat
  totalsize : Nat
  top : Nat
  tail : Nat
  data : Nat → UInt8

/-- `buf_init`; `data` is the memory that `malloc` returned. -/
def bufInit (size : Nat) (data : Nat → UInt8) : CircbufT where
  size := 0
  totalsize := size
  top := 0
  tail := 0
  data := data

/-- The loop of `buf_pop`: the bytes copied and the last `p`. A read outside the
allocated bytes fails. -/
def popLoop (buf : CircbufT) : Nat → Nat → Option (List UInt8 × Nat)
  | 0, p => some ([], p)
  | len + 1, p =>
    if p < buf.totalsize then
      (popLoop buf len (if p + 1 = buf.totalsize then 0 else p + 1)).map fun rest =>
        (buf.data p :: rest.1, rest.2)
    else none

/-- `buf_pop`: the bytes stored at `dest`, as many as it returns. -/
def bufPop (buf : CircbufT) (len : Nat) : Option (List UInt8 × CircbufT) :=
  let len := if len > buf.size then buf.size else len
  (popLoop buf len buf.top).map fun (dest, p) =>
    (dest, { buf with top := p, size := buf.size - len })

/-- The loop of `buf_push` with its pointer `p`. A write outside the allocated
bytes fails. -/
def pushLoop : CircbufT → Nat → List UInt8 → Option CircbufT
  | buf, p, [] => some { buf with tail := p }
  | buf, p, b :: src =>
    if p < buf.totalsize then
      let data := Function.update buf.data p b
      let p := if p + 1 = buf.totalsize then 0 else p + 1
      if buf.size < buf.totalsize then
        pushLoop { buf with data := data, size := buf.size + 1 } p src
      else
        let top := if buf.top + 1 = buf.totalsize then 0 else buf.top + 1
        pushLoop { buf with data := data, top := top } p src
    else none

/-- `buf_push`. -/
def bufPush (buf : CircbufT) (src : List UInt8) : Option CircbufT := pushLoop buf buf.tail src

/-! ### Runs -/

inductive Call where
  | push (src : List UInt8)
  | pop (len : Nat)
deriving DecidableEq

/-- One call and the bytes it delivers. -/
def step (buf : CircbufT) : Call → Option (List UInt8 × CircbufT)
  | .push src => (bufPush buf src).map fun buf => ([], buf)
  | .pop len => bufPop buf len

/-- The bytes delivered by each call, and the last state. -/
def run : CircbufT → List Call → Option (List (List UInt8) × CircbufT)
  | buf, [] => some ([], buf)
  | buf, call :: calls => do
    let (out, buf) ← step buf call
    let (outs, buf) ← run buf calls
    pure (out :: outs, buf)

/-- A call on the queue of the `cap` most recent bytes. -/
def fifoStep (cap : Nat) (kept : List UInt8) : Call → List UInt8 × List UInt8
  | .push src => ([], latest cap (kept ++ src))
  | .pop len => (kept.take len, kept.drop len)

def fifoRun (cap : Nat) : List UInt8 → List Call → List (List UInt8) × List UInt8
  | kept, [] => ([], kept)
  | kept, call :: calls =>
    let (out, kept) := fifoStep cap kept call
    let (outs, kept) := fifoRun cap kept calls
    (out :: outs, kept)

/-- The calls deliver what the queue delivers, and `size` counts its bytes. -/
def Behaves (size : Nat) (data : Nat → UInt8) (calls : List Call) : Prop :=
  ∃ buf, run (bufInit size data) calls = some ((fifoRun size [] calls).1, buf) ∧
    buf.size = (fifoRun size [] calls).2.length

/-! ### The invariant -/

/-- The buffer holds the queue `kept`. -/
structure Keeps (cap : Nat) (buf : CircbufT) (kept : List UInt8) : Prop where
  totalsize_eq : buf.totalsize = cap
  size_eq : buf.size = kept.length
  holds : Ring.Holds cap buf.data buf.top buf.tail kept

section Invariant

variable {cap : Nat} {buf : CircbufT} {kept : List UInt8}

theorem keeps_bufInit {size : Nat} (h : 0 < size) (data : Nat → UInt8) :
    Keeps size (bufInit size data) [] :=
  ⟨rfl, rfl, Ring.Holds.nil data h⟩

/-- A popped prefix is read in order. -/
theorem popLoop_spec {out rest : List UInt8} {p tail : Nat} (hsize : buf.totalsize = cap)
    (h : Ring.Holds cap buf.data p tail (out ++ rest)) :
    ∃ p', popLoop buf out.length p = some (out, p') ∧ Ring.Holds cap buf.data p' tail rest := by
  induction out generalizing p with
  | nil => exact ⟨p, rfl, h⟩
  | cons b out ih =>
    obtain ⟨p', hloop, hrest⟩ := ih h.pop
    refine ⟨p', ?_, hrest⟩
    have hbyte : buf.data p = b := h.head
    rw [Ring.next, ← hsize] at hloop
    rw [List.length_cons, popLoop, if_pos (hsize ▸ h.top_lt), hloop, hbyte]
    rfl

theorem bufPop_spec (h : Keeps cap buf kept) (len : Nat) :
    ∃ buf', bufPop buf len = some (kept.take len, buf') ∧ Keeps cap buf' (kept.drop len) := by
  have hcount : (if len > buf.size then buf.size else len) = (kept.take len).length := by
    rw [h.size_eq, List.length_take]
    split_ifs <;> omega
  have hsplit := h.holds
  rw [← List.take_append_drop len kept] at hsplit
  obtain ⟨p, hloop, hrest⟩ := popLoop_spec h.totalsize_eq hsplit
  let buf' := { buf with top := p, size := buf.size - (kept.take len).length }
  refine ⟨buf', by rw [bufPop, hcount, hloop]; rfl, h.totalsize_eq, ?_, hrest⟩
  change buf.size - (kept.take len).length = (kept.drop len).length
  rw [h.size_eq, List.length_take, List.length_drop]
  omega

/-- Each byte pushed keeps the invariant, and the last ones stay. -/
theorem pushLoop_spec {src : List UInt8} {p : Nat} (hsize : buf.totalsize = cap)
    (hcount : buf.size = kept.length) (h : Ring.Holds cap buf.data buf.top p kept) :
    ∃ buf', pushLoop buf p src = some buf' ∧ Keeps cap buf' (latest cap (kept ++ src)) := by
  induction src generalizing buf p kept with
  | nil =>
    refine ⟨_, rfl, hsize, ?_, ?_⟩ <;> rw [List.append_nil, latest_of_le h.length_le]
    · exact hcount
    · exact h
  | cons b src ih =>
    have hp : p < buf.totalsize := hsize ▸ h.tail_lt
    by_cases hroom : buf.size < buf.totalsize
    · have hkept : kept.length < cap := by rwa [hcount, hsize] at hroom
      rw [pushLoop, if_pos hp, if_pos hroom, hsize, List.append_cons]
      apply ih
      · rfl
      · rw [List.length_append, List.length_singleton, ← hcount]
      · exact h.push hkept b
    · cases kept with
      | nil =>
        have hpos := h.top_lt
        rw [hcount, hsize, List.length_nil] at hroom
        omega
      | cons x rest =>
        have hfull : rest.length + 1 = cap := by
          have hle := h.length_le
          rw [hcount, hsize] at hroom
          rw [List.length_cons] at hle hroom
          omega
        rw [pushLoop, if_pos hp, if_neg hroom, hsize, List.append_cons,
          ← latest_append cap (_ ++ [b]), latest_cons_of_full hfull]
        apply ih
        · rfl
        · rw [hcount, List.length_append, List.length_singleton, List.length_cons]
        · exact h.replace hfull b

theorem step_spec (h : Keeps cap buf kept) (call : Call) :
    ∃ buf', step buf call = some ((fifoStep cap kept call).1, buf') ∧
      Keeps cap buf' (fifoStep cap kept call).2 := by
  cases call with
  | push src =>
    obtain ⟨buf', hpush, hkeeps⟩ := @pushLoop_spec _ _ _ src _ h.totalsize_eq h.size_eq h.holds
    exact ⟨buf', by rw [step, bufPush, hpush]; rfl, hkeeps⟩
  | pop len => exact bufPop_spec h len

theorem run_spec (h : Keeps cap buf kept) (calls : List Call) :
    ∃ buf', run buf calls = some ((fifoRun cap kept calls).1, buf') ∧
      Keeps cap buf' (fifoRun cap kept calls).2 := by
  induction calls generalizing buf kept with
  | nil => exact ⟨buf, rfl, h⟩
  | cons call calls ih =>
    obtain ⟨buf₁, hstep, hkeeps⟩ := step_spec h call
    obtain ⟨buf₂, hrun, hlast⟩ := ih hkeeps
    exact ⟨buf₂, by rw [run, hstep]; simp only [bind, Option.bind, hrun]; rfl, hlast⟩

end Invariant

/-! ### A buffer without bytes -/

section Empty

variable {buf : CircbufT}

/-- Nothing is popped from a buffer without bytes. -/
theorem bufPop_empty (h : buf.size = 0) (len : Nat) : bufPop buf len = some ([], buf) := by
  have hcount : (if len > buf.size then buf.size else len) = 0 := by
    rw [h]
    split_ifs <;> omega
  rw [bufPop, hcount]
  rfl

theorem fifoStep_empty (call : Call) : fifoStep 0 [] call = ([], []) := by
  cases call with
  | push src =>
    rw [fifoStep, latest, Nat.sub_zero, List.drop_length]
  | pop len => rw [fifoStep, List.take_nil, List.drop_nil]

/-- The first byte pushed goes behind the end. -/
theorem run_empty (hsize : buf.size = 0) (htotal : buf.totalsize = 0) (calls : List Call) :
    (∃ buf', run buf calls = some ((fifoRun 0 [] calls).1, buf') ∧
      buf'.size = (fifoRun 0 [] calls).2.length) ↔ ∀ src, .push src ∈ calls → src = [] := by
  induction calls with
  | nil => exact ⟨fun _ src hmem => absurd hmem List.not_mem_nil, fun _ => ⟨buf, rfl, hsize⟩⟩
  | cons call calls ih =>
    have hquiet : step buf call = some ([], buf) →
        ((∃ buf', run buf (call :: calls) = some ((fifoRun 0 [] (call :: calls)).1, buf') ∧
          buf'.size = (fifoRun 0 [] (call :: calls)).2.length) ↔
          ∀ src, .push src ∈ calls → src = []) := by
      intro hstep
      rw [← ih, run, hstep, fifoRun, fifoStep_empty]
      simp only [bind, Option.bind]
      cases run buf calls with
      | none => simp
      | some last => simp [pure, Prod.ext_iff]
    cases call with
    | pop len =>
      rw [hquiet (bufPop_empty hsize len)]
      simp
    | push src =>
      cases src with
      | nil =>
        rw [hquiet rfl]
        simp
      | cons b src =>
        have hfail : step buf (.push (b :: src)) = none := by
          rw [step, bufPush, pushLoop, htotal, if_neg (Nat.not_lt_zero _)]
          rfl
        rw [run, hfail]
        simp [bind, Option.bind]

end Empty

/-- Every run of calls on a buffer with room for a byte behaves as the queue, and
a buffer without room does as long as nothing is pushed. -/
theorem fifo_iff (size : Nat) (data : Nat → UInt8) (calls : List Call) :
    Behaves size data calls ↔ 0 < size ∨ ∀ src, .push src ∈ calls → src = [] := by
  rcases Nat.eq_zero_or_pos size with rfl | hpos
  · rw [or_iff_right (Nat.lt_irrefl 0)]
    exact run_empty rfl rfl calls
  · obtain ⟨buf, hrun, hkeeps⟩ := run_spec (keeps_bufInit hpos data) calls
    exact iff_of_true ⟨buf, hrun, hkeeps.size_eq⟩ (.inl hpos)

/-- One byte is pushed into a buffer of no bytes. -/
theorem not_fifo_empty : ¬Behaves 0 (fun _ => 0) [.push [1]] := by
  rw [Behaves, run_empty rfl rfl]
  simp

example : ((run (bufInit 3 fun _ => 0) [.push [1, 2, 3, 4], .pop 2, .push [5], .pop 9]).map
    (·.1)) = some [[], [2, 3], [], [4, 5]] := by decide

end UBoot.Circbuf
