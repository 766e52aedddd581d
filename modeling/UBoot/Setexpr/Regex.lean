import UBoot.Setexpr.Substitute
import UBoot.Verification.Run

/-!
# Substitution of a regular expression

`regex_sub` of `common/cmd_setexpr.c` as a machine that takes one step for each call of
`slre_match`, `memstr` and `substitute` in its loops. `slre_match` is a parameter. Memory goes
on behind the two buffers, and what it holds before the first `strcpy` is arbitrary.
-/

namespace UBoot.Setexpr

open Verification
open HashTable (Str)

def SLRE_BUFSZ : Nat := 16384
def SLRE_PATSZ : Nat := 4096

/-- `struct cap`; the pointer is counted from the start of what is searched. -/
structure Cap where
  ptr : Nat
  len : Nat
  deriving DecidableEq

/-- The arguments of `regex_sub`: what `slre_match` says about a string (the captures 0 to
`num_caps`), the replacement, the text, and whether all matches are replaced. The stack holds
`stack` where `data` comes to lie, and `junk` where `nbuf` does, in each round of the loop. -/
structure Job where
  slreMatch : Str → Option (List Cap)
  s : Option Str
  t : Str
  glob : Bool
  stack : Ptr
  junk : Nat → Ptr
  s_noNul : ∀ x ∈ s, 0 ∉ x
  t_noNul : 0 ∉ t

/-- The variables of the loop. -/
structure Vars where
  loop : Nat
  data : Ptr
  datap : Nat
  len : Nat
  nlen : Nat

/-- The variables of the loops over the back references. -/
structure Refs where
  vars : Vars
  caps : List Cap
  i : Nat
  nbuf : Ptr
  np : Nat

inductive State where
  /-- At the call of `slre_match`. -/
  | search (v : Vars)
  /-- At a back reference, or behind the last one. -/
  | refs (r : Refs)
  /-- 1 is returned. -/
  | failed
  /-- `setenv(name, data)` -/
  | stored (data : Ptr)

/-- `strcpy` to the start of a buffer. -/
def strcpy (mem : Ptr) (text : Str) : Ptr :=
  mem.write 0 (text.length + 1) (Ptr.ofList (text ++ [0]))

def Vars.capText (v : Vars) (cap : Cap) : Str := (v.data.add (v.datap + cap.ptr)).bytes cap.len

/-- `caps[i]`. The array has one more entry, which is zero. -/
def Refs.cap (r : Refs) (i : Nat) : Cap := r.caps.getD i ⟨0, 0⟩

/-- The loop over the back references has ended. -/
def Refs.Finished (r : Refs) : Prop := r.i = 10 ∨ (r.cap r.i).len = 0

instance (r : Refs) : Decidable r.Finished := inferInstanceAs (Decidable (_ ∨ _))

def backref (i : Nat) : Str := [92, 48 + UInt8.ofNat i]

/-- The call that replaces a back reference. -/
def Refs.refCall (r : Refs) : Call where
  ssize := SLRE_PATSZ
  mem := r.nbuf
  string := r.np
  slen := r.vars.nlen
  old := backref r.i
  new := r.vars.capText (r.cap r.i)

/-- The call that replaces the match. -/
def Refs.dataCall (r : Refs) : Call where
  ssize := SLRE_BUFSZ
  mem := r.vars.data
  string := r.vars.datap
  slen := r.vars.len
  old := r.vars.capText (r.cap 0)
  new := r.nbuf.bytes r.vars.nlen

/-- The call of `substitute` that a step makes. -/
def State.call : State → Option Call
  | .refs r =>
    if r.Finished then some r.dataCall
    else if r.refCall.match = none then none
    else some r.refCall
  | _ => none

/-- `regex_sub` up to its loop. -/
def start (job : Job) : State :=
  if SLRE_BUFSZ < job.t.length + 1 then .failed
  else .search {
    loop := 0
    data := strcpy job.stack job.t
    datap := 0
    len := job.t.length
    nlen := (job.s.map List.length).getD 0 }

/-- A round of the loop up to the back references. -/
def searchStep (job : Job) (v : Vars) : State :=
  match job.slreMatch ((v.data.add v.datap).bytes v.len) with
  | none => if v.loop = 0 then .failed else .stored v.data
  | some caps =>
    match job.s with
    | none => .failed
    | some s =>
      if SLRE_PATSZ ≤ v.nlen + 1 then .failed
      else .refs ⟨v, caps, 0, strcpy (job.junk v.loop) s, 0⟩

/-- One more occurrence of a back reference, or the next one. -/
def refStep (r : Refs) : State :=
  if r.refCall.match = none then .refs { r with i := r.i + 1, np := 0 }
  else
    match substitute r.refCall with
    | none => .failed
    | some res =>
      .refs { r with vars := { r.vars with nlen := res.slen }, nbuf := res.mem, np := res.next }

/-- The round ends with the substitution of the match. -/
def dataStep (job : Job) (r : Refs) : State :=
  match substitute r.dataCall with
  | none => .failed
  | some res =>
    if job.glob then .search { r.vars with
      loop := r.vars.loop + 1, data := res.mem, datap := res.next, len := res.slen }
    else .stored res.mem

def step (job : Job) : State → State
  | .search v => searchStep job v
  | .refs r => if r.Finished then dataStep job r else refStep r
  | .failed => .failed
  | .stored data => .stored data

/-- The state after a number of steps. -/
def after (job : Job) (ticks : List Unit) : State := run (fun s () => step job s) (start job) ticks

/-! ### Calls of `substitute` -/

/-- The call that is made, if one is, is safe. -/
def State.Safe (s : State) : Prop := ∀ c, s.call = some c → c.Safe

/-- The call that is made, if one is, is bounded in the text that the string holds. -/
def State.Bounded (s : State) : Prop :=
  ∀ c, s.call = some c → ∃ text, Holds c.mem c.ssize c.string text ∧ c.Bounded text

/-- A buffer holds a string that is known up to a position. -/
structure Cursor (mem : Ptr) (size pos : Nat) (front rest : Str) : Prop where
  holds : Holds mem size 0 (front ++ rest)
  pos_eq : pos = front.length

/-- What holds in every state as long as the calls are bounded: the strings end in their
buffers. -/
def State.Inv (job : Job) : State → Prop
  | .search v =>
    (∃ front rest, Cursor v.data SLRE_BUFSZ v.datap front rest) ∧
      ∀ s ∈ job.s, v.nlen + 1 < SLRE_PATSZ → s.length + 1 < SLRE_PATSZ
  | .refs r =>
    (∃ front rest, Cursor r.vars.data SLRE_BUFSZ r.vars.datap front rest) ∧
      (∃ front rest, Cursor r.nbuf SLRE_PATSZ r.np front rest) ∧
      ∀ s ∈ job.s, s.length + 1 < SLRE_PATSZ
  | .failed => True
  | .stored _ => True

section Cursors

variable {mem : Ptr} {size pos : Nat} {front rest : Str}

theorem Holds.prepend {mem : Ptr} {size pos : Nat} {front rest : Str}
    (h : Holds mem size pos rest) (hfront : mem.bytes pos = front) (hno : 0 ∉ front) :
    Holds mem size 0 (front ++ rest) := by
  have hlen : front.length = pos := by rw [← hfront, Ptr.length_bytes]
  have hinside := h.inside
  refine ⟨?_, ?_, ?_⟩
  · rw [List.mem_append]
    exact fun hor => hor.elim hno h.noNul
  · rw [Ptr.add_zero, List.length_append, hlen, Nat.add_assoc, Ptr.bytes_add, hfront, h.bytes,
      List.append_assoc]
  · rw [List.length_append]
    omega

theorem Cursor.front_bytes (h : Cursor mem size pos front rest) : mem.bytes pos = front := by
  have hbytes := h.holds.bytes
  rw [Ptr.add_zero, List.length_append, Nat.add_assoc, Ptr.bytes_add, List.append_assoc] at hbytes
  rw [h.pos_eq]
  exact (List.append_inj hbytes (Ptr.length_bytes _ _)).1

/-- The string at the position. -/
theorem Cursor.rest_holds (h : Cursor mem size pos front rest) : Holds mem size pos rest := by
  have hbytes := h.holds.bytes
  have hinside := h.holds.inside
  have hno := h.holds.noNul
  rw [Ptr.add_zero, List.length_append, Nat.add_assoc, Ptr.bytes_add, List.append_assoc] at hbytes
  rw [List.length_append] at hinside
  have hpos := h.pos_eq
  refine ⟨fun hmem => hno (List.mem_append_right _ hmem), ?_, by omega⟩
  rw [hpos]
  exact (List.append_inj hbytes (Ptr.length_bytes _ _)).2

/-- The start of the buffer. -/
theorem Cursor.rewind (h : Cursor mem size pos front rest) :
    Cursor mem size 0 [] (front ++ rest) := ⟨h.holds, rfl⟩

theorem cursor_strcpy (mem : Ptr) {text : Str} (hno : 0 ∉ text) (hfits : text.length < size) :
    Cursor (strcpy mem text) size 0 [] text := by
  refine ⟨⟨hno, ?_, by simpa using hfits⟩, rfl⟩
  rw [List.nil_append, strcpy, Ptr.bytes_write_self]
  have hlen : text.length + 1 = (text ++ [0]).length := by simp
  rw [hlen, Ptr.bytes_ofList]

/-- A bounded call moves the position behind the replacement. -/
theorem Cursor.substitute {c : Call} {front rest : Str} {r : Result}
    (h : Cursor c.mem c.ssize c.string front rest) (hbounded : c.Bounded rest)
    (hr : substitute c = some r) :
    ∃ before after, c.match = some before.length ∧ rest = before ++ c.old ++ after ∧
      r.slen = c.slen + c.new.length - c.old.length ∧
      Cursor r.mem c.ssize r.next (front ++ before ++ c.new) after := by
  obtain ⟨before, after, hmatch, hrest, hslen, hnext, hholds, hfront⟩ :=
    substitute_bounded h.rest_holds hbounded hr
  refine ⟨before, after, hmatch, hrest, hslen, ?_, ?_⟩
  · have hall := hholds.prepend (hfront.trans h.front_bytes)
      fun hmem => h.holds.noNul (List.mem_append_left _ hmem)
    simpa only [List.append_assoc] using hall
  · rw [hnext, h.pos_eq, List.length_append, List.length_append]

end Cursors

theorem start_inv (job : Job) : (start job).Inv job := by
  rw [start]
  split_ifs with hlong
  · exact trivial
  · refine ⟨⟨[], job.t, cursor_strcpy _ job.t_noNul (by omega)⟩, fun s hs hlt => ?_⟩
    rw [Option.mem_def.mp hs] at hlt
    exact hlt

/-- A step keeps the invariant if its call is bounded. -/
theorem step_inv {job : Job} {s : State} (h : s.Inv job) (hbounded : s.Bounded) :
    (step job s).Inv job := by
  cases s with
  | failed => exact trivial
  | stored data => exact trivial
  | search v =>
    obtain ⟨hdata, hlen⟩ := h
    rw [step, searchStep]
    split
    · split_ifs <;> exact trivial
    · split
      · exact trivial
      · rename_i s hs
        split_ifs with hlong
        · exact trivial
        · have hshort : s.length + 1 < SLRE_PATSZ := hlen s hs (by omega)
          refine ⟨hdata, ⟨[], s, cursor_strcpy _ (job.s_noNul s hs) (by omega)⟩, ?_⟩
          intro s' hs'
          rwa [← Option.some.inj (hs.symm.trans hs')]
  | refs r =>
    obtain ⟨⟨front, rest, hdata⟩, ⟨front', rest', hnbuf⟩, hlen⟩ := h
    rw [step]
    split_ifs with hfin
    · rw [dataStep]
      cases hsub : substitute r.dataCall with
      | none => exact trivial
      | some res =>
        obtain ⟨text, htext, hcall⟩ := hbounded r.dataCall (if_pos hfin)
        obtain rfl := hdata.rest_holds.unique htext
        obtain ⟨before, after, -, -, -, hnext⟩ := hdata.substitute hcall hsub
        simp only
        split_ifs
        · exact ⟨⟨_, _, hnext⟩, fun s hs _ => hlen s hs⟩
        · exact trivial
    · rw [refStep]
      by_cases hmatch : r.refCall.match = none
      · rw [if_pos hmatch]
        exact ⟨⟨front, rest, hdata⟩, ⟨_, _, hnbuf.rewind⟩, hlen⟩
      · rw [if_neg hmatch]
        cases hsub : substitute r.refCall with
        | none => exact trivial
        | some res =>
          obtain ⟨text, htext, hcall⟩ :=
            hbounded r.refCall ((if_neg hfin).trans (if_neg hmatch))
          obtain rfl := hnbuf.rest_holds.unique htext
          obtain ⟨before, after, -, -, -, hnext⟩ := hnbuf.substitute hcall hsub
          exact ⟨⟨front, rest, hdata⟩, ⟨_, _, hnext⟩, hlen⟩

/-- In a state of the invariant the string of the call ends in its buffer. -/
theorem call_holds {job : Job} {s : State} (h : s.Inv job) {c : Call} (hc : s.call = some c) :
    ∃ text, Holds c.mem c.ssize c.string text := by
  cases s with
  | refs r =>
    obtain ⟨⟨front, rest, hdata⟩, ⟨front', rest', hnbuf⟩, -⟩ := h
    rw [State.call] at hc
    split_ifs at hc
    · rw [← Option.some.inj hc]
      exact ⟨rest, hdata.rest_holds⟩
    · rw [← Option.some.inj hc]
      exact ⟨rest', hnbuf.rest_holds⟩
  | search v => cases hc
  | failed => cases hc
  | stored data => cases hc

/-- In a run whose calls have all been bounded, the next one is safe exactly when it is. -/
theorem after_safe_iff (job : Job) (ticks : List Unit)
    (h : Guarded (fun s () => step job s) (fun s () => s.Bounded) (start job) ticks) :
    (after job ticks).Safe ↔ (after job ticks).Bounded := by
  have hinv : (after job ticks).Inv job :=
    Guarded.invariant (fun s _ hs hok => step_inv hs hok) h (start_inv job)
  constructor
  · intro hsafe c hc
    obtain ⟨text, htext⟩ := call_holds hinv hc
    exact ⟨text, htext, (safe_iff htext).mp (hsafe c hc)⟩
  · intro hbounded c hc
    obtain ⟨text, htext, hcall⟩ := hbounded c hc
    exact (safe_iff htext).mpr hcall

/-- `setexpr name gsub a xx aa` -/
def doubled : Job where
  slreMatch text := if 97 ∈ text then some [⟨text.idxOf 97, 1⟩] else none
  s := some [120, 120]
  t := [97, 97]
  glob := true
  stack _ := 0
  junk _ _ := 0
  s_noNul := by simp
  t_noNul := by decide

theorem bounded_of_isNone {s : State} (h : s.call.isNone = true) : s.Bounded := by
  intro c hc
  rw [hc] at h
  cases h

/-- Up to the second match all calls are bounded. -/
theorem doubled_safe_iff :
    Guarded (fun s () => step doubled s) (fun s () => s.Bounded) (start doubled)
        [(), (), (), (), ()] ∧
      ((after doubled [(), (), (), (), ()]).Safe ↔ (after doubled [(), (), (), (), ()]).Bounded) := by
  have hsecond : (after doubled [(), ()]).Bounded := by
    intro c hc
    have hcall : (after doubled [(), ()]).call = some {
        ssize := SLRE_BUFSZ, mem := strcpy doubled.stack doubled.t, string := 0, slen := 2
        old := [97], new := [120, 120] } := rfl
    obtain rfl := Option.some.inj (hcall.symm.trans hc)
    refine ⟨[97, 97], ⟨by decide, by decide, by decide⟩, ?_⟩
    have hmatch : Call.match ⟨SLRE_BUFSZ, strcpy doubled.stack doubled.t, 0, 2, [97], [120, 120]⟩ =
      some 0 := by decide
    rw [Call.Bounded, hmatch]
    decide
  have h : Guarded (fun s () => step doubled s) (fun s () => s.Bounded) (start doubled)
      [(), (), (), (), ()] :=
    ⟨bounded_of_isNone (by decide), bounded_of_isNone (by decide), hsecond,
      bounded_of_isNone (by decide), bounded_of_isNone (by decide), trivial⟩
  exact ⟨h, after_safe_iff doubled _ h⟩

/-- The second match is at position 2 of the buffer, and the tail is moved as if it were at
position 0. -/
theorem not_after_safe : ¬∀ (job : Job) (ticks : List Unit), (after job ticks).Safe := by
  intro h
  have haccesses : (after doubled [(), (), (), (), ()]).call.map Call.accesses =
      some [(2, 1), (3, 16382), (4, 16382), (2, 2)] := by decide
  obtain ⟨c, hc, haccesses⟩ := Option.map_eq_some_iff.mp haccesses
  have hinside := (h doubled _ c hc).inside (4, 16382) (by rw [haccesses]; decide)
  have hsize : c.ssize = SLRE_BUFSZ := by
    have hcall : (after doubled [(), (), (), (), ()]).call.map Call.ssize = some SLRE_BUFSZ := by
      decide
    rw [hc] at hcall
    exact Option.some.inj hcall
  rw [hsize, SLRE_BUFSZ] at hinside
  omega

end UBoot.Setexpr
