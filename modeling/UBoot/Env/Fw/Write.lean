import Mathlib.Data.List.Chain
import UBoot.Env.Flags.Basic

/-!
# Editing the environment in place

`fw_env_write` deletes the old definition of a variable by moving the rest of
`environment.data` down, and appends the new one behind the last variable. The end of
the environment is marked by two NUL bytes. `data` is an array of `ENV_SIZE` bytes here,
and a read or a write outside it has no result.
-/

namespace UBoot.Env.Fw.Write

open HashTable (Str)
open Flags (PREVENT_DELETE PREVENT_CREATE PREVENT_OVERWR PREVENT_NONDEF_OVERWR flagsVar)

/-- The character between the name and the value. -/
def equals : UInt8 := 61

/-- A write to the array. -/
def store (data : Str) (i : Nat) (c : UInt8) : Option Str :=
  if i < data.length then some (data.set i c) else none

/-! ### Searching -/

/-- `for (nxt = env; *nxt; ++nxt)`; behind the array the read comes before the check that
reports an environment without an end. -/
def strEnd (data : Str) : Nat → Nat → Option Nat
  | 0, _ => none
  | fuel + 1, nxt => do
    let c ← data[nxt]?
    if c = 0 then some nxt else strEnd data fuel (nxt + 1)

/-- `envmatch`, with the place of the value. Two strings that end together are compared
behind their ends. -/
def envmatch (data : Str) : Str → Nat → Option (Option Nat)
  | [], s2 => do
    let c ← data[s2]?
    if c = 0 then none else if c = equals then some (some (s2 + 1)) else some none
  | a :: s1, s2 => do
    let c ← data[s2]?
    if a = c then
      if a = equals then some (some (s2 + 1)) else envmatch data s1 (s2 + 1)
    else some none

/-- A definition that was found: where it starts, its NUL and its value. -/
structure Found where
  env : Nat
  nxt : Nat
  val : Nat
  deriving DecidableEq

/-- The loop over the variables that `fw_getenv` and `fw_env_write` share. -/
def findVar (data name : Str) : Nat → Nat → Option (Option Found)
  | 0, _ => none
  | fuel + 1, env => do
    let c ← data[env]?
    if c = 0 then some none
    else
      let nxt ← strEnd data (data.length + 1) env
      match ← envmatch data name env with
      | some val => some (some ⟨env, nxt, val⟩)
      | none => findVar data name fuel (nxt + 1)

/-- The string at a place. -/
def cstr (data : Str) (i : Nat) : Str := (data.drop i).takeWhile (· ≠ 0)

/-- `fw_getenv` -/
def fwGetenv (data name : Str) : Option (Option Str) :=
  (findVar data name (data.length + 1) 0).map fun found => found.map fun f => cstr data f.val

/-! ### Editing -/

/-- The loop that moves the rest down. -/
def shiftLoop : Nat → Str → Nat → Nat → Option (Str × Nat)
  | 0, _, _, _ => none
  | fuel + 1, data, env, nxt => do
    let c ← data[nxt]?
    let data ← store data env c
    if c = 0 then
      let d ← data[nxt + 1]?
      if d = 0 then some (data, env) else shiftLoop fuel data (env + 1) (nxt + 1)
    else shiftLoop fuel data (env + 1) (nxt + 1)

/-- The old definition is deleted. -/
def removeVar (data : Str) (env nxt : Nat) : Option Str := do
  let c ← data[nxt + 1]?
  let (data, env) ← if c = 0 then (store data env 0).map fun data => (data, env)
    else shiftLoop (data.length + 1) data env (nxt + 1)
  store data (env + 1) 0

def endLoop (data : Str) : Nat → Nat → Option Nat
  | 0, _ => none
  | fuel + 1, env => do
    let c ← data[env]?
    if c ≠ 0 then endLoop data fuel (env + 1)
    else
      let d ← data[env + 1]?
      if d ≠ 0 then endLoop data fuel (env + 1) else some env

/-- A string is copied with its NUL; the place of the NUL is returned. -/
def copyStr : Str → Nat → Str → Option (Str × Nat)
  | data, env, [] => (store data env 0).map fun data => (data, env)
  | data, env, c :: s => (store data env c).bind fun data => copyStr data (env + 1) s

/-- The new definition is appended, or the environment overflows. -/
def appendVar (data name value : Str) : Option (Int × Str) := do
  let env ← endLoop data (data.length + 1) 0
  let env := if env > 0 then env + 1 else env
  let len := name.length + 2 + (value.length + 1)
  if env + len > data.length then some (-1, data)
  else
    let (data, env) ← copyStr data env name
    let data ← store data env equals
    let (data, env) ← copyStr data (env + 1) value
    let data ← store data (env + 1) 0
    some (0, data)

/-- What is asked about a variable besides the environment: `env_flags_validate_varaccess`
with the value of `.flags`, the name and the mask, and the default value. -/
structure Checks where
  varaccess : Option Str → Str → Nat → Bool
  getdefenv : Str → Option Str

/-- The permission check: `true` for a change that is refused. -/
def denied (checks : Checks) (flags : Option Str) (name : Str) (oldval : Option Str)
    (given : Bool) : Bool :=
  match oldval, given with
  | some _, false => checks.varaccess flags name PREVENT_DELETE
  | some oldval, true =>
    if checks.varaccess flags name PREVENT_OVERWR then true
    else if checks.varaccess flags name PREVENT_NONDEF_OVERWR then
      oldval ≠ (checks.getdefenv name).getD []
    else false
  | none, true => checks.varaccess flags name PREVENT_CREATE
  | none, false => false

/-- `fw_env_write`; an absent value stands for a null pointer. -/
def fwEnvWrite (checks : Checks) (data name : Str) (value : Option Str) : Option (Int × Str) := do
  let found ← findVar data name (data.length + 1) 0
  let given := value.getD [] ≠ []
  if found = none ∧ ¬given then some (0, data)
  else
    let flags ← fwGetenv data flagsVar
    if denied checks flags name (found.map fun f => cstr data f.val) given then some (-1, data)
    else
      let data ← match found with
        | some f => removeVar data f.env f.nxt
        | none => some data
      if ¬given then some (0, data) else appendVar data name (value.getD [])

/-! ### Images -/

/-- The definitions one after the other. -/
def envText (vars : List (Str × Str)) : Str :=
  vars.flatMap fun x => x.1 ++ equals :: x.2 ++ [0]

/-- Names are not empty, differ and have no `=`, and no string contains its end. -/
structure WellFormed (vars : List (Str × Str)) : Prop where
  name_ne : ∀ x ∈ vars, x.1 ≠ []
  noEquals : ∀ x ∈ vars, equals ∉ x.1
  noNul : ∀ x ∈ vars, 0 ∉ x.1 ∧ 0 ∉ x.2
  nodup : (vars.map Prod.fst).Nodup

/-- The array holds the variables and a NUL behind them. -/
def Image (data : Str) (vars : List (Str × Str)) : Prop :=
  ∃ rest, data = envText vars ++ 0 :: rest

/-- The end is marked by two NUL bytes also when there is no variable. -/
def Ended (data : Str) (vars : List (Str × Str)) : Prop :=
  ∃ rest, data = envText vars ++ 0 :: rest ∧ (vars = [] → rest.head? = some 0)

/-- The part of a name in front of an equals sign. -/
def key (name : Str) : Str := name.takeWhile (· ≠ equals)

/-- The other variables. -/
def without (name : Str) (vars : List (Str × Str)) : List (Str × Str) :=
  vars.filter fun x => x.1 ≠ name

/-- The map update: a variable is removed by an empty value. -/
def update (vars : List (Str × Str)) (name value : Str) : List (Str × Str) :=
  without name vars ++ if value = [] then [] else [(name, value)]

/-! ### The array at a place -/

theorem getElem?_middle (pre post : Str) (c : UInt8) : (pre ++ c :: post)[pre.length]? = some c := by
  simp

theorem store_middle (pre post : Str) (c b : UInt8) :
    store (pre ++ c :: post) pre.length b = some (pre ++ b :: post) := by
  rw [store, if_pos (by simp), List.set_append_right _ _ (Nat.le_refl _), Nat.sub_self]
  rfl

/-- The same, with the place given by its distance from the start. -/
theorem store_at {data pre post : Str} {c : UInt8} {i : Nat} (b : UInt8)
    (h : data = pre ++ c :: post) (hi : i = pre.length) : store data i b = some (pre ++ b :: post) := by
  rw [h, hi, store_middle]

theorem strEnd_spec {s : Str} (h : 0 ∉ s) (pre post : Str) {fuel : Nat} (hfuel : s.length < fuel) :
    strEnd (pre ++ (s ++ 0 :: post)) fuel pre.length = some (pre.length + s.length) := by
  induction s generalizing pre fuel with
  | nil =>
    obtain ⟨fuel, rfl⟩ := Nat.exists_eq_succ_of_ne_zero (Nat.ne_of_gt hfuel)
    rw [strEnd, List.nil_append, getElem?_middle]
    rfl
  | cons c s ih =>
    obtain ⟨hc, hs⟩ := List.ne_and_not_mem_of_not_mem_cons h
    obtain ⟨fuel, rfl⟩ := Nat.exists_eq_succ_of_ne_zero (Nat.ne_of_gt (Nat.zero_lt_of_lt hfuel))
    rw [List.length_cons, Nat.succ_lt_succ_iff] at hfuel
    have hnext := ih hs (pre ++ [c]) hfuel
    rw [List.append_assoc, List.length_append] at hnext
    rw [strEnd, List.cons_append, getElem?_middle]
    simp only [bind, Option.bind]
    rw [if_neg (Ne.symm hc), List.length_cons, Nat.add_comm s.length, ← Nat.add_assoc]
    exact hnext

theorem cstr_middle {s : Str} (h : 0 ∉ s) (pre post : Str) :
    cstr (pre ++ (s ++ 0 :: post)) pre.length = s := by
  rw [cstr, List.drop_left' rfl, List.takeWhile_append_of_pos]
  · simp
  · intro c hc
    exact decide_eq_true fun hzero => h (hzero ▸ hc)

/-- A definition matches the part of the name in front of an equals sign. -/
theorem envmatch_spec {name n : Str} (hname : 0 ∉ name) (hzero : 0 ∉ n) (hn : equals ∉ n)
    (pre post : Str) :
    envmatch (pre ++ (n ++ equals :: post)) name pre.length =
      some (if key name = n then some (pre.length + n.length + 1) else none) := by
  induction name generalizing pre n with
  | nil =>
    cases n with
    | nil =>
      rw [envmatch, List.nil_append, getElem?_middle]
      rfl
    | cons x n =>
      have hx : x ≠ 0 := fun h => hzero (h ▸ List.mem_cons_self)
      have hx' : x ≠ equals := fun h => hn (h ▸ List.mem_cons_self)
      rw [envmatch, List.cons_append, getElem?_middle]
      simp [hx, hx', key]
  | cons a name ih =>
    obtain ⟨-, hname'⟩ := List.ne_and_not_mem_of_not_mem_cons hname
    cases n with
    | nil =>
      rw [envmatch, List.nil_append, getElem?_middle]
      by_cases ha : a = equals
      · simp [ha, key]
      · simp [ha, key]
    | cons x n =>
      obtain ⟨-, hzero'⟩ := List.ne_and_not_mem_of_not_mem_cons hzero
      obtain ⟨hx, hn'⟩ := List.ne_and_not_mem_of_not_mem_cons hn
      rw [envmatch, List.cons_append, getElem?_middle]
      simp only [bind, Option.bind]
      by_cases ha : a = x
      · have hne : a ≠ equals := fun h => hx (ha ▸ h.symm)
        have hnext := ih hname' hzero' hn' (pre ++ [x])
        rw [List.append_assoc, List.length_append, List.length_singleton] at hnext
        have hkey : key (a :: name) = x :: n ↔ key name = n := by
          rw [key, List.takeWhile_cons, if_pos (decide_eq_true hne), ha]
          exact List.cons_inj_right x
        rw [if_pos ha, if_neg hne, List.length_cons]
        refine hnext.trans ?_
        simp only [hkey]
        rw [show pre.length + 1 + n.length + 1 = pre.length + (n.length + 1) + 1 by omega]
      · have hkey : key (a :: name) ≠ x :: n := by
          intro h
          rw [key, List.takeWhile_cons] at h
          split_ifs at h with heq
          exact ha (List.cons.inj h).1
        rw [if_neg ha, if_neg hkey]

/-! ### Searching an image -/

@[simp] theorem envText_nil : envText [] = [] := rfl

@[simp] theorem envText_cons (x : Str × Str) (vars : List (Str × Str)) :
    envText (x :: vars) = (x.1 ++ equals :: x.2) ++ 0 :: envText vars := by
  simp [envText]

@[simp] theorem envText_append (vars more : List (Str × Str)) :
    envText (vars ++ more) = envText vars ++ envText more :=
  List.flatMap_append

theorem WellFormed.of_sublist {vars vars' : List (Str × Str)} (h : WellFormed vars)
    (hsub : vars'.Sublist vars) : WellFormed vars' where
  name_ne x hx := h.name_ne x (hsub.subset hx)
  noEquals x hx := h.noEquals x (hsub.subset hx)
  noNul x hx := h.noNul x (hsub.subset hx)
  nodup := h.nodup.sublist (hsub.map _)

section Search

variable {vars : List (Str × Str)} {name : Str}

/-- The text of a definition has no NUL and is not empty. -/
theorem WellFormed.head {x : Str × Str} (h : WellFormed (x :: vars)) :
    0 ∉ x.1 ++ equals :: x.2 ∧ ∃ c s, x.1 = c :: s ∧ c ≠ 0 := by
  obtain ⟨h1, h2⟩ := h.noNul x List.mem_cons_self
  refine ⟨?_, ?_⟩
  · rw [List.mem_append, List.mem_cons]
    rintro (hmem | hmem | hmem)
    · exact h1 hmem
    · exact absurd hmem (by decide)
    · exact h2 hmem
  · obtain ⟨c, s, hx⟩ := List.exists_cons_of_ne_nil (h.name_ne x List.mem_cons_self)
    exact ⟨c, s, hx, fun hc => h1 (by rw [hx, hc]; exact List.mem_cons_self)⟩

/-- One round of the search, at a definition. -/
theorem findVar_cons {x : Str × Str} (h : WellFormed (x :: vars)) (hname : 0 ∉ name)
    (pre rest : Str) (fuel : Nat) :
    findVar (pre ++ envText (x :: vars) ++ 0 :: rest) name (fuel + 1) pre.length =
      if key name = x.1 then
        some (some ⟨pre.length, pre.length + (x.1.length + (x.2.length + 1)),
          pre.length + x.1.length + 1⟩)
      else findVar (pre ++ envText (x :: vars) ++ 0 :: rest) name fuel
        (pre.length + (x.1.length + (x.2.length + 1)) + 1) := by
  obtain ⟨hzero, c, s, hx, hc⟩ := h.head
  obtain ⟨h1, -⟩ := h.noNul x List.mem_cons_self
  have hdata : pre ++ envText (x :: vars) ++ 0 :: rest =
      pre ++ ((x.1 ++ equals :: x.2) ++ 0 :: (envText vars ++ 0 :: rest)) := by
    simp
  have hlen : (x.1 ++ equals :: x.2).length <
      (pre ++ ((x.1 ++ equals :: x.2) ++ 0 :: (envText vars ++ 0 :: rest))).length + 1 := by
    simp only [List.length_append]
    omega
  have hend := strEnd_spec hzero pre (envText vars ++ 0 :: rest) hlen
  have hmatch := envmatch_spec hname h1 (h.noEquals x List.mem_cons_self) pre
    (x.2 ++ 0 :: (envText vars ++ 0 :: rest))
  have hfirst : (pre ++ ((x.1 ++ equals :: x.2) ++ 0 :: (envText vars ++ 0 :: rest)))[pre.length]? =
      some c := by
    rw [hx]
    exact getElem?_middle ..
  rw [hdata, findVar, hfirst, hend, List.append_assoc, List.cons_append, hmatch]
  simp only [bind, Option.bind]
  rw [if_neg hc, List.length_append, List.length_cons]
  split_ifs <;> rfl

theorem findVar_end (pre rest : Str) (fuel : Nat) :
    findVar (pre ++ 0 :: rest) name (fuel + 1) pre.length = some none := by
  rw [findVar, getElem?_middle]
  rfl

/-- A name without a definition is not found. -/
theorem findVar_absent (h : WellFormed vars) (hname : 0 ∉ name)
    (habsent : key name ∉ vars.map Prod.fst) (pre rest : Str) {fuel : Nat}
    (hfuel : vars.length < fuel) :
    findVar (pre ++ envText vars ++ 0 :: rest) name fuel pre.length = some none := by
  induction vars generalizing pre fuel with
  | nil =>
    obtain ⟨fuel, rfl⟩ := Nat.exists_eq_succ_of_ne_zero (Nat.ne_of_gt hfuel)
    rw [envText_nil, List.append_nil]
    exact findVar_end pre rest fuel
  | cons x vars ih =>
    rw [List.map_cons, List.mem_cons, not_or] at habsent
    obtain ⟨fuel, rfl⟩ := Nat.exists_eq_succ_of_ne_zero (Nat.ne_of_gt (Nat.zero_lt_of_lt hfuel))
    rw [List.length_cons, Nat.succ_lt_succ_iff] at hfuel
    have hnext := ih (h.of_sublist (List.sublist_cons_self _ _)) habsent.2
      (pre ++ ((x.1 ++ equals :: x.2) ++ [0])) hfuel
    rw [findVar_cons h hname, if_neg habsent.1]
    simpa [Nat.add_assoc] using hnext

/-- A definition is found behind those of other names. -/
theorem findVar_present {before after : List (Str × Str)} {value : Str}
    (h : WellFormed (before ++ (key name, value) :: after)) (hname : 0 ∉ name) (pre rest : Str)
    {fuel : Nat} (hfuel : before.length < fuel) :
    findVar (pre ++ envText (before ++ (key name, value) :: after) ++ 0 :: rest) name fuel
        pre.length =
      some (some ⟨pre.length + (envText before).length,
        pre.length + (envText before).length + ((key name).length + (value.length + 1)),
        pre.length + (envText before).length + (key name).length + 1⟩) := by
  induction before generalizing pre fuel with
  | nil =>
    obtain ⟨fuel, rfl⟩ := Nat.exists_eq_succ_of_ne_zero (Nat.ne_of_gt hfuel)
    rw [List.nil_append, findVar_cons h hname, if_pos rfl]
    rfl
  | cons x before ih =>
    rw [List.cons_append] at h ⊢
    have hne : key name ≠ x.1 := by
      have hnodup := h.nodup
      rw [List.map_cons, List.nodup_cons] at hnodup
      intro heq
      exact hnodup.1 (by simp [← heq])
    obtain ⟨fuel, rfl⟩ := Nat.exists_eq_succ_of_ne_zero (Nat.ne_of_gt (Nat.zero_lt_of_lt hfuel))
    rw [List.length_cons, Nat.succ_lt_succ_iff] at hfuel
    have hnext := ih (h.of_sublist (List.sublist_cons_self _ _))
      (pre ++ ((x.1 ++ equals :: x.2) ++ [0])) hfuel
    rw [findVar_cons h hname, if_neg hne]
    have hplace : (pre ++ ((x.1 ++ equals :: x.2) ++ [0])).length + (envText before).length =
        pre.length + (envText (x :: before)).length := by
      simp only [envText_cons, List.length_append, List.length_cons, List.length_nil]
      omega
    have hstart : (pre ++ ((x.1 ++ equals :: x.2) ++ [0])).length =
        pre.length + (x.1.length + (x.2.length + 1)) + 1 := by
      simp only [List.length_append, List.length_cons, List.length_nil]
      omega
    rw [hplace, hstart] at hnext
    simpa using hnext

theorem length_le_envText (vars : List (Str × Str)) : vars.length ≤ (envText vars).length := by
  induction vars with
  | nil => exact Nat.le_refl 0
  | cons x vars ih =>
    simp only [envText_cons, List.length_cons, List.length_append]
    omega

/-- The search of an image from its start. -/
theorem findVar_image (h : WellFormed vars) (hname : 0 ∉ name) (rest : Str) :
    (key name ∉ vars.map Prod.fst ∧
      findVar (envText vars ++ 0 :: rest) name ((envText vars ++ 0 :: rest).length + 1) 0 =
        some none) ∨
    ∃ before value after, vars = before ++ (key name, value) :: after ∧
      findVar (envText vars ++ 0 :: rest) name ((envText vars ++ 0 :: rest).length + 1) 0 =
        some (some ⟨(envText before).length,
          (envText before).length + ((key name).length + (value.length + 1)),
          (envText before).length + (key name).length + 1⟩) := by
  have hfuel : vars.length < (envText vars ++ 0 :: rest).length + 1 := by
    have hle := length_le_envText vars
    rw [List.length_append]
    omega
  by_cases hmem : key name ∈ vars.map Prod.fst
  · obtain ⟨⟨n, value⟩, hx, hn⟩ := List.mem_map.mp hmem
    obtain ⟨before, after, rfl⟩ := List.append_of_mem hx
    obtain rfl : n = key name := hn
    refine .inr ⟨before, value, after, rfl, ?_⟩
    rw [List.length_append] at hfuel
    have hfound := findVar_present h hname [] rest (Nat.lt_of_le_of_lt (Nat.le_add_right _ _) hfuel)
    simpa using hfound
  · exact .inl ⟨hmem, findVar_absent h hname hmem [] rest hfuel⟩

theorem lookup_eq_none {k : Str} (h : k ∉ vars.map Prod.fst) : vars.lookup k = none := by
  rw [List.lookup_eq_none_iff]
  intro x hx
  exact bne_iff_ne.mpr fun heq => h (List.mem_map.mpr ⟨x, hx, heq.symm⟩)

/-- The value behind the equals sign is the one that is read. -/
theorem cstr_value {before after : List (Str × Str)} {k value : Str} (hvalue : 0 ∉ value)
    (rest : Str) :
    cstr (envText (before ++ (k, value) :: after) ++ 0 :: rest)
      ((envText before).length + k.length + 1) = value := by
  have hread := cstr_middle hvalue (envText before ++ k ++ [equals]) (envText after ++ 0 :: rest)
  rw [List.length_append, List.length_append, List.length_singleton] at hread
  simpa using hread

theorem fwGetenv_spec {data : Str} (h : WellFormed vars) (hname : 0 ∉ name)
    (hdata : Image data vars) : fwGetenv data name = some (vars.lookup (key name)) := by
  obtain ⟨rest, rfl⟩ := hdata
  rw [fwGetenv]
  obtain ⟨habsent, hfind⟩ | ⟨before, value, after, rfl, hfind⟩ := findVar_image h hname rest
  · rw [hfind, lookup_eq_none habsent]
    rfl
  · have hvalue := (h.noNul (key name, value) (by simp)).2
    have hfirst : key name ∉ before.map Prod.fst := by
      have hnodup := h.nodup
      rw [List.map_append, List.map_cons, List.nodup_append] at hnodup
      exact fun hmem => hnodup.2.2 _ hmem _ List.mem_cons_self rfl
    rw [hfind, Option.map_some, Option.map_some, cstr_value hvalue, List.lookup_append,
      lookup_eq_none hfirst]
    simp

end Search

/-! ### Moving the rest down -/

/-- No two NUL bytes stand side by side. -/
def Gapless (s : Str) : Prop := s.IsChain fun a b => ¬(a = 0 ∧ b = 0)

theorem gapless_of_noNul {s : Str} (h : 0 ∉ s) : Gapless s := by
  apply List.Pairwise.isChain
  apply List.pairwise_of_forall_mem_list
  intro a ha b _ hzero
  exact h (hzero.1 ▸ ha)

/-- Between two definitions there is one NUL byte. -/
theorem gapless_envText {vars : List (Str × Str)} (h : WellFormed vars) :
    Gapless (envText vars) := by
  induction vars with
  | nil => exact .nil
  | cons x vars ih =>
    have hrest := h.of_sublist (List.sublist_cons_self x vars)
    obtain ⟨hzero, c, s, hx, hc⟩ := h.head
    rw [envText_cons, List.append_cons, Gapless, List.isChain_append]
    refine ⟨?_, ih hrest, ?_⟩
    · rw [List.isChain_append]
      refine ⟨gapless_of_noNul hzero, .singleton 0, ?_⟩
      rintro a ha b - ⟨rfl, -⟩
      exact hzero (List.mem_of_getLast? ha)
    · rintro a - b hb ⟨-, rfl⟩
      cases vars with
      | nil => cases hb
      | cons y vars =>
        obtain ⟨-, d, t, hy, hd⟩ := hrest.head
        rw [envText_cons, hy] at hb
        exact hd (Option.some.inj hb)

/-- The text of some definitions ends in a NUL byte, and is not that byte alone. -/
theorem envText_concat {vars : List (Str × Str)} (hne : vars ≠ []) :
    ∃ t, envText vars = t ++ [0] ∧ t ≠ [] := by
  obtain ⟨before, x, rfl⟩ := List.eq_nil_or_concat vars |>.resolve_left hne
  refine ⟨envText before ++ (x.1 ++ equals :: x.2), ?_, ?_⟩
  · simp
  · simp

theorem Gapless.cons {c : UInt8} {t : Str} (h : Gapless (c :: t ++ [0])) (rest : Str) :
    ∃ d post, ¬(c = 0 ∧ d = 0) ∧ Gapless (t ++ [0]) ∧
      t ++ 0 :: 0 :: rest = d :: (post ++ 0 :: rest) := by
  obtain ⟨d, post, hpost⟩ := List.exists_cons_of_ne_nil (show t ++ [0] ≠ [] by simp)
  have htail : t ++ 0 :: 0 :: rest = d :: (post ++ 0 :: rest) := by
    rw [List.append_cons, hpost, List.cons_append]
  rw [List.cons_append, Gapless, hpost, List.isChain_cons_cons] at h
  exact ⟨d, post, h.1, hpost ▸ h.2, htail⟩

/-- One byte moves down. -/
theorem shiftLoop_step (pre gs post : Str) (g c d : UInt8) (fuel : Nat) :
    shiftLoop (fuel + 1) (pre ++ g :: gs ++ c :: d :: post) pre.length
        (pre.length + (gs.length + 1)) =
      if c = 0 ∧ d = 0 then some (pre ++ c :: (gs ++ c :: d :: post), pre.length)
      else shiftLoop fuel ((pre ++ [c]) ++ (gs ++ [c]) ++ d :: post) (pre ++ [c]).length
        ((pre ++ [c]).length + (gs ++ [c]).length) := by
  have hread : (pre ++ g :: gs ++ c :: d :: post)[pre.length + (gs.length + 1)]? = some c := by
    have hmiddle := getElem?_middle (pre ++ g :: gs) (d :: post) c
    rwa [List.length_append, List.length_cons] at hmiddle
  have hstore : store (pre ++ g :: gs ++ c :: d :: post) pre.length c =
      some (pre ++ c :: (gs ++ c :: d :: post)) :=
    @store_at _ pre (gs ++ c :: d :: post) g _ c (by simp) rfl
  have hnext : (pre ++ c :: (gs ++ c :: d :: post))[pre.length + (gs.length + 1) + 1]? = some d := by
    simp [Nat.add_assoc]
  have hshift : (pre ++ [c]) ++ (gs ++ [c]) ++ d :: post = pre ++ c :: (gs ++ c :: d :: post) := by
    simp
  have hplace : (pre ++ [c]).length + (gs ++ [c]).length = pre.length + (gs.length + 1) + 1 := by
    simp only [List.length_append, List.length_singleton]
    omega
  rw [shiftLoop, hread, hshift, hplace, List.length_append, List.length_singleton]
  simp only [bind, Option.bind, hstore, hnext]
  by_cases hc : c = 0
  · by_cases hd : d = 0
    · rw [if_pos hc, if_pos hd, if_pos ⟨hc, hd⟩]
    · rw [if_pos hc, if_neg hd, if_neg fun h => hd h.2]
  · rw [if_neg hc, if_neg fun h => hc h.1]

/-- Everything up to the two NUL bytes moves to the place `pre`. -/
theorem shiftLoop_spec {t : Str} (ht : Gapless (t ++ [0])) (pre gone rest : Str) (hgone : gone ≠ [])
    {fuel : Nat} (hfuel : t.length < fuel) :
    ∃ gone', gone'.length = gone.length ∧
      shiftLoop fuel (pre ++ gone ++ (t ++ 0 :: 0 :: rest)) pre.length (pre.length + gone.length) =
        some (pre ++ (t ++ [0]) ++ gone' ++ 0 :: rest, pre.length + t.length) := by
  obtain ⟨g, gs, rfl⟩ := List.exists_cons_of_ne_nil hgone
  induction t generalizing pre g gs fuel with
  | nil =>
    obtain ⟨fuel, rfl⟩ := Nat.exists_eq_succ_of_ne_zero (Nat.ne_of_gt hfuel)
    refine ⟨gs ++ [0], by simp, ?_⟩
    rw [List.nil_append, List.length_cons, shiftLoop_step, if_pos ⟨rfl, rfl⟩]
    simp
  | cons c t ih =>
    obtain ⟨fuel, rfl⟩ := Nat.exists_eq_succ_of_ne_zero (Nat.ne_of_gt (Nat.zero_lt_of_lt hfuel))
    rw [List.length_cons, Nat.succ_lt_succ_iff] at hfuel
    obtain ⟨d, post, hcd, ht', htail⟩ := ht.cons rest
    obtain ⟨x, xs, hx⟩ : ∃ x xs, gs ++ [c] = x :: xs := List.exists_cons_of_ne_nil (by simp)
    obtain ⟨gone', hlen, hloop⟩ := ih ht' (pre ++ [c]) hfuel x xs (by simp)
    refine ⟨gone', ?_, ?_⟩
    · rw [hlen, ← hx, List.length_append]
      rfl
    · rw [List.cons_append, htail, List.length_cons, shiftLoop_step, if_neg hcd, hx, ← htail, hloop,
        List.length_append, List.length_singleton, List.length_cons, Nat.add_assoc,
        Nat.add_comm 1]
      simp

/-- A definition is taken out, and the end is marked again. -/
theorem removeVar_spec {before after : List (Str × Str)} {x : Str × Str}
    (h : WellFormed (before ++ x :: after)) (rest : Str) :
    ∃ data', removeVar (envText (before ++ x :: after) ++ 0 :: rest) (envText before).length
        ((envText before).length + (x.1.length + (x.2.length + 1))) = some data' ∧
      data'.length = (envText (before ++ x :: after) ++ 0 :: rest).length ∧
      Ended data' (before ++ after) := by
  obtain ⟨-, c, s, hx, -⟩ := (h.of_sublist (List.sublist_append_right before _)).head
  by_cases hafter : after = []
  · -- the last definition
    subst hafter
    have hdata : envText (before ++ [x]) ++ 0 :: rest =
        envText before ++ c :: ((s ++ equals :: x.2) ++ 0 :: 0 :: rest) := by
      simp [hx]
    obtain ⟨d, tail, htail⟩ : ∃ d tail, (s ++ equals :: x.2) ++ 0 :: 0 :: rest = d :: tail :=
      List.exists_cons_of_ne_nil (by simp)
    have hread : (envText (before ++ [x]) ++ 0 :: rest)[(envText before).length +
        (x.1.length + (x.2.length + 1)) + 1]? = some 0 := by
      simp [Nat.add_assoc]
    have hfirst : store (envText (before ++ [x]) ++ 0 :: rest) (envText before).length 0 =
        some (envText before ++ 0 :: d :: tail) :=
      store_at 0 (by rw [hdata, htail]) rfl
    have hsecond : store (envText before ++ 0 :: d :: tail) ((envText before).length + 1) 0 =
        some (envText before ++ [0] ++ 0 :: tail) :=
      @store_at _ (envText before ++ [0]) tail d _ 0 (by simp) (by simp)
    refine ⟨envText before ++ [0] ++ 0 :: tail, ?_, ?_, 0 :: tail, by simp, fun _ => rfl⟩
    · rw [removeVar, hread]
      simp only [bind, Option.bind, if_true, hfirst, Option.map_some, hsecond]
    · rw [hdata, htail]
      simp
  · -- the text behind it moves
    obtain ⟨t, ht, htne⟩ := envText_concat hafter
    obtain ⟨y, ys, hy⟩ := List.exists_cons_of_ne_nil hafter
    obtain ⟨b, t', htb⟩ := List.exists_cons_of_ne_nil htne
    have hb : b ≠ 0 := by
      have hwf := h.of_sublist ((List.sublist_cons_self x after).trans
        (List.sublist_append_right before _))
      rw [hy] at hwf
      obtain ⟨-, d, s', hd, hne⟩ := hwf.head
      rw [hy, envText_cons, hd, htb] at ht
      rw [← (List.cons.inj ht).1]
      exact hne
    have hgap : Gapless (t ++ [0]) := by
      rw [← ht]
      exact gapless_envText (h.of_sublist ((List.sublist_cons_self x after).trans
        (List.sublist_append_right before _)))
    have hdata : envText (before ++ x :: after) ++ 0 :: rest =
        envText before ++ ((x.1 ++ equals :: x.2) ++ [0]) ++ (t ++ 0 :: 0 :: rest) := by
      simp [ht]
    have hplace : (envText before).length + (x.1.length + (x.2.length + 1)) + 1 =
        (envText before).length + ((x.1 ++ equals :: x.2) ++ [0]).length := by
      simp only [List.length_append, List.length_cons, List.length_nil]
      omega
    have hread : (envText (before ++ x :: after) ++ 0 :: rest)[(envText before).length +
        (x.1.length + (x.2.length + 1)) + 1]? = some b := by
      rw [hplace, hdata, ← List.length_append, htb]
      exact getElem?_middle ..
    have hfuel : t.length < (envText (before ++ x :: after) ++ 0 :: rest).length + 1 := by
      rw [hdata]
      simp only [List.length_append]
      omega
    obtain ⟨gone, hgone, hloop⟩ := shiftLoop_spec hgap (envText before)
      ((x.1 ++ equals :: x.2) ++ [0]) rest (by simp) hfuel
    obtain ⟨g, gs, rfl⟩ : ∃ g gs, gone = g :: gs := by
      apply List.exists_cons_of_ne_nil
      rintro rfl
      simp at hgone
    have hstore : store (envText before ++ (t ++ [0]) ++ g :: gs ++ 0 :: rest)
        ((envText before).length + t.length + 1) 0 =
          some (envText before ++ (t ++ [0]) ++ 0 :: (gs ++ 0 :: rest)) :=
      @store_at _ (envText before ++ (t ++ [0])) (gs ++ 0 :: rest) g _ 0 (by simp) (by simp [Nat.add_assoc])
    refine ⟨envText before ++ (t ++ [0]) ++ 0 :: (gs ++ 0 :: rest), ?_, ?_, gs ++ 0 :: rest, ?_, ?_⟩
    · rw [removeVar, hread]
      simp only [bind, Option.bind, if_neg hb]
      rw [hplace, hdata] at *
      rw [hloop]
      exact hstore
    · rw [hdata]
      simp only [List.length_append, List.length_cons, List.length_nil] at hgone ⊢
      omega
    · simp [ht]
    · intro hnil
      exact absurd (List.append_eq_nil_iff.mp hnil).2 hafter

/-! ### Appending -/

/-- The search for the end passes over a text without two NUL bytes side by side. -/
theorem endLoop_spec {t : Str} (ht : Gapless (t ++ [0])) (pre rest : Str) {fuel : Nat}
    (hfuel : t.length < fuel) :
    endLoop (pre ++ (t ++ 0 :: 0 :: rest)) fuel pre.length = some (pre.length + t.length) := by
  induction t generalizing pre fuel with
  | nil =>
    obtain ⟨fuel, rfl⟩ := Nat.exists_eq_succ_of_ne_zero (Nat.ne_of_gt hfuel)
    have hnext : (pre ++ ([] ++ 0 :: 0 :: rest))[pre.length + 1]? = some 0 := by
      simp
    rw [endLoop, hnext, List.nil_append, getElem?_middle]
    rfl
  | cons c t ih =>
    obtain ⟨fuel, rfl⟩ := Nat.exists_eq_succ_of_ne_zero (Nat.ne_of_gt (Nat.zero_lt_of_lt hfuel))
    rw [List.length_cons, Nat.succ_lt_succ_iff] at hfuel
    obtain ⟨d, post, hcd, ht', htail⟩ := ht.cons rest
    have hnext : (pre ++ c :: (t ++ 0 :: 0 :: rest))[pre.length + 1]? = some d := by
      rw [htail]
      simp
    have hloop := ih ht' (pre ++ [c]) hfuel
    rw [List.append_assoc, List.singleton_append, List.length_append, List.length_singleton] at hloop
    rw [endLoop, List.cons_append, getElem?_middle, hnext, List.length_cons, Nat.add_comm t.length,
      ← Nat.add_assoc, ← hloop]
    simp only [bind, Option.bind]
    by_cases hc : c = 0
    · rw [if_neg (not_not_intro hc), if_pos fun hd => hcd ⟨hc, hd⟩]
    · rw [if_pos hc]

theorem copyStr_spec (s : Str) (pre old post : Str) (hold : old.length = s.length + 1) :
    copyStr (pre ++ old ++ post) pre.length s =
      some (pre ++ (s ++ [0]) ++ post, pre.length + s.length) := by
  induction s generalizing pre old with
  | nil =>
    obtain ⟨c, rfl⟩ := List.length_eq_one_iff.mp hold
    rw [copyStr, @store_at _ pre post c _ 0 (by simp) rfl]
    simp
  | cons c s ih =>
    obtain ⟨b, old, rfl⟩ := List.exists_cons_of_length_eq_add_one hold
    have hloop := ih (pre ++ [c]) old (Nat.succ.inj hold)
    rw [List.length_append, List.length_singleton] at hloop
    rw [copyStr, @store_at _ pre (old ++ post) b _ c (by simp) rfl, Option.bind_some]
    simpa [Nat.add_assoc, Nat.add_comm, Nat.add_left_comm] using hloop

/-- The place of a new definition. -/
theorem endLoop_ended {vars : List (Str × Str)} {data : Str} (h : WellFormed vars)
    (hdata : Ended data vars) : ∃ env, endLoop data (data.length + 1) 0 = some env ∧
      (if env > 0 then env + 1 else env) = (envText vars).length := by
  obtain ⟨rest, rfl, hempty⟩ := hdata
  by_cases hvars : vars = []
  · subst hvars
    obtain ⟨rest, rfl⟩ : ∃ rest', rest = 0 :: rest' := by
      cases rest with
      | nil => cases hempty rfl
      | cons c rest => exact ⟨rest, by rw [Option.some.inj (hempty rfl)]⟩
    have hloop := @endLoop_spec [] (.singleton 0) [] rest ((0 :: 0 :: rest).length + 1) (Nat.succ_pos _)
    exact ⟨0, hloop, rfl⟩
  · obtain ⟨t, ht, htne⟩ := envText_concat hvars
    have hgap : Gapless (t ++ [0]) := ht ▸ gapless_envText h
    have hdata : envText vars ++ 0 :: rest = t ++ 0 :: 0 :: rest := by
      rw [ht, List.append_assoc, List.singleton_append]
    have hloop := @endLoop_spec t hgap [] rest ((t ++ 0 :: 0 :: rest).length + 1)
      (by rw [List.length_append]; omega)
    refine ⟨t.length, ?_, ?_⟩
    · rw [hdata]
      simpa using hloop
    · rw [if_pos (List.length_pos_iff.mpr htne), ht, List.length_append, List.length_singleton]

/-- The bytes a definition takes, with the NUL that marks the end. -/
def defLen (name value : Str) : Nat := name.length + value.length + 3

theorem appendVar_overflow {vars : List (Str × Str)} {data : Str} (h : WellFormed vars)
    (hdata : Ended data vars) {name value : Str}
    (hlong : data.length < (envText vars).length + defLen name value) :
    appendVar data name value = some (-1, data) := by
  obtain ⟨env, hloop, henv⟩ := endLoop_ended h hdata
  rw [defLen] at hlong
  rw [appendVar, hloop]
  simp only [bind, Option.bind, henv]
  exact if_pos (by omega)

theorem appendVar_fits {vars : List (Str × Str)} {data : Str} (h : WellFormed vars)
    (hdata : Ended data vars) {name value : Str}
    (hfits : (envText vars).length + defLen name value ≤ data.length) :
    ∃ data', appendVar data name value = some (0, data') ∧ data'.length = data.length ∧
      Ended data' (vars ++ [(name, value)]) := by
  obtain ⟨env, hloop, henv⟩ := endLoop_ended h hdata
  obtain ⟨rest, rfl, -⟩ := hdata
  rw [defLen, List.length_append] at hfits
  -- the room behind the variables, cut at the ends of the strings
  obtain ⟨old, more, hold, hroom⟩ : ∃ old more : Str, old.length = name.length + 1 ∧
      0 :: rest = old ++ more :=
    ⟨_, _, List.length_take_of_le (by omega), (List.take_append_drop (name.length + 1) _).symm⟩
  have hmore : value.length + 2 ≤ more.length := by
    rw [hroom, List.length_append] at hfits
    omega
  obtain ⟨old', more', hold', rfl⟩ : ∃ old' more' : Str, old'.length = value.length + 1 ∧
      more = old' ++ more' :=
    ⟨_, _, List.length_take_of_le (by omega), (List.take_append_drop (value.length + 1) _).symm⟩
  obtain ⟨d, rest', rfl⟩ : ∃ d rest', more' = d :: rest' := by
    apply List.exists_cons_of_ne_nil
    rintro rfl
    rw [List.length_append, List.length_nil] at hmore
    omega
  have hname : copyStr (envText vars ++ 0 :: rest) (envText vars).length name =
      some (envText vars ++ (name ++ [0]) ++ (old' ++ d :: rest'), (envText vars).length + name.length) := by
    rw [hroom, ← List.append_assoc]
    exact copyStr_spec name (envText vars) old _ hold
  have hequals : store (envText vars ++ (name ++ [0]) ++ (old' ++ d :: rest')) ((envText vars).length + name.length)
      equals = some (envText vars ++ name ++ equals :: (old' ++ d :: rest')) :=
    @store_at _ (envText vars ++ name) (old' ++ d :: rest') 0 _ equals (by simp) (by simp)
  have hvalue : copyStr (envText vars ++ name ++ equals :: (old' ++ d :: rest'))
      ((envText vars).length + name.length + 1) value =
        some (envText vars ++ name ++ [equals] ++ (value ++ [0]) ++ d :: rest',
          (envText vars).length + name.length + 1 + value.length) := by
    have hcopy := copyStr_spec value (envText vars ++ name ++ [equals]) old' (d :: rest') hold'
    simpa [Nat.add_assoc] using hcopy
  have hend : store (envText vars ++ name ++ [equals] ++ (value ++ [0]) ++ d :: rest')
      ((envText vars).length + name.length + 1 + value.length + 1) 0 =
        some (envText vars ++ name ++ [equals] ++ (value ++ [0]) ++ 0 :: rest') :=
    @store_at _ (envText vars ++ name ++ [equals] ++ (value ++ [0])) rest' d _ 0 rfl
      (by simp [Nat.add_assoc, Nat.add_comm 1])
  refine ⟨envText vars ++ name ++ [equals] ++ (value ++ [0]) ++ 0 :: rest', ?_, ?_, rest', ?_, ?_⟩
  · rw [appendVar, hloop]
    simp only [bind, Option.bind, henv]
    refine (if_neg ?_).trans ?_
    · rw [List.length_append]
      omega
    · simp only [hname, hequals, hvalue, hend]
  · rw [hroom]
    simp only [List.length_append, List.length_cons, List.length_nil] at hold hold' ⊢
    omega
  · simp
  · intro hnil
    simp at hnil

/-! ### The whole edit -/

section Edit

variable {checks : Checks} {vars : List (Str × Str)} {data name : Str} {value : Option Str}

/-- The change is refused by the access flags of the variable. -/
def Denied (checks : Checks) (vars : List (Str × Str)) (name value : Str) : Prop :=
  denied checks (vars.lookup flagsVar) name (vars.lookup (key name)) (value ≠ []) = true

instance (checks : Checks) (vars : List (Str × Str)) (name value : Str) :
    Decidable (Denied checks vars name value) :=
  inferInstanceAs (Decidable (_ = true))

theorem without_eq {before after : List (Str × Str)} {k v : Str}
    (h : WellFormed (before ++ (k, v) :: after)) :
    without k (before ++ (k, v) :: after) = before ++ after := by
  have hnodup := h.nodup
  rw [List.map_append, List.map_cons, List.nodup_append, List.nodup_cons] at hnodup
  obtain ⟨-, ⟨hafter, -⟩, hbefore⟩ := hnodup
  rw [without, List.filter_append, List.filter_cons_of_neg (by simp)]
  congr 1 <;> rw [List.filter_eq_self] <;> intro x hx <;> rw [decide_eq_true_eq] <;> intro heq
  · exact hbefore x.1 (List.mem_map.mpr ⟨x, hx, rfl⟩) k List.mem_cons_self heq
  · exact hafter (List.mem_map.mpr ⟨x, hx, heq⟩)

theorem without_of_not_mem {k : Str} (h : k ∉ vars.map Prod.fst) : without k vars = vars := by
  rw [without, List.filter_eq_self]
  intro x hx
  exact decide_eq_true fun heq => h (List.mem_map.mpr ⟨x, hx, heq⟩)

theorem WellFormed.without (h : WellFormed vars) (k : Str) : WellFormed (without k vars) :=
  h.of_sublist List.filter_sublist

/-- What happens before a new definition is appended. -/
theorem fwEnvWrite_edit (h : WellFormed vars) (hdata : Image data vars) (hname : 0 ∉ name)
    (hbusy : vars.lookup (key name) = none → value.getD [] ≠ []) :
    ∃ data', data'.length = data.length ∧
      (Ended data vars ∨ (vars.lookup (key name)).isSome → Ended data' (without (key name) vars)) ∧
      fwEnvWrite checks data name value =
        if Denied checks vars name (value.getD []) then some (-1, data)
        else if value.getD [] = [] then some (0, data')
        else appendVar data' name (value.getD []) := by
  have hflags := fwGetenv_spec h (show (0 : UInt8) ∉ flagsVar by decide) hdata
  rw [show key flagsVar = flagsVar from rfl] at hflags
  have hlookup := fwGetenv_spec h hname hdata
  obtain ⟨rest, rfl⟩ := hdata
  rw [fwGetenv] at hlookup
  obtain ⟨habsent, hfind⟩ | ⟨before, old, after, rfl, hfind⟩ := findVar_image h hname rest
  · have hnone := lookup_eq_none habsent
    refine ⟨_, rfl, ?_, ?_⟩
    · rw [without_of_not_mem habsent, hnone]
      simp
    · rw [fwEnvWrite, hfind]
      simp only [bind, Option.bind, hflags]
      rw [if_neg fun hidle => hidle.2 (hbusy hnone), Option.map_none, ← hnone]
      simp only [ne_eq, not_not, Denied]
      rfl
  · obtain ⟨data', hremove, hlen, hended⟩ := removeVar_spec h rest
    rw [hfind, Option.map_some, Option.map_some] at hlookup
    refine ⟨data', hlen, fun _ => ?_, ?_⟩
    · rwa [without_eq h]
    · rw [fwEnvWrite, hfind]
      simp only [bind, Option.bind, hflags]
      rw [if_neg fun hidle => absurd hidle.1 (by simp), Option.map_some, Option.some.inj hlookup,
        hremove]
      simp only [ne_eq, not_not, Denied]
      rfl

/-- Without an old and a new value nothing is done. -/
theorem fwEnvWrite_idle (h : WellFormed vars) (hdata : Image data vars) (hname : 0 ∉ name)
    (hnone : vars.lookup (key name) = none) (hvalue : value.getD [] = []) :
    fwEnvWrite checks data name value = some (0, data) := by
  obtain ⟨rest, rfl⟩ := hdata
  obtain ⟨-, hfind⟩ | ⟨before, old, after, rfl, -⟩ := findVar_image h hname rest
  · rw [fwEnvWrite, hfind]
    exact if_pos ⟨rfl, not_not_intro hvalue⟩
  · rw [List.lookup_append, List.lookup_cons_self, Option.or_eq_none_iff] at hnone
    cases hnone.2

/-- A change that is not denied: the old definition is gone, and the new one is there if
it fits. -/
theorem fwEnvWrite_spec (h : WellFormed vars) (hdata : Ended data vars) (hname : 0 ∉ name)
    (hallowed : ¬Denied checks vars name (value.getD [])) :
    ∃ data', data'.length = data.length ∧
      if value.getD [] = [] then
        fwEnvWrite checks data name value = some (0, data') ∧
          Ended data' (without (key name) vars)
      else if (envText (without (key name) vars)).length + defLen name (value.getD []) ≤
          data.length then
        fwEnvWrite checks data name value = some (0, data') ∧
          Ended data' (without (key name) vars ++ [(name, value.getD [])])
      else
        fwEnvWrite checks data name value = some (-1, data') ∧
          Ended data' (without (key name) vars) := by
  have himage : Image data vars := by
    obtain ⟨rest, hrest, -⟩ := hdata
    exact ⟨rest, hrest⟩
  by_cases hidle : vars.lookup (key name) = none ∧ value.getD [] = []
  · refine ⟨data, rfl, ?_⟩
    have habsent : key name ∉ vars.map Prod.fst := by
      intro hmem
      obtain ⟨x, hx, heq⟩ := List.mem_map.mp hmem
      have hall := List.lookup_eq_none_iff.mp hidle.1 x hx
      rw [heq, bne_self_eq_false] at hall
      cases hall
    rw [if_pos hidle.2, without_of_not_mem habsent]
    exact ⟨fwEnvWrite_idle h himage hname hidle.1 hidle.2, hdata⟩
  · obtain ⟨data', hlen, hended, hwrite⟩ :=
      @fwEnvWrite_edit checks vars data name value h himage hname fun hnone hvalue =>
        hidle ⟨hnone, hvalue⟩
    have hended := hended (.inl hdata)
    have hwf := h.without (key name)
    rw [if_neg hallowed] at hwrite
    by_cases hvalue : value.getD [] = []
    · rw [if_pos hvalue] at hwrite
      exact ⟨data', hlen, by rw [if_pos hvalue]; exact ⟨hwrite, hended⟩⟩
    · rw [if_neg hvalue] at hwrite
      by_cases hfits : (envText (without (key name) vars)).length + defLen name (value.getD []) ≤
          data.length
      · obtain ⟨data'', happend, hlen', hended'⟩ := appendVar_fits hwf hended (hlen ▸ hfits)
        refine ⟨data'', hlen'.trans hlen, ?_⟩
        rw [if_neg hvalue, if_pos hfits]
        exact ⟨hwrite.trans happend, hended'⟩
      · have happend := appendVar_overflow hwf hended (hlen ▸ Nat.lt_of_not_le hfits)
        refine ⟨data', hlen, ?_⟩
        rw [if_neg hvalue, if_neg hfits]
        exact ⟨hwrite.trans happend, hended⟩

end Edit

/-! ### The map update -/

section Update

variable {vars : List (Str × Str)} {name value : Str}

theorem key_eq (h : equals ∉ name) : key name = name := by
  rw [key, List.takeWhile_eq_self_iff]
  intro c hc
  exact decide_eq_true fun heq => h (heq ▸ hc)

theorem lookup_without (k : Str) : (without k vars).lookup k = none := by
  apply lookup_eq_none
  intro hmem
  obtain ⟨x, hx, heq⟩ := List.mem_map.mp hmem
  exact of_decide_eq_true (List.mem_filter.mp hx).2 heq

theorem lookup_without_of_ne {k other : Str} (h : other ≠ k) :
    (without k vars).lookup other = vars.lookup other := by
  induction vars with
  | nil => rfl
  | cons x vars ih =>
    rw [without] at ih ⊢
    by_cases hx : x.1 = k
    · have hne : (other == x.1) = false := beq_false_of_ne (hx ▸ h)
      rw [List.filter_cons_of_neg (by simp [hx]), ih]
      rw [List.lookup_cons, hne]
    · rw [List.filter_cons_of_pos (by simp [hx]), List.lookup_cons, List.lookup_cons, ih]

theorem lookup_update_self : (update vars name value).lookup name =
    if value = [] then none else some value := by
  rw [update, List.lookup_append, lookup_without]
  split_ifs <;> simp

theorem lookup_update_of_ne {other : Str} (h : other ≠ name) :
    (update vars name value).lookup other = vars.lookup other := by
  rw [update, List.lookup_append, lookup_without_of_ne h]
  split_ifs
  · rw [List.lookup_nil, Option.or_none]
  · rw [List.lookup_cons, beq_false_of_ne h, List.lookup_nil, Option.or_none]

theorem WellFormed.update (h : WellFormed vars) (hne : name ≠ []) (heq : equals ∉ name)
    (hname : 0 ∉ name) (hvalue : 0 ∉ value) : WellFormed (update vars name value) := by
  have hwithout := h.without name
  rw [Write.update]
  by_cases hempty : value = []
  · rwa [if_pos hempty, List.append_nil]
  · rw [if_neg hempty]
    have hsplit : ∀ x ∈ Write.without name vars ++ [(name, value)], x ∈ Write.without name vars ∨
        x = (name, value) := by
      intro x hx
      exact (List.mem_append.mp hx).imp_right List.mem_singleton.mp
    constructor
    · intro x hx
      obtain hx | rfl := hsplit x hx
      · exact hwithout.name_ne x hx
      · exact hne
    · intro x hx
      obtain hx | rfl := hsplit x hx
      · exact hwithout.noEquals x hx
      · exact heq
    · intro x hx
      obtain hx | rfl := hsplit x hx
      · exact hwithout.noNul x hx
      · exact ⟨hname, hvalue⟩
    · rw [List.map_append, List.nodup_append]
      refine ⟨hwithout.nodup, List.pairwise_singleton _ _, ?_⟩
      intro a ha b hb hab
      obtain ⟨x, hx, rfl⟩ := List.mem_map.mp ha
      exact of_decide_eq_true (List.mem_filter.mp hx).2 (hab.trans (List.mem_singleton.mp hb))

end Update

/-- `fw_env_write` stays inside the array, and when it returns 0 the array holds the
updated map. -/
def Updates (checks : Checks) (vars : List (Str × Str)) (data name : Str) (value : Option Str) :
    Prop :=
  ∃ rc data', fwEnvWrite checks data name value = some (rc, data') ∧
    (rc = 0 → data'.length = data.length ∧
      Image data' (update vars name (value.getD [])) ∧
      WellFormed (update vars name (value.getD [])) ∧
      fwGetenv data' name = some (if value.getD [] = [] then none else some (value.getD [])) ∧
      ∀ other, other ≠ name → equals ∉ other → 0 ∉ other →
        fwGetenv data' other = fwGetenv data other)

/-- On an environment that ends in two NUL bytes, every allowed change of a variable with
a name is a map update. -/
theorem fwEnvWrite_updates (checks : Checks) (vars : List (Str × Str)) (data name : Str)
    (value : Option Str) (h : WellFormed vars) (hdata : Ended data vars) (hne : name ≠ [])
    (heq : equals ∉ name) (hname : 0 ∉ name) (hvalue : 0 ∉ value.getD [])
    (hallowed : ¬Denied checks vars name (value.getD [])) :
    Updates checks vars data name value := by
  obtain ⟨data', hlen, hcases⟩ := fwEnvWrite_spec h hdata hname hallowed
  have hwf := h.update hne heq hname hvalue
  have hmap : Ended data' (update vars name (value.getD [])) →
      Image data' (update vars name (value.getD [])) ∧
      WellFormed (update vars name (value.getD [])) ∧
      fwGetenv data' name = some (if value.getD [] = [] then none else some (value.getD [])) ∧
      ∀ other, other ≠ name → equals ∉ other → 0 ∉ other →
        fwGetenv data' other = fwGetenv data other := by
    rintro ⟨rest, hrest, -⟩
    obtain ⟨rest₀, hrest₀, -⟩ := hdata
    refine ⟨⟨rest, hrest⟩, hwf, ?_, fun other hother hoeq honame => ?_⟩
    · rw [fwGetenv_spec hwf hname ⟨rest, hrest⟩, key_eq heq, lookup_update_self]
    · rw [fwGetenv_spec hwf honame ⟨rest, hrest⟩, fwGetenv_spec h honame ⟨rest₀, hrest₀⟩,
        key_eq hoeq, lookup_update_of_ne hother]
  rw [key_eq heq] at hcases
  by_cases hempty : value.getD [] = []
  · rw [if_pos hempty] at hcases
    refine ⟨0, data', hcases.1, fun _ => ⟨hlen, hmap ?_⟩⟩
    rw [update, if_pos hempty, List.append_nil]
    exact hcases.2
  · rw [if_neg hempty] at hcases
    split_ifs at hcases with hfits
    · refine ⟨0, data', hcases.1, fun _ => ⟨hlen, hmap ?_⟩⟩
      rw [update, if_neg hempty]
      exact hcases.2
    · exact ⟨-1, data', hcases.1, fun hrc => by cases hrc⟩

/-- Every access is allowed. -/
def anyAccess : Checks := ⟨fun _ _ _ => false, fun _ => none⟩

/-- The variable `a` is overwritten in front of `b`. -/
theorem updates_a :
    Updates anyAccess [([97], [49]), ([98], [50])] [97, 61, 49, 0, 98, 61, 50, 0, 0, 7, 7, 7] [97]
      (some [51]) := by
  apply fwEnvWrite_updates
  · exact ⟨by decide, by decide, by decide, by decide⟩
  · exact ⟨[7, 7, 7], rfl, fun h => by cases h⟩
  · decide
  · decide
  · decide
  · decide
  · decide

/-- In an environment of one NUL byte the new definition goes behind the bytes that
follow it, and a definition without a name leaves no well-formed environment. -/
theorem not_updates :
    (WellFormed [] ∧ Image [0, 120, 0, 0, 0, 0, 0, 0] [] ∧
      ¬Updates anyAccess [] [0, 120, 0, 0, 0, 0, 0, 0] [97] (some [49])) ∧
    WellFormed [] ∧ Image [0, 0, 0, 0, 0, 0] [] ∧
      ¬Updates anyAccess [] [0, 0, 0, 0, 0, 0] [] (some [49]) := by
  have hempty : WellFormed [] := ⟨by decide, by decide, by decide, by decide⟩
  refine ⟨⟨hempty, ⟨_, rfl⟩, ?_⟩, hempty, ⟨_, rfl⟩, ?_⟩
  · rintro ⟨rc, data', hwrite, himage⟩
    have hrun : fwEnvWrite anyAccess [0, 120, 0, 0, 0, 0, 0, 0] [97] (some [49]) =
        some (0, [0, 120, 0, 97, 61, 49, 0, 0]) := by decide
    rw [hrun] at hwrite
    obtain ⟨rfl, rfl⟩ := Prod.mk.inj (Option.some.inj hwrite)
    obtain ⟨-, ⟨rest, hrest⟩, -⟩ := himage rfl
    cases hrest
  · rintro ⟨rc, data', hwrite, himage⟩
    have hrun : fwEnvWrite anyAccess [0, 0, 0, 0, 0, 0] [] (some [49]) =
        some (0, [61, 49, 0, 0, 0, 0]) := by decide
    rw [hrun] at hwrite
    obtain ⟨rfl, rfl⟩ := Prod.mk.inj (Option.some.inj hwrite)
    obtain ⟨-, -, hwf, -⟩ := himage rfl
    exact hwf.name_ne ([], [49]) (by decide) rfl

end UBoot.Env.Fw.Write
