import UBoot.HashTable.Table
import UBoot.Verification.Run

/-!
# The table as a finite map

Runs of `hsearch_r(ENTER)` and `hdelete_r` on a table made by `hcreate_r`, with
the map from keys to values that their successful calls describe. The table is
this map as long as no new entry falls on a live slot.
-/

namespace UBoot.HashTable

open OpenAddressing Verification

inductive Call where
  | enter (ctx : Context) (key value : Str) (flag : Int)
  | delete (ctx : Context) (key : Str) (flag : Int)

/-- The table, lost when a call has no result, and for every key the value of
the last successful `ENTER` since it was last deleted. -/
structure History where
  htab : Option HsearchData
  entered : Str → Option Str

namespace History

/-- A table that was just made. -/
def start (htab : HsearchData) : History := ⟨some htab, fun _ => none⟩

/-- The effect of a call; `ret` is 0 when it failed. -/
def after (h : History) (key : Str) (value : Option Str) : Option Result → History
  | none => { h with htab := none }
  | some r => ⟨some r.htab, if r.ret ≠ 0 then Function.update h.entered key value else h.entered⟩

def step (h : History) : Call → History
  | .enter ctx key value flag =>
    h.after key (some value) (h.htab.bind (hsearchR ctx key (some value) .enter · flag))
  | .delete ctx key flag => h.after key none (h.htab.bind (hdeleteR ctx key · flag))

/-- No allocation of the call fails. -/
def Allocates : History → Call → Prop
  | _, .enter ctx _ _ _ => ctx.strdupKey = true ∧ ctx.strdupData = true
  | _, .delete .. => True

/-- The callbacks found for a new entry accept every change. -/
def CallbacksAccept : History → Call → Prop
  | _, .enter ctx _ _ _ => ∀ entry cb, ctx.callbackInit entry = some cb →
      ∀ name value op flag, cb name value op flag = false
  | _, .delete .. => True

/-- A new entry does not fall on a live slot. -/
def AvoidsLive : History → Call → Prop
  | h, .enter _ key _ _ => ∀ htab, h.htab = some htab → EnterOk htab key
  | _, .delete .. => True

/-- `FIND` gives for every key what was entered last, and nothing for a key that
was not entered or was deleted since. -/
def Refines (h : History) : Prop :=
  ∃ htab, h.htab = some htab ∧ ∀ ctx key flag,
    match h.entered key with
    | none => hsearchR ctx key none .find htab flag = some (.failed htab .esrch)
    | some value => ∃ i, 1 ≤ i ∧
        hsearchR ctx key none .find htab flag = some ⟨htab, i, some i, none⟩ ∧
        (htab.table i).entry.key = some key ∧ (htab.table i).entry.data = some value

/-- The table holds the values entered, and nothing else. -/
def Inv (h : History) : Prop :=
  ∃ htab, h.htab = some htab ∧ Consistent htab ∧
    ∀ key value, Holds htab.cells key value ↔ h.entered key = some value

theorem inv_start {nel : Nat} {htab htab' : HsearchData} {callocOk : Bool}
    (h : hcreateR nel htab callocOk = some (1, htab')) : (start htab').Inv := by
  refine ⟨htab', rfl, consistent_created h, fun k v => ⟨?_, ?_⟩⟩
  · rintro ⟨i, hi⟩
    rw [cells_created h] at hi
    cases hi
  · intro hi
    cases hi

theorem Inv.after {h : History} {key : Str} {value : Option Str} {htab : HsearchData}
    {r : Result}
    (hmap : ∀ k v, Holds htab.cells k v ↔ h.entered k = some v) (hr : Consistent r.htab)
    (hpost : ∀ k v, Holds r.htab.cells k v ↔
      if r.ret ≠ 0 ∧ k = key then value = some v else Holds htab.cells k v) :
    (h.after key value (some r)).Inv := by
  refine ⟨r.htab, rfl, hr, fun k v => ?_⟩
  rw [hpost, hmap]
  simp only [History.after]
  by_cases hret : r.ret ≠ 0
  · by_cases hk : k = key
    · subst hk
      rw [if_pos ⟨hret, rfl⟩, if_pos hret, Function.update_self]
    · rw [if_neg (fun hc => hk hc.2), if_pos hret, Function.update_of_ne hk]
  · rw [if_neg (fun hc => hret hc.1), if_neg hret]

theorem Inv.step {h : History} (hinv : h.Inv) (call : Call) (halloc : h.Allocates call)
    (havoid : h.AvoidsLive call) : (h.step call).Inv := by
  obtain ⟨htab, hhtab, hcons, hmap⟩ := hinv
  cases call with
  | enter ctx key value flag =>
    obtain ⟨r, hr, hcons', -, hpost⟩ := hcons.enter_spec flag value
      halloc.1 halloc.2 (havoid htab hhtab)
    rw [History.step, hhtab, Option.bind_some, hr]
    refine Inv.after hmap hcons' fun k v => ?_
    rw [hpost k v, Option.some.injEq, eq_comm (a := value)]
  | delete ctx key flag =>
    obtain ⟨r, hr, hcons', -, hpost⟩ := hcons.delete_spec ctx key flag
    rw [History.step, hhtab, Option.bind_some, hr]
    refine Inv.after hmap hcons' fun k v => ?_
    rw [hpost k v]
    simp

theorem Inv.refines {h : History} (hinv : h.Inv) : h.Refines := by
  obtain ⟨htab, hhtab, hcons, hmap⟩ := hinv
  refine ⟨htab, hhtab, fun ctx key flag => ?_⟩
  rcases hcons.find_eq ctx key none flag with
    ⟨i, v, hc, hi, hfind⟩ | ⟨habs, hfind⟩
  · obtain ⟨hk, hv, -⟩ := (hcons.valid i).live hc
    rw [(hmap key v).mp ⟨i, hc⟩]
    exact ⟨i, hi, hfind, hk, hv⟩
  · cases hspec : h.entered key with
    | none => exact hfind
    | some v =>
      obtain ⟨i, hi⟩ := (hmap key v).mpr hspec
      exact absurd hi (habs i v)

/-- In every run of calls on a new table in which no allocation fails and no new
entry falls on a live slot, `FIND` gives what was entered last. -/
theorem find_last_entered (nel : Nat) (htab htab' : HsearchData) (callocOk : Bool)
    (hcreate : hcreateR nel htab callocOk = some (1, htab')) (calls : List Call)
    (hcalls : Guarded step (fun h call => h.Allocates call ∧ h.AvoidsLive call)
      (start htab') calls) :
    (run step (start htab') calls).Refines :=
  (Guarded.invariant (I := Inv) (fun _ call hinv hok => hinv.step call hok.1 hok.2)
    hcalls (inv_start hcreate)).refines

/-! ### A table of five slots -/

/-- Allocations succeed, and no variable has a callback. -/
def plain : Context := ⟨true, true, fun _ => none, fun _ => 0⟩

def noTable : HsearchData := ⟨false, fun _ => Slot.zero, 0, 0, none⟩
def fiveSlots : HsearchData := ⟨true, fun _ => Slot.zero, 5, 0, none⟩

theorem fiveSlots_created : hcreateR 5 noTable true = some (1, fiveSlots) := by
  have hprime : primeLoop iterations 5 = some 5 := by decide
  simp [hcreateR, hprime, noTable, fiveSlots, ENTRY_BYTES]

/-- Enter a key of one letter, with itself as the value. -/
def letter (c : UInt8) : Call := .enter plain [c] [c] 0

/-- Two keys with the same first slot; the first one is deleted and its slot is
used again. -/
theorem find_last_entered_reused :
    (run step (start fiveSlots)
      [letter 99, letter 100, .delete plain [99] 0, letter 104]).Refines := by
  refine find_last_entered 5 noTable fiveSlots true fiveSlots_created _ ?_
  refine ⟨⟨⟨rfl, rfl⟩, ?_⟩, ⟨⟨rfl, rfl⟩, ?_⟩, ⟨trivial, trivial⟩, ⟨⟨rfl, rfl⟩, ?_⟩, trivial⟩
  · rintro htab ⟨⟩
    exact .inr (.inl ⟨5, by decide, by decide, by decide⟩)
  · rintro htab ⟨⟩
    exact .inr (.inl ⟨5, by decide, by decide, by decide⟩)
  · rintro htab ⟨⟩
    exact .inr (.inl ⟨5, by decide, by decide, by decide⟩)

/-- Four live slots and a deleted one: a new key whose first slot is live is
written over it, and the key that was there is lost. -/
theorem enter_loses_other_key :
    ¬ ∀ (nel : Nat) (htab htab' : HsearchData) (callocOk : Bool) (calls : List Call),
      hcreateR nel htab callocOk = some (1, htab') →
      (∀ f, htab.changeOk = some f → ∀ entry value op flag, f entry value op flag = false) →
      Guarded step (fun h call => h.Allocates call ∧ h.CallbacksAccept call)
        (start htab') calls →
      (run step (start htab') calls).Refines := by
  intro hall
  obtain ⟨htab, hhtab, hfind⟩ := hall 5 noTable fiveSlots true
    [letter 101, letter 97, letter 98, letter 99, letter 100, .delete plain [100] 0, letter 104]
    fiveSlots_created (fun f hf => by cases hf) (by
      refine ⟨⟨⟨rfl, rfl⟩, ?_⟩, ⟨⟨rfl, rfl⟩, ?_⟩, ⟨⟨rfl, rfl⟩, ?_⟩, ⟨⟨rfl, rfl⟩, ?_⟩,
        ⟨⟨rfl, rfl⟩, ?_⟩, ⟨trivial, trivial⟩, ⟨⟨rfl, rfl⟩, ?_⟩, trivial⟩ <;>
      · intro entry cb hcb
        cases hcb)
  have hentered : (run step (start fiveSlots) [letter 101, letter 97, letter 98, letter 99,
      letter 100, .delete plain [100] 0, letter 104]).entered [99] = some [99] := by decide
  have hlost : ((run step (start fiveSlots) [letter 101, letter 97, letter 98, letter 99,
      letter 100, .delete plain [100] 0, letter 104]).htab.bind fun htab =>
        (hsearchR plain [99] none .find htab 0).map Result.ret) = some 0 := by decide
  have := hfind plain [99] 0
  rw [hentered] at this
  obtain ⟨i, hi, hfound, -⟩ := this
  rw [hhtab, Option.bind_some, hfound, Option.map_some, Option.some.injEq] at hlost
  exact absurd hlost (by dsimp only; omega)

end History

end UBoot.HashTable
