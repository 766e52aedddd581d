import UBoot.HashTable.Failed
import UBoot.HashTable.Text
import UBoot.Verification.Bytes

/-!
# Importing a list of variables

With `H_NOCLEAR` and a list of names, `himport_r` is to change the listed variables
alone: to what the text says, and to nothing when the text gives no value. The local
copy of the list is ticked off entry by entry, and what is left on it is deleted at the
end, unless the import ended before the text did. A new entry that is written over a
live slot deletes a variable that nobody listed.
-/

namespace UBoot.HashTable

open OpenAddressing Verification

/-! ### The entries of the text -/

/-- The name of a variable that the entry is about. -/
def Parsed.name? : Parsed → Option Str
  | .comment => none
  | .noName => none
  | .delete name => some name
  | .enter name _ => some name

/-- The entry does not end the import. -/
def Parsed.goesOn : Parsed → Bool
  | .noName => false
  | _ => true

/-- The entries of a text, also those behind a value that has no name. -/
def textLoop (sep : UInt8) (size : Nat) : Nat → List UInt8 → Nat → Option (List Parsed)
  | 0, _, _ => none
  | fuel + 1, data, dp => do
    let (data, dp, parsed) ← parseEntry sep data dp
    if ← goesOn size data dp then return parsed :: (← textLoop sep size fuel data dp)
    else return [parsed]

def textEntries (env : List UInt8) (sep : UInt8) (crlfIsLf : Bool) : Option (List Parsed) :=
  if env = [] then some []
  else
    let (data, ignored) := if crlfIsLf then removeCrs env.length env 0 0 else (env, 0)
    textLoop sep (env.length - ignored) (env.length + 1) data 0

section Text

variable {sep : UInt8} {size fuel dp : Nat} {data : List UInt8} {ps : List Parsed}

theorem textLoop_turn (h : textLoop sep size (fuel + 1) data dp = some ps) :
    ∃ data' dp' parsed more, parseEntry sep data dp = some (data', dp', parsed) ∧
      goesOn size data' dp' = some more ∧
      ((more = false ∧ ps = [parsed]) ∨
        more = true ∧ ∃ rest, textLoop sep size fuel data' dp' = some rest ∧
          ps = parsed :: rest) := by
  simp only [textLoop, Option.bind_eq_bind, Option.bind_eq_some_iff, Option.pure_def] at h
  obtain ⟨⟨data', dp', parsed⟩, hparse, more, hmore, hps⟩ := h
  refine ⟨data', dp', parsed, more, hparse, hmore, ?_⟩
  cases more with
  | false =>
    rw [if_neg Bool.false_ne_true, Option.some.injEq] at hps
    exact Or.inl ⟨rfl, hps.symm⟩
  | true =>
    rw [if_pos rfl, Option.bind_eq_some_iff] at hps
    obtain ⟨rest, hrest, hps⟩ := hps
    exact Or.inr ⟨rfl, rest, hrest, (Option.some.inj hps).symm⟩

/-- What comes behind a value without a name does not matter. -/
theorem parseLoop_textLoop (ctx : Context) (flag : Nat)
    (h : textLoop sep size fuel data dp = some ps) :
    ∃ qs, parseLoop sep size fuel data dp = some qs ∧
      ∀ htab vars, applyAll ctx flag htab vars qs = applyAll ctx flag htab vars ps := by
  induction fuel generalizing data dp ps with
  | zero => cases h
  | succ fuel ih =>
    obtain ⟨data', dp', parsed, more, hparse, hmore, hps⟩ := textLoop_turn h
    by_cases hname : parsed = .noName
    · subst hname
      refine ⟨[.noName], parseLoop_noName fuel hparse, fun htab vars => ?_⟩
      rcases hps with ⟨-, rfl⟩ | ⟨-, rest, -, rfl⟩ <;> rfl
    · rw [parseLoop_turn fuel hparse hname, hmore, Option.bind_some]
      rcases hps with ⟨rfl, rfl⟩ | ⟨rfl, rest, hrest, rfl⟩
      · exact ⟨[parsed], by rw [if_neg Bool.false_ne_true], fun _ _ => rfl⟩
      · obtain ⟨qs, hqs, hall⟩ := ih hrest
        refine ⟨parsed :: qs, by rw [if_pos rfl, hqs, Option.map_some], fun htab vars => ?_⟩
        simp only [applyAll, hall]

theorem importText_textEntries (ctx : Context) (flag : Nat) {env : List UInt8} {crlfIsLf : Bool}
    (henv : env ≠ []) (h : textEntries env sep crlfIsLf = some ps) :
    ∃ qs, importText env sep crlfIsLf = some qs ∧
      ∀ htab vars, applyAll ctx flag htab vars qs = applyAll ctx flag htab vars ps := by
  rw [textEntries, if_neg henv] at h
  exact parseLoop_textLoop ctx flag h

end Text

/-! ### Calls that accept every change -/

/-- A table of more than one slot, in a program that accepts every change. -/
structure Ready (ctx : Context) (htab : HsearchData) : Prop where
  consistent : Consistent htab
  large : 1 < htab.size
  accepts : Accepts ctx htab
  entries : ∀ i cb, 0 < (htab.table i).used → (htab.table i).entry.callback = some cb →
    ∀ name value op flag, cb name value op flag = false

/-- Entering the key is written over the entry of this one. -/
def Lost (htab : HsearchData) (key k : Str) : Prop :=
  Absent htab.cells key ∧ ¬HasRoom htab key ∧
    ∃ v, htab.cells (firstIndex htab.size key) = .live k v

section Ready

variable {ctx : Context} {htab : HsearchData} {i idx : Nat}

theorem Accepts.not_changeOk (h : Accepts ctx htab) (entry : Entry) (value : Option Str)
    (op : EnvOp) (flag : Int) : ¬htab.changeOk.any (· entry value op flag) = true := by
  rw [Option.any_eq_true]
  rintro ⟨f, hf, hrej⟩
  rw [h.changeOk f hf] at hrej
  cases hrej

theorem Ready.not_callback (h : Ready ctx htab) (hused : 0 < (htab.table i).used) (name : Str)
    (value : Option Str) (op : EnvOp) (flag : Int) :
    ¬(htab.table i).entry.callback.any (· name value op flag) = true := by
  rw [Option.any_eq_true]
  rintro ⟨cb, hcb, hrej⟩
  rw [h.entries i cb hused hcb] at hrej
  cases hrej

/-- A slot that is stored keeps the table ready when its callback accepts. -/
theorem Ready.set (h : Ready ctx htab) {slot : Slot} (n : Nat)
    (hcons : Consistent { htab.set idx slot with filled := n })
    (hslot : ∀ cb, 0 < slot.used → slot.entry.callback = some cb →
      ∀ name value op flag, cb name value op flag = false) :
    Ready ctx { htab.set idx slot with filled := n } := by
  refine ⟨hcons, h.large, ⟨h.accepts.strdupKey, h.accepts.strdupData, h.accepts.changeOk,
    h.accepts.callback⟩, fun i cb hused hcb => ?_⟩
  by_cases hi : i = idx
  · subst hi
    simp only [HsearchData.set, Function.update_self] at hused hcb
    exact hslot cb hused hcb
  · simp only [HsearchData.set, Function.update_of_ne hi] at hused hcb
    exact h.entries i cb hused hcb

/-- `ENTER` sets the key, unless it is new and the table counts as full; the entry that it
is written over is lost. -/
theorem Ready.enter (h : Ready ctx htab) (key value : Str) (flag : Int) :
    ∃ r, hsearchR ctx key (some value) .enter htab flag = some r ∧ Ready ctx r.htab ∧
      (Absent htab.cells key ∧ htab.filled = htab.size ∧ r.htab = htab ∨
        ¬(Absent htab.cells key ∧ htab.filled = htab.size) ∧ ∀ k w, Holds r.htab.cells k w ↔
          if k = key then w = value else Holds htab.cells k w ∧ ¬Lost htab key k) := by
  have hcons := h.consistent
  have hlarge := h.large
  rcases hcons.enter_cases ctx flag (fun hone => by omega) value with ⟨i, v, hc, hr⟩ |
    ⟨habs, hfull, hr⟩ | ⟨habs, hfull, idx, hidx1, hidx2, hr, hslot⟩
  · -- the value of the key is replaced
    obtain ⟨hi1, hi2, hused⟩ := mem_liveSlots.mp (hcons.mem_liveSlots_iff.mpr ⟨key, v, hc⟩)
    have haccept : ¬Call.refused htab (htab.table i) key value flag = true := by
      rw [Call.refused, Bool.or_eq_true, not_or]
      exact ⟨h.accepts.not_changeOk _ _ _ _, h.not_callback hused _ _ _ _⟩
    obtain ⟨hcons', -, hpost⟩ :=
      @Consistent.foundEntry_spec htab ctx key flag hcons i v value h.accepts.strdupData hc
    rw [foundEntry_accepted haccept, if_pos h.accepts.strdupData] at hr hcons' hpost
    have hpresent : ¬Absent htab.cells key := fun habs => habs i v hc
    refine ⟨_, hr, h.set _ hcons' fun cb => h.entries i cb,
      Or.inr ⟨fun hand => hpresent hand.1, fun k w => ?_⟩⟩
    rw [hpost]
    by_cases hk : k = key
    · rw [if_pos ⟨Nat.ne_of_gt hi1, hk⟩, if_pos hk]
    · rw [if_neg fun hand => hk hand.2, if_neg hk]
      exact ⟨fun hold => ⟨hold, fun hlost => hpresent hlost.1⟩, And.left⟩
  · exact ⟨_, hr, h, Or.inl ⟨habs, hfull, rfl⟩⟩
  · -- a new entry
    have hsound : Sound (path htab.size) (Function.update htab.cells idx (.live key value)) := by
      rcases hslot with ⟨-, -, hsound⟩ | ⟨-, rfl, -⟩
      · exact hsound
      · exact hcons.sound.enter_home (hcons.size.path_head? key) habs
    have hlost : ∀ k, (∀ v, htab.cells idx ≠ .live k v) ↔ ¬Lost htab key k := by
      intro k
      rcases hslot with ⟨hroom, hfree, -⟩ | ⟨hroom, rfl, -⟩
      · exact ⟨fun _ hlost => hlost.2.1 hroom, fun _ => hfree k⟩
      · constructor
        · rintro hfree ⟨-, -, v, hv⟩
          exact hfree v hv
        · exact fun hlost v hv => hlost ⟨habs, hroom, v, hv⟩
    obtain ⟨entry, found, hk, hv, hcb, hnew⟩ :=
      enterNew_accepted h.accepts key value flag (firstIndex htab.size key) idx
    have hcell : Slot.cell ⟨firstIndex htab.size key, entry⟩ = .live key value :=
      cell_of_live hk hv rfl
    rw [hnew] at hr
    refine ⟨_, hr, h.set _ ?_ ?_, Or.inr ⟨fun hand => hfull hand.2, fun k w => ?_⟩⟩
    · exact (hcons.set (Or.inr (Or.inr ⟨key, value, hk, hv, rfl⟩)) ⟨hidx1, hidx2⟩
        (by rwa [hcell])).filled
    · intro cb _ hsome
      exact h.accepts.callback found cb (hcb ▸ hsome)
    · rw [HsearchData.cells_filled, HsearchData.cells_set, hcell, holds_write_iff hsound,
        hcons.sound.holds_elsewhere_iff, hlost k]

/-- `hdelete_r` takes the key out of the table. -/
theorem Ready.delete (h : Ready ctx htab) (key : Str) (flag : Int) :
    ∃ r, hdeleteR ctx key htab flag = some r ∧ Ready ctx r.htab ∧
      ∀ k w, Holds r.htab.cells k w ↔ k ≠ key ∧ Holds htab.cells k w := by
  have hcons := h.consistent
  rw [hdeleteR]
  rcases hcons.find_eq ctx key none 0 with ⟨i, v, hc, hi, hfind⟩ | ⟨habs, hfind⟩
  · obtain ⟨hi1, hi2, hused⟩ := mem_liveSlots.mp (hcons.mem_liveSlots_iff.mpr ⟨key, v, hc⟩)
    simp only [hfind, Option.bind_eq_bind, Option.bind_some, if_neg (Nat.ne_of_gt hi),
      if_neg (h.accepts.not_changeOk _ _ _ _), if_neg (h.not_callback hused _ _ _ _),
      Option.pure_def]
    refine ⟨_, rfl, h.set _ (hcons.hdelete ⟨hi1, hi2⟩) fun cb hneg => ?_, fun k w => ?_⟩
    · exact absurd hneg (show ¬(0 : Int) < -1 by decide)
    · rw [cells_hdelete, holds_delete_iff hcons.sound hc]
      by_cases hk : k = key
      · simp [hk]
      · simp [hk]
  · simp only [hfind, Option.bind_eq_bind, Option.bind_some]
    refine ⟨_, rfl, h, fun k w => ?_⟩
    rw [Result.failed]
    constructor
    · intro hold
      refine ⟨?_, hold⟩
      rintro rfl
      obtain ⟨i, hi⟩ := hold
      exact habs i w hi
    · exact And.right

end Ready

/-! ### One entry of the text -/

/-- The table, and the local copy of the list of names. -/
structure Import where
  htab : HsearchData
  localvars : List (Option Str)

namespace Import

/-- One entry applied. -/
def step (ctx : Context) (flag : Nat) (state : Import) (parsed : Parsed) : Import :=
  match applyParsed ctx flag state.htab state.localvars parsed with
  | some (some (htab, localvars)) => ⟨htab, localvars⟩
  | _ => state

/-- Entering a name that is still listed does not meet a full table, and is not written
over an entry whose name is not listed any more. -/
def Undisturbed (state : Import) : Parsed → Prop
  | .enter name _ => some name ∈ state.localvars → Absent state.htab.cells name →
      state.htab.filled ≠ state.htab.size ∧
        ∀ k, Lost state.htab name k → some k ∈ state.localvars
  | _ => True

/-- The import goes on from here. -/
structure Going (ctx : Context) (state : Import) : Prop where
  ready : Ready ctx state.htab
  listed : state.localvars ≠ []

/-- What an entry does to the table. -/
inductive Effect (state : Import) : Parsed → HsearchData → Prop
  | skipped {parsed : Parsed}
      (unlisted : ∀ name, parsed.name? = some name → some name ∉ state.localvars) :
      Effect state parsed state.htab
  | deleted {name : Str} {htab' : HsearchData} (listed : some name ∈ state.localvars)
      (holds : ∀ k w, Holds htab'.cells k w ↔ k ≠ name ∧ Holds state.htab.cells k w) :
      Effect state (.delete name) htab'
  | refused {name value : Str} (listed : some name ∈ state.localvars)
      (absent : Absent state.htab.cells name) (full : state.htab.filled = state.htab.size) :
      Effect state (.enter name value) state.htab
  | entered {name value : Str} {htab' : HsearchData} (listed : some name ∈ state.localvars)
      (accepted : ¬(Absent state.htab.cells name ∧ state.htab.filled = state.htab.size))
      (holds : ∀ k w, Holds htab'.cells k w ↔
        if k = name then w = value else Holds state.htab.cells k w ∧ ¬Lost state.htab name k) :
      Effect state (.enter name value) htab'

section Step

variable {ctx : Context} {flag : Nat} {state : Import} {parsed : Parsed} {name value : Str}

theorem dropVarFromSet_eq (h : state.localvars ≠ []) (name : Str) :
    dropVarFromSet name state.localvars = (decide (some name ∈ state.localvars),
      state.localvars.map fun v => if v = some name then none else v) := by
  rw [dropVarFromSet, if_neg h, List.contains_eq_mem]

theorem mem_ticked {localvars : List (Option Str)} {k : Str} :
    some k ∈ localvars.map (fun v => if v = some name then none else v) ↔
      some k ∈ localvars ∧ name ≠ k := by
  rw [List.mem_map]
  constructor
  · rintro ⟨v, hv, hk⟩
    split at hk
    · cases hk
    · rename_i hne
      subst hk
      exact ⟨hv, fun heq => hne (by rw [heq])⟩
  · rintro ⟨hk, hne⟩
    exact ⟨some k, hk, if_neg fun heq => hne (Option.some.inj heq).symm⟩

/-- The state after an entry. -/
structure Steps (ctx : Context) (flag : Nat) (state : Import) (parsed : Parsed) : Prop where
  applied : applyParsed ctx flag state.htab state.localvars parsed =
    some (some ((state.step ctx flag parsed).htab, (state.step ctx flag parsed).localvars))
  going : (state.step ctx flag parsed).Going ctx
  ticked : ∀ k, some k ∈ (state.step ctx flag parsed).localvars ↔
    some k ∈ state.localvars ∧ parsed.name? ≠ some k
  effect : state.Effect parsed (state.step ctx flag parsed).htab

theorem Steps.of_applied {htab' : HsearchData} {localvars' : List (Option Str)}
    (happly : applyParsed ctx flag state.htab state.localvars parsed =
      some (some (htab', localvars')))
    (hready : Ready ctx htab') (hlisted : localvars' ≠ [])
    (hticked : ∀ k, some k ∈ localvars' ↔ some k ∈ state.localvars ∧ parsed.name? ≠ some k)
    (heffect : state.Effect parsed htab') : state.Steps ctx flag parsed := by
  have hstep : state.step ctx flag parsed = ⟨htab', localvars'⟩ := by rw [step, happly]
  exact ⟨by rw [hstep]; exact happly, by rw [hstep]; exact ⟨hready, hlisted⟩,
    by rw [hstep]; exact hticked, by rw [hstep]; exact heffect⟩

/-- The same for an entry with a name, which is ticked off. -/
theorem Steps.of_name {htab' : HsearchData} (hname : parsed.name? = some name)
    (hlisted : state.localvars ≠ [])
    (happly : applyParsed ctx flag state.htab state.localvars parsed =
      some (some (htab', state.localvars.map fun v => if v = some name then none else v)))
    (hready : Ready ctx htab') (heffect : state.Effect parsed htab') :
    state.Steps ctx flag parsed := by
  refine Steps.of_applied happly hready (by simpa using hlisted) (fun k => ?_) heffect
  rw [mem_ticked, hname, ne_eq, ne_eq, Option.some.injEq]

variable (flag) in
/-- An entry that goes on is applied, and its name is ticked off. -/
theorem Going.steps (h : state.Going ctx) (hgoes : parsed.goesOn = true) :
    state.Steps ctx flag parsed := by
  have hdrop := dropVarFromSet_eq h.listed
  cases parsed with
  | comment =>
    apply Steps.of_applied rfl h.ready h.listed
    · simp [Parsed.name?]
    · exact Effect.skipped fun name hname => absurd hname (by simp [Parsed.name?])
  | noName => cases hgoes
  | delete name =>
    by_cases hname : some name ∈ state.localvars
    · obtain ⟨r, hr, hready, hholds⟩ := h.ready.delete name flag
      refine Steps.of_name rfl h.listed ?_ hready (Effect.deleted hname hholds)
      simp [applyParsed, hdrop, hname, hr]
    · refine Steps.of_name rfl h.listed ?_ h.ready (Effect.skipped ?_)
      · simp [applyParsed, hdrop, hname]
      · rintro _ ⟨⟩
        exact hname
  | enter name value =>
    by_cases hname : some name ∈ state.localvars
    · obtain ⟨r, hr, hready, heffect⟩ := h.ready.enter name value flag
      refine Steps.of_name rfl h.listed (by simp [applyParsed, hdrop, hname, hr]) hready ?_
      rcases heffect with ⟨habs, hfull, hsame⟩ | ⟨haccept, hholds⟩
      · rw [hsame]
        exact Effect.refused hname habs hfull
      · exact Effect.entered hname haccept hholds
    · refine Steps.of_name rfl h.listed ?_ h.ready (Effect.skipped ?_)
      · simp [applyParsed, hdrop, hname]
      · rintro _ ⟨⟩
        exact hname

/-! ### What the table is to hold -/

/-- The values of the names that are not listed any more are the intended ones. -/
def Follows (target : Str → Str → Prop) (state : Import) : Prop :=
  ∀ k, some k ∉ state.localvars → ∀ w, Holds state.htab.cells k w ↔ target k w

/-- A name that is not listed any more has not the value it is to have. -/
def Broken (target : Str → Str → Prop) (state : Import) : Prop :=
  ∃ k w, some k ∉ state.localvars ∧ target k w ∧ Absent state.htab.cells k

/-- The entry says what is intended. -/
def Means (target : Str → Str → Prop) : Parsed → Prop
  | .enter name value => ∀ w, target name w ↔ w = value
  | .delete name => ∀ w, ¬target name w
  | _ => True

variable {target : Str → Str → Prop}

theorem Follows.step (h : state.Follows target) (hsteps : state.Steps ctx flag parsed)
    (hmeans : ∀ name, parsed.name? = some name → some name ∈ state.localvars →
      Means target parsed)
    (hok : state.Undisturbed parsed) : (state.step ctx flag parsed).Follows target := by
  intro k hk w
  rw [hsteps.ticked] at hk
  have heffect := hsteps.effect
  generalize (state.step ctx flag parsed).htab = htab' at heffect
  cases heffect with
  | skipped unlisted => exact h k (fun hl => hk ⟨hl, fun hname => unlisted k hname hl⟩) w
  | @deleted name _ listed holds =>
    have hmean := hmeans name rfl listed
    rw [holds]
    by_cases hname : k = name
    · rw [hname]
      exact ⟨fun hand => absurd rfl hand.1, fun ht => absurd ht (hmean w)⟩
    · rw [h k fun hl => hk ⟨hl, fun heq => hname (Option.some.inj heq).symm⟩]
      exact and_iff_right hname
  | refused listed absent full => exact absurd full (hok listed absent).1
  | @entered name value _ listed accepted holds =>
    have hmean := hmeans name rfl listed
    rw [holds]
    by_cases hname : k = name
    · rw [if_pos hname, hname]
      exact (hmean w).symm
    · have hl : some k ∉ state.localvars :=
        fun hl => hk ⟨hl, fun heq => hname (Option.some.inj heq).symm⟩
      rw [if_neg hname, ← h k hl]
      exact and_iff_left fun hlost => hl ((hok listed hlost.1).2 k hlost)

theorem Follows.broken (h : state.Follows target) (hsteps : state.Steps ctx flag parsed)
    (hmeans : ∀ name, parsed.name? = some name → some name ∈ state.localvars →
      Means target parsed)
    (hbad : ¬state.Undisturbed parsed) : (state.step ctx flag parsed).Broken target := by
  cases parsed with
  | comment => exact absurd trivial hbad
  | noName => exact absurd trivial hbad
  | delete name => exact absurd trivial hbad
  | enter name value =>
    simp only [Undisturbed, Classical.not_imp] at hbad
    obtain ⟨listed, absent, hbad⟩ := hbad
    have hmean : ∀ w, target name w ↔ w = value := hmeans name rfl listed
    have hticked := hsteps.ticked
    have heffect := hsteps.effect
    rw [Broken]
    generalize (state.step ctx flag (.enter name value)).htab = htab' at heffect
    cases heffect with
    | skipped unlisted => exact absurd listed (unlisted name rfl)
    | refused _ _ full =>
      refine ⟨name, value, fun hl => ?_, (hmean value).mpr rfl, absent⟩
      exact ((hticked name).mp hl).2 rfl
    | entered _ accepted holds =>
      -- the entry that was written over
      obtain ⟨k, hlost, hk⟩ : ∃ k, Lost state.htab name k ∧ some k ∉ state.localvars := by
        by_contra hnone
        refine hbad ⟨fun full => accepted ⟨absent, full⟩, fun k hlost => ?_⟩
        by_contra hk
        exact hnone ⟨k, hlost, hk⟩
      obtain ⟨v, hv⟩ := hlost.2.2
      have hne : k ≠ name := by
        rintro rfl
        exact absent _ v hv
      refine ⟨k, v, fun hl => hk ((hticked k).mp hl).1, (h k hk v).mp ⟨_, hv⟩, ?_⟩
      rw [absent_iff]
      intro w hw
      rw [holds, if_neg hne] at hw
      exact hw.2 hlost

/-- A name that is not listed any more is not entered again. -/
theorem Broken.step (h : state.Broken target) (hsteps : state.Steps ctx flag parsed) :
    (state.step ctx flag parsed).Broken target := by
  obtain ⟨k, w, hk, ht, habs⟩ := h
  refine ⟨k, w, fun hl => hk ((hsteps.ticked k).mp hl).1, ht, ?_⟩
  have heffect := hsteps.effect
  generalize (state.step ctx flag parsed).htab = htab' at heffect
  cases heffect with
  | skipped unlisted => exact habs
  | deleted listed holds =>
    rw [absent_iff] at habs ⊢
    exact fun v hv => habs v ((holds k v).mp hv).2
  | refused listed absent full => exact habs
  | @entered name value _ listed accepted holds =>
    rw [absent_iff] at habs ⊢
    intro v hv
    rw [holds, if_neg] at hv
    · exact habs v hv.1
    · rintro rfl
      exact hk listed

end Step

/-! ### All entries -/

section Run

variable {ctx : Context} {flag : Nat} {state : Import} {ps : List Parsed}
  {target : Str → Str → Prop}

variable (flag) in
theorem Going.after (h : state.Going ctx) (hgoes : ∀ p ∈ ps, p.goesOn = true) :
    (run (step ctx flag) state ps).Going ctx ∧
      ∀ k, some k ∈ (run (step ctx flag) state ps).localvars ↔
        some k ∈ state.localvars ∧ ∀ p ∈ ps, p.name? ≠ some k := by
  induction ps generalizing state with
  | nil => exact ⟨h, fun k => by simp⟩
  | cons p ps ih =>
    have hsteps := h.steps flag (hgoes p List.mem_cons_self)
    obtain ⟨hgoing, hmem⟩ := ih hsteps.going fun q hq => hgoes q (List.mem_cons_of_mem _ hq)
    refine ⟨hgoing, fun k => ?_⟩
    rw [run_cons, hmem, hsteps.ticked, List.forall_mem_cons, and_assoc]

/-- A value that is missing stays missing. -/
theorem Going.broken (h : state.Going ctx) (hbad : state.Broken target)
    (hgoes : ∀ p ∈ ps, p.goesOn = true) : (run (step ctx flag) state ps).Broken target := by
  induction ps generalizing state with
  | nil => exact hbad
  | cons p ps ih =>
    have hsteps := h.steps flag (hgoes p List.mem_cons_self)
    exact ih hsteps.going (hbad.step hsteps) fun q hq => hgoes q (List.mem_cons_of_mem _ hq)

variable (flag target) in
/-- Either all entries are undisturbed and the intended values are there, or one is not and
a value is missing at the end. -/
theorem Going.run_cases (h : state.Going ctx) (hgoes : ∀ p ∈ ps, p.goesOn = true)
    (hmeans : ∀ p ∈ ps, ∀ name, p.name? = some name → some name ∈ state.localvars →
      Means target p)
    (hfollows : state.Follows target) :
    (Guarded (step ctx flag) Undisturbed state ps ∧
        (run (step ctx flag) state ps).Follows target) ∨
      ¬Guarded (step ctx flag) Undisturbed state ps ∧
        (run (step ctx flag) state ps).Broken target := by
  induction ps generalizing state with
  | nil => exact Or.inl ⟨trivial, hfollows⟩
  | cons p ps ih =>
    have hsteps := h.steps flag (hgoes p List.mem_cons_self)
    have hgoes' : ∀ q ∈ ps, q.goesOn = true := fun q hq => hgoes q (List.mem_cons_of_mem _ hq)
    by_cases hok : state.Undisturbed p
    · rcases ih hsteps.going hgoes' (fun q hq name hname hl =>
        hmeans q (List.mem_cons_of_mem _ hq) name hname ((hsteps.ticked name).mp hl).1)
        (hfollows.step hsteps (hmeans p List.mem_cons_self) hok) with ⟨hguard, hend⟩ |
        ⟨hguard, hend⟩
      · exact Or.inl ⟨⟨hok, hguard⟩, hend⟩
      · exact Or.inr ⟨fun hall => hguard hall.2, hend⟩
    · refine Or.inr ⟨fun hall => hok hall.1, ?_⟩
      exact hsteps.going.broken (hfollows.broken hsteps (hmeans p List.mem_cons_self) hok) hgoes'

variable (flag) in
/-- The entries are applied up to a value without a name. -/
theorem Going.applyAll (h : state.Going ctx) (ps : List Parsed) :
    HashTable.applyAll ctx flag state.htab state.localvars ps =
      some (if ps.all Parsed.goesOn then
          .ok (run (step ctx flag) state (ps.takeWhile Parsed.goesOn)).htab
            (run (step ctx flag) state (ps.takeWhile Parsed.goesOn)).localvars
        else .failed (run (step ctx flag) state (ps.takeWhile Parsed.goesOn)).htab) := by
  induction ps generalizing state with
  | nil => rfl
  | cons p ps ih =>
    cases hgoes : p.goesOn with
    | false =>
      rw [List.all_cons, hgoes, List.takeWhile_cons, hgoes, Bool.false_and]
      cases p with
      | noName => rfl
      | comment => cases hgoes
      | delete name => cases hgoes
      | enter name value => cases hgoes
    | true =>
      have hsteps := h.steps flag hgoes
      rw [applyAll_applied ps hsteps.applied, ih hsteps.going, List.all_cons, hgoes,
        List.takeWhile_cons, hgoes, Bool.true_and, if_pos rfl, run_cons]

end Run

end Import

/-! ### The rest of the list -/

/-- The loop over the names that are left deletes them. -/
theorem Ready.deleteRest {ctx : Context} {htab : HsearchData} (h : Ready ctx htab) (flag : Nat)
    (localvars : List (Option Str)) :
    ∃ htab', HashTable.deleteRest ctx flag htab localvars = some htab' ∧ Ready ctx htab' ∧
      ∀ k w, Holds htab'.cells k w ↔ some k ∉ localvars ∧ Holds htab.cells k w := by
  rw [HashTable.deleteRest]
  have hmem : ∀ k, some k ∈ localvars ↔ k ∈ localvars.filterMap id := by simp
  simp only [hmem]
  generalize localvars.filterMap id = names
  induction names generalizing htab with
  | nil => exact ⟨htab, rfl, h, fun k w => by simp⟩
  | cons name names ih =>
    obtain ⟨r, hr, hready, hholds⟩ := h.delete name flag
    obtain ⟨htab', hrest, hready', hholds'⟩ := ih hready
    refine ⟨htab', ?_, hready', fun k w => ?_⟩
    · simp only [List.foldlM_cons, hr, Option.bind_eq_bind, Option.bind_some, Option.pure_def]
      exact hrest
    · rw [hholds', hholds, List.mem_cons, not_or]
      exact ⟨fun hand => ⟨⟨hand.2.1, hand.1⟩, hand.2.2⟩,
        fun hand => ⟨hand.1.2, hand.1.1, hand.2⟩⟩

/-! ### The whole import -/

/-- The listed variables are what the text says, and the others are as before. -/
structure Selected (vars : List Str) (ps : List Parsed) (htab htab' : HsearchData) : Prop where
  unlisted : ∀ k, k ∉ vars → ∀ w, Stores htab' k w ↔ Stores htab k w
  set : ∀ k ∈ vars, ∀ w, .enter k w ∈ ps → Stores htab' k w
  deleted : ∀ k ∈ vars, (∀ w, .enter k w ∉ ps) → ∀ w, ¬Stores htab' k w

/-- Nothing is left to do for the names on the list. -/
def Import.Settled (ps : List Parsed) (state : Import) : Prop :=
  ∀ k, some k ∈ state.localvars → ∀ w, Stores state.htab k w ↔ .enter k w ∈ ps

/-- The value that a name is to have after the import. -/
def intended (vars : List Str) (ps : List Parsed) (htab : HsearchData) (k w : Str) : Prop :=
  (k ∈ vars ∧ .enter k w ∈ ps) ∨ k ∉ vars ∧ Stores htab k w

/-- The import ends before the names that are left are deleted: it has no text, or an entry
with a value and no name. -/
def EndsEarly (env : List UInt8) (ps : List Parsed) : Prop := env = [] ∨ .noName ∈ ps

/-- The state when the loop ends. -/
def importEnd (ctx : Context) (flag : Nat) (htab : HsearchData) (vars : List Str)
    (ps : List Parsed) : Import :=
  run (Import.step ctx flag) ⟨htab, vars.map some⟩ (ps.takeWhile Parsed.goesOn)

section Whole

variable {ctx : Context} {htab htab' : HsearchData} {env : List UInt8} {sep : UInt8} {flag : Nat}
  {crlfIsLf : Bool} {vars : List Str} {ps : List Parsed}

theorem intended_listed {k w : Str} (hk : k ∈ vars) :
    intended vars ps htab k w ↔ .enter k w ∈ ps := by
  simp [intended, hk]

theorem intended_unlisted {k w : Str} (hk : k ∉ vars) :
    intended vars ps htab k w ↔ Stores htab k w := by
  simp [intended, hk]

theorem selected_of_intended (h : ∀ k w, Stores htab' k w ↔ intended vars ps htab k w) :
    Selected vars ps htab htab' := by
  refine ⟨fun k hk w => ?_, fun k hk w hw => ?_, fun k hk hnone w hw => ?_⟩
  · rw [h, intended_unlisted hk]
  · rw [h, intended_listed hk]
    exact hw
  · rw [h, intended_listed hk] at hw
    exact hnone w hw

theorem Selected.stores (h : Selected vars ps htab htab') {k w : Str}
    (hk : intended vars ps htab k w) : Stores htab' k w := by
  rcases hk with ⟨hmem, hk⟩ | ⟨hmem, hk⟩
  · exact h.set k hmem w hk
  · exact (h.unlisted k hmem w).mpr hk

/-- Entries about the same name are the same entry. -/
theorem eq_of_name (hnames : (ps.filterMap Parsed.name?).Nodup) {p q : Parsed} {name : Str}
    (hp : p ∈ ps) (hq : q ∈ ps) (hpn : p.name? = some name) (hqn : q.name? = some name) :
    p = q := by
  induction ps with
  | nil => cases hp
  | cons x ps ih =>
    have hmem : ∀ y ∈ ps, y.name? = some name → name ∈ ps.filterMap Parsed.name? :=
      fun y hy hyn => List.mem_filterMap.mpr ⟨y, hy, hyn⟩
    rcases List.mem_cons.mp hp with rfl | hp'
    · rcases List.mem_cons.mp hq with rfl | hq'
      · rfl
      · rw [List.filterMap_cons, hpn] at hnames
        exact absurd (hmem q hq' hqn) (List.nodup_cons.mp hnames).1
    · rcases List.mem_cons.mp hq with rfl | hq'
      · rw [List.filterMap_cons, hqn] at hnames
        exact absurd (hmem p hp' hpn) (List.nodup_cons.mp hnames).1
      · refine ih ?_ hp' hq'
        rw [List.filterMap_cons] at hnames
        split at hnames
        · exact hnames
        · exact (List.nodup_cons.mp hnames).2

/-- An entry about a listed name says what the name is to have. -/
theorem means_intended (hnames : (ps.filterMap Parsed.name?).Nodup) {p : Parsed} (hp : p ∈ ps)
    (hlisted : ∀ name, p.name? = some name → name ∈ vars) :
    Import.Means (intended vars ps htab) p := by
  cases p with
  | comment => trivial
  | noName => trivial
  | delete name =>
    intro w hw
    rw [intended_listed (hlisted name rfl)] at hw
    cases eq_of_name hnames hp hw rfl rfl
  | enter name value =>
    intro w
    rw [intended_listed (hlisted name rfl)]
    constructor
    · intro hw
      cases eq_of_name hnames hp hw rfl rfl
      rfl
    · rintro rfl
      exact hp

theorem goesOn_all_iff : ps.all Parsed.goesOn = true ↔ .noName ∉ ps := by
  rw [List.all_eq_true]
  constructor
  · intro hall hmem
    exact absurd (hall _ hmem) (by decide)
  · intro hno p hp
    cases p with
    | noName => exact absurd hp hno
    | comment => rfl
    | delete name => rfl
    | enter name value => rfl

theorem going_start (hready : Ready ctx htab) (hvars : vars ≠ []) :
    Import.Going ctx ⟨htab, vars.map some⟩ := ⟨hready, by simpa using hvars⟩

/-- The import applies the entries, and deletes the names that are left. -/
theorem himportR_selected (hready : Ready ctx htab) (hactive : htab.active = true)
    (hflag : flag &&& H_NOCLEAR ≠ 0) (hvars : vars ≠ [])
    (htext : textEntries env sep crlfIsLf = some ps) :
    (EndsEarly env ps ∧ ∃ ret, himportR ctx htab env sep flag crlfIsLf vars true true =
        some (ret, (importEnd ctx flag htab vars ps).htab)) ∨
      ¬EndsEarly env ps ∧ himportR ctx htab env sep flag crlfIsLf vars true true =
        (deleteRest ctx flag (importEnd ctx flag htab vars ps).htab
          (importEnd ctx flag htab vars ps).localvars).map (1, ·) := by
  by_cases henv : env = []
  · rw [textEntries, if_pos henv, Option.some.injEq] at htext
    subst htext henv
    refine Or.inl ⟨Or.inl rfl, 1, ?_⟩
    simp [himportR, hflag, hactive, importEnd]
  · obtain ⟨qs, hqs, happly⟩ := importText_textEntries ctx flag henv htext
    have hall := (going_start hready hvars).applyAll flag ps
    rw [himportR_eq hflag hactive henv, hqs, Option.bind_some, happly, hall, Option.bind_some]
    by_cases hgoes : ps.all Parsed.goesOn = true
    · rw [if_pos hgoes]
      refine Or.inr ⟨?_, rfl⟩
      rintro (hnil | hno)
      · exact henv hnil
      · exact goesOn_all_iff.mp hgoes hno
    · rw [if_neg hgoes]
      refine Or.inl ⟨Or.inr ?_, 0, rfl⟩
      by_contra hno
      exact hgoes (goesOn_all_iff.mpr hno)

theorem Consistent.stores_unique (h : Consistent htab) {k v w : Str} (hv : Stores htab k v)
    (hw : Stores htab k w) : v = w := by
  obtain ⟨i, hi⟩ := h.stores_iff.mp hv
  obtain ⟨j, hj⟩ := h.stores_iff.mp hw
  obtain rfl := h.sound.slot_unique hi hj
  rw [hi, Cell.live.injEq] at hj
  exact hj.2

/-- A value that is missing is missing when the names that are left are deleted. -/
theorem not_selected_of_broken {state : Import}
    (hbad : state.Broken (intended vars ps htab))
    (hkept : ∀ k w, Stores htab' k w → Holds state.htab.cells k w) :
    ¬Selected vars ps htab htab' := by
  obtain ⟨k, w, -, hk, habs⟩ := hbad
  exact fun h => absent_iff.mp habs w (hkept k w (h.stores hk))

/-- When the import ends early, the names that are left have to be settled. -/
theorem selected_early_iff {state : Import} (hcons : Consistent state.htab)
    (hvars : ∀ k, some k ∈ state.localvars → k ∈ vars)
    (hfollows : state.Follows (intended vars ps htab)) :
    Selected vars ps htab state.htab ↔ state.Settled ps := by
  constructor
  · intro h k hk w
    constructor
    · intro hw
      by_contra hno
      refine h.deleted k (hvars k hk) (fun v hv => hno ?_) w hw
      rwa [hcons.stores_unique hw (h.set k (hvars k hk) v hv)]
    · exact h.set k (hvars k hk) w
  · refine fun h => selected_of_intended fun k w => ?_
    by_cases hk : some k ∈ state.localvars
    · rw [h k hk, intended_listed (hvars k hk)]
    · rw [hcons.stores_iff, hfollows k hk]

/-- Otherwise they are deleted, which is what the text says about them. -/
theorem selected_of_deleteRest {state : Import} (hcons : Consistent htab')
    (hleft : ∀ k, some k ∈ state.localvars → k ∈ vars ∧ ∀ w, .enter k w ∉ ps)
    (hfollows : state.Follows (intended vars ps htab))
    (hrest : ∀ k w, Holds htab'.cells k w ↔
      some k ∉ state.localvars ∧ Holds state.htab.cells k w) :
    Selected vars ps htab htab' := by
  refine selected_of_intended fun k w => ?_
  rw [hcons.stores_iff, hrest]
  by_cases hk : some k ∈ state.localvars
  · obtain ⟨hmem, hnone⟩ := hleft k hk
    rw [intended_listed hmem]
    exact ⟨fun hand => absurd hk hand.1, fun hw => absurd hw (hnone w)⟩
  · rw [← hfollows k hk]
    exact and_iff_right hk

/-- An import of a list of variables changes them to what the text says and no others,
exactly when no name is entered into a full table or over another variable that is not
listed any more, and an import that ends early has nothing left to do. -/
theorem himport_selected_iff (ctx : Context) (htab : HsearchData) (env : List UInt8)
    (sep : UInt8) (flag : Nat) (crlfIsLf : Bool) (vars : List Str) (ps : List Parsed)
    (hready : Ready ctx htab) (hactive : htab.active = true) (hflag : flag &&& H_NOCLEAR ≠ 0)
    (hvars : vars ≠ []) (htext : textEntries env sep crlfIsLf = some ps)
    (hnames : (ps.filterMap Parsed.name?).Nodup) :
    (∃ ret htab', himportR ctx htab env sep flag crlfIsLf vars true true = some (ret, htab') ∧
        Selected vars ps htab htab') ↔
      Guarded (Import.step ctx flag) Import.Undisturbed ⟨htab, vars.map some⟩
          (ps.takeWhile Parsed.goesOn) ∧
        (EndsEarly env ps → (importEnd ctx flag htab vars ps).Settled ps) := by
  have hstart := going_start hready hvars
  have hgoes : ∀ p ∈ ps.takeWhile Parsed.goesOn, p.goesOn = true :=
    fun p hp => List.mem_takeWhile_imp hp
  have hlisted : ∀ k, some k ∈ vars.map some ↔ k ∈ vars := fun k => by simp
  -- the loop
  obtain ⟨⟨hready', -⟩, hticked⟩ := hstart.after flag hgoes
  have hcases := hstart.run_cases flag (intended vars ps htab) hgoes
    (fun p hp name hname hl => means_intended hnames ((List.takeWhile_sublist _).subset hp)
      fun name' hname' => by
        obtain rfl := Option.some.inj (hname.symm.trans hname')
        exact (hlisted name).mp hl)
    (fun k hk w => by
      rw [intended_unlisted fun hmem => hk ((hlisted k).mpr hmem), hready.consistent.stores_iff])
  change Ready ctx (importEnd ctx flag htab vars ps).htab at hready'
  change ∀ k, some k ∈ (importEnd ctx flag htab vars ps).localvars ↔ _ at hticked
  change (_ ∧ (importEnd ctx flag htab vars ps).Follows _) ∨
    _ ∧ (importEnd ctx flag htab vars ps).Broken _ at hcases
  have hend := himportR_selected hready hactive hflag hvars htext
  generalize importEnd ctx flag htab vars ps = state at *
  have hmem : ∀ k, some k ∈ state.localvars → k ∈ vars :=
    fun k hk => (hlisted k).mp ((hticked k).mp hk).1
  rcases hend with ⟨hearly, ret, hr⟩ | ⟨hearly, hr⟩
  · -- the table at the end of the loop is the result
    have hresult : (∃ ret htab', himportR ctx htab env sep flag crlfIsLf vars true true =
        some (ret, htab') ∧ Selected vars ps htab htab') ↔ Selected vars ps htab state.htab := by
      constructor
      · rintro ⟨ret', htab', hr', hsel⟩
        obtain ⟨-, rfl⟩ := Prod.mk.inj (Option.some.inj (hr.symm.trans hr'))
        exact hsel
      · exact fun hsel => ⟨ret, _, hr, hsel⟩
    rw [hresult]
    rcases hcases with ⟨hguard, hfollows⟩ | ⟨hguard, hbroken⟩
    · rw [selected_early_iff hready'.consistent hmem hfollows]
      exact ⟨fun h => ⟨hguard, fun _ => h⟩, fun h => h.2 hearly⟩
    · have hnot := not_selected_of_broken hbroken
        fun k w => hready'.consistent.stores_iff.mp
      exact ⟨fun hsel => absurd hsel hnot, fun h => absurd h.1 hguard⟩
  · obtain ⟨htab', hrest, hready'', hholds⟩ := hready'.deleteRest flag state.localvars
    rw [hrest, Option.map_some] at hr
    have hall : ps.takeWhile Parsed.goesOn = ps := by
      refine List.takeWhile_eq_self_iff.mpr (List.all_eq_true.mp (goesOn_all_iff.mpr ?_))
      exact fun hno => hearly (Or.inr hno)
    rcases hcases with ⟨hguard, hfollows⟩ | ⟨hguard, hbroken⟩
    · refine iff_of_true ⟨1, htab', hr, ?_⟩ ⟨hguard, fun h => absurd h hearly⟩
      refine selected_of_deleteRest hready''.consistent (fun k hk => ⟨hmem k hk, ?_⟩) hfollows
        hholds
      intro w hw
      exact ((hticked k).mp hk).2 _ (hall.symm ▸ hw) rfl
    · refine iff_of_false ?_ fun h => hguard h.1
      rintro ⟨ret', htab'', hr', hsel⟩
      obtain ⟨-, rfl⟩ := Prod.mk.inj (Option.some.inj (hr.symm.trans hr'))
      exact not_selected_of_broken hbroken
        (fun k w hw => ((hholds k w).mp (hready''.consistent.stores_iff.mp hw)).2) hsel

end Whole

/-! ### Examples -/

/-- The calls are made by a program that accepts every change. -/
def Call.MadeBy (ctx : Context) : Call → Prop
  | .enter c _ _ _ => c = ctx
  | .delete c _ _ => c = ctx

theorem Ready.run {ctx : Context} {htab : HsearchData} (h : Ready ctx htab) (calls : List Call)
    (hcalls : ∀ call ∈ calls, call.MadeBy ctx) :
    ∃ htab', Verification.run Call.step (some htab) calls = some htab' ∧ Ready ctx htab' := by
  induction calls generalizing htab with
  | nil => exact ⟨htab, rfl, h⟩
  | cons call calls ih =>
    have hrest : ∀ c ∈ calls, c.MadeBy ctx := fun c hc => hcalls c (List.mem_cons_of_mem _ hc)
    have hcall := hcalls call List.mem_cons_self
    cases call with
    | enter c key value flag =>
      obtain rfl : c = ctx := hcall
      obtain ⟨r, hr, hready, -⟩ := h.enter key value flag
      rw [run_cons, Call.step, Option.bind_some, Call.perform, hr]
      exact ih hready hrest
    | delete c key flag =>
      obtain rfl : c = ctx := hcall
      obtain ⟨r, hr, hready, -⟩ := h.delete key flag
      rw [run_cons, Call.step, Option.bind_some, Call.perform, hr]
      exact ih hready hrest

theorem ready_fiveSlots : Ready History.plain History.fiveSlots := by
  refine ⟨consistent_created History.fiveSlots_created, by decide, ⟨rfl, rfl, ?_, ?_⟩, ?_⟩
  · rintro f ⟨⟩
  · rintro entry cb ⟨⟩
  · intro i cb hused
    exact absurd hused (by simp [History.fiveSlots, Slot.zero])

theorem stores_iff_maps {htab : HsearchData} {k v : Str} :
    Stores htab k v ↔ Maps htab (some k) (some v) := by
  simp only [Stores, Maps, mem_liveSlots, and_assoc]

/-- The variable `c` is listed, and the text has a new value for it. -/
theorem himport_selected_replaced : ∃ htab,
    run Call.step (some History.fiveSlots) [History.letter 99] = some htab ∧
      ∃ ret htab', himportR History.plain htab [99, chEquals, 100, 0] 0 H_NOCLEAR false [[99]]
          true true = some (ret, htab') ∧
        Selected [[99]] [.enter [99] [100]] htab htab' := by
  obtain ⟨htab, hrun, hready⟩ := ready_fiveSlots.run [History.letter 99] (by
    simp [History.letter, Call.MadeBy])
  refine ⟨htab, hrun, (himport_selected_iff History.plain htab [99, chEquals, 100, 0] 0 H_NOCLEAR
    false [[99]] [.enter [99] [100]] hready ?_ (by decide) (by decide) rfl (by decide)).mpr
      ⟨⟨?_, trivial⟩, ?_⟩⟩
  · have hactive : (run Call.step (some History.fiveSlots) [History.letter 99]).map
        HsearchData.active = some true := by decide
    rwa [hrun, Option.map_some, Option.some.injEq] at hactive
  · -- the variable is there, so its value is replaced
    have hthere : (run Call.step (some History.fiveSlots) [History.letter 99]).map
        (fun htab => decide (Maps htab (some [99]) (some [99]))) = some true := by decide
    rw [hrun, Option.map_some, Option.some.injEq, decide_eq_true_eq, ← stores_iff_maps,
      hready.consistent.stores_iff] at hthere
    exact fun _ habs => absurd hthere (absent_iff.mp habs _)
  · rintro (hnil | hno)
    · cases hnil
    · exact absurd hno (by simp)

/-- The first slot is taken, the deleted slot is not where `h` is looked for first. -/
def fourVariables : List Call :=
  [History.letter 99, History.letter 101, History.letter 102, History.letter 103,
    History.letter 108, .delete History.plain [108] 0]

/-- Importing the listed variable `h` deletes the variable `c`. -/
theorem himport_loses_unlisted :
    ¬∀ (ctx : Context) (htab : HsearchData) (env : List UInt8) (sep : UInt8) (flag : Nat)
        (crlfIsLf : Bool) (vars : List Str) (ps : List Parsed), Ready ctx htab →
      htab.active = true → flag &&& H_NOCLEAR ≠ 0 → vars ≠ [] →
      textEntries env sep crlfIsLf = some ps → (ps.filterMap Parsed.name?).Nodup →
      ∃ ret htab', himportR ctx htab env sep flag crlfIsLf vars true true = some (ret, htab') ∧
        Selected vars ps htab htab' := by
  intro hall
  obtain ⟨htab, hrun, hready⟩ := ready_fiveSlots.run fourVariables (by
    simp [fourVariables, History.letter, Call.MadeBy])
  have hlost : ((run Call.step (some History.fiveSlots) fourVariables).bind fun htab =>
      (himportR History.plain htab [104, chEquals, 104, 0] 0 H_NOCLEAR false [[104]] true
        true).map fun r => (htab.active, decide (Maps htab (some [99]) (some [99])),
          decide (Maps r.2 (some [99]) (some [99])))) = some (true, true, false) := by
    decide
  rw [hrun, Option.bind_some] at hlost
  have hactive : htab.active = true := by
    obtain ⟨r, -, hr⟩ := Option.map_eq_some_iff.mp hlost
    exact (Prod.mk.inj hr).1
  obtain ⟨ret, htab', hr, hsel⟩ := hall History.plain htab [104, chEquals, 104, 0] 0 H_NOCLEAR
    false [[104]] [.enter [104] [104]] hready hactive (by decide) (by decide) rfl (by decide)
  rw [hr, Option.map_some, Option.some.injEq, Prod.mk.injEq, Prod.mk.injEq, decide_eq_true_eq,
    decide_eq_false_iff_not, ← stores_iff_maps, ← stores_iff_maps] at hlost
  exact hlost.2.2 ((hsel.unlisted [99] (by decide) [99]).mpr hlost.2.1)

end UBoot.HashTable
