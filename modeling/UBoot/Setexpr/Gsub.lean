import Mathlib.Data.List.GetD
import UBoot.Setexpr.Regex

/-!
# All matches of a regular expression

What `gsub` is for: each match is replaced by the replacement with its back references
expanded, from left to right. The runs of `regex_sub` that do so are those in which each step
meets a condition on the state it starts in.
-/

namespace UBoot.Setexpr

open Verification
open HashTable (Str)

/-! ### The result that is wanted -/

/-- Each back reference to a group is replaced by what the group has matched. -/
def expandRef (i : Nat) (cap : Str) : Str → Str
  | a :: b :: s => if [a, b] = backref i then cap ++ expandRef i cap s
      else a :: expandRef i cap (b :: s)
  | s => s

/-- The back references to the groups from `i` on, one group after another. -/
def expandRefs : Nat → List Str → Str → Str
  | _, [], s => s
  | i, cap :: caps, s => expandRefs (i + 1) caps (expandRef i cap s)

/-- What a group has matched. -/
def capture (text : Str) (cap : Cap) : Str := (text.drop cap.ptr).take cap.len

/-- The first ten groups of a match. -/
def groups (text : Str) (caps : List Cap) : List Str := (caps.map (capture text)).take 10

/-- Each successive match in a text is replaced. Behind an empty match one character is
skipped. -/
inductive Gsub (slreMatch : Str → Option (List Cap)) (s : Str) : Str → Str → Prop
  | done {text : Str} (hmatch : slreMatch text = none) : Gsub slreMatch s text text
  | replace {before found rest out : Str} {cap : Cap} {caps : List Cap}
      (hmatch : slreMatch (before ++ found ++ rest) = some (cap :: caps))
      (hptr : cap.ptr = before.length) (hlen : cap.len = found.length) (hne : found ≠ [])
      (hrest : Gsub slreMatch s rest out) :
      Gsub slreMatch s (before ++ found ++ rest)
        (before ++ expandRefs 0 (groups (before ++ found ++ rest) (cap :: caps)) s ++ out)
  | empty {before rest out : Str} {c : UInt8} {cap : Cap} {caps : List Cap}
      (hmatch : slreMatch (before ++ c :: rest) = some (cap :: caps))
      (hptr : cap.ptr = before.length) (hlen : cap.len = 0) (hrest : Gsub slreMatch s rest out) :
      Gsub slreMatch s (before ++ c :: rest)
        (before ++ expandRefs 0 (groups (before ++ c :: rest) (cap :: caps)) s ++ c :: out)
  | last {text : Str} {cap : Cap} {caps : List Cap}
      (hmatch : slreMatch text = some (cap :: caps)) (hptr : cap.ptr = text.length)
      (hlen : cap.len = 0) :
      Gsub slreMatch s text (text ++ expandRefs 0 (groups text (cap :: caps)) s)

/-- `slre_match` gives the whole match and the groups, as parts of the text. -/
structure Captures (slreMatch : Str → Option (List Cap)) : Prop where
  whole : ∀ text caps, slreMatch text = some caps → caps ≠ []
  inside : ∀ text caps, slreMatch text = some caps → ∀ cap ∈ caps, cap.ptr + cap.len ≤ text.length

/-- `regex_sub` ends and stores the text with its matches replaced, or fails when there is no
match, and never leaves its buffers. -/
structure Yields (job : Job) (s : Str) : Prop where
  safe : ∀ ticks, (after job ticks).Safe
  noMatch : job.slreMatch job.t = none → ∃ ticks, after job ticks = .failed
  stored : job.slreMatch job.t ≠ none → ∃ ticks data out, after job ticks = .stored data ∧
    Gsub job.slreMatch s job.t out ∧ Holds data SLRE_BUFSZ 0 out

/-! ### The condition -/

/-- A call that is made is bounded and does not overflow. -/
def State.Fits (st : State) : Prop :=
  ∀ c, st.call = some c → ¬c.Overflow ∧ ∃ text, Holds c.mem c.ssize c.string text ∧ c.Bounded text

/-- What is searched may reach behind the text, and makes no difference; and `nlen` is the length
of the replacement. -/
def SearchExact (job : Job) (s : Str) (v : Vars) : Prop :=
  ∀ text, Holds v.data SLRE_BUFSZ v.datap text →
    job.slreMatch ((v.data.add v.datap).bytes v.len) = job.slreMatch text ∧
      (job.slreMatch text ≠ none → v.nlen = s.length)

/-- The match is not empty, `memstr` finds it where it is, and no back reference is left to a
group behind an empty one. -/
structure MatchExact (r : Refs) : Prop where
  nonempty : (r.cap 0).len ≠ 0
  first : r.dataCall.match = some (r.cap 0).ptr
  expanded : ∀ text, Holds r.nbuf SLRE_PATSZ r.np text → ∀ i, r.i ≤ i → i < 10 →
    i < r.caps.length → ∀ before after, text ≠ before ++ backref i ++ after

/-- The condition on a state before a step. -/
def State.Exact (job : Job) (s : Str) (st : State) : Prop :=
  st.Fits ∧
    match st with
    | .search v => SearchExact job s v
    | .refs r => r.Finished → MatchExact r
    | .failed => True
    | .stored _ => True

section Expansion

variable {i : Nat} {cap : Str} {text : Str}

theorem expandRef_eq_self (h : ∀ before after, text ≠ before ++ backref i ++ after) :
    expandRef i cap text = text := by
  induction text with
  | nil => rfl
  | cons a text ih =>
    cases text with
    | nil => rfl
    | cons b text =>
      have hhere : [a, b] ≠ backref i := fun heq => h [] text (by rw [← heq]; rfl)
      have hlater : ∀ before after, b :: text ≠ before ++ backref i ++ after :=
        fun before after heq => h (a :: before) after (by rw [heq]; rfl)
      rw [expandRef, if_neg hhere, ih hlater]

/-- The first back reference is replaced. -/
theorem expandRef_split {before after : Str}
    (hfirst : ∀ pre post, before ++ backref i ++ after = pre ++ backref i ++ post →
      before.length ≤ pre.length) :
    expandRef i cap (before ++ backref i ++ after) = before ++ cap ++ expandRef i cap after := by
  induction before with
  | nil =>
    change expandRef i cap (92 :: (48 + UInt8.ofNat i) :: after) = cap ++ expandRef i cap after
    rw [expandRef]
    exact if_pos rfl
  | cons a before ih =>
    have hstep := ih fun pre post heq => Nat.le_of_succ_le_succ
      (hfirst (a :: pre) post (by simp only [List.cons_append, heq]))
    obtain ⟨b, more, hmore⟩ : ∃ b more, before ++ backref i ++ after = b :: more := by
      cases before with
      | nil => exact ⟨_, _, rfl⟩
      | cons b before => exact ⟨b, _, rfl⟩
    have hhere : [a, b] ≠ backref i := fun heq => by
      have hstart : a :: before ++ backref i ++ after = [] ++ backref i ++ more := by
        rw [List.cons_append, List.cons_append, hmore, ← heq]
        rfl
      exact absurd (hfirst [] more hstart) (Nat.not_succ_le_zero _)
    rw [List.cons_append, List.cons_append, hmore, expandRef, if_neg hhere, ← hmore, hstep]
    rfl

theorem expandRefs_eq_self {caps : List Str}
    (h : ∀ j, i ≤ j → j < i + caps.length → ∀ before after, text ≠ before ++ backref j ++ after) :
    expandRefs i caps text = text := by
  induction caps generalizing i with
  | nil => rw [expandRefs]
  | cons cap caps ih =>
    rw [List.length_cons] at h
    rw [expandRefs, expandRef_eq_self (h i (Nat.le_refl i) (by omega))]
    exact ih fun j hj hlt => h j (by omega) (by omega)

end Expansion

/-! ### A round of the loop -/

/-- A later state of the same round: only `i`, `nbuf`, `np` and `nlen` have changed. -/
structure SameRound (r r' : Refs) : Prop where
  vars : r'.vars = { r.vars with nlen := r'.vars.nlen }
  caps : r'.caps = r.caps

theorem SameRound.refl (r : Refs) : SameRound r r := ⟨rfl, rfl⟩

theorem SameRound.trans {r r' r'' : Refs} (h : SameRound r r') (h' : SameRound r' r'') :
    SameRound r r'' := by
  refine ⟨?_, h'.caps.trans h.caps⟩
  have hvars := h'.vars
  rw [h.vars] at hvars
  exact hvars

section Round

variable {job : Job} {s : Str}

theorem after_concat (ticks : List Unit) : after job (ticks ++ [()]) = step job (after job ticks) := by
  rw [after, run_append]
  rfl

theorem SameRound.cap {r r' : Refs} (h : SameRound r r') (i : Nat) : r'.cap i = r.cap i := by
  rw [Refs.cap, Refs.cap, h.caps]

theorem SameRound.capText {r r' : Refs} (h : SameRound r r') (cap : Cap) :
    r'.vars.capText cap = r.vars.capText cap := by
  rw [h.vars]
  rfl

/-- One pass over the replacement expands the references to one group. -/
theorem refs_pass (hexact : ∀ ticks, (after job ticks).Exact job s) (n : Nat) (ticks : List Unit)
    (r : Refs) (front rest : Str) (hn : rest.length < n) (hr : after job ticks = .refs r)
    (hfin : ¬r.Finished) (hcursor : Cursor r.nbuf SLRE_PATSZ r.np front rest)
    (hnlen : r.vars.nlen = (front ++ rest).length) :
    ∃ more r', after job (ticks ++ more) = .refs r' ∧ SameRound r r' ∧ r'.i = r.i + 1 ∧
      Cursor r'.nbuf SLRE_PATSZ r'.np []
        (front ++ expandRef r.i (r.vars.capText (r.cap r.i)) rest) ∧
      r'.vars.nlen = (front ++ expandRef r.i (r.vars.capText (r.cap r.i)) rest).length := by
  induction n generalizing ticks r front rest with
  | zero => omega
  | succ n ih =>
    have hstep : after job (ticks ++ [()]) = refStep r := by
      rw [after_concat, hr]
      exact if_neg hfin
    rw [List.length_append] at hnlen
    by_cases hmatch : r.refCall.match = none
    · -- no reference is left
      have hnone : ∀ before after, rest ≠ before ++ backref r.i ++ after := by
        rintro before after rfl
        refine memstr_none hmatch before.length ?_ ?_
        · change before.length + (backref r.i).length ≤ r.vars.nlen
          rw [hnlen, List.length_append, List.length_append]
          omega
        · rw [Ptr.add_add]
          exact hcursor.rest_holds.parts.2.1
      rw [refStep, if_pos hmatch] at hstep
      rw [expandRef_eq_self hnone]
      exact ⟨[()], _, hstep, ⟨rfl, rfl⟩, rfl, hcursor.rewind, by rw [hnlen, List.length_append]⟩
    · have hcall : (after job ticks).call = some r.refCall := by
        rw [hr]
        exact (if_neg hfin).trans (if_neg hmatch)
      obtain ⟨hover, text, htext, hbounded⟩ := (hexact ticks).1 _ hcall
      obtain rfl := hcursor.rest_holds.unique htext
      obtain ⟨p, hp⟩ := Option.ne_none_iff_exists'.mp hmatch
      obtain ⟨res, hres⟩ := substitute_some hp hover
      obtain ⟨before, post, hmatch', rfl, hslen, hnext⟩ := hcursor.substitute hbounded hres
      rw [refStep, if_neg hmatch, hres] at hstep
      set r' : Refs :=
        { r with vars := { r.vars with nlen := res.slen }, nbuf := res.mem, np := res.next }
      have hsame : SameRound r r' := ⟨rfl, rfl⟩
      have hfirst : ∀ pre post', before ++ backref r.i ++ post = pre ++ backref r.i ++ post' →
          before.length ≤ pre.length := by
        intro pre post' heq
        by_contra hlt
        refine (memstr_some hmatch').2.2 pre.length (by omega) ?_
        have hholds := hcursor.rest_holds
        change Holds _ _ _ (before ++ backref r.i ++ post) at hholds
        rw [heq] at hholds
        rw [Ptr.add_add]
        exact hholds.parts.2.1
      have hexpand := @expandRef_split r.i (r.vars.capText (r.cap r.i)) before post hfirst
      have hnlen' : r'.vars.nlen =
          ((front ++ before ++ r.vars.capText (r.cap r.i)) ++ post).length := by
        change res.slen = _
        rw [hslen]
        change r.vars.nlen + (r.vars.capText (r.cap r.i)).length - (backref r.i).length = _
        simp only [hnlen, List.length_append]
        change _ + (_ + (backref r.i).length + _) + _ - (backref r.i).length = _
        omega
      have hshort : post.length < n := by
        have : 0 < r.refCall.old.length := Nat.zero_lt_succ _
        simp only [List.length_append] at hn
        omega
      obtain ⟨more, r'', hr'', hsame', hi, hcursor', hlen'⟩ :=
        ih _ r' _ post hshort hstep hfin hnext hnlen'
      change after job (ticks ++ [()] ++ more) = _ at hr''
      rw [List.append_assoc] at hr''
      have htarget : front ++ expandRef r.i (r.vars.capText (r.cap r.i))
            (before ++ r.refCall.old ++ post) =
          front ++ before ++ r.vars.capText (r.cap r.i) ++
            expandRef r.i (r.vars.capText (r.cap r.i)) post := by
        change front ++ expandRef r.i _ (before ++ backref r.i ++ post) = _
        rw [hexpand]
        simp only [List.append_assoc]
      rw [htarget]
      exact ⟨[()] ++ more, r'', hr'', hsame.trans hsame', hi, hcursor', hlen'⟩

/-- What the groups of a round have matched. -/
def Refs.groups (r : Refs) : List Str := (r.caps.map r.vars.capText).take 10

theorem SameRound.groups {r r' : Refs} (h : SameRound r r') : r'.groups = r.groups := by
  rw [Refs.groups, Refs.groups, h.caps]
  exact congrArg (List.take 10) (List.map_congr_left fun cap _ => h.capText cap)

theorem lt_length_of_not_finished {r : Refs} (h : ¬r.Finished) : r.i < r.caps.length := by
  by_contra hge
  refine h (Or.inr ?_)
  rw [Refs.cap, List.getD_eq_default _ _ (not_lt.mp hge)]

theorem groups_drop {r : Refs} (hfin : ¬r.Finished) (hi : r.i ≤ 10) :
    r.groups.drop r.i = r.vars.capText (r.cap r.i) :: r.groups.drop (r.i + 1) := by
  have hlt := lt_length_of_not_finished hfin
  have hten : r.i ≠ 10 := fun heq => hfin (Or.inl heq)
  have hlen : r.i < r.groups.length := by
    rw [Refs.groups, List.length_take, List.length_map]
    omega
  rw [List.drop_eq_getElem_cons hlen]
  congr 1
  simp only [Refs.groups, List.getElem_take, List.getElem_map, Refs.cap, List.getD_eq_getElem _ _ hlt]

/-- The passes up to the end of the loop over the groups. -/
theorem refs_run (hexact : ∀ ticks, (after job ticks).Exact job s) (d : Nat) (ticks : List Unit)
    (r : Refs) (text : Str) (hd : 10 - r.i < d) (hi : r.i ≤ 10) (hr : after job ticks = .refs r)
    (hcursor : Cursor r.nbuf SLRE_PATSZ r.np [] text) (hnlen : r.vars.nlen = text.length) :
    ∃ more r' text', after job (ticks ++ more) = .refs r' ∧ SameRound r r' ∧ r'.Finished ∧
      Cursor r'.nbuf SLRE_PATSZ r'.np [] text' ∧ r'.vars.nlen = text'.length ∧
      expandRefs r.i (r.groups.drop r.i) text = text' := by
  induction d generalizing ticks r text with
  | zero => omega
  | succ d ih =>
    by_cases hfin : r.Finished
    · refine ⟨[], r, text, by rwa [List.append_nil], .refl r, hfin, hcursor, hnlen, ?_⟩
      have hexpanded : MatchExact r := by
        have hmatch := (hexact ticks).2
        rw [hr] at hmatch
        exact hmatch hfin
      apply expandRefs_eq_self
      intro j hj hlt before after
      have hlen : r.groups.length = min 10 r.caps.length := by
        rw [Refs.groups, List.length_take, List.length_map]
      rw [List.length_drop, hlen] at hlt
      exact hexpanded.expanded text hcursor.rest_holds j hj (by omega) (by omega) before after
    · have hten : r.i ≠ 10 := fun heq => hfin (Or.inl heq)
      obtain ⟨more, r', hr', hsame, hi', hcursor', hnlen'⟩ :=
        refs_pass hexact _ ticks r [] text (Nat.lt_succ_self _) hr hfin hcursor hnlen
      obtain ⟨more', r'', text', hr'', hsame', hfin', hcursor'', hnlen'', hexpand⟩ :=
        ih _ r' _ (by omega) (by omega) hr' hcursor' hnlen'
      rw [List.append_assoc] at hr''
      refine ⟨more ++ more', r'', text', hr'', hsame.trans hsame', hfin', hcursor'', hnlen'', ?_⟩
      rw [groups_drop hfin hi, expandRefs, ← hexpand, hi', hsame.groups]
      rfl

theorem capText_eq {v : Vars} {rest : Str} {cap : Cap}
    (hholds : Holds v.data SLRE_BUFSZ v.datap rest) (hinside : cap.ptr + cap.len ≤ rest.length) :
    v.capText cap = capture rest cap := by
  have hbytes := (v.data.add v.datap).bytes_add_eq
    (show cap.ptr + cap.len ≤ rest.length + 1 by omega)
  rw [hholds.bytes, Ptr.add_add, List.drop_append_of_le_length (by omega),
    List.take_append_of_le_length (by rw [List.length_drop]; omega)] at hbytes
  exact hbytes

theorem search_round (hexact : ∀ ticks, (after job ticks).Exact job s)
    (hcaps : Captures job.slreMatch) (hs : job.s = some s) (hglob : job.glob = true)
    (hfits : s.length + 1 < SLRE_PATSZ) {ticks : List Unit} {v : Vars} {front rest : Str}
    (hv : after job ticks = .search v) (hcursor : Cursor v.data SLRE_BUFSZ v.datap front rest)
    {caps : List Cap} (hmatch : job.slreMatch rest = some caps) :
    ∃ more v' cap others before found post, after job (ticks ++ more) = .search v' ∧
      v'.loop ≠ 0 ∧ caps = cap :: others ∧ rest = before ++ found ++ post ∧
      cap.ptr = before.length ∧ cap.len = found.length ∧ found ≠ [] ∧
      Cursor v'.data SLRE_BUFSZ v'.datap
        (front ++ before ++ expandRefs 0 (groups rest caps) s) post := by
  obtain ⟨cap, others, rfl⟩ := List.exists_cons_of_ne_nil (hcaps.whole _ _ hmatch)
  have hinside := hcaps.inside _ _ hmatch
  have hsearch : SearchExact job s v := by
    have hall := (hexact ticks).2
    rwa [hv] at hall
  obtain ⟨hwindow, hnlen⟩ := hsearch rest hcursor.rest_holds
  have hnlen : v.nlen = s.length := hnlen (by rw [hmatch]; exact Option.some_ne_none _)
  let r : Refs := ⟨v, cap :: others, 0, strcpy (job.junk v.loop) s, 0⟩
  have hr : after job (ticks ++ [()]) = .refs r := by
    rw [after_concat, hv]
    change searchStep job v = _
    rw [searchStep, hwindow, hmatch]
    simp only [hs]
    rw [if_neg (by omega)]
  have hnbuf : Cursor r.nbuf SLRE_PATSZ r.np [] s :=
    cursor_strcpy _ (job.s_noNul s hs) (by omega)
  obtain ⟨more, r', text, hr', hsame, hfin, hcursor', hnlen', hexpand⟩ :=
    refs_run hexact 11 _ r s (Nat.lt_succ_self 10) (Nat.zero_le 10) hr hnbuf hnlen
  have hgroups : r.groups.drop r.i = groups rest (cap :: others) := by
    rw [List.drop_zero, Refs.groups, groups]
    exact congrArg (List.take 10) (List.map_congr_left fun c hc =>
      capText_eq hcursor.rest_holds (hinside c hc))
  rw [hgroups] at hexpand
  obtain ⟨hfit, hexact'⟩ := hexact (ticks ++ [()] ++ more)
  rw [hr'] at hfit hexact'
  have hmatchExact : MatchExact r' := hexact' hfin
  obtain ⟨hover, text', htext', hbounded⟩ := hfit r'.dataCall (if_pos hfin)
  have hdata : Cursor r'.dataCall.mem r'.dataCall.ssize r'.dataCall.string front rest := by
    change Cursor r'.vars.data SLRE_BUFSZ r'.vars.datap front rest
    rw [hsame.vars]
    exact hcursor
  obtain rfl := hdata.rest_holds.unique htext'
  obtain ⟨res, hres⟩ := substitute_some hmatchExact.first hover
  obtain ⟨before, post, hbefore, hsplit, -, hnext⟩ := hdata.substitute hbounded hres
  have hcap : r'.cap 0 = cap := hsame.cap 0
  have hfirst := Option.some.inj (hbefore.symm.trans hmatchExact.first)
  have hlen : cap.len = r'.dataCall.old.length := by
    change _ = (r'.vars.capText (r'.cap 0)).length
    rw [hcap, Vars.capText, Ptr.length_bytes]
  have hnew : r'.dataCall.new = text := by
    change r'.nbuf.bytes r'.vars.nlen = text
    have hbytes := hcursor'.rewind.front_bytes
    have hall := hcursor'.holds.bytes
    rw [List.nil_append, Ptr.add_zero, Ptr.bytes_succ] at hall
    rw [hnlen']
    exact (List.append_inj' hall rfl).1
  have hlast : after job (ticks ++ [()] ++ more ++ [()]) = .search { r'.vars with
      loop := r'.vars.loop + 1, data := res.mem, datap := res.next, len := res.slen } := by
    rw [after_concat, hr']
    change (if r'.Finished then dataStep job r' else refStep r') = _
    rw [if_pos hfin, dataStep, hres]
    exact if_pos hglob
  simp only [List.append_assoc] at hlast
  refine ⟨[()] ++ (more ++ [()]), _, cap, others, before, r'.dataCall.old, post, hlast,
    Nat.succ_ne_zero _, rfl, hsplit, ?_, hlen, ?_, ?_⟩
  · rw [hfirst, hcap]
  · intro hnil
    rw [hnil] at hlen
    exact hmatchExact.nonempty (by rw [hcap]; exact hlen)
  · rw [hnew] at hnext
    rw [hexpand]
    exact hnext

/-- The rounds replace one match after another until there is none. -/
theorem search_run (hexact : ∀ ticks, (after job ticks).Exact job s)
    (hcaps : Captures job.slreMatch) (hs : job.s = some s) (hglob : job.glob = true)
    (hfits : s.length + 1 < SLRE_PATSZ) (n : Nat) (ticks : List Unit) (v : Vars)
    (front rest : Str) (hn : rest.length < n) (hv : after job ticks = .search v)
    (hcursor : Cursor v.data SLRE_BUFSZ v.datap front rest)
    (hloop : v.loop ≠ 0 ∨ job.slreMatch rest ≠ none) :
    ∃ more data out, after job (ticks ++ more) = .stored data ∧
      Gsub job.slreMatch s rest out ∧ Holds data SLRE_BUFSZ 0 (front ++ out) := by
  induction n generalizing ticks v front rest with
  | zero => omega
  | succ n ih =>
    cases hmatch : job.slreMatch rest with
    | none =>
      have hsearch : SearchExact job s v := by
        have hall := (hexact ticks).2
        rwa [hv] at hall
      have hloop : v.loop ≠ 0 := hloop.resolve_right fun hne => hne hmatch
      refine ⟨[()], v.data, rest, ?_, .done hmatch, hcursor.holds⟩
      rw [after_concat, hv]
      change searchStep job v = _
      rw [searchStep, (hsearch rest hcursor.rest_holds).1, hmatch]
      exact if_neg hloop
    | some caps =>
      obtain ⟨more, v', cap, others, before, found, post, hv', hloop', rfl, rfl, hptr, hlen, hne,
        hcursor'⟩ := search_round hexact hcaps hs hglob hfits hv hcursor hmatch
      have hfound : 0 < found.length := List.length_pos_iff.mpr hne
      have hshort : post.length < n := by
        simp only [List.length_append] at hn
        omega
      obtain ⟨more', data, out, hend, hgsub, hholds⟩ :=
        ih _ v' _ post hshort hv' hcursor' (Or.inl hloop')
      rw [List.append_assoc] at hend
      refine ⟨more ++ more', data, _, hend, .replace hmatch hptr hlen hne hgsub, ?_⟩
      simpa only [List.append_assoc] using hholds

end Round

/-- In a run whose states all meet the condition, `gsub` ends and replaces all matches. -/
theorem gsub_yields (job : Job) (s : Str) (hcaps : Captures job.slreMatch) (hs : job.s = some s)
    (hglob : job.glob = true) (ht : job.t.length + 1 ≤ SLRE_BUFSZ)
    (hfits : s.length + 1 < SLRE_PATSZ) (hexact : ∀ ticks, (after job ticks).Exact job s) :
    Yields job s := by
  have hbounded : ∀ ticks, (after job ticks).Bounded := fun ticks c hc => ((hexact ticks).1 c hc).2
  have hstart : after job [] = .search {
      loop := 0, data := strcpy job.stack job.t, datap := 0, len := job.t.length,
      nlen := (job.s.map List.length).getD 0 } := if_neg (not_lt.mpr ht)
  have hcursor := cursor_strcpy job.stack job.t_noNul (show job.t.length < SLRE_BUFSZ from ht)
  refine ⟨fun ticks c hc => ?_, fun hnone => ⟨[()], ?_⟩, fun hsome => ?_⟩
  · obtain ⟨text, htext, hcall⟩ := hbounded ticks c hc
    exact (safe_iff htext).mpr hcall
  · have hsearch := (hexact []).2
    rw [hstart] at hsearch
    rw [← List.nil_append [()], after_concat, hstart]
    change searchStep job _ = _
    rw [searchStep, (hsearch job.t hcursor.rest_holds).1, hnone]
    rfl
  · obtain ⟨more, data, out, hend, hgsub, hholds⟩ := search_run hexact hcaps hs hglob hfits _ [] _ []
      job.t (Nat.lt_succ_self _) hstart hcursor (Or.inr hsome)
    exact ⟨more, data, out, hend, hgsub, hholds⟩

theorem run_stored (job : Job) (data : Ptr) (ticks : List Unit) :
    run (fun s () => step job s) (.stored data) ticks = .stored data := by
  induction ticks with
  | nil => rfl
  | cons u ticks ih => exact ih

/-- `setexpr name gsub a x aba` -/
def replaced : Job :=
  { doubled with s := some [120], t := [97, 98, 97], s_noNul := by simp, t_noNul := by decide }

theorem captures_doubled : Captures doubled.slreMatch := by
  constructor
  · intro text caps h
    change (if 97 ∈ text then _ else _) = _ at h
    split_ifs at h
    rw [← Option.some.inj h]
    exact List.cons_ne_nil _ _
  · intro text caps h cap hcap
    change (if 97 ∈ text then _ else _) = _ at h
    split_ifs at h with hmem
    rw [← Option.some.inj h, List.mem_singleton] at hcap
    rw [hcap]
    exact List.idxOf_lt_length_iff.mpr hmem

theorem exact_refs {job : Job} {s text : Str} {r : Refs} {p : Nat} (hfin : r.Finished)
    (hover : ¬r.dataCall.Overflow) (hdata : Holds r.dataCall.mem r.dataCall.ssize r.dataCall.string text)
    (hmatch : r.dataCall.match = some p) (hbounded : p + r.dataCall.old.length ≤ text.length ∧
      (r.dataCall.string = 0 ∨ r.dataCall.old.length = r.dataCall.new.length) ∧
      r.dataCall.string + text.length + r.dataCall.new.length <
        r.dataCall.ssize + r.dataCall.old.length ∧ 0 ∉ r.dataCall.new)
    (hcap : (r.cap 0).len ≠ 0 ∧ (r.cap 0).ptr = p) (hlast : r.caps.length ≤ r.i) :
    (State.refs r).Exact job s := by
  refine ⟨fun c hc => ?_, fun _ => ⟨hcap.1, by rw [hcap.2, hmatch], fun _ _ i hi _ hlt => ?_⟩⟩
  · rw [State.call, if_pos hfin, Option.some.injEq] at hc
    subst hc
    refine ⟨hover, text, hdata, ?_⟩
    rw [Call.Bounded, hmatch]
    exact (if_neg hover).mpr hbounded
  · exact absurd hlt (Nat.not_lt.mpr (Nat.le_trans hlast hi))

theorem exact_search {job : Job} {s text : Str} {v : Vars}
    (hdata : Holds v.data SLRE_BUFSZ v.datap text)
    (hmatch : job.slreMatch ((v.data.add v.datap).bytes v.len) = job.slreMatch text)
    (hlen : v.nlen = s.length) : (State.search v).Exact job s := by
  refine ⟨fun c hc => (nomatch hc), fun text' htext' => ?_⟩
  obtain rfl := hdata.unique htext'
  exact ⟨hmatch, fun _ => hlen⟩

theorem replaced_exact (ticks : List Unit) : (after replaced ticks).Exact replaced [120] := by
  have hnone : ∀ {st : State}, st.call.isNone = true → st.Fits := fun h c hc => by
    rw [hc] at h
    cases h
  rcases ticks with
    _ | ⟨⟨⟩, _ | ⟨⟨⟩, _ | ⟨⟨⟩, _ | ⟨⟨⟩, _ | ⟨⟨⟩, _ | ⟨⟨⟩, _ | ⟨⟨⟩, ticks⟩⟩⟩⟩⟩⟩⟩
  · exact @exact_search _ _ [97, 98, 97] _ ⟨by decide, by decide, by decide⟩ (by decide) rfl
  · exact ⟨hnone (by decide), fun hfin => absurd hfin (by decide)⟩
  · exact @exact_refs _ _ [97, 98, 97] _ 0 (by decide) (by decide) ⟨by decide, by decide, by decide⟩
      (by decide) (by decide) (by decide) (by decide)
  · exact @exact_search _ _ [98, 97] _ ⟨by decide, by decide, by decide⟩ (by decide) rfl
  · exact ⟨hnone (by decide), fun hfin => absurd hfin (by decide)⟩
  · exact @exact_refs _ _ [98, 97] _ 1 (by decide) (by decide) ⟨by decide, by decide, by decide⟩
      (by decide) (by decide) (by decide) (by decide)
  · exact @exact_search _ _ [] _ ⟨by decide, by decide, by decide⟩ (by decide) rfl
  · obtain ⟨data, hend⟩ : ∃ data, after replaced (List.replicate 7 ()) = .stored data := ⟨_, rfl⟩
    have hrun := run_append (fun s () => step replaced s) (start replaced) (List.replicate 7 ()) ticks
    change after replaced (() :: () :: () :: () :: () :: () :: () :: ticks) =
      run _ (after replaced _) _ at hrun
    rw [hend, run_stored] at hrun
    rw [hrun]
    exact ⟨hnone rfl, trivial⟩

theorem gsub_yields_replaced :
    Captures replaced.slreMatch ∧ replaced.t.length + 1 ≤ SLRE_BUFSZ ∧
      (∀ ticks, (after replaced ticks).Exact replaced [120]) ∧ Yields replaced [120] :=
  ⟨captures_doubled, by decide, replaced_exact,
    gsub_yields replaced [120] captures_doubled rfl rfl (by decide) (by decide) replaced_exact⟩

/-- `setexpr name gsub a$ b aa` -/
def lastOnly : Job := { doubled with
  slreMatch := fun text =>
    if text.getLast? = some 97 then some [⟨text.length - 1, 1⟩] else none
  s := some [98]
  s_noNul := by simp }

theorem captures_lastOnly : Captures lastOnly.slreMatch := by
  constructor
  · intro text caps h
    change (if text.getLast? = some 97 then _ else _) = _ at h
    split_ifs at h
    rw [← Option.some.inj h]
    exact List.cons_ne_nil _ _
  · intro text caps h cap hcap
    change (if text.getLast? = some 97 then _ else _) = _ at h
    split_ifs at h with hlast
    rw [← Option.some.inj h, List.mem_singleton] at hcap
    have hpos : 0 < text.length := by
      cases text with
      | nil => cases hlast
      | cons c text => exact Nat.succ_pos _
    rw [hcap]
    exact (Nat.sub_add_cancel hpos).le

/-- Steps in any number and the other steps behind them come to the same. -/
theorem stored_unique {job : Job} {ticks ticks' : List Unit} {data data' : Ptr}
    (h : after job ticks = .stored data) (h' : after job ticks' = .stored data') : data = data' := by
  have hcomm : ticks ++ ticks' = ticks' ++ ticks :=
    List.ext_getElem (by rw [List.length_append, List.length_append, Nat.add_comm]) fun _ _ _ => rfl
  have hrun := run_append (fun s () => step job s) (start job) ticks ticks'
  rw [hcomm, run_append] at hrun
  change run _ (after job ticks') _ = run _ (after job ticks) _ at hrun
  rw [h, h', run_stored, run_stored] at hrun
  exact (State.stored.inj hrun).symm

/-- The second `a` matches; `memstr` finds the first one. -/
theorem not_gsub_yields : ¬∀ (job : Job) (s : Str), Captures job.slreMatch → job.s = some s →
    job.glob = true → job.t.length + 1 ≤ SLRE_BUFSZ → s.length + 1 < SLRE_PATSZ → Yields job s := by
  intro h
  obtain ⟨ticks, data, out, hend, hgsub, hholds⟩ :=
    (h lastOnly [98] captures_lastOnly rfl rfl (by decide) (by decide)).stored (by decide)
  obtain ⟨data', hend'⟩ : ∃ data, after lastOnly [(), (), (), ()] = .stored data := ⟨_, rfl⟩
  have hfirst : (match after lastOnly [(), (), (), ()] with
      | .stored data => some (data 0)
      | _ => none) = some 98 := by decide
  rw [hend'] at hfirst
  have hfirst := Option.some.inj hfirst
  obtain rfl := stored_unique hend hend'
  have hmatch : lastOnly.slreMatch [97, 97] = some [⟨1, 1⟩] := by decide
  obtain ⟨more, hout⟩ : ∃ more, out = 97 :: more := by
    change Gsub lastOnly.slreMatch [98] [97, 97] out at hgsub
    generalize htext : ([97, 97] : Str) = text at hgsub hmatch
    cases hgsub with
    | done hnone => rw [hmatch] at hnone; cases hnone
    | @replace before found rest out cap caps hmatch' hptr hlen hne hrest =>
      rw [hmatch] at hmatch'
      obtain ⟨rfl, rfl⟩ := List.cons.inj (Option.some.inj hmatch')
      cases before with
      | nil => cases hptr
      | cons c before =>
        obtain ⟨rfl, -⟩ := List.cons.inj htext
        exact ⟨_, rfl⟩
    | @empty before rest out c cap caps hmatch' hptr hlen hrest =>
      rw [hmatch] at hmatch'
      obtain ⟨rfl, rfl⟩ := List.cons.inj (Option.some.inj hmatch')
      cases hlen
    | last hmatch' hptr hlen =>
      rw [hmatch] at hmatch'
      obtain ⟨rfl, rfl⟩ := List.cons.inj (Option.some.inj hmatch')
      cases hlen
  have hbytes := hholds.bytes
  rw [hout, Ptr.add_zero, List.length_cons, Nat.add_comm, Ptr.bytes_add] at hbytes
  have hhead : data 0 = 97 := (List.cons.inj hbytes).1
  rw [hhead] at hfirst
  exact absurd hfirst (by decide)

end UBoot.Setexpr
