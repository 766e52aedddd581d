import UBoot.Net.Defrag.Basic
import UBoot.Verification.LinkedList

/-!
# The list of holes

What the four updates of the hole list do, as long as the descriptors in the
buffer form a linked list. The list is seen as the pairs of an index and the end
of the hole. Since index 0 also stands for "none", an update of the second hole
takes that hole for the first one while there is a hole at index 0.
-/

namespace UBoot.Net

open Verification

/-! ### Reading what was written -/

theorem le16_putLe16 (p : Ptr) (pos : Nat) {value : Nat} (h : value < 65536) :
    le16 (putLe16 p pos value) pos = value := by
  simp only [le16, putLe16, if_true, Nat.succ_ne_self, if_false, UInt8.toNat_ofNat']
  omega

theorem le16_congr {p p' : Ptr} {pos : Nat} (h0 : p' pos = p pos) (h1 : p' (pos + 1) = p (pos + 1)) :
    le16 p' pos = le16 p pos := by
  rw [le16, le16, h0, h1]

theorem putLe16_of_ne (p : Ptr) {pos q : Nat} (value : Nat) (h : q < pos ∨ pos + 2 ≤ q) :
    putLe16 p pos value q = p q := by
  rw [putLe16, if_neg (by omega), if_neg (by omega)]

theorem putBe16_of_ne (p : Ptr) {pos q : Nat} (value : Nat) (h : q < pos ∨ pos + 2 ≤ q) :
    putBe16 p pos value q = p q := by
  rw [putBe16, if_neg (by omega), if_neg (by omega)]

theorem le16_putLe16_of_ne (p : Ptr) {pos q : Nat} (value : Nat) (h : q + 2 ≤ pos ∨ pos + 2 ≤ q) :
    le16 (putLe16 p pos value) q = le16 p q :=
  le16_congr (putLe16_of_ne p value (by omega)) (putLe16_of_ne p value (by omega))

theorem memcpy_of_ne (p src : Ptr) {pos n q : Nat} (h : q < pos ∨ pos + n ≤ q) :
    memcpy p pos src n q = p q := by
  rw [memcpy, if_neg (by omega)]

theorem memcpy_at (p src : Ptr) (pos : Nat) {n k : Nat} (h : k < n) :
    memcpy p pos src n (pos + k) = src k := by
  rw [memcpy, if_pos (by omega), Nat.add_sub_cancel_left]

/-! ### Descriptors as nodes -/

/-- The descriptors of the buffer. -/
def links (buff : Ptr) (i : Nat) : Node Nat :=
  ⟨(holeAt buff i).lastByte, (holeAt buff i).nextHole, (holeAt buff i).prevHole⟩

/-- The position is not in the descriptor. -/
def OutsideHole (i q : Nat) : Prop := q < holePos i ∨ holePos i + 8 ≤ q

theorem links_congr {buff buff' : Ptr} {i : Nat}
    (h : ∀ k < 6, buff' (holePos i + k) = buff (holePos i + k)) :
    links buff' i = links buff i := by
  have h0 : buff' (holePos i) = buff (holePos i) := h 0 (by omega)
  have h1 := h 1 (by omega)
  have h2 := h 2 (by omega)
  have h3 := h 3 (by omega)
  have h4 := h 4 (by omega)
  have h5 := h 5 (by omega)
  simp only [links, holeAt, le16_congr h0 h1, le16_congr h2 h3, le16_congr h4 h5]

/-- Storing to one descriptor leaves the others alone. -/
theorem links_of_outside {buff buff' : Ptr} {i j : Nat} (hij : j ≠ i)
    (h : ∀ q, OutsideHole i q → buff' q = buff q) : links buff' j = links buff j :=
  links_congr fun k hk => h _ (by simp only [OutsideHole, holePos]; omega)

/-- What a write to `payload[i]` does: one node changes. -/
structure Writes (buff : Ptr) (i : Nat) (node : Node Nat) (buff' : Ptr) : Prop where
  links : links buff' = Function.update (links buff) i node
  outside : ∀ q, OutsideHole i q → buff' q = buff q

theorem Writes.of_node {buff buff' : Ptr} {i : Nat} {node : Node Nat}
    (hnode : Net.links buff' i = node) (h : ∀ q, OutsideHole i q → buff' q = buff q) :
    Writes buff i node buff' := by
  refine ⟨funext fun j => ?_, h⟩
  by_cases hij : j = i
  · subst hij
    rw [Function.update_self, hnode]
  · rw [Function.update_of_ne hij, links_of_outside hij h]

section Fields

variable (buff : Ptr) {i value : Nat} (hi : Fits i) (hvalue : value < 65536)

include hi hvalue

theorem setLastByte_spec : ∃ buff', setLastByte buff i value = some buff' ∧
    Writes buff i { links buff i with value := value } buff' := by
  refine ⟨_, if_pos hi, .of_node ?_ fun q hq => putLe16_of_ne _ _ ?_⟩
  · simp only [links, holeAt, Nat.add_zero, le16_putLe16 _ _ hvalue]
    rw [le16_putLe16_of_ne _ _ (by omega), le16_putLe16_of_ne _ _ (by omega)]
  · simp only [OutsideHole] at hq
    omega

theorem setNextHole_spec : ∃ buff', setNextHole buff i value = some buff' ∧
    Writes buff i { links buff i with next := value } buff' := by
  refine ⟨_, if_pos hi, .of_node ?_ fun q hq => putLe16_of_ne _ _ ?_⟩
  · simp only [links, holeAt, le16_putLe16 _ _ hvalue]
    rw [le16_putLe16_of_ne _ _ (by omega), le16_putLe16_of_ne _ _ (by omega)]
  · simp only [OutsideHole] at hq
    omega

theorem setPrevHole_spec : ∃ buff', setPrevHole buff i value = some buff' ∧
    Writes buff i { links buff i with prev := value } buff' := by
  refine ⟨_, if_pos hi, .of_node ?_ fun q hq => putLe16_of_ne _ _ ?_⟩
  · simp only [links, holeAt, le16_putLe16 _ _ hvalue]
    rw [le16_putLe16_of_ne _ _ (by omega), le16_putLe16_of_ne _ _ (by omega)]
  · simp only [OutsideHole] at hq
    omega

end Fields

theorem copyHole_spec (buff : Ptr) {newh h : Nat} (hnew : Fits newh) (hh : Fits h) :
    ∃ buff', copyHole buff newh h = some buff' ∧ Writes buff newh (links buff h) buff' := by
  refine ⟨_, if_pos ⟨hnew, hh⟩, .of_node ?_ fun q hq => memcpy_of_ne _ _ hq⟩
  have hcopy : ∀ k < 8, memcpy buff (holePos newh) (buff.add (holePos h)) 8 (holePos newh + k) =
      buff (holePos h + k) := fun k hk => memcpy_at _ _ _ hk
  have hle : ∀ k < 7, le16 (memcpy buff (holePos newh) (buff.add (holePos h)) 8)
      (holePos newh + k) = le16 buff (holePos h + k) := by
    intro k hk
    rw [le16, le16, Nat.add_assoc, Nat.add_assoc, hcopy k (by omega), hcopy (k + 1) (by omega)]
  have h0 := hle 0 (by omega)
  simp only [Nat.add_zero] at h0
  simp only [links, holeAt, h0, hle 2 (by omega), hle 4 (by omega)]

/-! ### The list in the buffer -/

/-- The descriptors form a list of holes with these indices and ends. -/
structure Holes (s : Reasm) (L : List (Nat × Nat)) : Prop where
  segment : Segment (links s.pktBuff) 0 L 0
  first : s.firstHole = headIndex L 0
  fits : ∀ x ∈ L, Fits x.1
  sorted : L.Pairwise fun x y => x.1 < y.1

/-- The position is in none of the descriptors. -/
def Outside (L : List (Nat × Nat)) (q : Nat) : Prop := ∀ x ∈ L, OutsideHole x.1 q

/-- The holes before a hole whose `prev_hole` is looked at: a hole at index 0 is
not seen. -/
def seenBefore (pre : List (Nat × Nat)) : List (Nat × Nat) :=
  if lastIndex 0 pre = 0 then [] else pre

theorem seenBefore_of_ne {pre : List (Nat × Nat)} (hpre : lastIndex 0 pre ≠ 0) :
    seenBefore pre = pre := if_neg hpre

theorem seenBefore_of_eq {pre : List (Nat × Nat)} (hpre : lastIndex 0 pre = 0) :
    seenBefore pre = [] := if_pos hpre

theorem seenBefore_sublist (pre : List (Nat × Nat)) : (seenBefore pre).Sublist pre := by
  rw [seenBefore]
  split
  · exact List.nil_sublist _
  · exact List.Sublist.refl _

/-- The list after a fragment of `len` bytes from block `offset8` on was put into
the hole between `pre` and `post`. -/
def fill (pre : List (Nat × Nat)) (x : Nat × Nat) (post : List (Nat × Nat)) (offset8 len : Nat) :
    List (Nat × Nat) :=
  if offset8 ≤ x.1 ∧ x.2 ≤ offset8 * 8 + len then seenBefore pre ++ post
  else if x.2 ≤ offset8 * 8 + len then pre ++ (x.1, offset8 * 8) :: post
  else if offset8 ≤ x.1 then seenBefore pre ++ (offset8 + len / 8, x.2) :: post
  else pre ++ (x.1, offset8 * 8) :: (offset8 + len / 8, x.2) :: post

/-- A new descriptor has a place of its own. -/
def NewFits (x : Nat × Nat) (post : List (Nat × Nat)) (offset8 len : Nat) : Prop :=
  offset8 * 8 + len < x.2 → Fits (offset8 + len / 8) ∧ x.1 < offset8 + len / 8 ∧
    ∀ y ∈ post, offset8 + len / 8 < y.1

theorem Fits.lt {i : Nat} (h : Fits i) : i < 65536 := by
  simp only [Fits, holePos, IP_HDR_SIZE, IP_PKTSIZE, CONFIG_NET_MAXDEFRAG] at h
  omega

namespace Holes

variable {s : Reasm} {L pre post : List (Nat × Nat)} {x : Nat × Nat}

theorem readHole_eq (h : Holes s (pre ++ x :: post)) :
    readHole s.pktBuff x.1 = some ⟨x.2, headIndex post 0, lastIndex 0 pre⟩ := by
  have hnode := h.segment.at_middle
  simp only [links, Node.mk.injEq] at hnode
  rw [readHole, if_pos (h.fits x (by simp))]
  obtain ⟨h1, h2, h3⟩ := hnode
  rw [← h1, ← h2, ← h3]

theorem before_lt (h : Holes s (pre ++ x :: post)) : ∀ y ∈ pre, y.1 < x.1 :=
  fun y hy => (List.pairwise_append.mp h.sorted).2.2 y hy x List.mem_cons_self

theorem lt_after (h : Holes s (pre ++ x :: post)) : ∀ y ∈ post, x.1 < y.1 :=
  (List.pairwise_cons.mp (List.pairwise_append.mp h.sorted).2.1).1

theorem headIndex_post_eq_zero (h : Holes s (pre ++ x :: post)) :
    headIndex post 0 = 0 ↔ post = [] := by
  cases post with
  | nil => simp
  | cons z post =>
    have := h.lt_after z List.mem_cons_self
    simp only [headIndex_cons, reduceCtorEq, iff_false]
    omega

/-- Give the holes before another successor. -/
theorem set_next_before {store : Nat → Node Nat} {next : Nat} (h : Segment store 0 pre next)
    (hsorted : pre.Pairwise fun x y => x.1 < y.1) (hpre : lastIndex 0 pre ≠ 0) (next' : Nat) :
    Segment (Function.update store (lastIndex 0 pre)
      { store (lastIndex 0 pre) with next := next' }) 0 pre next' := by
  obtain ⟨M, y, rfl⟩ := (List.eq_nil_or_concat pre).resolve_left (by rintro rfl; exact hpre rfl)
  rw [List.concat_eq_append] at h hsorted ⊢
  simp only [lastIndex_append, lastIndex_cons, lastIndex_nil]
  exact h.set_next (fun z hz => Nat.ne_of_lt ((List.pairwise_append.mp hsorted).2.2 z hz y (by simp)))
    next'

/-- Give the holes behind another predecessor. -/
theorem set_prev_after {store : Nat → Node Nat} {prev : Nat} {z : Nat × Nat}
    (h : Segment store prev (z :: post) 0)
    (hsorted : (z :: post).Pairwise fun x y => x.1 < y.1) (prev' : Nat) :
    Segment (Function.update store z.1 { store z.1 with prev := prev' }) prev' (z :: post) 0 :=
  h.set_prev (fun y hy => Nat.ne_of_gt ((List.pairwise_cons.mp hsorted).1 y hy)) prev'

/-- The parts of a list around one hole. -/
structure Around (s : Reasm) (pre : List (Nat × Nat)) (x : Nat × Nat) (post : List (Nat × Nat)) :
    Prop where
  before : Segment (links s.pktBuff) 0 pre x.1
  node : links s.pktBuff x.1 = ⟨x.2, headIndex post 0, lastIndex 0 pre⟩
  after : Segment (links s.pktBuff) x.1 post 0
  beforeSorted : pre.Pairwise fun x y => x.1 < y.1
  afterSorted : post.Pairwise fun x y => x.1 < y.1
  beforeLt : ∀ y ∈ pre, y.1 < x.1
  ltAfter : ∀ y ∈ post, x.1 < y.1

theorem around (h : Holes s (pre ++ x :: post)) : Around s pre x post := by
  obtain ⟨hbefore, hnode, hafter⟩ := Segment.append_iff.mp h.segment
  have hsorted := h.sorted
  simp only [List.pairwise_append, List.pairwise_cons] at hsorted
  exact ⟨hbefore, hnode, hafter, hsorted.1, hsorted.2.1.2, h.before_lt, h.lt_after⟩

theorem fits_last (h : Holes s (pre ++ x :: post)) (hpre : lastIndex 0 pre ≠ 0) :
    Fits (lastIndex 0 pre) ∧ lastIndex 0 pre < x.1 ∧ ∃ y ∈ pre, lastIndex 0 pre = y.1 := by
  obtain ⟨y, hy, heq⟩ := lastIndex_mem 0 (L := pre) (by rintro rfl; exact hpre rfl)
  rw [heq]
  exact ⟨h.fits y (by simp [hy]), h.before_lt y hy, y, hy, rfl⟩

theorem first_of_before (h : Holes s (pre ++ x :: post)) (hpre : lastIndex 0 pre ≠ 0) (n : Nat) :
    s.firstHole = headIndex pre n := by
  rw [h.first]
  cases pre with
  | nil => exact absurd rfl hpre
  | cons y pre => rfl

/-- What an update does to the state: it gives the new list, or says that no hole
is left, and only descriptors of the two lists are written. -/
structure Update (s : Reasm) (L new : List (Nat × Nat)) (result : Reasm × Bool) : Prop where
  done : result.2 = decide (new = [])
  holes : new ≠ [] → Holes result.1 new
  totalLen : result.1.totalLen = s.totalLen
  outside : ∀ q, Outside (L ++ new) q → result.1.pktBuff q = s.pktBuff q

theorem removeHole_spec (h : Holes s (pre ++ x :: post)) :
    ∃ r, removeHole s x.1 = some r ∧
      Update s (pre ++ x :: post) (seenBefore pre ++ post) r := by
  have ha := h.around
  rw [removeHole, h.readHole_eq]
  simp only [Option.bind_eq_bind, Option.bind_some, h.headIndex_post_eq_zero]
  by_cases hpre : lastIndex 0 pre = 0
  · rw [seenBefore_of_eq hpre, List.nil_append]
    cases post with
    | nil =>
      rw [if_pos ⟨hpre, rfl⟩]
      exact ⟨_, rfl, rfl, fun hne => absurd rfl hne, rfl, fun _ _ => rfl⟩
    | cons z post =>
      rw [if_neg (by simp), if_pos hpre, headIndex_cons]
      obtain ⟨buff', hset, hw⟩ := setPrevHole_spec s.pktBuff (h.fits z (by simp))
        (show (0 : Nat) < 65536 by decide)
      rw [hset]
      refine ⟨_, rfl, by simp, fun _ => ⟨?_, rfl, fun y hy => h.fits y (by
        simp [List.mem_cons.mp hy]), ha.afterSorted⟩, rfl, fun q hq => hw.outside q (hq z (by simp))⟩
      rw [hw.links]
      exact set_prev_after ha.after ha.afterSorted 0
  · obtain ⟨hfits, hlt, hmem⟩ := h.fits_last hpre
    rw [seenBefore_of_ne hpre, if_neg (fun hc => hpre hc.1), if_neg hpre]
    cases post with
    | nil =>
      obtain ⟨buff', hset, hw⟩ := setNextHole_spec s.pktBuff hfits
        (show (0 : Nat) < 65536 by decide)
      obtain ⟨y, hy, hyeq⟩ := hmem
      rw [if_pos rfl, hset]
      refine ⟨_, rfl, ?_, fun _ => ⟨?_, ?_, fun z hz => h.fits z (by simp at hz; simp [hz]), ?_⟩, rfl,
        fun q hq => hw.outside q (hyeq ▸ hq y (by simp [hy]))⟩
      · have : pre ≠ [] := by rintro rfl; cases hy
        simp [this]
      · rw [hw.links, List.append_nil]
        exact set_next_before ha.before ha.beforeSorted hpre 0
      · rw [List.append_nil]
        exact h.first_of_before hpre 0
      · rw [List.append_nil]
        exact ha.beforeSorted
    | cons z post =>
      have hz : z.1 ≠ x.1 := Nat.ne_of_gt (ha.ltAfter z List.mem_cons_self)
      have hzpre : ∀ y ∈ pre, y.1 ≠ z.1 := fun y hy => Nat.ne_of_lt
        (Nat.lt_trans (ha.beforeLt y hy) (ha.ltAfter z List.mem_cons_self))
      obtain ⟨buff₁, hset₁, hw₁⟩ := setPrevHole_spec s.pktBuff (h.fits z (by simp)) hfits.lt
      obtain ⟨buff₂, hset₂, hw₂⟩ := setNextHole_spec buff₁ hfits (h.fits z (by simp)).lt
      obtain ⟨y, hy, hyeq⟩ := hmem
      -- the descriptor of the hole itself is read again
      have hread : readHole buff₁ x.1 = some ⟨x.2, z.1, lastIndex 0 pre⟩ := by
        have hnode : links buff₁ x.1 = ⟨x.2, z.1, lastIndex 0 pre⟩ := by
          rw [hw₁.links, Function.update_of_ne (Ne.symm hz), ha.node]
          rfl
        simp only [links, Node.mk.injEq] at hnode
        rw [readHole, if_pos (h.fits x (by simp)), ← hnode.1, ← hnode.2.1, ← hnode.2.2]
      rw [if_neg (by simp), headIndex_cons, hset₁]
      simp only [Option.bind_some, hread, hset₂]
      refine ⟨_, rfl, by simp, fun _ => ⟨?_, ?_, fun w hw => h.fits w (by
        simp at hw ⊢; tauto), ?_⟩, rfl, fun q hq => ?_⟩
      · refine Segment.append_iff.mpr ⟨?_, ?_⟩
        · rw [hw₂.links]
          have hbefore : Segment (links buff₁) 0 pre x.1 := by
            rw [hw₁.links]
            exact ha.before.update_of_notMem hzpre
          exact set_next_before hbefore ha.beforeSorted hpre z.1
        · rw [hw₂.links]
          refine Segment.update_of_notMem ?_ fun w hw => ?_
          · rw [hw₁.links]
            exact set_prev_after ha.after ha.afterSorted _
          · exact Nat.ne_of_gt (Nat.lt_trans hlt (ha.ltAfter w hw))
      · simpa using h.first_of_before hpre z.1
      · refine List.pairwise_append.mpr ⟨ha.beforeSorted, ha.afterSorted, fun v hv w hw => ?_⟩
        exact Nat.lt_trans (ha.beforeLt v hv) (ha.ltAfter w hw)
      · exact (hw₂.outside q (hyeq ▸ hq y (by simp [hy]))).trans (hw₁.outside q (hq z (by simp)))

theorem shortenHole_spec (h : Holes s (pre ++ x :: post)) {start : Nat} (hstart : start < 65536) :
    ∃ r, shortenHole s x.1 start = some r ∧
      Update s (pre ++ x :: post) (pre ++ (x.1, start) :: post) r := by
  have ha := h.around
  obtain ⟨buff', hset, hw⟩ := setLastByte_spec s.pktBuff (h.fits x (by simp)) hstart
  rw [shortenHole, hset]
  refine ⟨_, rfl, by simp, fun _ => ⟨?_, ?_, fun y hy => ?_, ?_⟩, rfl,
    fun q hq => hw.outside q (hq x (by simp))⟩
  · rw [hw.links]
    refine Segment.append_iff.mpr ⟨?_, ?_, ?_⟩
    · exact ha.before.update_of_notMem fun y hy => Nat.ne_of_lt (ha.beforeLt y hy)
    · rw [Function.update_self, ha.node]
    · exact ha.after.update_of_notMem fun y hy => Nat.ne_of_gt (ha.ltAfter y hy)
  · rw [h.first]
    simp
  · simp only [List.mem_append, List.mem_cons] at hy
    rcases hy with hy | rfl | hy
    · exact h.fits y (by simp [hy])
    · exact h.fits x (by simp)
    · exact h.fits y (by simp [hy])
  · refine List.pairwise_append.mpr ⟨ha.beforeSorted,
      List.pairwise_cons.mpr ⟨ha.ltAfter, ha.afterSorted⟩, fun v hv w hw => ?_⟩
    rcases List.mem_cons.mp hw with rfl | hw
    · exact ha.beforeLt v hv
    · exact Nat.lt_trans (ha.beforeLt v hv) (ha.ltAfter w hw)

theorem readHole_of_links {buff : Ptr} {i : Nat} {node : Node Nat} (hi : Fits i)
    (h : links buff i = node) : readHole buff i = some ⟨node.value, node.next, node.prev⟩ := by
  rw [readHole, if_pos hi, ← h]
  rfl

/-- Linking the holes behind to a new predecessor, if there are any. -/
theorem linkNextHole_spec {buff : Ptr} {newh last prev old : Nat} (hfits : Fits newh)
    (hnode : links buff newh = ⟨last, headIndex post 0, prev⟩)
    (hseg : Segment (links buff) old post 0)
    (hsorted : post.Pairwise fun x y => x.1 < y.1) (hpost : ∀ y ∈ post, Fits y.1 ∧ newh < y.1) :
    ∃ buff', linkNextHole buff newh = some buff' ∧ Segment (links buff') newh post 0 ∧
      (∀ i, (∀ y ∈ post, y.1 ≠ i) → links buff' i = links buff i) ∧
      ∀ q, Outside post q → buff' q = buff q := by
  rw [linkNextHole, readHole_of_links hfits hnode]
  simp only [Option.bind_eq_bind, Option.bind_some]
  cases post with
  | nil => exact ⟨buff, rfl, trivial, fun _ _ => rfl, fun _ _ => rfl⟩
  | cons z post =>
    obtain ⟨hz, hlt⟩ := hpost z List.mem_cons_self
    obtain ⟨buff', hset, hw⟩ := setPrevHole_spec buff hz hfits.lt
    refine ⟨buff', ?_, ?_, fun i hi => ?_, fun q hq => hw.outside q (hq z List.mem_cons_self)⟩
    · rw [headIndex_cons, if_pos (by omega), hset]
    · rw [hw.links]
      exact set_prev_after hseg hsorted newh
    · rw [hw.links, Function.update_of_ne (Ne.symm (hi z List.mem_cons_self))]

theorem moveHole_spec (h : Holes s (pre ++ x :: post)) {newh : Nat} (hfits : Fits newh)
    (hlt : x.1 < newh) (hpost : ∀ y ∈ post, newh < y.1) :
    ∃ r, moveHole s x.1 newh = some r ∧
      Update s (pre ++ x :: post) (seenBefore pre ++ (newh, x.2) :: post) r := by
  have ha := h.around
  have hnpost : ∀ y ∈ post, y.1 ≠ newh := fun y hy => Nat.ne_of_gt (hpost y hy)
  have hnpre : ∀ y ∈ pre, y.1 ≠ newh :=
    fun y hy => Nat.ne_of_lt (Nat.lt_trans (ha.beforeLt y hy) hlt)
  obtain ⟨buff₁, hcopy, hw₁⟩ := copyHole_spec s.pktBuff hfits (h.fits x (by simp))
  have hnode₁ : links buff₁ newh = ⟨x.2, headIndex post 0, lastIndex 0 pre⟩ := by
    rw [hw₁.links, Function.update_self, ha.node]
  have hafter₁ : Segment (links buff₁) x.1 post 0 := by
    rw [hw₁.links]
    exact ha.after.update_of_notMem hnpost
  obtain ⟨buff₂, hlink, hafter₂, hsame₂, hout₂⟩ := linkNextHole_spec hfits hnode₁ hafter₁
    ha.afterSorted fun y hy => ⟨h.fits y (by simp [hy]), hpost y hy⟩
  have hnode₂ : links buff₂ newh = ⟨x.2, headIndex post 0, lastIndex 0 pre⟩ := by
    rw [hsame₂ newh hnpost, hnode₁]
  have hbefore₂ : Segment (links buff₂) 0 pre x.1 := by
    have hbefore₁ : Segment (links buff₁) 0 pre x.1 := by
      rw [hw₁.links]
      exact ha.before.update_of_notMem hnpre
    exact hbefore₁.congr fun y hy => hsame₂ y.1 fun z hz => Nat.ne_of_gt
      (Nat.lt_trans (ha.beforeLt y hy) (ha.ltAfter z hz))
  have hfits' : ∀ y ∈ seenBefore pre ++ (newh, x.2) :: post, Fits y.1 := by
    intro y hy
    simp only [List.mem_append, List.mem_cons] at hy
    rcases hy with hy | rfl | hy
    · exact h.fits y (by simp [(seenBefore_sublist pre).subset hy])
    · exact hfits
    · exact h.fits y (by simp [hy])
  have hsorted' : (seenBefore pre ++ (newh, x.2) :: post).Pairwise fun x y => x.1 < y.1 := by
    refine List.pairwise_append.mpr ⟨?_, List.pairwise_cons.mpr ⟨hpost, ha.afterSorted⟩,
      fun v hv w hw => ?_⟩
    · exact ha.beforeSorted.sublist (seenBefore_sublist pre)
    · have hvx := ha.beforeLt v ((seenBefore_sublist pre).subset hv)
      rcases List.mem_cons.mp hw with rfl | hw
      · exact Nat.lt_trans hvx hlt
      · exact Nat.lt_trans hvx (ha.ltAfter w hw)
  have hframe : ∀ q, Outside (pre ++ x :: post ++ (seenBefore pre ++ (newh, x.2) :: post)) q →
      buff₂ q = s.pktBuff q := fun q hq =>
    (hout₂ q fun y hy => hq y (by simp [hy])).trans (hw₁.outside q (hq (newh, x.2) (by simp)))
  rw [moveHole, hcopy]
  simp only [Option.bind_eq_bind, Option.bind_some, hlink, readHole_of_links hfits hnode₂]
  by_cases hpre : lastIndex 0 pre = 0
  · rw [if_neg (not_not_intro hpre)]
    refine ⟨_, rfl, by simp, fun _ => ⟨?_, ?_, hfits', hsorted'⟩, rfl, hframe⟩
    · rw [seenBefore_of_eq hpre]
      rw [hpre] at hnode₂
      exact ⟨hnode₂, hafter₂⟩
    · rw [seenBefore_of_eq hpre]
      rfl
  · obtain ⟨hfitsLast, hltLast, y, hy, hyeq⟩ := h.fits_last hpre
    obtain ⟨buff₃, hset₃, hw₃⟩ := setNextHole_spec buff₂ hfitsLast hfits.lt
    rw [if_pos hpre, hset₃]
    refine ⟨_, rfl, by simp, fun _ => ⟨?_, ?_, hfits', hsorted'⟩, rfl, fun q hq => ?_⟩
    · rw [seenBefore_of_ne hpre, hw₃.links]
      refine Segment.append_iff.mpr ⟨set_next_before hbefore₂ ha.beforeSorted hpre newh, ?_, ?_⟩
      · rw [Function.update_of_ne (by omega), hnode₂]
      · exact hafter₂.update_of_notMem fun z hz => by have := ha.ltAfter z hz; omega
    · rw [seenBefore_of_ne hpre]
      simpa using h.first_of_before hpre newh
    · exact (hw₃.outside q (hyeq ▸ hq y (by simp [hy]))).trans (hframe q hq)

theorem splitHole_spec (h : Holes s (pre ++ x :: post)) {start newh : Nat} (hfits : Fits newh)
    (hstart : start < 65536) (hlt : x.1 < newh) (hpost : ∀ y ∈ post, newh < y.1) :
    ∃ r, splitHole s x.1 start newh = some r ∧
      Update s (pre ++ x :: post) (pre ++ (x.1, start) :: (newh, x.2) :: post) r := by
  have ha := h.around
  have hfitsx : Fits x.1 := h.fits x (by simp)
  have hnpost : ∀ y ∈ post, y.1 ≠ newh := fun y hy => Nat.ne_of_gt (hpost y hy)
  have hxpost : ∀ y ∈ post, y.1 ≠ x.1 := fun y hy => Nat.ne_of_gt (ha.ltAfter y hy)
  obtain ⟨buff₁, hset₁, hw₁⟩ := copyHole_spec s.pktBuff hfits hfitsx
  obtain ⟨buff₂, hset₂, hw₂⟩ := setLastByte_spec buff₁ hfitsx hstart
  obtain ⟨buff₃, hset₃, hw₃⟩ := setNextHole_spec buff₂ hfitsx hfits.lt
  obtain ⟨buff₄, hset₄, hw₄⟩ := setPrevHole_spec buff₃ hfits hfitsx.lt
  have hother : ∀ i, i ≠ x.1 → i ≠ newh → links buff₄ i = links s.pktBuff i := by
    intro i hx hn
    rw [hw₄.links, Function.update_of_ne hn, hw₃.links, Function.update_of_ne hx, hw₂.links,
      Function.update_of_ne hx, hw₁.links, Function.update_of_ne hn]
  have hnew₄ : links buff₄ newh = ⟨x.2, headIndex post 0, x.1⟩ := by
    rw [hw₄.links, Function.update_self, hw₃.links, Function.update_of_ne (by omega), hw₂.links,
      Function.update_of_ne (by omega), hw₁.links, Function.update_self, ha.node]
  have hold₄ : links buff₄ x.1 = ⟨start, newh, lastIndex 0 pre⟩ := by
    rw [hw₄.links, Function.update_of_ne (by omega), hw₃.links, Function.update_self, hw₂.links,
      Function.update_self, hw₁.links, Function.update_of_ne (by omega), ha.node]
  have hafter₄ : Segment (links buff₄) x.1 post 0 :=
    ha.after.congr fun y hy => hother y.1 (hxpost y hy) (hnpost y hy)
  obtain ⟨buff₅, hlink, hafter₅, hsame₅, hout₅⟩ := linkNextHole_spec hfits hnew₄ hafter₄
    ha.afterSorted fun y hy => ⟨h.fits y (by simp [hy]), hpost y hy⟩
  rw [splitHole, hset₁]
  simp only [Option.bind_eq_bind, Option.bind_some, hset₂, hset₃, hset₄, hlink]
  refine ⟨_, rfl, by simp, fun _ => ⟨?_, ?_, fun y hy => ?_, ?_⟩, rfl, fun q hq => ?_⟩
  · refine Segment.append_iff.mpr ⟨?_, ?_, ?_, hafter₅⟩
    · refine ha.before.congr fun y hy => ?_
      have hyx := ha.beforeLt y hy
      rw [hsame₅ y.1 fun z hz => by have := ha.ltAfter z hz; omega,
        hother y.1 (by omega) (by omega)]
    · rw [hsame₅ x.1 hxpost, hold₄]
      rfl
    · rw [hsame₅ newh hnpost, hnew₄]
  · rw [h.first]
    simp
  · simp only [List.mem_append, List.mem_cons] at hy
    rcases hy with hy | rfl | rfl | hy
    · exact h.fits y (by simp [hy])
    · exact hfitsx
    · exact hfits
    · exact h.fits y (by simp [hy])
  · refine List.pairwise_append.mpr ⟨ha.beforeSorted, ?_, fun v hv w hw => ?_⟩
    · refine List.pairwise_cons.mpr ⟨fun w hw => ?_, List.pairwise_cons.mpr
        ⟨hpost, ha.afterSorted⟩⟩
      rcases List.mem_cons.mp hw with rfl | hw
      · exact hlt
      · exact ha.ltAfter w hw
    · have hvx := ha.beforeLt v hv
      simp only [List.mem_cons] at hw
      rcases hw with rfl | rfl | hw
      · exact hvx
      · exact Nat.lt_trans hvx hlt
      · exact Nat.lt_trans hvx (ha.ltAfter w hw)
  · have hqx : OutsideHole x.1 q := hq x (by simp)
    have hqn : OutsideHole newh q := hq (newh, x.2) (by simp)
    exact (hout₅ q fun y hy => hq y (by simp [hy])).trans ((hw₄.outside q hqn).trans
      ((hw₃.outside q hqx).trans ((hw₂.outside q hqx).trans (hw₁.outside q hqn))))

theorem fixHoles_spec (h : Holes s (pre ++ x :: post)) {offset8 len : Nat}
    (hstart : offset8 * 8 < 65536) (hnew : NewFits x post offset8 len) :
    ∃ r, fixHoles s x.1 offset8 len = some r ∧
      Update s (pre ++ x :: post) (fill pre x post offset8 len) r := by
  rw [fixHoles, h.readHole_eq]
  simp only [Option.bind_eq_bind, Option.bind_some, fill]
  split
  · exact h.removeHole_spec
  · split
    · exact h.shortenHole_spec hstart
    · rename_i hlast
      obtain ⟨hfits, hlt, hpost⟩ := hnew (Nat.lt_of_not_le hlast)
      split
      · exact h.moveHole_spec hfits hlt hpost
      · exact h.splitHole_spec hfits hstart hlt hpost

/-! ### The other parts -/

/-- The search finds the first hole that ends at or behind the start. -/
theorem findHole_eq (h : Holes s L) (hne : L ≠ []) (start : Nat) :
    findHole s.pktBuff start (IP_PKTSIZE + 1) s.firstHole =
      some ((L.find? fun x => start ≤ x.2).map Prod.fst) := by
  have hmain : ∀ fuel before y rest, before ++ y :: rest = L → IP_PKTSIZE < fuel + y.1 →
      findHole s.pktBuff start fuel y.1 =
        some (((y :: rest).find? fun x => start ≤ x.2).map Prod.fst) := by
    intro fuel
    -- the indices grow, so the fuel left is at least the distance to the end of the buffer
    induction fuel with
    | zero =>
      rintro before y rest rfl hfuel
      have hy := h.fits y (by simp)
      simp only [Fits, holePos, IP_HDR_SIZE] at hy
      omega
    | succ fuel ih =>
      rintro before y rest rfl hfuel
      rw [findHole, h.readHole_eq, List.find?_cons]
      simp only [Option.bind_eq_bind, Option.bind_some, h.headIndex_post_eq_zero]
      by_cases hlast : y.2 < start
      · rw [if_pos hlast]
        simp only [Nat.not_le.mpr hlast, decide_false]
        cases rest with
        | nil => simp
        | cons z rest =>
          have hlt := h.lt_after z List.mem_cons_self
          rw [if_neg (by simp), headIndex_cons]
          exact ih (before ++ [y]) z rest (by simp) (by omega)
      · rw [if_neg hlast]
        simp [Nat.not_lt.mp hlast]
  obtain ⟨y, rest, rfl⟩ := List.exists_cons_of_ne_nil hne
  rw [h.first, headIndex_cons]
  exact hmain _ [] y rest rfl (by omega)

/-- Only the end of one hole changes when the last fragment truncates it. -/
theorem truncateHole_spec (h : Holes s (pre ++ x :: post)) (ip : Ptr) {end_ : Nat}
    (hend : end_ < 65536) :
    ∃ s', truncateHole s ip x.1 end_ = some s' ∧
      Holes s' (pre ++ (x.1, if moreFragments ip then x.2 else end_) :: post) ∧
      s'.totalLen = (if moreFragments ip then s.totalLen else end_) ∧
      ∀ q, OutsideHole x.1 q → s'.pktBuff q = s.pktBuff q := by
  rw [truncateHole]
  split
  · exact ⟨s, rfl, h, rfl, fun _ _ => rfl⟩
  · obtain ⟨r, hr, hu⟩ := h.shortenHole_spec hend
    obtain ⟨buff', hset, hw⟩ := setLastByte_spec s.pktBuff (h.fits x (by simp)) hend
    rw [shortenHole, hset] at hr
    obtain rfl : _ = r := Option.some.inj hr
    have hholes := hu.holes (by simp)
    rw [hset]
    exact ⟨_, rfl, ⟨hholes.segment, hholes.first, hholes.fits, hholes.sorted⟩, rfl, hw.outside⟩

end Holes

theorem startPacket_spec (s : Reasm) (ip : Ptr) :
    ∃ s', startPacket s ip = some s' ∧ Holes s' [(0, 65535)] ∧ s'.totalLen = 65535 ∧
      ∀ q < IP_HDR_SIZE, s'.pktBuff q = ip q := by
  have hfits : Fits 0 := by decide
  obtain ⟨buff₁, hset₁, hw₁⟩ := setLastByte_spec s.pktBuff hfits (show 0xffff < 65536 by decide)
  obtain ⟨buff₂, hset₂, hw₂⟩ := setNextHole_spec buff₁ hfits (show 0 < 65536 by decide)
  obtain ⟨buff₃, hset₃, hw₃⟩ := setPrevHole_spec buff₂ hfits (show 0 < 65536 by decide)
  rw [startPacket, hset₁]
  simp only [Option.bind_eq_bind, Option.bind_some, hset₂, hset₃]
  refine ⟨_, rfl, ⟨⟨?_, trivial⟩, rfl, by simp [hfits], List.pairwise_singleton ..⟩, rfl,
    fun q hq => ?_⟩
  · have hheader : links (memcpy buff₃ 0 ip IP_HDR_SIZE) 0 = links buff₃ 0 :=
      links_congr fun k _ => memcpy_of_ne _ _ (.inr (by simp only [holePos]; omega))
    rw [hheader, hw₃.links, Function.update_self, hw₂.links, Function.update_self, hw₁.links,
      Function.update_self]
    rfl
  · have := memcpy_at buff₃ ip 0 hq
    simpa using this

/-- The data of a fragment does not touch the descriptors behind or before it. -/
theorem copyFragment_spec (s : Reasm) (ip : Ptr) {start len : Nat}
    (hfit : start + len ≤ IP_MAXUDP) :
    ∃ s', copyFragment s ip start len = some s' ∧ s'.totalLen = s.totalLen ∧
      (∀ L, Holes s L → (∀ x ∈ L, 8 * x.1 + 8 ≤ start ∨ start + len ≤ 8 * x.1) → Holes s' L) ∧
      (∀ k < len, s'.pktBuff (IP_HDR_SIZE + start + k) = ip (IP_HDR_SIZE + k)) ∧
      ∀ q, q < IP_HDR_SIZE + start ∨ IP_HDR_SIZE + start + len ≤ q →
        s'.pktBuff q = s.pktBuff q := by
  simp only [IP_MAXUDP] at hfit
  have hsize : IP_HDR_SIZE ≤ IP_PKTSIZE := by decide
  rw [copyFragment, if_pos (by omega)]
  refine ⟨_, rfl, rfl, fun L h hapart => ⟨?_, h.first, h.fits, h.sorted⟩,
    fun k hk => memcpy_at _ _ _ hk, fun q hq => memcpy_of_ne _ _ hq⟩
  refine h.segment.congr fun x hx => links_congr fun k hk => memcpy_of_ne _ _ ?_
  have := hapart x hx
  simp only [holePos]
  omega

/-- The hole as it is when the list is fixed. -/
def truncated (ip : Ptr) (x : Nat × Nat) (len : Nat) : Nat × Nat :=
  (x.1, if moreFragments ip then x.2 else fragOffset ip * 8 + len)

/-- What accepting a fragment does: the list becomes `new`, and when nothing is
left the packet is returned. -/
structure Accepted (s : Reasm) (ip : Ptr) (len : Nat) (L new : List (Nat × Nat)) (s' : Reasm)
    (result : Option Nat) : Prop where
  result : result = if new = [] then some (s'.totalLen + IP_HDR_SIZE) else none
  holes : new ≠ [] → Holes s' new
  totalLen : s'.totalLen = if moreFragments ip then s.totalLen else fragOffset ip * 8 + len
  data : ∀ k < len,
    s'.pktBuff (IP_HDR_SIZE + fragOffset ip * 8 + k) = ip (IP_HDR_SIZE + k)
  outside : ∀ q, Outside (L ++ new) q →
    q < IP_HDR_SIZE + fragOffset ip * 8 ∨ IP_HDR_SIZE + fragOffset ip * 8 + len ≤ q →
    (new = [] → q ≠ 2 ∧ q ≠ 3) → s'.pktBuff q = s.pktBuff q

theorem Holes.acceptFragment_spec {s : Reasm} {pre post : List (Nat × Nat)} {x : Nat × Nat}
    (h : Holes s (pre ++ x :: post)) (ip : Ptr) {len : Nat}
    (hfit : fragOffset ip * 8 + len ≤ IP_MAXUDP)
    (hnew : NewFits (truncated ip x len) post (fragOffset ip) len)
    (hapart : ∀ y ∈ fill pre (truncated ip x len) post (fragOffset ip) len,
      8 * y.1 + 8 ≤ fragOffset ip * 8 ∨ fragOffset ip * 8 + len ≤ 8 * y.1) :
    ∃ s' result, acceptFragment s ip x.1 len = some (s', result) ∧
      Accepted s ip len (pre ++ x :: post) (fill pre (truncated ip x len) post (fragOffset ip) len)
        s' result := by
  have hmax : IP_MAXUDP < 65536 := by decide
  obtain ⟨s₁, htrunc, hholes₁, htotal₁, hout₁⟩ := h.truncateHole_spec ip
    (show fragOffset ip * 8 + len < 65536 by omega)
  obtain ⟨⟨s₂, done⟩, hfix, hu⟩ := hholes₁.fixHoles_spec (by omega) hnew
  obtain ⟨s₃, hcopy, htotal₃, hholes₃, hdata₃, hout₃⟩ := copyFragment_spec s₂ ip hfit
  obtain ⟨hdone, hholes₂, htotal₂, hout₂⟩ := hu
  simp only at hdone hholes₂ htotal₂ hout₂
  change done = decide (fill pre (truncated ip x len) post (fragOffset ip) len = []) at hdone
  have hframe : ∀ q, Outside (pre ++ x :: post ++ fill pre (truncated ip x len) post
      (fragOffset ip) len) q → q < IP_HDR_SIZE + fragOffset ip * 8 ∨
      IP_HDR_SIZE + fragOffset ip * 8 + len ≤ q → s₃.pktBuff q = s.pktBuff q := by
    intro q hq hrange
    have hq₁ : Outside (pre ++ truncated ip x len :: post ++
        fill pre (truncated ip x len) post (fragOffset ip) len) q := by
      intro y hy
      simp only [List.mem_append, List.mem_cons, List.append_assoc] at hy
      rcases hy with hy | (rfl | hy) | hy
      · exact hq y (by simp [hy])
      · exact hq x (by simp)
      · exact hq y (by simp [hy])
      · exact hq y (by simp [hy])
    rw [hout₃ q hrange, hout₂ q hq₁, hout₁ q (hq x (by simp))]
  have htotal : s₃.totalLen = if moreFragments ip then s.totalLen
      else fragOffset ip * 8 + len := by
    rw [htotal₃, htotal₂, htotal₁]
  rw [acceptFragment, htrunc]
  simp only [Option.bind_eq_bind, Option.bind_some, hfix, hcopy]
  by_cases hnil : fill pre (truncated ip x len) post (fragOffset ip) len = []
  · rw [if_pos (by simp [hdone, hnil])]
    refine ⟨_, _, rfl, by simp [hnil], fun hne => absurd hnil hne, htotal, fun k hk => ?_,
      fun q hq hrange hhdr => ?_⟩
    · rw [← hdata₃ k hk]
      exact putBe16_of_ne _ _ (by simp only [IP_HDR_SIZE]; omega)
    · obtain ⟨h2, h3⟩ := hhdr hnil
      rw [← hframe q hq hrange]
      exact putBe16_of_ne _ _ (by omega)
  · rw [if_neg (by simp [hdone, hnil])]
    exact ⟨_, _, rfl, by simp [hnil], fun _ => hholes₃ _ (hholes₂ hnil) hapart, htotal, hdata₃,
      fun q hq hrange _ => hframe q hq hrange⟩

end UBoot.Net
