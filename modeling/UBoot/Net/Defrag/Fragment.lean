import UBoot.Net.Defrag.Holes

/-!
# A fragment in its hole

What `__NetDefragment` does with a fragment that lies in one hole and does not
reach into the next one: the holes stay apart from each other, and the data is
copied next to their descriptors.
-/

namespace UBoot.Net

open Verification

/-- The holes are apart from each other. -/
structure Spaced (L : List (Nat × Nat)) : Prop where
  pos : ∀ x ∈ L, 8 * x.1 < x.2
  apart : L.Pairwise fun x y => x.2 ≤ 8 * y.1

theorem Spaced.middle_iff {pre post : List (Nat × Nat)} {x : Nat × Nat} :
    Spaced (pre ++ x :: post) ↔ Spaced pre ∧ Spaced post ∧ 8 * x.1 < x.2 ∧
      (∀ y ∈ pre, y.2 ≤ 8 * x.1) ∧ (∀ y ∈ post, x.2 ≤ 8 * y.1) ∧
      ∀ y ∈ pre, ∀ z ∈ post, y.2 ≤ 8 * z.1 := by
  constructor
  · rintro ⟨hpos, hapart⟩
    simp only [List.pairwise_append, List.pairwise_cons, List.mem_cons] at hapart
    obtain ⟨hpre, ⟨hx, hpost⟩, hcross⟩ := hapart
    exact ⟨⟨fun y hy => hpos y (by simp [hy]), hpre⟩, ⟨fun y hy => hpos y (by simp [hy]), hpost⟩,
      hpos x (by simp), fun y hy => hcross y hy x (.inl rfl), hx,
      fun y hy z hz => hcross y hy z (.inr hz)⟩
  · rintro ⟨⟨hpos, hpre⟩, ⟨hpos', hpost⟩, hx, hbelow, habove, hcross⟩
    refine ⟨fun y hy => ?_, List.pairwise_append.mpr ⟨hpre, List.pairwise_cons.mpr
      ⟨habove, hpost⟩, fun y hy z hz => ?_⟩⟩
    · simp only [List.mem_append, List.mem_cons] at hy
      rcases hy with hy | rfl | hy
      exacts [hpos y hy, hx, hpos' y hy]
    · rcases List.mem_cons.mp hz with rfl | hz
      exacts [hbelow y hy, hcross y hy z hz]

theorem Spaced.sublist {L M : List (Nat × Nat)} (h : Spaced L) (hM : M.Sublist L) : Spaced M :=
  ⟨fun x hx => h.pos x (hM.subset hx), h.apart.sublist hM⟩

/-- The place of a fragment in its hole. -/
structure Within (pre : List (Nat × Nat)) (x : Nat × Nat) (post : List (Nat × Nat))
    (offset8 len : Nat) : Prop where
  spaced : Spaced (pre ++ x :: post)
  before : ∀ y ∈ pre, y.2 < offset8 * 8
  start : offset8 * 8 ≤ x.2
  overlap : x.1 < offset8 + (len + 7) / 8
  after : ∀ y ∈ post, offset8 * 8 + len ≤ 8 * y.1

/-- The list stays spaced, and the data is apart from its descriptors. -/
theorem Within.fill_spec {pre post : List (Nat × Nat)} {x : Nat × Nat} {offset8 len : Nat}
    (h : Within pre x post offset8 len) {last : Nat}
    (hlast : last = x.2 ∨ last = offset8 * 8 + len)
    (hblock : offset8 * 8 + len < last → len % 8 = 0) :
    Spaced (fill pre (x.1, last) post offset8 len) ∧
      ∀ y ∈ fill pre (x.1, last) post offset8 len,
        8 * y.1 + 8 ≤ offset8 * 8 ∨ offset8 * 8 + len ≤ 8 * y.1 := by
  obtain ⟨hspre, hspost, hx, hbelow, habove, hcross⟩ := Spaced.middle_iff.mp h.spaced
  have hover := h.overlap
  have hstart := h.start
  have hbefore : ∀ y ∈ pre, 8 * y.1 + 8 ≤ offset8 * 8 := by
    intro y hy
    have h1 := h.before y hy
    have h2 := hspre.pos y hy
    omega
  have hseen : ∀ y ∈ seenBefore pre, y ∈ pre := fun y hy => (seenBefore_sublist pre).subset hy
  simp only [fill]
  split
  · refine ⟨?_, fun y hy => ?_⟩
    · have hsub : (seenBefore pre ++ post).Sublist (pre ++ x :: post) :=
        (seenBefore_sublist pre).append (List.sublist_cons_self _ _)
      exact h.spaced.sublist hsub
    · rcases List.mem_append.mp hy with hy | hy
      exacts [.inl (hbefore y (hseen y hy)), .inr (h.after y hy)]
  · split
    · rename_i hnot hle
      have hlt : x.1 < offset8 := by
        by_contra hge
        exact hnot ⟨by omega, hle⟩
      refine ⟨Spaced.middle_iff.mpr ⟨hspre, hspost, by dsimp; omega, hbelow, fun y hy => ?_,
        hcross⟩, fun y hy => ?_⟩
      · have := habove y hy
        dsimp
        omega
      · simp only [List.mem_append, List.mem_cons] at hy
        rcases hy with hy | rfl | hy
        exacts [.inl (hbefore y hy), .inl (by dsimp; omega), .inr (h.after y hy)]
    · rename_i hnot hgt
      -- a hole stays behind the fragment, which is made of whole blocks
      obtain rfl : last = x.2 := by omega
      have hmod := hblock (by omega)
      split
      · refine ⟨Spaced.middle_iff.mpr ⟨hspre.sublist (seenBefore_sublist pre), hspost,
          by dsimp; omega, fun y hy => ?_, habove, fun y hy => hcross y (hseen y hy)⟩,
          fun y hy => ?_⟩
        · have := hbelow y (hseen y hy)
          dsimp
          omega
        · simp only [List.mem_append, List.mem_cons] at hy
          rcases hy with hy | rfl | hy
          exacts [.inl (hbefore y (hseen y hy)), .inr (by dsimp; omega), .inr (h.after y hy)]
      · refine ⟨Spaced.middle_iff.mpr ⟨hspre, ?_, by dsimp; omega, hbelow, fun y hy => ?_,
          fun y hy z hz => ?_⟩, fun y hy => ?_⟩
        · refine ⟨fun y hy => ?_, List.pairwise_cons.mpr ⟨habove, hspost.apart⟩⟩
          rcases List.mem_cons.mp hy with rfl | hy
          exacts [by dsimp; omega, hspost.pos y hy]
        · rcases List.mem_cons.mp hy with rfl | hy
          · dsimp
            omega
          · have := habove y hy
            dsimp
            omega
        · rcases List.mem_cons.mp hz with rfl | hz
          · have := h.before y hy
            dsimp
            omega
          · exact hcross y hy z hz
        · simp only [List.mem_append, List.mem_cons] at hy
          rcases hy with hy | rfl | rfl | hy
          exacts [.inl (hbefore y hy), .inl (by dsimp; omega), .inr (by dsimp; omega),
            .inr (h.after y hy)]

/-- `__NetDefragment` on a list of holes. -/
theorem defragment_eq {s s₁ : Reasm} {ip : Ptr} {L : List (Nat × Nat)} (hfar : ¬TooFar ip)
    (hcurrent : currentPacket s ip = some s₁) (h : Holes s₁ L) (hne : L ≠ []) :
    defragment s ip = match L.find? fun x => fragOffset ip * 8 ≤ x.2 with
      | none => some (s₁, none)
      | some x =>
        if Beyond ip x.1 then some (s₁, none)
        else if fragLen ip < 0 then none
        else acceptFragment s₁ ip x.1 (fragLen ip).toNat := by
  rw [defragment, if_neg hfar, hcurrent]
  simp only [Option.bind_eq_bind, Option.bind_some, h.findHole_eq hne]
  cases L.find? fun x => fragOffset ip * 8 ≤ x.2 <;> rfl

/-- A fragment within one hole is put into it. -/
theorem defragment_within {s s₁ : Reasm} {ip : Ptr} {pre post : List (Nat × Nat)} {x : Nat × Nat}
    {len : Nat} (hfar : ¬TooFar ip) (hcurrent : currentPacket s ip = some s₁)
    (hholes : Holes s₁ (pre ++ x :: post)) (hlen : fragLen ip = len)
    (hwithin : Within pre x post (fragOffset ip) len)
    (hopens : moreFragments ip = true → fragOffset ip * 8 + len < x.2 →
      len % 8 = 0 ∧ fragOffset ip * 8 + len + 8 ≤ IP_MAXUDP) :
    ∃ s' result, defragment s ip = some (s', result) ∧
      Accepted s₁ ip len (pre ++ x :: post)
        (fill pre (truncated ip x len) post (fragOffset ip) len) s' result ∧
      Spaced (fill pre (truncated ip x len) post (fragOffset ip) len) := by
  have hover := hwithin.overlap
  have hlast : (truncated ip x len).2 = x.2 ∨
      (truncated ip x len).2 = fragOffset ip * 8 + len := by
    simp only [truncated]
    split <;> simp
  have hblock : fragOffset ip * 8 + len < (truncated ip x len).2 →
      len % 8 = 0 ∧ fragOffset ip * 8 + len + 8 ≤ IP_MAXUDP := by
    simp only [truncated]
    split
    · exact hopens ‹_›
    · intro hlt
      omega
  obtain ⟨hspaced, hapart⟩ := hwithin.fill_spec hlast fun hlt => (hblock hlt).1
  have hnew : NewFits (truncated ip x len) post (fragOffset ip) len := by
    intro hlt
    obtain ⟨hmod, hroom⟩ := hblock hlt
    refine ⟨?_, ?_, fun y hy => ?_⟩
    · simp only [IP_MAXUDP] at hroom
      simp only [Fits, holePos]
      omega
    · simp only [truncated]
      omega
    · have habove := (Spaced.middle_iff.mp hwithin.spaced).2.2.2.2.1 y hy
      rcases hlast with hlast | hlast <;> omega
  have hfind : (pre ++ x :: post).find? (fun x => fragOffset ip * 8 ≤ x.2) = some x :=
    List.find?_eq_some_iff_append.mpr ⟨by simpa using hwithin.start, pre, post, rfl,
      fun y hy => by simpa using hwithin.before y hy⟩
  have hdiv : ((len : Int) + 7).tdiv 8 = ((len + 7) / 8 : Nat) := by
    rw [Int.tdiv_eq_ediv_of_nonneg (by omega)]
    omega
  rw [defragment_eq hfar hcurrent hholes (by simp), hfind]
  simp only [Beyond, hlen, hdiv]
  rw [if_neg (by omega), if_neg (by omega), Int.toNat_natCast]
  simp only [TooFar, hlen] at hfar
  obtain ⟨s', result, hacc, hresult⟩ := hholes.acceptFragment_spec ip
    (show fragOffset ip * 8 + len ≤ IP_MAXUDP by omega) hnew hapart
  exact ⟨s', result, hacc, hresult, hspaced⟩

end UBoot.Net
