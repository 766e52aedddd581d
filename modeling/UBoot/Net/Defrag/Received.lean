import UBoot.Net.Defrag.Fragment

/-!
# The fragments of a datagram

A datagram is cut into fragments, and some of them were received. The holes are
what is missing, except that a hole at index 0 can be lost: a fragment that is
put into the second hole from its beginning on takes that hole for the first one.
-/

namespace UBoot.Net

open Verification

/-- A datagram of `bound count` bytes, cut at multiples of eight. -/
structure Cut where
  count : Nat
  bound : Nat → Nat
  two_le : 2 ≤ count
  zero : bound 0 = 0
  grows : ∀ f < count, bound f < bound (f + 1)
  aligned : ∀ f < count, bound f % 8 = 0
  fits : bound count ≤ IP_MAXUDP

namespace Cut

variable (c : Cut)

/-- The length of a fragment. -/
def len (f : Nat) : Nat := c.bound (f + 1) - c.bound f

theorem bound_add_len {f : Nat} (hf : f < c.count) : c.bound f + c.len f = c.bound (f + 1) := by
  have := c.grows f hf
  rw [len]
  omega

theorem bound_lt {f g : Nat} (hfg : f < g) (hg : g ≤ c.count) : c.bound f < c.bound g := by
  induction g, hfg using Nat.le_induction with
  | base => exact c.grows f (by omega)
  | succ g hfg ih => exact Nat.lt_trans (ih (by omega)) (c.grows g (by omega))

theorem bound_le {f g : Nat} (hfg : f ≤ g) (hg : g ≤ c.count) : c.bound f ≤ c.bound g := by
  rcases Nat.eq_or_lt_of_le hfg with rfl | hlt
  · exact Nat.le_refl _
  · exact Nat.le_of_lt (c.bound_lt hlt hg)

theorem lt_of_bound_lt {f g : Nat} (hf : f ≤ c.count) (h : c.bound f < c.bound g) : f < g := by
  by_contra hge
  exact absurd (c.bound_le (Nat.le_of_not_lt hge) hf) (Nat.not_le.mpr h)

theorem bound_inj {f g : Nat} (hf : f ≤ c.count) (hg : g ≤ c.count) (h : c.bound f = c.bound g) :
    f = g := by
  rcases Nat.lt_trichotomy f g with hlt | heq | hlt
  · exact absurd h (Nat.ne_of_lt (c.bound_lt hlt hg))
  · exact heq
  · exact absurd h.symm (Nat.ne_of_lt (c.bound_lt hlt hf))

theorem bound_small {f : Nat} (hf : f ≤ c.count) : c.bound f ≤ 16464 :=
  Nat.le_trans (c.bound_le hf (Nat.le_refl _)) c.fits

/-- Every byte is in a fragment. -/
theorem exists_fragment {p : Nat} (hp : p < c.bound c.count) :
    ∃ f < c.count, c.bound f ≤ p ∧ p < c.bound (f + 1) := by
  have hmain : ∀ n ≤ c.count, p < c.bound n → ∃ f < n, c.bound f ≤ p ∧ p < c.bound (f + 1) := by
    intro n
    induction n with
    | zero =>
      intro _ h
      rw [c.zero] at h
      omega
    | succ n ih =>
      intro hn h
      by_cases hlt : p < c.bound n
      · obtain ⟨f, hf, hp⟩ := ih (by omega) hlt
        exact ⟨f, by omega, hp⟩
      · exact ⟨n, by omega, by omega, h⟩
  exact hmain c.count (Nat.le_refl _) hp

end Cut

/-- The packet is a fragment of the datagram. -/
structure IsFragment (c : Cut) (payload : Nat → UInt8) (id f : Nat) (ip : Ptr) : Prop where
  len : ipLen ip = IP_HDR_SIZE + c.len f
  id : ipId ip = id
  offset : fragOffset ip * 8 = c.bound f
  more : moreFragments ip = decide (f + 1 < c.count)
  data : ∀ k < c.len f, ip (IP_HDR_SIZE + k) = payload (c.bound f + k)

/-- The fragment follows the lowest run of fragments received. -/
def Continues (received : List Nat) (f : Nat) : Prop :=
  ∃ m ∈ received, (∀ j ∈ received, m ≤ j) ∧ m < f ∧ ∀ j, m ≤ j → j < f → j ∈ received

/-! ### What was received -/

/-- The fragments in `R` were received. Those below `b` are not waited for, and
the holes in `L` are what else is missing. -/
structure Received (c : Cut) (payload : Nat → UInt8) (b : Nat) (R : List Nat) (s : Reasm)
    (L : List (Nat × Nat)) : Prop where
  spaced : Spaced L
  members : ∀ f ∈ R, f < c.count
  cover : ∀ f < c.count, f ∉ R →
    c.bound (f + 1) ≤ b ∨ ∃ x ∈ L, 8 * x.1 ≤ c.bound f ∧ c.bound (f + 1) ≤ x.2
  clear : ∀ f ∈ R, ∀ x ∈ L, c.bound (f + 1) ≤ 8 * x.1 ∨ x.2 ≤ c.bound f
  starts : ∀ x ∈ L, b ≤ 8 * x.1 ∧ ∃ f < c.count, f ∉ R ∧ c.bound f = 8 * x.1
  lasts : ∀ x ∈ L, (x.2 = 65535 ∧ c.count - 1 ∉ R) ∨ ∃ g ∈ R, x.2 = c.bound g
  totalLen : s.totalLen = if c.count - 1 ∈ R then c.bound c.count else 65535
  data : ∀ f ∈ R, b ≤ c.bound f → ∀ p, c.bound f ≤ p → p < c.bound (f + 1) →
    s.pktBuff (IP_HDR_SIZE + p) = payload p

/-- Distinct holes are apart. -/
theorem Spaced.apart_of_ne {L : List (Nat × Nat)} (h : Spaced L) {x y : Nat × Nat} (hx : x ∈ L)
    (hy : y ∈ L) (hne : x ≠ y) : x.2 ≤ 8 * y.1 ∨ y.2 ≤ 8 * x.1 := by
  obtain ⟨pre, post, rfl⟩ := List.append_of_mem hx
  obtain ⟨-, -, -, hbelow, habove, -⟩ := Spaced.middle_iff.mp h
  simp only [List.mem_append, List.mem_cons] at hy
  rcases hy with hy | rfl | hy
  · exact .inr (hbelow y hy)
  · exact absurd rfl hne
  · exact .inl (habove y hy)

/-- The holes before, what is left of the hole, and the holes behind. -/
theorem fill_eq (pre : List (Nat × Nat)) (x : Nat × Nat) (post : List (Nat × Nat))
    (offset8 len : Nat) :
    fill pre x post offset8 len =
      (if x.1 < offset8 then pre ++ [(x.1, offset8 * 8)] else seenBefore pre) ++
        ((if offset8 * 8 + len < x.2 then [(offset8 + len / 8, x.2)] else []) ++ post) := by
  rw [fill]
  by_cases h1 : offset8 ≤ x.1 <;> by_cases h2 : x.2 ≤ offset8 * 8 + len
  · rw [if_pos ⟨h1, h2⟩, if_neg (by omega), if_neg (by omega)]
    rfl
  · rw [if_neg (fun h => h2 h.2), if_neg h2, if_pos h1, if_neg (by omega), if_pos (by omega)]
    rfl
  · rw [if_neg (fun h => h1 h.1), if_pos h2, if_pos (by omega), if_neg (by omega)]
    simp
  · rw [if_neg (fun h => h1 h.1), if_neg h2, if_neg h1, if_pos (by omega), if_pos (by omega)]
    simp

theorem mem_fill {pre post : List (Nat × Nat)} {x y : Nat × Nat} {offset8 len : Nat} :
    y ∈ fill pre x post offset8 len ↔
      (y ∈ pre ∧ (x.1 < offset8 ∨ seenBefore pre = pre)) ∨
      (y = (x.1, offset8 * 8) ∧ x.1 < offset8) ∨
      (y = (offset8 + len / 8, x.2) ∧ offset8 * 8 + len < x.2) ∨ y ∈ post := by
  have hseen : y ∈ seenBefore pre ↔ y ∈ pre ∧ seenBefore pre = pre := by
    by_cases hpre : lastIndex 0 pre = 0
    · rw [seenBefore_of_eq hpre]
      constructor
      · rintro h
        cases h
      · rintro ⟨h, rfl⟩
        exact h
    · simp [seenBefore_of_ne hpre]
  rw [fill_eq]
  simp only [List.mem_append]
  by_cases h1 : x.1 < offset8 <;> by_cases h2 : offset8 * 8 + len < x.2 <;>
    simp [h1, h2, hseen, or_assoc]

/-! ### One more fragment -/

namespace IsFragment

variable {c : Cut} {payload : Nat → UInt8} {id f : Nat} {ip : Ptr}

theorem fragLen_eq (h : IsFragment c payload id f ip) : fragLen ip = c.len f := by
  rw [fragLen, h.len]
  omega

theorem end_eq (h : IsFragment c payload id f ip) (hf : f < c.count) :
    fragOffset ip * 8 + c.len f = c.bound (f + 1) := by
  rw [h.offset, c.bound_add_len hf]

theorem not_tooFar (h : IsFragment c payload id f ip) (hf : f < c.count) : ¬TooFar ip := by
  have hend := h.end_eq hf
  have hfit := c.bound_le (show f + 1 ≤ c.count by omega) (Nat.le_refl _)
  have hmax := c.fits
  simp only [TooFar, h.fragLen_eq]
  omega

/-- Behind a fragment that is not the last one there is a block boundary. -/
theorem next_block (h : IsFragment c payload id f ip) (hf : f + 1 < c.count) :
    8 * (fragOffset ip + c.len f / 8) = c.bound (f + 1) ∧ c.len f % 8 = 0 ∧
      c.bound (f + 1) + 8 ≤ IP_MAXUDP := by
  have hend := h.end_eq (by omega)
  have hoff := h.offset
  have h1 := c.aligned (f + 1) hf
  have h2 := c.bound_lt (show f + 1 < c.count from hf) (Nat.le_refl _)
  have h3 := c.fits
  have hmax : IP_MAXUDP = 16464 := rfl
  refine ⟨by omega, by omega, by omega⟩

end IsFragment

namespace Received

variable {c : Cut} {payload : Nat → UInt8} {b : Nat} {R : List Nat} {s : Reasm}
  {L pre post : List (Nat × Nat)} {x : Nat × Nat} {f : Nat}

/-- A hole before the one with the fragment ends before the fragment. -/
theorem before_lt (h : Received c payload b R s (pre ++ x :: post)) (hf : f < c.count)
    (hnew : f ∉ R) (hin : 8 * x.1 ≤ c.bound f) : ∀ y ∈ pre, y.2 < c.bound f := by
  intro y hy
  have hle := (Spaced.middle_iff.mp h.spaced).2.2.2.1 y hy
  have hsmall := c.bound_small (Nat.le_of_lt hf)
  rcases h.lasts y (by simp [hy]) with ⟨hlast, -⟩ | ⟨g, hg, hlast⟩
  · omega
  · have hne : c.bound g ≠ c.bound f := fun heq => hnew
      (c.bound_inj (Nat.le_of_lt (h.members g hg)) (Nat.le_of_lt hf) heq ▸ hg)
    omega

theorem within (h : Received c payload b R s (pre ++ x :: post)) (hf : f < c.count)
    (hnew : f ∉ R) (hin : 8 * x.1 ≤ c.bound f ∧ c.bound (f + 1) ≤ x.2) {id : Nat} {ip : Ptr}
    (hfrag : IsFragment c payload id f ip) : Within pre x post (fragOffset ip) (c.len f) := by
  have hgrow := c.grows f hf
  have hend := hfrag.end_eq hf
  have hoff := hfrag.offset
  refine ⟨h.spaced, fun y hy => ?_, by omega, by omega, fun y hy => ?_⟩
  · rw [hoff]
    exact h.before_lt hf hnew hin.1 y hy
  · have := (Spaced.middle_iff.mp h.spaced).2.2.2.2.1 y hy
    omega

section Put

variable {id : Nat} {ip : Ptr} (hfrag : IsFragment c payload id f ip)

/-- The list after the fragment was put into its hole. -/
def after (c : Cut) (ip : Ptr) (pre : List (Nat × Nat)) (x : Nat × Nat) (post : List (Nat × Nat))
    (f : Nat) : List (Nat × Nat) :=
  fill pre (truncated ip x (c.len f)) post (fragOffset ip) (c.len f)

include hfrag

/-- What the list consists of. -/
theorem mem_after (hf : f < c.count) {y : Nat × Nat} : y ∈ after c ip pre x post f ↔
    (y ∈ pre ∧ (8 * x.1 < c.bound f ∨ seenBefore pre = pre)) ∨
    (y = (x.1, c.bound f) ∧ 8 * x.1 < c.bound f) ∨
    (f + 1 < c.count ∧ 8 * y.1 = c.bound (f + 1) ∧ y.2 = x.2 ∧ c.bound (f + 1) < x.2) ∨
    y ∈ post := by
  have hoff := hfrag.offset
  have hend := hfrag.end_eq hf
  rw [after, mem_fill, hoff, c.bound_add_len hf]
  have hlt : x.1 < fragOffset ip ↔ 8 * x.1 < c.bound f := by omega
  have hrest : (y = (fragOffset ip + c.len f / 8, (truncated ip x (c.len f)).2) ∧
      c.bound (f + 1) < (truncated ip x (c.len f)).2) ↔
      (f + 1 < c.count ∧ 8 * y.1 = c.bound (f + 1) ∧ y.2 = x.2 ∧ c.bound (f + 1) < x.2) := by
    by_cases hmore : f + 1 < c.count
    · obtain ⟨hblock, -, -⟩ := hfrag.next_block hmore
      simp only [truncated, hfrag.more, hmore, decide_true, if_true, true_and, Prod.ext_iff]
      constructor
      · rintro ⟨⟨h1, h2⟩, h3⟩
        exact ⟨by omega, h2, h3⟩
      · rintro ⟨h1, h2, h3⟩
        exact ⟨⟨by omega, h2⟩, h3⟩
    · simp only [truncated, hfrag.more, hmore, decide_false, Bool.false_eq_true, if_false,
        false_and, iff_false, hend]
      omega
  rw [hrest, show (truncated ip x (c.len f)).1 = x.1 from rfl, hlt]

variable (h : Received c payload b R s (pre ++ x :: post)) (hf : f < c.count)
  (hin : 8 * x.1 ≤ c.bound f ∧ c.bound (f + 1) ≤ x.2)

/-- What is not waited for after the fragment: all below it when the hole at
index 0 is lost. -/
def Lost (c : Cut) (pre : List (Nat × Nat)) (x : Nat × Nat) (f b b' : Nat) : Prop :=
  (b' = b ∧ (8 * x.1 < c.bound f ∨ seenBefore pre = pre)) ∨
    (b' = c.bound f ∧ 8 * x.1 = c.bound f ∧ seenBefore pre ≠ pre)

include h hf hin

theorem after_cover {b' : Nat} (hb : Lost c pre x f b b') : ∀ g < c.count, g ∉ f :: R →
    c.bound (g + 1) ≤ b' ∨
      ∃ y ∈ after c ip pre x post f, 8 * y.1 ≤ c.bound g ∧ c.bound (g + 1) ≤ y.2 := by
  intro g hg hgR
  rw [List.mem_cons, not_or] at hgR
  obtain ⟨-, -, -, hbelow, -, -⟩ := Spaced.middle_iff.mp h.spaced
  have hbb : b ≤ b' := by
    have := (h.starts x (by simp)).1
    rcases hb with ⟨rfl, -⟩ | ⟨rfl, -, -⟩ <;> omega
  rcases h.cover g hg hgR.2 with hlow | ⟨y, hy, hy1, hy2⟩
  · exact .inl (by omega)
  · simp only [List.mem_append, List.mem_cons] at hy
    rcases hy with hy | rfl | hy
    · rcases hb with ⟨-, hkept⟩ | ⟨rfl, heq, -⟩
      · exact .inr ⟨y, (mem_after hfrag hf).mpr (.inl ⟨hy, hkept⟩), hy1, hy2⟩
      · have := hbelow y hy
        exact .inl (by omega)
    · -- the fragment was in the same hole, on one side or the other
      rcases Nat.lt_or_gt_of_ne hgR.1 with hlt | hgt
      · have hle := c.bound_le (show g + 1 ≤ f by omega) (Nat.le_of_lt hf)
        have hgrow := c.grows g hg
        exact .inr ⟨(y.1, c.bound f), (mem_after hfrag hf).mpr (.inr (.inl ⟨rfl, by omega⟩)), hy1,
          hle⟩
      · have hle := c.bound_le (show f + 1 ≤ g by omega) (Nat.le_of_lt hg)
        have hgrow := c.grows g hg
        have hmore : f + 1 < c.count := by omega
        obtain ⟨hblock, -, -⟩ := hfrag.next_block hmore
        exact .inr ⟨(fragOffset ip + c.len f / 8, y.2), (mem_after hfrag hf).mpr
          (.inr (.inr (.inl ⟨hmore, hblock, rfl, by omega⟩))), by rw [hblock]; exact hle, hy2⟩
    · exact .inr ⟨y, (mem_after hfrag hf).mpr (.inr (.inr (.inr hy))), hy1, hy2⟩

theorem after_clear (hnew : f ∉ R) : ∀ g ∈ f :: R, ∀ y ∈ after c ip pre x post f,
    c.bound (g + 1) ≤ 8 * y.1 ∨ y.2 ≤ c.bound g := by
  intro g hg y hy
  obtain ⟨-, -, -, hbelow, habove, -⟩ := Spaced.middle_iff.mp h.spaced
  have hgrow := c.grows f hf
  have hbefore := h.before_lt hf hnew hin.1
  rcases (mem_after hfrag hf).mp hy with ⟨hpre, -⟩ | ⟨rfl, hlt⟩ | ⟨-, hy1, hy2, -⟩ | hpost <;>
    rcases List.mem_cons.mp hg with rfl | hg
  · exact .inr (Nat.le_of_lt (hbefore y hpre))
  · exact h.clear g hg y (by simp [hpre])
  · exact .inr (Nat.le_refl _)
  · rcases h.clear g hg x (by simp) with hcl | hcl
    · exact .inl hcl
    · exact .inr (by dsimp; omega)
  · exact .inl (by omega)
  · rcases h.clear g hg x (by simp) with hcl | hcl
    · exact .inl (by omega)
    · exact .inr (by omega)
  · have := habove y hpost
    exact .inl (by omega)
  · exact h.clear g hg y (by simp [hpost])

theorem after_starts {b' : Nat} (hb : Lost c pre x f b b') : ∀ y ∈ after c ip pre x post f,
    b' ≤ 8 * y.1 ∧ ∃ g < c.count, g ∉ f :: R ∧ c.bound g = 8 * y.1 := by
  intro y hy
  obtain ⟨hspre, -, -, hbelow, habove, -⟩ := Spaced.middle_iff.mp h.spaced
  have hgrow := c.grows f hf
  -- a hole that was there keeps the fragment it starts with
  have hkeep : ∀ z ∈ pre ++ x :: post, 8 * z.1 ≠ c.bound f →
      ∃ g < c.count, g ∉ f :: R ∧ c.bound g = 8 * z.1 := by
    intro z hz hne
    obtain ⟨-, g, hg, hgR, hbound⟩ := h.starts z hz
    refine ⟨g, hg, ?_, hbound⟩
    rw [List.mem_cons, not_or]
    exact ⟨fun heq => hne (by rw [← hbound, heq]), hgR⟩
  have hxb := (h.starts x (by simp)).1
  rcases (mem_after hfrag hf).mp hy with ⟨hy, hk⟩ | ⟨rfl, hlt⟩ | ⟨hmore, hy1, hy2, hlt⟩ | hy
  · have h1 := hbelow y hy
    have h2 := hspre.pos y hy
    have h3 := (h.starts y (by simp [hy])).1
    refine ⟨?_, hkeep y (by simp [hy]) (by omega)⟩
    rcases hb with ⟨rfl, -⟩ | ⟨-, heq, hne⟩
    · exact h3
    · rcases hk with hk | hk
      · omega
      · exact absurd hk hne
  · refine ⟨?_, hkeep x (by simp) (by omega)⟩
    rcases hb with ⟨rfl, -⟩ | ⟨-, heq, -⟩
    · exact hxb
    · omega
  · refine ⟨by rcases hb with ⟨rfl, -⟩ | ⟨rfl, -, -⟩ <;> omega, f + 1, hmore, ?_, hy1.symm⟩
    rw [List.mem_cons, not_or]
    refine ⟨by omega, fun hmem => ?_⟩
    have hgrow' := c.grows (f + 1) hmore
    rcases h.clear (f + 1) hmem x (by simp) with hcl | hcl <;> omega
  · have h1 := habove y hy
    exact ⟨by rcases hb with ⟨rfl, -⟩ | ⟨rfl, -, -⟩ <;> omega, hkeep y (by simp [hy]) (by omega)⟩

theorem after_lasts : ∀ y ∈ after c ip pre x post f,
    (y.2 = 65535 ∧ c.count - 1 ∉ f :: R) ∨ ∃ g ∈ f :: R, y.2 = c.bound g := by
  intro y hy
  obtain ⟨-, -, -, hbelow, habove, -⟩ := Spaced.middle_iff.mp h.spaced
  have hsmall := c.bound_small (Nat.le_of_lt hf)
  -- a hole that was there has not lost its end
  have hkeep : ∀ z ∈ pre ++ x :: post, (z.2 = 65535 → f ≠ c.count - 1) →
      (z.2 = 65535 ∧ c.count - 1 ∉ f :: R) ∨ ∃ g ∈ f :: R, z.2 = c.bound g := by
    intro z hz hlast
    rcases h.lasts z hz with ⟨hz2, hR⟩ | ⟨g, hg, hz2⟩
    · refine .inl ⟨hz2, ?_⟩
      rw [List.mem_cons, not_or]
      exact ⟨fun heq => hlast hz2 heq.symm, hR⟩
    · exact .inr ⟨g, List.mem_cons_of_mem _ hg, hz2⟩
  rcases (mem_after hfrag hf).mp hy with ⟨hy, -⟩ | ⟨rfl, hlt⟩ | ⟨hmore, hy1, hy2, hlt⟩ | hy
  · have h1 := hbelow y hy
    exact hkeep y (by simp [hy]) (by omega)
  · exact .inr ⟨f, List.mem_cons_self, rfl⟩
  · rw [hy2]
    exact hkeep x (by simp) (by omega)
  · refine hkeep y (by simp [hy]) fun _ heq => ?_
    obtain ⟨-, g, hg, -, hbound⟩ := h.starts y (by simp [hy])
    have h1 := habove y hy
    have h2 := c.bound_lt hg (Nat.le_refl _)
    have h3 : c.bound (f + 1) = c.bound c.count := by
      rw [heq, Nat.sub_add_cancel (by have := c.two_le; omega)]
    omega

omit hfrag h hf hin in
/-- Data of a fragment that is clear of a hole is not in its descriptor. -/
theorem outside_of_clear {g p : Nat} (hg : g < c.count) (hp1 : c.bound g ≤ p)
    (hp2 : p < c.bound (g + 1)) {y : Nat × Nat} (hpos : 8 * y.1 < y.2)
    (hclear : c.bound (g + 1) ≤ 8 * y.1 ∨ y.2 ≤ c.bound g) :
    OutsideHole y.1 (IP_HDR_SIZE + p) := by
  have haligned := c.aligned g hg
  simp only [OutsideHole, holePos]
  omega

/-- The fragment was received as well. -/
theorem put {b' : Nat} (hb : Lost c pre x f b b') (hnew : f ∉ R) {s' : Reasm}
    {result : Option Nat} (hspaced : Spaced (after c ip pre x post f))
    (hacc : Accepted s ip (c.len f) (pre ++ x :: post) (after c ip pre x post f) s' result) :
    Received c payload b' (f :: R) s' (after c ip pre x post f) := by
  have hclear := after_clear hfrag h hf hin hnew
  have hbb : b ≤ b' := by
    have := (h.starts x (by simp)).1
    rcases hb with ⟨rfl, -⟩ | ⟨rfl, -, -⟩ <;> omega
  refine ⟨hspaced, ?_, after_cover hfrag h hf hin hb, hclear, after_starts hfrag h hf hin hb,
    after_lasts hfrag h hf hin, ?_, ?_⟩
  · intro g hg
    rcases List.mem_cons.mp hg with rfl | hg
    exacts [hf, h.members g hg]
  · have htwo := c.two_le
    rw [hacc.totalLen, hfrag.more, h.totalLen]
    by_cases hmore : f + 1 < c.count
    · have hne : ¬c.count - 1 = f := by omega
      simp [hmore, hne]
    · have heq : c.count - 1 = f := by omega
      have hcount : f + 1 = c.count := by omega
      simp [heq, hfrag.end_eq hf, hcount]
  · intro g hg hgb p hp1 hp2
    rcases List.mem_cons.mp hg with rfl | hgR
    · have hdata := hacc.data (p - c.bound g) (by rw [Cut.len]; omega)
      rw [hfrag.offset, hfrag.data _ (by rw [Cut.len]; omega), Nat.add_assoc,
        Nat.add_sub_cancel' hp1] at hdata
      exact hdata
    · have hgc := h.members g hgR
      rw [hacc.outside, h.data g hgR (by omega) p hp1 hp2]
      · intro y hy
        rcases List.mem_append.mp hy with hy | hy
        · exact outside_of_clear hgc hp1 hp2 (h.spaced.pos y hy) (h.clear g hgR y hy)
        · exact outside_of_clear hgc hp1 hp2 (hspaced.pos y hy) (hclear g hg y hy)
      · rw [Nat.add_assoc, hfrag.end_eq hf, hfrag.offset]
        rcases Nat.lt_trichotomy g f with hlt | rfl | hgt
        · have := c.bound_le (show g + 1 ≤ f by omega) (Nat.le_of_lt hf)
          omega
        · exact absurd hgR hnew
        · have := c.bound_le (show f + 1 ≤ g by omega) (Nat.le_of_lt hgc)
          omega
      · simp only [IP_HDR_SIZE]
        omega

end Put

end Received

/-! ### Runs -/

/-- The state after the fragments in `R`: the packet is still to be started, or
its holes are tracked. -/
def Tracks (c : Cut) (payload : Nat → UInt8) (id b : Nat) (R : List Nat) (s : Reasm) : Prop :=
  (R = [] ∧ b = 0 ∧ (s.totalLen = 0 ∨ ipId s.pktBuff ≠ id)) ∨
    ∃ L, L ≠ [] ∧ Holes s L ∧ ipId s.pktBuff = id ∧ Received c payload b R s L

section Step

variable {c : Cut} {payload : Nat → UInt8} {id b f : Nat} {R : List Nat} {s : Reasm} {ip : Ptr}

theorem ipId_congr {p p' : Ptr} (h : ∀ q < IP_HDR_SIZE, q ≠ 2 ∧ q ≠ 3 → p' q = p q) :
    ipId p' = ipId p := by
  simp only [ipId, be16]
  rw [h 4 (by decide) (by decide), h 5 (by decide) (by decide)]

/-- Before anything is received there is one hole. -/
theorem received_nil (c : Cut) (payload : Nat → UInt8) {s : Reasm} (hs : s.totalLen = 65535) :
    Received c payload 0 [] s [(0, 65535)] where
  spaced := ⟨by simp, List.pairwise_singleton ..⟩
  members := by simp
  cover f hf _ := by
    have := c.bound_small (show f + 1 ≤ c.count by omega)
    exact .inr ⟨_, List.mem_singleton_self _, by simp, by dsimp; omega⟩
  clear := by simp
  starts x hx := by
    have := c.two_le
    rw [List.mem_singleton.mp hx]
    exact ⟨Nat.zero_le _, 0, by omega, by simp, c.zero⟩
  lasts x hx := by
    rw [List.mem_singleton.mp hx]
    exact .inl ⟨rfl, by simp⟩
  totalLen := by simp [hs]
  data := by simp

theorem Received.not_new {L : List (Nat × Nat)} (h : Received c payload b R s L)
    (hsid : ipId s.pktBuff = id) (hid : ipId ip = id) : ¬NewPacket s ip := by
  have hpos := c.bound_lt (show 0 < c.count from Nat.lt_of_lt_of_le (by decide) c.two_le)
    (Nat.le_refl _)
  rw [NewPacket, h.totalLen, hsid, hid]
  rintro (hzero | hne)
  · split at hzero <;> omega
  · exact hne rfl

/-- The list of holes that a fragment meets. -/
theorem Tracks.current (h : Tracks c payload id b R s) (hid : ipId ip = id) :
    ∃ s₁ L, currentPacket s ip = some s₁ ∧ L ≠ [] ∧ Holes s₁ L ∧ ipId s₁.pktBuff = id ∧
      Received c payload b R s₁ L := by
  rcases h with ⟨rfl, rfl, hnew⟩ | ⟨L, hne, hholes, hsid, hrec⟩
  · obtain ⟨s₁, hstart, hholes, htotal, hheader⟩ := startPacket_spec s ip
    refine ⟨s₁, _, ?_, List.cons_ne_nil _ _, hholes, ?_, received_nil c payload htotal⟩
    · rw [currentPacket, if_pos (by rw [NewPacket, hid]; exact hnew), hstart]
    · rw [ipId_congr fun q hq _ => hheader q hq, hid]
  · exact ⟨s, L, if_neg (hrec.not_new hsid hid), hne, hholes, hsid, hrec⟩

/-- What one fragment does: it is returned with, or the rest is tracked. -/
def Steps (c : Cut) (payload : Nat → UInt8) (id b : Nat) (R : List Nat) (s : Reasm) (ip : Ptr) :
    Prop :=
  ∃ s' L, defragment s ip =
      some (s', if L = [] then some (s'.totalLen + IP_HDR_SIZE) else none) ∧
    Received c payload b R s' L ∧ (L ≠ [] → Tracks c payload id b R s')

theorem Tracks.steps_within (h : Tracks c payload id b R s) (hfrag : IsFragment c payload id f ip)
    (hf : f < c.count) (hnew : f ∉ R) (hwait : b < c.bound (f + 1)) {b' : Nat}
    (hb : ∀ s₁ pre x post, Holes s₁ (pre ++ x :: post) →
      Received c payload b R s₁ (pre ++ x :: post) →
      8 * x.1 ≤ c.bound f ∧ c.bound (f + 1) ≤ x.2 → Received.Lost c pre x f b b') :
    Steps c payload id b' (f :: R) s ip := by
  obtain ⟨s₁, L, hcurrent, hne, hholes, hsid, hrec⟩ := h.current hfrag.id
  obtain ⟨x, hx, hin⟩ := (hrec.cover f hf hnew).resolve_left (by omega)
  obtain ⟨pre, post, rfl⟩ := List.append_of_mem hx
  obtain ⟨s', result, hdef, hacc, hspaced⟩ := defragment_within (hfrag.not_tooFar hf) hcurrent
    hholes hfrag.fragLen_eq (hrec.within hf hnew hin hfrag) fun hmore _ => by
      rw [hfrag.more, decide_eq_true_eq] at hmore
      obtain ⟨-, hmod, hroom⟩ := hfrag.next_block hmore
      rw [hfrag.end_eq hf]
      exact ⟨hmod, hroom⟩
  have hput := hrec.put hfrag hf hin (hb s₁ pre x post hholes hrec hin) hnew hspaced hacc
  refine ⟨s', _, by rw [hdef, hacc.result]; rfl, hput, fun hne' => .inr ⟨_, hne',
    hacc.holes hne', ?_, hput⟩⟩
  rw [← hsid]
  refine ipId_congr fun q hq hq23 => hacc.outside q (fun y _ => ?_) (.inl (by omega))
    fun _ => hq23
  exact .inl (by simp only [holePos]; omega)

theorem Received.skip {L : List (Nat × Nat)} (h : Received c payload b R s L) (hne : L ≠ [])
    (hf : f < c.count) (hlow : c.bound (f + 1) ≤ b) : Received c payload b (f :: R) s L := by
  have hgrow := c.grows f hf
  -- there is a hole behind, so this is not the last fragment
  have hlast : ∀ g < c.count, b ≤ c.bound g → g ≠ f ∧ c.count - 1 ≠ f := by
    intro g hg hbg
    have := c.lt_of_bound_lt (Nat.le_of_lt hf) (show c.bound f < c.bound g by omega)
    omega
  have hnot : c.count - 1 ≠ f := by
    obtain ⟨x, hx⟩ := List.exists_mem_of_ne_nil L hne
    obtain ⟨hb, g, hg, -, hbound⟩ := h.starts x hx
    exact (hlast g hg (by omega)).2
  refine ⟨h.spaced, fun g hg => ?_, fun g hg hgR => ?_, fun g hg x hx => ?_, fun x hx => ?_,
    fun x hx => ?_, ?_, fun g hg hgb => ?_⟩
  · rcases List.mem_cons.mp hg with rfl | hg
    exacts [hf, h.members g hg]
  · exact h.cover g hg fun hmem => hgR (List.mem_cons_of_mem _ hmem)
  · rcases List.mem_cons.mp hg with rfl | hg
    · exact .inl (Nat.le_trans hlow (h.starts x hx).1)
    · exact h.clear g hg x hx
  · obtain ⟨hb, g, hg, hgR, hbound⟩ := h.starts x hx
    refine ⟨hb, g, hg, ?_, hbound⟩
    rw [List.mem_cons, not_or]
    exact ⟨(hlast g hg (by omega)).1, hgR⟩
  · rcases h.lasts x hx with ⟨hx2, hR⟩ | ⟨g, hg, hx2⟩
    · refine .inl ⟨hx2, ?_⟩
      rw [List.mem_cons, not_or]
      exact ⟨hnot, hR⟩
    · exact .inr ⟨g, List.mem_cons_of_mem _ hg, hx2⟩
  · rw [h.totalLen]
    simp [hnot]
  · rcases List.mem_cons.mp hg with rfl | hg
    · omega
    · exact h.data g hg hgb

/-- A fragment that is not waited for is dropped. -/
theorem Tracks.steps_below (h : Tracks c payload id b R s) (hfrag : IsFragment c payload id f ip)
    (hf : f < c.count) (hlow : c.bound (f + 1) ≤ b) :
    defragment s ip = some (s, none) ∧ Tracks c payload id b (f :: R) s := by
  have hgrow := c.grows f hf
  obtain ⟨L, hne, hholes, hsid, hrec⟩ := h.resolve_left fun hnil => by omega
  refine ⟨?_, .inr ⟨L, hne, hholes, hsid, hrec.skip hne hf hlow⟩⟩
  obtain ⟨x, rest, rfl⟩ := List.exists_cons_of_ne_nil hne
  obtain ⟨hb, g, hg, -, hbound⟩ := hrec.starts x List.mem_cons_self
  have hpos := hrec.spaced.pos x List.mem_cons_self
  have hmore : f + 1 < c.count := by
    have := c.lt_of_bound_lt (Nat.le_of_lt hf) (show c.bound f < c.bound g by omega)
    omega
  obtain ⟨hblock, hmod, -⟩ := hfrag.next_block hmore
  have hoff := hfrag.offset
  rw [defragment_eq (hfrag.not_tooFar hf) (if_neg (hrec.not_new hsid hfrag.id)) hholes hne,
    List.find?_cons, decide_eq_true (show fragOffset ip * 8 ≤ x.2 by omega)]
  refine if_pos ?_
  rw [Beyond, hfrag.fragLen_eq, Int.tdiv_eq_ediv_of_nonneg (by omega)]
  omega

/-! ### When the first hole is lost -/

theorem seenBefore_of_pos {pre : List (Nat × Nat)} (h : ∀ y ∈ pre, y.1 ≠ 0) :
    seenBefore pre = pre := by
  by_cases hpre : pre = []
  · rw [hpre]
    rfl
  · obtain ⟨y, hy, heq⟩ := lastIndex_mem 0 hpre
    exact seenBefore_of_ne (heq ▸ h y hy)

/-- Only a hole at index 0 is not seen, and it is the first one. -/
theorem eq_singleton_of_lost {pre : List (Nat × Nat)}
    (hsorted : pre.Pairwise fun x y => x.1 < y.1) (h : seenBefore pre ≠ pre) :
    ∃ last, pre = [(0, last)] := by
  have hlast : lastIndex 0 pre = 0 := by
    by_contra hne
    exact h (seenBefore_of_ne hne)
  obtain ⟨M, A, rfl⟩ := (List.eq_nil_or_concat pre).resolve_left (by rintro rfl; exact h rfl)
  rw [List.concat_eq_append, lastIndex_append] at hlast
  have hA : A.1 = 0 := hlast
  cases M with
  | nil => exact ⟨A.2, by rw [← hA]; rfl⟩
  | cons y M =>
    have := (List.pairwise_append.mp (List.concat_eq_append ▸ hsorted)).2.2 y
      List.mem_cons_self A (by simp)
    omega

namespace Received

variable {pre post : List (Nat × Nat)} {x : Nat × Nat}

/-- When a hole is lost, the fragment continues the lowest run. -/
theorem continues_of_lost (h : Received c payload 0 R s (pre ++ x :: post))
    (hholes : Holes s (pre ++ x :: post)) (hf : f < c.count) (hnew : f ∉ R)
    (hx : 8 * x.1 = c.bound f) (hlost : seenBefore pre ≠ pre) : 0 ∉ R ∧ Continues R f := by
  obtain ⟨a, rfl⟩ := eq_singleton_of_lost hholes.around.beforeSorted hlost
  obtain ⟨-, -, -, hbelow, habove, -⟩ := Spaced.middle_iff.mp h.spaced
  have hax := hbelow (0, a) (by simp)
  have hsmall := c.bound_small (Nat.le_of_lt hf)
  refine ⟨fun h0 => ?_, ?_⟩
  · have hgrow : c.bound 0 < c.bound 1 := c.grows 0 (h.members 0 h0)
    have hpos : 8 * 0 < a := h.spaced.pos (0, a) (by simp)
    have hclear : c.bound 1 ≤ 8 * 0 ∨ a ≤ c.bound 0 := h.clear 0 h0 (0, a) (by simp)
    have hzero := c.zero
    omega
  · rcases h.lasts (0, a) (by simp) with ⟨hlast, -⟩ | ⟨g, hg, hlast⟩
    · dsimp at hlast hax
      omega
    · dsimp at hlast hax
      have hgc := h.members g hg
      -- the hole at index 0 ends with the lowest fragment received
      refine ⟨g, hg, fun j hj => ?_, ?_, fun j hgj hjf => ?_⟩
      · have hjc := h.members j hj
        have hgrow := c.grows j hjc
        rcases h.clear j hj (0, a) (by simp) with hc | hc
        · dsimp at hc
          omega
        · by_contra hlt
          have := c.bound_lt (Nat.lt_of_not_le hlt) (Nat.le_of_lt hgc)
          dsimp at hc
          omega
      · by_contra hge
        rcases Nat.eq_or_lt_of_le (Nat.le_of_not_lt hge) with rfl | hlt
        · exact hnew hg
        · have := c.bound_lt hlt (Nat.le_of_lt hgc)
          omega
      · by_contra hjR
        have hjc : j < c.count := by omega
        have hgrow := c.grows j hjc
        have hgj := c.bound_le hgj (Nat.le_of_lt hjc)
        have hjf := c.bound_lt hjf (Nat.le_of_lt hf)
        obtain ⟨y, hy, hy1, hy2⟩ := (h.cover j hjc hjR).resolve_left (by omega)
        simp only [List.cons_append, List.nil_append, List.mem_cons] at hy
        rcases hy with rfl | rfl | hy
        · dsimp at hy2
          omega
        · omega
        · have := habove y hy
          have := h.spaced.pos x (by simp)
          omega

/-- A fragment that continues the lowest run starts the second hole. -/
theorem lost_of_continues (h : Received c payload 0 R s (pre ++ x :: post)) (hf : f < c.count)
    (hin : 8 * x.1 ≤ c.bound f ∧ c.bound (f + 1) ≤ x.2) (h0 : 0 ∉ R) (hcont : Continues R f) :
    8 * x.1 = c.bound f ∧ seenBefore pre ≠ pre := by
  obtain ⟨m, hm, hmin, hmf, hrun⟩ := hcont
  obtain ⟨-, -, -, hbelow, habove, -⟩ := Spaced.middle_iff.mp h.spaced
  have hgrow := c.grows f hf
  have hxpos := h.spaced.pos x (by simp)
  have hstart : 8 * x.1 = c.bound f := by
    have hprev := hrun (f - 1) (by omega) (by omega)
    have hlt := c.bound_lt (show f - 1 < f by omega) (Nat.le_of_lt hf)
    have hclear := h.clear (f - 1) hprev x (by simp)
    rw [Nat.sub_add_cancel (by omega)] at hclear
    omega
  have hfpos := c.bound_lt (show 0 < f by omega) (Nat.le_of_lt hf)
  refine ⟨hstart, fun hkept => ?_⟩
  -- the first fragment is in the hole at index 0, which is before
  obtain ⟨y, hy, hy1, hy2⟩ := (h.cover 0 (by omega) h0).resolve_left (by
    have := c.grows 0 (by omega)
    omega)
  rw [c.zero] at hy1 hfpos
  have hypre : y ∈ pre := by
    simp only [List.mem_append, List.mem_cons] at hy
    rcases hy with hy | rfl | hy
    · exact hy
    · omega
    · have := habove y hy
      omega
  have hne : pre ≠ [] := by
    rintro rfl
    cases hypre
  obtain ⟨z, hz, hzeq⟩ := lastIndex_mem 0 hne
  have hzpos : z.1 ≠ 0 := by
    rw [← hzeq]
    intro hzero
    rw [seenBefore_of_eq hzero] at hkept
    exact hne hkept.symm
  -- the last hole before would start with a fragment below the run
  obtain ⟨-, j, hj, hjR, hjz⟩ := h.starts z (by simp [hz])
  have hzx := hbelow z hz
  have hzpos' := h.spaced.pos z (by simp [hz])
  have hjf : j < f := c.lt_of_bound_lt (Nat.le_of_lt hj) (by omega)
  have hjm : j < m := by
    by_contra hge
    exact hjR (hrun j (by omega) hjf)
  have hj0 : 0 < j := by
    rcases Nat.eq_zero_or_pos j with rfl | hpos
    · rw [c.zero] at hjz
      omega
    · exact hpos
  have hprevR : j - 1 ∉ R := fun hmem => by
    have := hmin _ hmem
    omega
  have hprevlt := c.bound_lt (show j - 1 < j by omega) (Nat.le_of_lt hj)
  obtain ⟨w, hw, hw1, hw2⟩ := (h.cover (j - 1) (by omega) hprevR).resolve_left (by
    rw [Nat.sub_add_cancel hj0]
    omega)
  rw [Nat.sub_add_cancel hj0] at hw2
  have hwz : w ≠ z := by
    rintro rfl
    omega
  have hsmall := c.bound_small (Nat.le_of_lt hj)
  have hzL : z ∈ pre ++ x :: post := by simp [hz]
  rcases h.spaced.apart_of_ne hw hzL hwz with hle | hle
  · rcases h.lasts w hw with ⟨hlast, -⟩ | ⟨g, hg, hlast⟩
    · omega
    · exact hjR (c.bound_inj (Nat.le_of_lt (h.members g hg)) (Nat.le_of_lt hj) (by omega) ▸ hg)
  · omega

end Received

/-- In a good order nothing is lost. -/
theorem Tracks.steps_good (h : Tracks c payload id 0 R s) (hfrag : IsFragment c payload id f ip)
    (hf : f < c.count) (hnew : f ∉ R) (hgood : 0 ∈ R ∨ ¬Continues R f) :
    Steps c payload id 0 (f :: R) s ip := by
  refine h.steps_within hfrag hf hnew (by have := c.grows f hf; omega)
    fun s₁ pre x post hholes hrec hin => .inl ⟨rfl, ?_⟩
  by_contra hlost
  rw [not_or] at hlost
  obtain ⟨h0, hcont⟩ := hrec.continues_of_lost hholes hf hnew (by omega) hlost.2
  rcases hgood with hgood | hgood
  exacts [h0 hgood, hgood hcont]

theorem Tracks.steps_bad (h : Tracks c payload id 0 R s) (hfrag : IsFragment c payload id f ip)
    (hf : f < c.count) (hnew : f ∉ R) (h0 : 0 ∉ R) (hcont : Continues R f) :
    Steps c payload id (c.bound f) (f :: R) s ip :=
  h.steps_within hfrag hf hnew (by have := c.grows f hf; omega)
    fun _ _ _ _ _ hrec hin => .inr ⟨rfl, hrec.lost_of_continues hf hin h0 hcont⟩

/-- After the loss the holes have other indices than 0. -/
theorem Tracks.steps_late (h : Tracks c payload id b R s) (hb : 0 < b)
    (hfrag : IsFragment c payload id f ip) (hf : f < c.count) (hnew : f ∉ R) :
    Steps c payload id b (f :: R) s ip := by
  by_cases hlow : c.bound (f + 1) ≤ b
  · obtain ⟨hdef, htracks⟩ := h.steps_below hfrag hf hlow
    obtain ⟨L, hne, -, -, hrec⟩ := htracks.resolve_left fun hnil => by omega
    exact ⟨s, L, by rw [hdef, if_neg hne], hrec, fun _ => htracks⟩
  · refine h.steps_within hfrag hf hnew (by omega)
      fun s₁ pre x post hholes hrec hin => .inl ⟨rfl, .inr (seenBefore_of_pos fun y hy => ?_)⟩
    have := (hrec.starts y (by simp [hy])).1
    omega

end Step

end UBoot.Net
