import Mathlib.Data.List.Basic

/-!
# Records one behind the other

The records of a block stand at offsets, each as long as it says, and together they cover
the block. A record can be cut in two, or take the place of the one behind it, without the
others being moved.
-/

namespace Verification

/-- The records at the given offsets cover the place from `start` to `stop`. -/
inductive Covers (len : Nat → Nat) (stop : Nat) : Nat → List Nat → Prop
  | nil : Covers len stop stop []
  | cons {start : Nat} {offs : List Nat} : 0 < len start →
      Covers len stop (start + len start) offs → Covers len stop start (start :: offs)

namespace Covers

variable {len len' : Nat → Nat} {start mid stop a c : Nat} {offs xs ys : List Nat}

theorem le (h : Covers len stop start offs) : start ≤ stop := by
  induction h with
  | nil => exact Nat.le_refl stop
  | cons hpos _ ih => omega

theorem eq_of_nil (h : Covers len stop start []) : start = stop := by
  cases h
  rfl

/-- Each record lies in the place that is covered. -/
theorem bounds (h : Covers len stop start offs) (hc : c ∈ offs) :
    start ≤ c ∧ c + len c ≤ stop := by
  induction h with
  | nil => exact absurd hc List.not_mem_nil
  | @cons start offs hpos hrest ih =>
    rcases List.mem_cons.mp hc with rfl | hc
    · exact ⟨Nat.le_refl c, hrest.le⟩
    · have := ih hc
      omega

theorem congr (h : Covers len stop start offs) (hlen : ∀ c ∈ offs, len' c = len c) :
    Covers len' stop start offs := by
  induction h with
  | nil => exact nil
  | @cons start offs hpos _ ih =>
    have heq := hlen start List.mem_cons_self
    refine cons (heq ▸ hpos) ?_
    rw [heq]
    exact ih fun c hc => hlen c (List.mem_cons_of_mem start hc)

theorem append (h : Covers len mid start xs) (hrest : Covers len stop mid ys) :
    Covers len stop start (xs ++ ys) := by
  induction h with
  | nil => exact hrest
  | cons hpos _ ih => exact cons hpos ih

/-- The records in front of one and those behind it. -/
theorem of_append_cons (h : Covers len stop start (xs ++ a :: ys)) :
    Covers len a start xs ∧ 0 < len a ∧ Covers len stop (a + len a) ys := by
  induction xs generalizing start with
  | nil =>
    rw [List.nil_append] at h
    cases h with
    | cons hpos hrest => exact ⟨nil, hpos, hrest⟩
  | cons x xs ih =>
    rw [List.cons_append] at h
    cases h with
    | cons hpos hrest =>
      obtain ⟨hbefore, hbehind⟩ := ih hrest
      exact ⟨cons hpos hbefore, hbehind⟩

/-- Another record does not reach into a record. -/
theorem disjoint (h : Covers len stop start (xs ++ a :: ys)) (hc : c ∈ xs ∨ c ∈ ys) :
    c + len c ≤ a ∨ a + len a ≤ c := by
  obtain ⟨hbefore, -, hbehind⟩ := h.of_append_cons
  exact hc.imp (fun hc => (hbefore.bounds hc).2) fun hc => (hbehind.bounds hc).1

/-- A record is cut in two. -/
theorem cut (h : Covers len stop start (xs ++ a :: ys)) (hpos : 0 < len' a)
    (hpos' : 0 < len' (a + len' a)) (hcut : len' a + len' (a + len' a) = len a)
    (hlen : ∀ c, c ∈ xs ∨ c ∈ ys → len' c = len c) :
    Covers len' stop start (xs ++ a :: (a + len' a) :: ys) := by
  obtain ⟨hbefore, -, hbehind⟩ := h.of_append_cons
  refine (hbefore.congr fun c hc => hlen c (Or.inl hc)).append (cons hpos (cons hpos' ?_))
  rw [Nat.add_assoc, hcut]
  exact hbehind.congr fun c hc => hlen c (Or.inr hc)

/-- A record takes the place of the one behind it. -/
theorem merge {p : Nat} (h : Covers len stop start (xs ++ p :: a :: ys))
    (hmerge : len' p = len p + len a) (hlen : ∀ c, c ∈ xs ∨ c ∈ ys → len' c = len c) :
    Covers len' stop start (xs ++ p :: ys) := by
  obtain ⟨hbefore, hpos, hrest⟩ := h.of_append_cons
  obtain ⟨hnone, -, hbehind⟩ := (show Covers len stop (p + len p) ([] ++ a :: ys) from
    hrest).of_append_cons
  obtain rfl := hnone.eq_of_nil
  refine (hbefore.congr fun c hc => hlen c (Or.inl hc)).append (cons (by omega) ?_)
  rw [hmerge, ← Nat.add_assoc]
  exact hbehind.congr fun c hc => hlen c (Or.inr hc)

end Covers

end Verification
