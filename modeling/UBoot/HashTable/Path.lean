import Mathlib.Algebra.Field.ZMod
import Mathlib.Data.List.Iterate
import Mathlib.Data.Nat.Prime.Basic
import Mathlib.Order.Interval.Finset.Nat
import Mathlib.Tactic.Linarith
import Mathlib.Tactic.Ring
import UBoot.HashTable.Basic

/-!
# The slots tried for a key

`hcreate_r` makes tables of prime size, except that it takes one for a prime and
three for none. For a prime size the probe sequence steps through all slots
before it returns to the first.
-/

namespace UBoot.HashTable

/-! ### The size of a table -/

/-- The loop leaves `div` where it first divides, or at a square that is large
enough; no smaller odd number divides. -/
theorem isprimeLoop_spec {number : Nat} (hsmall : number < 268435456) (fuel div : Nat)
    (hodd : div % 2 = 1) (hthree : 3 ≤ div) (hbound : div < 32768)
    (hnone : ∀ d, d % 2 = 1 → 3 ≤ d → d < div → number % d ≠ 0) {result : Nat}
    (h : isprimeLoop number fuel div = some result) :
    (number % result = 0 ∨ number ≤ result * result) ∧ 3 ≤ result ∧
      ∀ d, d % 2 = 1 → 3 ≤ d → d < result → number % d ≠ 0 := by
  induction fuel generalizing div with
  | zero => simp [isprimeLoop] at h
  | succ fuel ih =>
    have hsquare : div * div < 4294967296 := by nlinarith
    rw [isprimeLoop, Nat.mod_eq_of_lt hsquare] at h
    split at h
    · rename_i hgo
      have hroot : div < 16384 := by nlinarith
      rw [Nat.mod_eq_of_lt (by omega)] at h
      refine ih (div + 2) (by omega) (by omega) (by omega) ?_ h
      intro d hd hd3 hlt
      rcases Nat.lt_or_ge d div with hlow | hge
      · exact hnone d hd hd3 hlow
      · obtain rfl : d = div := by omega
        exact hgo.2
    · rename_i hstop
      rw [Option.some.injEq] at h
      subst h
      exact ⟨by omega, hthree, hnone⟩

/-- An odd number that passes the test is prime, or one. -/
theorem prime_of_isprime {number : Nat} (hsmall : number < 268435456) (hodd : number % 2 = 1)
    (h : isprime number = some true) : number = 1 ∨ number.Prime := by
  obtain ⟨div, hloop, hdiv⟩ := Option.bind_eq_some_iff.mp h
  rw [Option.pure_def, Option.some.injEq, decide_eq_true_eq] at hdiv
  obtain ⟨hend, hthree, hnone⟩ := isprimeLoop_spec hsmall _ 3 rfl (by omega) (by omega)
    (fun d _ h3 hlt => absurd h3 (by omega)) hloop
  by_contra hcon
  rw [not_or] at hcon
  -- the smallest factor is odd, and its square is at most the number
  have hmin : number.minFac ∣ number := Nat.minFac_dvd number
  have hsq : number.minFac ^ 2 ≤ number :=
    Nat.minFac_sq_le_self (by omega) hcon.2
  have hfac : number.minFac.Prime := Nat.minFac_prime hcon.1
  have hminodd : number.minFac % 2 = 1 := by
    rcases Nat.mod_two_eq_zero_or_one number.minFac with heven | hodd'
    · have : 2 ∣ number := (Nat.dvd_of_mod_eq_zero heven).trans hmin
      omega
    · exact hodd'
  have htwo := hfac.two_le
  have hge : div ≤ number.minFac := by
    by_contra hlt
    exact hnone _ hminodd (by omega) (by omega) (Nat.mod_eq_zero_of_dvd hmin)
  have hne : number.minFac ≠ div := by
    rintro heq
    exact hdiv (heq ▸ Nat.mod_eq_zero_of_dvd hmin)
  have hlarge : number ≤ div * div := hend.resolve_left hdiv
  have hgt : div < number.minFac := Nat.lt_of_le_of_ne hge (Ne.symm hne)
  nlinarith

/-- A size that `hcreate_r` can give a table. -/
def SizeOk (size : Nat) : Prop := size = 1 ∨ (size.Prime ∧ 5 ≤ size ∧ size < 268435456)

theorem isprime_three : isprime 3 = some false := by decide

theorem primeLoop_spec (fuel nel : Nat) (hodd : nel % 2 = 1) {size : Nat}
    (h : primeLoop fuel nel = some size) : size % 2 = 1 ∧ isprime size = some true := by
  induction fuel generalizing nel with
  | zero => simp [primeLoop] at h
  | succ fuel ih =>
    obtain ⟨b, hb, h⟩ := Option.bind_eq_some_iff.mp h
    cases b with
    | true =>
      rw [if_pos rfl, Option.pure_def, Option.some.injEq] at h
      exact ⟨h ▸ hodd, h ▸ hb⟩
    | false =>
      rw [if_neg (by decide)] at h
      exact ih _ (by omega) h

theorem hcreateR_sizeOk {nel : Nat} {htab htab' : HsearchData} {callocOk : Bool}
    (h : hcreateR nel htab callocOk = some (1, htab')) :
    SizeOk htab'.size ∧ htab'.filled = 0 ∧ htab'.changeOk = htab.changeOk ∧
      (∀ i, htab'.table i = Slot.zero) := by
  rw [hcreateR] at h
  split at h
  · simp at h
  · obtain ⟨size, hsize, h⟩ := Option.bind_eq_some_iff.mp h
    obtain ⟨hodd, hprime⟩ := primeLoop_spec _ _ (by simp [Nat.or_mod_two_eq_one]) hsize
    split at h
    · rename_i hfit
      simp only [Option.pure_def, Option.some.injEq, Prod.mk.injEq, true_and] at h
      subst h
      refine ⟨?_, rfl, rfl, fun _ => rfl⟩
      have hsmall : size < 268435456 := by
        have := hfit.2
        simp only [ENTRY_BYTES] at this
        omega
      rcases prime_of_isprime hsmall hodd hprime with hone | hp
      · exact .inl hone
      · have htwo := hp.two_le
        have hthree : size ≠ 3 := by
          rintro rfl
          rw [isprime_three] at hprime
          cases hprime
        have hfive : 5 ≤ size := by omega
        exact .inr ⟨hp, hfive, hsmall⟩
    · simp at h

/-! ### The probe sequence -/

/-- The slot tried after another one. -/
abbrev nextSlot (size : Nat) (key : Str) : Nat → Nat :=
  nextIndex size (secondHash size (firstIndex size key))

/-- The slots tried for a key, in order. A table of one slot also looks at slot
zero, which is never used. -/
def path (size : Nat) (key : Str) : List Nat :=
  if size = 1 then [1, 0]
  else List.iterate (nextSlot size key) (firstIndex size key) size

section Prime

variable {size : Nat} (hp : size.Prime) (h5 : 5 ≤ size) (hlt : size < 4294967296)

include hp h5 in
theorem firstIndex_bounds (key : Str) :
    1 ≤ firstIndex size key ∧ firstIndex size key < size := by
  have := Nat.mod_lt (hashValue key) hp.pos
  rw [firstIndex]
  split <;> omega

include h5 hlt in
theorem secondHash_bounds (hval : Nat) :
    1 ≤ secondHash size hval ∧ secondHash size hval < size := by
  have hmod : (size + 4294967296 - 2) % 4294967296 = size - 2 := by omega
  have := Nat.mod_lt hval (show 0 < size - 2 by omega)
  rw [secondHash, hmod]
  omega

include hlt in
theorem nextIndex_bounds {hval2 idx : Nat} (h2 : 1 ≤ hval2 ∧ hval2 < size)
    (hidx : 1 ≤ idx ∧ idx ≤ size) :
    1 ≤ nextIndex size hval2 idx ∧ nextIndex size hval2 idx ≤ size ∧
      ((nextIndex size hval2 idx : Nat) : ZMod size) = idx - hval2 := by
  rw [nextIndex]
  split
  · have hmod : (size + idx + 4294967296 - hval2) % 4294967296 = size + idx - hval2 := by omega
    refine ⟨by omega, by omega, ?_⟩
    rw [hmod, Nat.cast_sub (by omega)]
    push_cast
    rw [ZMod.natCast_self]
    ring
  · refine ⟨by omega, by omega, ?_⟩
    rw [Nat.cast_sub (by omega)]

include hlt in
theorem iterate_nextIndex {hval2 idx : Nat} (h2 : 1 ≤ hval2 ∧ hval2 < size)
    (hidx : 1 ≤ idx ∧ idx ≤ size) (j : Nat) :
    1 ≤ (nextIndex size hval2)^[j] idx ∧ (nextIndex size hval2)^[j] idx ≤ size ∧
      (((nextIndex size hval2)^[j] idx : Nat) : ZMod size) = idx - j * hval2 := by
  induction j with
  | zero => simpa using hidx
  | succ j ih =>
    obtain ⟨hlo, hhi, hval⟩ := ih
    obtain ⟨hlo', hhi', hval'⟩ := nextIndex_bounds hlt h2 ⟨hlo, hhi⟩
    rw [Function.iterate_succ_apply']
    refine ⟨hlo', hhi', ?_⟩
    rw [hval', hval]
    push_cast
    ring

include hp hlt in
/-- Two probes fall on the same slot only a multiple of the size apart. -/
theorem iterate_nextIndex_eq_iff {hval2 idx : Nat} (h2 : 1 ≤ hval2 ∧ hval2 < size)
    (hidx : 1 ≤ idx ∧ idx ≤ size) (a b : Nat) :
    (nextIndex size hval2)^[a] idx = (nextIndex size hval2)^[b] idx ↔ a ≡ b [MOD size] := by
  obtain ⟨ha1, ha2, ha⟩ := iterate_nextIndex hlt h2 hidx a
  obtain ⟨hb1, hb2, hb⟩ := iterate_nextIndex hlt h2 hidx b
  have : Fact size.Prime := ⟨hp⟩
  have hne : (hval2 : ZMod size) ≠ 0 := by
    rw [Ne, ZMod.natCast_eq_zero_iff]
    exact Nat.not_dvd_of_pos_of_lt h2.1 h2.2
  -- slots are equal when they are congruent, both being between 1 and the size
  have hcast : (nextIndex size hval2)^[a] idx = (nextIndex size hval2)^[b] idx ↔
      (((nextIndex size hval2)^[a] idx : Nat) : ZMod size) =
        (((nextIndex size hval2)^[b] idx : Nat) : ZMod size) := by
    refine ⟨fun h => by rw [h], fun h => ?_⟩
    rw [ZMod.natCast_eq_natCast_iff] at h
    have h1 : (nextIndex size hval2)^[a] idx - 1 ≡ (nextIndex size hval2)^[b] idx - 1
        [MOD size] := by
      apply Nat.ModEq.add_right_cancel' 1
      rwa [Nat.sub_add_cancel ha1, Nat.sub_add_cancel hb1]
    have := h1.eq_of_lt_of_lt (by omega) (by omega)
    omega
  rw [hcast, ha, hb, ← ZMod.natCast_eq_natCast_iff]
  constructor
  · intro h
    have : (a : ZMod size) * hval2 = b * hval2 := sub_right_injective h
    exact mul_right_cancel₀ hne this
  · intro h
    rw [h]

include hp h5 hlt in
theorem mem_path_iff (key : Str) (i : Nat) : i ∈ path size key ↔ 1 ≤ i ∧ i ≤ size := by
  have h2 := secondHash_bounds h5 hlt (firstIndex size key)
  have hfirst := firstIndex_bounds hp h5 key
  have hidx : 1 ≤ firstIndex size key ∧ firstIndex size key ≤ size := by omega
  rw [path, if_neg (by omega), ← List.range_map_iterate, List.mem_map]
  constructor
  · rintro ⟨j, -, rfl⟩
    obtain ⟨h1, h2, -⟩ := iterate_nextIndex hlt h2 hidx j
    exact ⟨h1, h2⟩
  · rintro ⟨hlo, hhi⟩
    -- as many probes as slots, and no slot twice
    have hmaps : ∀ j ∈ Finset.range size,
        (nextSlot size key)^[j] (firstIndex size key) ∈ Finset.Icc 1 size := by
      intro j _
      obtain ⟨h1, h2, -⟩ := iterate_nextIndex hlt h2 hidx j
      exact Finset.mem_Icc.mpr ⟨h1, h2⟩
    have hinj : Set.InjOn (fun j => (nextSlot size key)^[j] (firstIndex size key))
        (Finset.range size) := by
      intro a ha b hb hab
      have := (iterate_nextIndex_eq_iff hp hlt h2 hidx a b).mp hab
      exact this.eq_of_lt_of_lt (by simpa using ha) (by simpa using hb)
    obtain ⟨j, hj, hji⟩ := Finset.surj_on_of_inj_on_of_card_le
      (fun j _ => (nextSlot size key)^[j] (firstIndex size key)) hmaps
      (fun a b ha hb => hinj ha hb) (by simp) i (Finset.mem_Icc.mpr ⟨hlo, hhi⟩)
    exact ⟨j, by simpa using hj, hji.symm⟩

end Prime

theorem SizeOk.path_head? {size : Nat} (h : SizeOk size) (key : Str) :
    (path size key).head? = some (firstIndex size key) := by
  rcases h with rfl | ⟨-, h5, -⟩
  · rw [path, if_pos rfl, firstIndex, Nat.mod_one, if_pos rfl]
    rfl
  · obtain ⟨m, rfl⟩ : ∃ m, size = m + 1 := ⟨size - 1, by omega⟩
    rw [path, if_neg (by omega)]
    rfl

theorem SizeOk.mem_path {size : Nat} (h : SizeOk size) (key : Str) {i : Nat}
    (hi : 1 ≤ i ∧ i ≤ size) : i ∈ path size key := by
  rcases h with rfl | ⟨hp, h5, hlt⟩
  · obtain rfl : i = 1 := by omega
    simp [path]
  · exact (mem_path_iff hp h5 (by omega) key i).mpr hi

end UBoot.HashTable
