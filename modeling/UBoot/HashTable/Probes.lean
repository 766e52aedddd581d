import Mathlib.NumberTheory.Bertrand
import UBoot.HashTable.Path

/-!
# The probe loop ends

`hcreate_r` finds a prime for every size that is asked for, and in a table of prime
size the loop of `hsearch_r` comes back to the first index after it has been at all
others. So it ends for every contents of the table.
-/

namespace UBoot.HashTable

/-! ### Finding a prime -/

/-- The loop of `isprime` ends, at the first `div` or where the one before was below the
square root. -/
theorem isprimeLoop_ends {number : Nat} (hsmall : number < 268435456) (fuel div : Nat)
    (hbound : div < 32768) (hfuel : 32768 ≤ 2 * fuel + div) :
    ∃ result, isprimeLoop number fuel div = some result ∧
      (result = div ∨ (result - 2) * (result - 2) < number) := by
  induction fuel generalizing div with
  | zero => omega
  | succ fuel ih =>
    have hsquare : div * div < 4294967296 := by nlinarith
    rw [isprimeLoop, Nat.mod_eq_of_lt hsquare]
    split
    · rename_i hgo
      have hroot : div < 16384 := by nlinarith
      rw [Nat.mod_eq_of_lt (by omega)]
      obtain ⟨result, hresult, hcase⟩ := ih (div + 2) (by omega) (by omega)
      refine ⟨result, hresult, .inr ?_⟩
      obtain rfl | hlt := hcase
      · rw [Nat.add_sub_cancel]
        exact hgo.1
      · exact hlt
    · exact ⟨div, rfl, .inl rfl⟩

/-- A prime passes the test. -/
theorem isprime_of_prime {number : Nat} (hsmall : number < 268435456) (hp : number.Prime)
    (h5 : 5 ≤ number) : isprime number = some true := by
  obtain ⟨result, hloop, hcase⟩ := isprimeLoop_ends hsmall iterations 3 (by decide) (by decide)
  obtain ⟨-, hthree, -⟩ := isprimeLoop_spec hsmall _ 3 rfl (by omega) (by omega)
    (fun d _ h3 hlt => absurd h3 (by omega)) hloop
  rw [isprime, hloop, Option.bind_eq_bind, Option.bind_some, Option.pure_def]
  -- only the number itself would divide, and the loop stops long before it
  have hnot : number % result ≠ 0 := by
    intro hzero
    obtain hone | rfl := (Nat.dvd_prime hp).mp (Nat.dvd_of_mod_eq_zero hzero)
    · omega
    · obtain rfl | hlt := hcase
      · omega
      · obtain ⟨k, rfl⟩ := Nat.exists_eq_add_of_le' h5
        rw [show k + 5 - 2 = k + 3 by omega] at hlt
        nlinarith
  rw [decide_eq_true hnot]

theorem isprime_ends {number : Nat} (hsmall : number < 268435456) :
    ∃ answer, isprime number = some answer := by
  obtain ⟨result, hloop, -⟩ := isprimeLoop_ends hsmall iterations 3 (by decide) (by decide)
  rw [isprime, hloop]
  exact ⟨_, rfl⟩

/-- The loop of `hcreate_r` does not run past a prime. -/
theorem primeLoop_ends (fuel nel : Nat) {p : Nat} (hp : p.Prime) (hodd : nel % 2 = p % 2)
    (hle : nel ≤ p) (hpodd : p % 2 = 1) (h5 : 5 ≤ nel) (hsmall : p < 268435456)
    (hfuel : p < nel + 2 * fuel) :
    ∃ size, primeLoop fuel nel = some size ∧ size.Prime ∧ nel ≤ size := by
  induction fuel generalizing nel with
  | zero => omega
  | succ fuel ih =>
    obtain ⟨answer, hanswer⟩ := isprime_ends (show nel < 268435456 by omega)
    rw [primeLoop, hanswer, Option.bind_eq_bind, Option.bind_some]
    cases answer with
    | true =>
      rw [if_pos rfl]
      refine ⟨nel, rfl, ?_, Nat.le_refl nel⟩
      obtain hone | hprime := prime_of_isprime (by omega) (by omega) hanswer
      · omega
      · exact hprime
    | false =>
      rw [if_neg Bool.false_ne_true, Nat.mod_eq_of_lt (by omega)]
      have hne : nel ≠ p := by
        rintro rfl
        rw [isprime_of_prime hsmall hp h5] at hanswer
        cases hanswer
      obtain ⟨size, hsize, hprime, hge⟩ := ih (nel + 2) (by omega) (by omega) (by omega)
        (by omega)
      exact ⟨size, hsize, hprime, by omega⟩

/-- A prime is found for every request, however large the environment may be. -/
theorem primeLoop_request {nel : Nat} (h4 : 4 ≤ nel) (hmax : nel ≤ 134217728) :
    ∃ size, primeLoop iterations (nel ||| 1) = some size ∧ size.Prime ∧ 5 ≤ size ∧
      nel ≤ size := by
  obtain ⟨p, hp, hlt, hle⟩ := Nat.exists_prime_lt_and_le_two_mul nel (by omega)
  have hodd : (nel ||| 1) % 2 = 1 := by simp [Nat.or_mod_two_eq_one]
  have hhalf : (nel ||| 1) / 2 = nel / 2 := by simp [Nat.or_div_two]
  have hpodd : p % 2 = 1 := (hp.eq_two_or_odd).resolve_left (by omega)
  have hsmall : p < 268435456 := by
    have hne : p ≠ 268435456 := by
      rintro rfl
      exact absurd hpodd (by decide)
    omega
  obtain ⟨size, hsize, hprime, hge⟩ := primeLoop_ends iterations (nel ||| 1) hp (by omega)
    (by omega) hpodd (by omega) hsmall (by simp only [iterations]; omega)
  exact ⟨size, hsize, hprime, by omega, by omega⟩

/-! ### The loop of the search -/

/-- The index that round `j` of the loop tries. -/
def probed (size hval j : Nat) : Nat := (nextIndex size (secondHash size hval))^[j] hval

/-- The loop goes on behind this index. -/
def GoesOn (ctx : Context) (key : Str) (data : Option Str) (action : Action)
    (htab : HsearchData) (flag : Int) (hval idx : Nat) : Prop :=
  idx ≠ hval ∧ compareAndOverwriteEntry ctx key data action htab flag hval idx = some none ∧
    (htab.table idx).used ≠ 0

/-- What the loop gives when it does not go on behind this index: the entry that it was looking
for, or an index where the key may be entered. -/
def stopsWith (ctx : Context) (key : Str) (data : Option Str) (action : Action)
    (htab : HsearchData) (flag : Int) (hval idx : Nat) : Option Probe :=
  if idx = hval then some (.at idx)
  else do
    match ← compareAndOverwriteEntry ctx key data action htab flag hval idx with
    | some result => return .done result
    | none => return .at idx

section Prime

variable {size hval : Nat} (hp : size.Prime) (h5 : 5 ≤ size) (hlt : size < 4294967296)
  (hlo : 1 ≤ hval) (hhi : hval < size)

include h5 hlt hlo hhi in
theorem probed_bounds (j : Nat) : 1 ≤ probed size hval j ∧ probed size hval j ≤ size := by
  obtain ⟨h1, h2, -⟩ := iterate_nextIndex hlt (secondHash_bounds h5 hlt hval)
    (show 1 ≤ hval ∧ hval ≤ size by omega) j
  exact ⟨h1, h2⟩

include hp h5 hlt hlo hhi in
/-- The first `size` probes are different from each other. -/
theorem probed_inj {a b : Nat} (ha : a < size) (hb : b < size)
    (h : probed size hval a = probed size hval b) : a = b :=
  ((iterate_nextIndex_eq_iff hp hlt (secondHash_bounds h5 hlt hval) (by omega) a b).mp
    h).eq_of_lt_of_lt ha hb

include hp h5 hlt hlo hhi in
theorem probed_size : probed size hval size = hval :=
  (iterate_nextIndex_eq_iff hp hlt (secondHash_bounds h5 hlt hval) (by omega) size 0).mpr
    (by simp [Nat.ModEq])

include hp h5 hlt hlo hhi in
/-- As many probes as indices, and no index twice. -/
theorem exists_probed {i : Nat} (hi : 1 ≤ i ∧ i ≤ size) :
    ∃ j, j < size ∧ probed size hval j = i := by
  obtain ⟨j, hj, hji⟩ := Finset.surj_on_of_inj_on_of_card_le
    (s := Finset.range size) (t := Finset.Icc 1 size) (fun j _ => probed size hval j)
    (fun j _ => Finset.mem_Icc.mpr (probed_bounds h5 hlt hlo hhi j))
    (fun a b ha hb hab => probed_inj hp h5 hlt hlo hhi (Finset.mem_range.mp ha)
      (Finset.mem_range.mp hb) hab) (by simp) i (Finset.mem_Icc.mpr hi)
  exact ⟨j, Finset.mem_range.mp hj, hji.symm⟩

end Prime

section Loop

variable {ctx : Context} {key : Str} {data : Option Str} {action : Action} {htab : HsearchData}
  {flag : Int} {hval hval2 : Nat}

theorem probeLoop_goesOn {idx : Nat} (fuel : Nat)
    (hin : nextIndex htab.size hval2 idx ≤ htab.size)
    (h : GoesOn ctx key data action htab flag hval (nextIndex htab.size hval2 idx)) :
    probeLoop ctx key data action htab flag hval hval2 (fuel + 1) idx =
      probeLoop ctx key data action htab flag hval hval2 fuel (nextIndex htab.size hval2 idx) := by
  obtain ⟨hne, hcompare, hused⟩ := h
  rw [probeLoop]
  rw [if_neg hne, if_neg (by omega), hcompare, Option.bind_eq_bind, Option.bind_some]
  exact if_pos hused

/-- The last round. -/
theorem probeLoop_stops {idx : Nat} (fuel : Nat)
    (hin : nextIndex htab.size hval2 idx ≤ htab.size)
    (h : ¬GoesOn ctx key data action htab flag hval (nextIndex htab.size hval2 idx)) :
    probeLoop ctx key data action htab flag hval hval2 (fuel + 1) idx =
      stopsWith ctx key data action htab flag hval (nextIndex htab.size hval2 idx) := by
  rw [probeLoop, stopsWith]
  by_cases hsame : nextIndex htab.size hval2 idx = hval
  · rw [if_pos hsame, if_pos hsame]
  rw [if_neg hsame, if_neg hsame, if_neg (Nat.not_lt.mpr hin)]
  cases hcompare : compareAndOverwriteEntry ctx key data action htab flag hval
      (nextIndex htab.size hval2 idx) with
  | none => rfl
  | some result =>
    cases result with
    | some result => rfl
    | none =>
      have hused : (htab.table (nextIndex htab.size hval2 idx)).used = 0 := by
        by_contra hused
        exact h ⟨hsame, hcompare, hused⟩
      simp [hused]

/-- A comparison has no result only where the key of a slot in use is missing. -/
theorem stopsWith_isSome {idx : Nat}
    (hkey : (htab.table idx).used = hval → (htab.table idx).entry.key ≠ none) :
    ∃ result, stopsWith ctx key data action htab flag hval idx = some result := by
  rw [stopsWith]
  split
  · exact ⟨_, rfl⟩
  have hcompare : ∃ found,
      compareAndOverwriteEntry ctx key data action htab flag hval idx = some found := by
    simp only [compareAndOverwriteEntry]
    split
    next hused =>
      obtain ⟨stored, hstored⟩ := Option.ne_none_iff_exists'.mp (hkey hused)
      rw [hstored]
      dsimp only
      split <;> exact ⟨_, rfl⟩
    · exact ⟨none, rfl⟩
  obtain ⟨found, hfound⟩ := hcompare
  rw [hfound, Option.bind_eq_bind, Option.bind_some]
  cases found <;> exact ⟨_, rfl⟩

/-- The loop runs up to the round behind which it does not go on. -/
theorem probeLoop_rounds
    (hin : ∀ j, 1 ≤ probed htab.size hval j ∧ probed htab.size hval j ≤ htab.size) {j : Nat}
    (hj1 : 1 ≤ j)
    (hbefore : ∀ i, 1 ≤ i → i < j →
      GoesOn ctx key data action htab flag hval (probed htab.size hval i))
    (hj : ¬GoesOn ctx key data action htab flag hval (probed htab.size hval j)) (fuel : Nat)
    (hfuel : j ≤ fuel) :
    probeLoop ctx key data action htab flag hval (secondHash htab.size hval) fuel hval =
      stopsWith ctx key data action htab flag hval (probed htab.size hval j) := by
  have hnext : ∀ i, nextIndex htab.size (secondHash htab.size hval) (probed htab.size hval i) =
      probed htab.size hval (i + 1) := by
    intro i
    rw [probed, probed, Function.iterate_succ_apply']
  -- from each round on, by induction on the rounds that are left
  have hrest : ∀ left i, i + left + 1 = j → ∀ more,
      probeLoop ctx key data action htab flag hval (secondHash htab.size hval)
          (left + 1 + more) (probed htab.size hval i) =
        stopsWith ctx key data action htab flag hval (probed htab.size hval j) := by
    intro left
    induction left with
    | zero =>
      rintro i rfl more
      rw [Nat.zero_add, Nat.add_comm 1 more, probeLoop_stops more, hnext, Nat.add_zero]
      · rw [hnext]
        exact (hin (i + 1)).2
      · rw [hnext]
        exact hj
    | succ left ih =>
      intro i hi more
      have hgo := hbefore (i + 1) (by omega) (by omega)
      have hbound := (hin (i + 1)).2
      rw [← hnext] at hgo hbound
      rw [Nat.add_right_comm, probeLoop_goesOn _ hbound hgo, hnext]
      exact ih (i + 1) (by omega) more
  obtain ⟨left, rfl⟩ := Nat.exists_eq_add_of_le' hj1
  obtain ⟨more, rfl⟩ := Nat.exists_eq_add_of_le hfuel
  exact hrest left 0 (by omega) more

end Loop

/-- For every request up to the largest environment a prime is found. In a table of prime
size the probes stay inside, meet every index once and then the first one again; so
there is a round behind which the loop does not go on, whatever the table holds, and what
the loop gives is what that round finds. The value is missing only where `strcmp` meets a slot
in use without a key. -/
theorem probe_sequence :
    (∀ nel, 4 ≤ nel → nel ≤ 134217728 →
      ∃ size, primeLoop iterations (nel ||| 1) = some size ∧ size.Prime ∧ 5 ≤ size ∧
        nel ≤ size) ∧
    ∀ size hval, size.Prime → 5 ≤ size → size < 4294967296 → 1 ≤ hval → hval < size →
      (∀ j, 1 ≤ probed size hval j ∧ probed size hval j ≤ size) ∧
      (∀ i, 1 ≤ i → i ≤ size → ∃! j, j < size ∧ probed size hval j = i) ∧
      probed size hval size = hval ∧
      ∀ ctx key data action htab flag, htab.size = size →
        ∃ j, 1 ≤ j ∧ j ≤ size ∧
          (∀ i, 1 ≤ i → i < j → GoesOn ctx key data action htab flag hval (probed size hval i)) ∧
          ¬GoesOn ctx key data action htab flag hval (probed size hval j) ∧
          (∀ fuel, j ≤ fuel →
            probeLoop ctx key data action htab flag hval (secondHash size hval) fuel hval =
              stopsWith ctx key data action htab flag hval (probed size hval j)) ∧
          ((∀ idx, 1 ≤ idx → idx ≤ size → (htab.table idx).used = hval →
              (htab.table idx).entry.key ≠ none) →
            ∃ result, probeLoop ctx key data action htab flag hval (secondHash size hval)
              iterations hval = some result) := by
  refine ⟨fun nel h4 hmax => primeLoop_request h4 hmax, fun size hval hp h5 hlt hlo hhi => ?_⟩
  refine ⟨probed_bounds h5 hlt hlo hhi, fun i h1 h2 => ?_, probed_size hp h5 hlt hlo hhi, ?_⟩
  · obtain ⟨j, hj, hji⟩ := exists_probed hp h5 hlt hlo hhi ⟨h1, h2⟩
    exact ⟨j, ⟨hj, hji⟩, fun k hk => probed_inj hp h5 hlt hlo hhi hk.1 hj (hk.2.trans hji.symm)⟩
  rintro ctx key data action htab flag rfl
  -- the first round behind which the loop does not go on; the last one comes back to `hval`
  classical
  have hstop : ∃ j, 1 ≤ j ∧
      ¬GoesOn ctx key data action htab flag hval (probed htab.size hval j) :=
    ⟨htab.size, by omega, fun h => h.1 (probed_size hp h5 hlt hlo hhi)⟩
  obtain ⟨hj1, hj⟩ := Nat.find_spec hstop
  have hle : Nat.find hstop ≤ htab.size :=
    Nat.find_min' hstop ⟨by omega, fun h => h.1 (probed_size hp h5 hlt hlo hhi)⟩
  have hbefore : ∀ i, 1 ≤ i → i < Nat.find hstop →
      GoesOn ctx key data action htab flag hval (probed htab.size hval i) := by
    intro i hi1 hi
    by_contra hnot
    exact Nat.find_min hstop hi ⟨hi1, hnot⟩
  have hrounds := probeLoop_rounds (probed_bounds h5 hlt hlo hhi) hj1 hbefore hj
  refine ⟨Nat.find hstop, hj1, hle, hbefore, hj, hrounds, fun hkeys => ?_⟩
  obtain ⟨hlow, hhigh⟩ := probed_bounds h5 hlt hlo hhi (Nat.find hstop)
  rw [hrounds iterations (hle.trans (by simp only [iterations]; omega))]
  exact stopsWith_isSome (hkeys _ hlow hhigh)

end UBoot.HashTable
