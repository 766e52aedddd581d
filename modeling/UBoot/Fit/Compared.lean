import UBoot.Fit.Signature

/-!
# What the comparison of a signature reads

`rsa_verify_key` checks the length of a signature against the key, and compares the
decrypted block with the padding and the hash of the checksum algorithm. Nothing
compares the length that the algorithm is made for with that of the key.
-/

namespace UBoot.Fit

open Verification UBoot.Libfdt UBoot.Rsa

/-- `checksum_algos` -/
def checksumAlgos (env : Env) : List ChecksumAlgo :=
  [checksumSha1Rsa2048 env, checksumSha256Rsa2048 env, checksumSha256Rsa4096 env]

theorem length_padding (ones : Nat) (digestInfo : List UInt8) :
    (padding ones digestInfo).length = ones + 3 + digestInfo.length := by
  simp [padding]
  omega

theorem length_rsaPadding {env : Env} {algo : ChecksumAlgo} (h : algo ∈ checksumAlgos env) :
    algo.rsaPadding.length + algo.checksumLen = algo.padLen := by
  simp only [checksumAlgos, List.mem_cons, List.not_mem_nil, or_false] at h
  rcases h with rfl | rfl | rfl
  · exact congrArg (· + 20) (length_padding 218 sha1DigestInfo)
  · exact congrArg (· + 32) (length_padding 202 sha256DigestInfo)
  · exact congrArg (· + 32) (length_padding 458 sha256DigestInfo)

/-- How many bytes `memcmp` reads: it stops at the first difference. Behind an end nothing
is known, and one byte is read there at least. -/
def memcmpReads : List UInt8 → List UInt8 → Nat → Nat
  | _, _, 0 => 0
  | a :: s1, b :: s2, n + 1 => if a = b then memcmpReads s1 s2 n + 1 else 1
  | _, _, _ + 1 => 1

/-- A call of `memcmp`: the bytes that there are on both sides, and the bytes to compare. -/
structure Comparison where
  left : List UInt8
  right : List UInt8
  length : Nat
  deriving DecidableEq, Repr

/-- The call reads nothing else. -/
def Comparison.Inside (c : Comparison) : Prop :=
  memcmpReads c.left c.right c.length ≤ c.left.length ∧
    memcmpReads c.left c.right c.length ≤ c.right.length

instance (c : Comparison) : Decidable c.Inside := inferInstanceAs (Decidable (_ ∧ _))

/-- `rsa_verify_key` compares the block `buf`. -/
def Decrypted (prop : KeyProp) (sig buf : List UInt8) : Prop :=
  sig.length = u32 (prop.numBits.tdiv 8) ∧ sig.length ≤ RSA_MAX_SIG_BITS / 8 ∧
    rsaModExpSw sig (some prop) = some (.ok buf)

/-- The comparisons of a block with the padding and with the checksum: the second one is
made when the first one finds no difference. -/
def blockComparisons (buf hash : List UInt8) (sigLen : Nat) (algo : ChecksumAlgo) :
    List Comparison :=
  let padLen := algo.padLen - algo.checksumLen
  ⟨buf, algo.rsaPadding, padLen⟩ ::
    if buf.take padLen = algo.rsaPadding.take padLen then
      [⟨buf.drop padLen, hash.take algo.checksumLen, u32 (sigLen - padLen)⟩]
    else []

/-- The comparisons of `rsa_verify_key`. -/
def comparisons (prop : KeyProp) (sig hash : List UInt8) (algo : ChecksumAlgo) :
    List Comparison :=
  if sig.length ≠ u32 (prop.numBits.tdiv 8) then []
  else if sig.length > RSA_MAX_SIG_BITS / 8 then []
  else
    match rsaModExpSw sig (some prop) with
    | some (.ok buf) => blockComparisons buf hash sig.length algo
    | _ => []

/-- What an accepted signature says, and what is read to find out. -/
def VerifiesExactly (prop : KeyProp) (sig hash : List UInt8) (algo : ChecksumAlgo) : Prop :=
  (rsaVerifyKey prop sig hash algo = some 0 → ∃ buf, Decrypted prop sig buf ∧
    buf.length = algo.padLen ∧ buf = algo.rsaPadding ++ hash.take algo.checksumLen) ∧
  ∀ c ∈ comparisons prop sig hash algo, c.Inside

/-- The block has the length that the algorithm is made for, or it differs from padding
and checksum before one of them ends. -/
def Comparable (buf hash : List UInt8) (algo : ChecksumAlgo) : Prop :=
  buf.length = algo.padLen ∨
    ¬buf <+: algo.rsaPadding ++ hash.take algo.checksumLen ∧
      ¬algo.rsaPadding ++ hash.take algo.checksumLen <+: buf

/-! ### Reading -/

/-- Within the bytes that there are, or up to a difference. -/
theorem inside_iff (c : Comparison) : c.Inside ↔
    (c.length ≤ c.left.length ∧ c.length ≤ c.right.length) ∨
      ¬c.left <+: c.right ∧ ¬c.right <+: c.left := by
  obtain ⟨s1, s2, n⟩ := c
  change (memcmpReads s1 s2 n ≤ s1.length ∧ memcmpReads s1 s2 n ≤ s2.length) ↔ _
  dsimp only
  induction n generalizing s1 s2 with
  | zero => simp [memcmpReads]
  | succ n ih =>
    obtain _ | ⟨a, s1⟩ := s1
    · simp [memcmpReads]
    obtain _ | ⟨b, s2⟩ := s2
    · simp [memcmpReads]
    rw [memcmpReads, List.length_cons, List.length_cons, List.cons_prefix_cons,
      List.cons_prefix_cons]
    by_cases hab : a = b
    · rw [if_pos hab]
      simp only [hab, true_and, Nat.add_le_add_iff_right]
      exact ih s1 s2
    · rw [if_neg hab]
      simp [hab, Ne.symm hab]

/-! ### No block to compare -/

theorem powMod_error_ne_zero {key : RsaPublicKey} {inout : List UInt8} {ret : Int}
    (h : powMod key inout = some (.error ret)) : ret ≠ 0 := by
  unfold powMod at h
  split at h
  · cases h
    decide
  split at h
  · cases h
  dsimp only at h
  split at h
  · cases h
    decide
  split at h
  · cases h
    decide
  split at h
  · cases h
    decide
  · cases h

theorem rsaModExpSw_error_ne_zero {sig : List UInt8} {prop : KeyProp} {ret : Int}
    (h : rsaModExpSw sig (some prop) = some (.error ret)) : ret ≠ 0 := by
  unfold rsaModExpSw at h
  dsimp only at h
  split at h
  · split at h
    · cases h
      decide
    split at h
    · cases h
      decide
    split at h
    · cases h
    · exact powMod_error_ne_zero h
  · cases h
    decide

theorem refused_of_not_decrypted {prop : KeyProp} {sig : List UInt8}
    (h : ∀ buf, ¬Decrypted prop sig buf) (hash : List UInt8) (algo : ChecksumAlgo) :
    rsaVerifyKey prop sig hash algo ≠ some 0 ∧ comparisons prop sig hash algo = [] := by
  rw [rsaVerifyKey, comparisons]
  by_cases hlen : sig.length ≠ u32 (prop.numBits.tdiv 8)
  · rw [if_pos hlen, if_pos hlen]
    exact ⟨by decide, rfl⟩
  rw [if_neg hlen, if_neg hlen]
  by_cases hmax : sig.length > RSA_MAX_SIG_BITS / 8
  · rw [if_pos hmax, if_pos hmax]
    exact ⟨by decide, rfl⟩
  rw [if_neg hmax, if_neg hmax]
  cases hexp : rsaModExpSw sig (some prop) with
  | none => exact ⟨by simp, rfl⟩
  | some result =>
    cases result with
    | error ret =>
      have hne := rsaModExpSw_error_ne_zero hexp
      exact ⟨by simpa using hne, rfl⟩
    | ok buf => exact absurd ⟨not_not.mp hlen, Nat.le_of_not_gt hmax, hexp⟩ (h buf)

/-! ### Comparing a block -/

theorem memcmpEq_of_le {s1 s2 : List UInt8} {n : Nat} (h1 : n ≤ s1.length) (h2 : n ≤ s2.length) :
    memcmpEq s1 s2 n = some (decide (s1.take n = s2.take n)) := if_pos ⟨h1, h2⟩

theorem toNat_u32_sub {n k : Nat} (hk : k ≤ n) (hn : n ≤ 512) : u32 (n - k) = n - k := by
  rw [u32]
  omega

section

variable {env : Env} {algo : ChecksumAlgo} {prop : KeyProp} {sig hash buf : List UInt8}

theorem comparisons_of_decrypted (hbuf : Decrypted prop sig buf) :
    comparisons prop sig hash algo = blockComparisons buf hash sig.length algo := by
  rw [comparisons, if_neg (not_not.mpr hbuf.1), if_neg (Nat.not_lt_of_ge hbuf.2.1), hbuf.2.2]

/-- The padding is compared first, then the hash. -/
theorem rsaVerifyKey_of_decrypted (hbuf : Decrypted prop sig buf) {padLen : Nat}
    (hpad : algo.padLen - algo.checksumLen = padLen) :
    rsaVerifyKey prop sig hash algo =
      (memcmpEq buf algo.rsaPadding padLen).bind fun same =>
        if !same then some (-EINVAL)
        else (memcmpEq (buf.drop padLen) hash (u32 (sig.length - padLen))).bind fun same =>
          if !same then some (-EACCES) else some 0 := by
  subst hpad
  rw [rsaVerifyKey, if_neg (not_not.mpr hbuf.1), if_neg (Nat.not_lt_of_ge hbuf.2.1), hbuf.2.2]
  rfl

theorem Decrypted.unique {buf' : List UInt8} (hbuf : Decrypted prop sig buf)
    (hbuf' : Decrypted prop sig buf') : buf = buf' := by
  have heq := hbuf.2.2.symm.trans hbuf'.2.2
  cases heq
  rfl

theorem padLen_sub_checksumLen (halgo : algo ∈ checksumAlgos env) :
    algo.padLen - algo.checksumLen = algo.rsaPadding.length := by
  have := length_rsaPadding halgo
  omega

/-- A block that does not start with the padding is refused. -/
theorem verifiesExactly_of_not_starting (halgo : algo ∈ checksumAlgos env)
    (hbuf : Decrypted prop sig buf) (hpadding : ¬algo.rsaPadding <+: buf) :
    VerifiesExactly prop sig hash algo ↔ ¬buf <+: algo.rsaPadding := by
  have hpad := padLen_sub_checksumLen halgo
  have htake : ¬buf.take algo.rsaPadding.length = algo.rsaPadding :=
    fun h => hpadding (List.prefix_iff_eq_take.mpr h.symm)
  have hreads : (∀ c ∈ comparisons prop sig hash algo, c.Inside) ↔ ¬buf <+: algo.rsaPadding := by
    rw [comparisons_of_decrypted hbuf, blockComparisons]
    simp only [hpad, List.take_length, htake, if_false, List.forall_mem_singleton, inside_iff,
      Nat.le_refl, and_true, hpadding, not_false_eq_true]
    constructor
    · rintro (hle | hneg) hstarts
      · rw [hstarts.eq_of_length_le hle] at hpadding
        exact hpadding (List.prefix_refl _)
      · exact hneg hstarts
    · exact .inr
  rw [VerifiesExactly, hreads]
  refine ⟨fun h => h.2, fun hneg => ⟨fun haccept => ?_, hneg⟩⟩
  rw [rsaVerifyKey_of_decrypted hbuf hpad] at haccept
  obtain ⟨same, hsame, haccept⟩ := Option.bind_eq_some_iff.mp haccept
  rw [memcmpEq, List.take_length, decide_eq_false htake, Option.ite_none_right_eq_some] at hsame
  obtain rfl := Option.some.inj hsame.2
  simp [EINVAL] at haccept

variable {rest : List UInt8}

/-- What is read of a block that starts with the padding. -/
theorem inside_of_padding (halgo : algo ∈ checksumAlgos env) (hhash : hash.length = algo.padLen)
    (hbuf : Decrypted prop sig (algo.rsaPadding ++ rest)) :
    (∀ c ∈ comparisons prop sig hash algo, c.Inside) ↔
      rest.length ≤ algo.checksumLen ∨ ¬hash.take algo.checksumLen <+: rest := by
  have htotal := length_rsaPadding halgo
  have hpad := padLen_sub_checksumLen halgo
  have hlen := length_rsaModExpSw hbuf.2.2
  have hmax : sig.length ≤ 512 := hbuf.2.1
  rw [List.length_append] at hlen
  have htake : (hash.take algo.checksumLen).length = algo.checksumLen := by
    rw [List.length_take]
    omega
  have hsub : u32 (sig.length - algo.rsaPadding.length) = rest.length := by
    rw [toNat_u32_sub (by omega) hmax]
    omega
  rw [comparisons_of_decrypted hbuf, blockComparisons]
  simp only [hpad, List.take_left, List.take_length, if_true, List.drop_left, hsub,
    List.forall_mem_cons, inside_iff, List.length_append, htake, List.not_mem_nil, false_imp_iff,
    implies_true, and_true, Nat.le_refl, Nat.le_add_right, true_or, true_and]
  constructor
  · rintro (hle | ⟨-, hneg⟩)
    · exact .inl hle
    · exact .inr hneg
  · intro h
    by_cases hle : rest.length ≤ algo.checksumLen
    · exact .inl hle
    · refine .inr ⟨fun hstarts => ?_, h.resolve_left hle⟩
      have := hstarts.length_le
      omega

/-- Such a block is accepted when its rest starts the hash. -/
theorem accepted_of_padding (halgo : algo ∈ checksumAlgos env) (hhash : hash.length = algo.padLen)
    (hbuf : Decrypted prop sig (algo.rsaPadding ++ rest)) :
    rsaVerifyKey prop sig hash algo = some 0 ↔ rest <+: hash := by
  have hlen := length_rsaModExpSw hbuf.2.2
  have hmax : sig.length ≤ 512 := hbuf.2.1
  rw [List.length_append] at hlen
  have hsub : u32 (sig.length - algo.rsaPadding.length) = rest.length := by
    rw [toNat_u32_sub (by omega) hmax]
    omega
  rw [rsaVerifyKey_of_decrypted hbuf (padLen_sub_checksumLen halgo),
    memcmpEq_of_le (by simp) (Nat.le_refl _), List.take_left, List.take_length, Option.bind_some,
    List.drop_left, hsub, List.prefix_iff_eq_take, if_neg (by simp)]
  by_cases hle : rest.length ≤ hash.length
  · rw [memcmpEq_of_le (Nat.le_refl _) hle, List.take_length, Option.bind_some]
    by_cases heq : rest = hash.take rest.length
    · simp [← heq]
    · simp [heq, EACCES]
  · have hnone : memcmpEq rest hash rest.length = none := if_neg fun h => hle h.2
    rw [hnone, Option.bind_none, List.take_of_length_le (by omega)]
    exact iff_of_false (by simp) fun heq => hle (congrArg List.length heq).le

end

/-- The code accepts no other block than padding and hash, and reads nothing behind
them, exactly when the block is comparable. -/
theorem verifies_exactly_iff {env : Env} {algo : ChecksumAlgo} (halgo : algo ∈ checksumAlgos env)
    (prop : KeyProp) (sig : List UInt8) {hash : List UInt8} (hhash : hash.length = algo.padLen) :
    VerifiesExactly prop sig hash algo ↔
      ∀ buf, Decrypted prop sig buf → Comparable buf hash algo := by
  by_cases hnone : ∀ buf, ¬Decrypted prop sig buf
  · obtain ⟨hne, hempty⟩ := refused_of_not_decrypted hnone hash algo
    rw [VerifiesExactly, hempty]
    exact ⟨fun _ buf h => absurd h (hnone buf), fun _ => ⟨fun h => absurd h hne, by simp⟩⟩
  obtain ⟨buf, hbuf⟩ := not_forall_not.mp hnone
  have hunique : (∀ buf', Decrypted prop sig buf' → Comparable buf' hash algo) ↔
      Comparable buf hash algo :=
    ⟨fun h => h buf hbuf, fun h buf' hbuf' => hbuf.unique hbuf' ▸ h⟩
  have htotal := length_rsaPadding halgo
  have htake : (hash.take algo.checksumLen).length = algo.checksumLen := by
    rw [List.length_take]
    omega
  rw [hunique]
  by_cases hpadding : algo.rsaPadding <+: buf
  · obtain ⟨rest, rfl⟩ := hpadding
    have hchecksum : rest.length ≤ algo.checksumLen →
        (rest <+: hash ↔ rest <+: hash.take algo.checksumLen) := fun hle =>
      ⟨fun h => List.prefix_take_iff.mpr ⟨h, hle⟩, fun h => h.trans (List.take_prefix _ _)⟩
    rw [VerifiesExactly, inside_of_padding halgo hhash hbuf, accepted_of_padding halgo hhash hbuf,
      Comparable, List.prefix_append_right_inj, List.prefix_append_right_inj, List.length_append]
    rcases Nat.lt_trichotomy rest.length algo.checksumLen with hlt | heq | hgt
    · -- a shorter block must not be accepted
      have hlonger : ¬hash.take algo.checksumLen <+: rest := fun h => by
        have := h.length_le
        omega
      rw [hchecksum hlt.le]
      constructor
      · rintro ⟨hexact, -⟩
        refine .inr ⟨fun hstarts => ?_, hlonger⟩
        obtain ⟨buf', hbuf', hfull, -⟩ := hexact hstarts
        rw [← hbuf.unique hbuf', List.length_append] at hfull
        omega
      · rintro (hfull | ⟨hneg, -⟩)
        · omega
        · exact ⟨fun h => absurd h hneg, .inl hlt.le⟩
    · refine iff_of_true ⟨fun hstarts => ⟨_, hbuf, ?_, ?_⟩, .inl heq.le⟩ (.inl (by omega))
      · rw [List.length_append]
        omega
      · rw [((hchecksum heq.le).mp hstarts).eq_of_length (heq.trans htake.symm)]
    · -- of a longer block too much is read, unless the checksum differs
      have hshorter : ¬rest <+: hash.take algo.checksumLen := fun h => by
        have := h.length_le
        omega
      constructor
      · rintro ⟨-, hle | hneg⟩
        · omega
        · exact .inr ⟨hshorter, hneg⟩
      · rintro (hfull | ⟨-, hneg⟩)
        · omega
        · refine ⟨fun hstarts => absurd ?_ hneg, .inr hneg⟩
          exact List.prefix_of_prefix_length_le (List.take_prefix _ _) hstarts (by omega)
  · rw [verifiesExactly_of_not_starting halgo hbuf hpadding, Comparable]
    constructor
    · refine fun hneg => .inr ⟨fun hstarts => ?_, fun hstarts => ?_⟩
      · rcases List.prefix_or_prefix_of_prefix hstarts (List.prefix_append _ _) with h | h
        · exact hneg h
        · exact hpadding h
      · exact hpadding ((List.prefix_append _ _).trans hstarts)
    · rintro (hfull | ⟨hneg, -⟩) hstarts
      · have heq := hstarts.eq_of_length_le (by omega)
        exact hpadding (heq ▸ List.prefix_refl _)
      · exact hneg (hstarts.trans (List.prefix_append _ _))

/-- An environment without keys and digests. -/
def emptyEnv : Env := ⟨⟨0, fun _ => 0⟩, fun _ => none, fun _ => none, fun _ _ => []⟩

theorem mem_checksumAlgos_rsa4096 (env : Env) :
    checksumSha256Rsa4096 env ∈ checksumAlgos env :=
  List.mem_cons_of_mem _ (List.mem_cons_of_mem _ (List.mem_singleton_self _))

/-- The fifth root of `2 ^ 2033 - 1` modulo the modulus of `cubeKey`. -/
def onesRoot : Nat :=
  0x5d54e41b47566cb32f54353bcfd00ec12b5b9a42183e6a6594c949ab8407691e595b4bee584bfec2a130a8ecd25262993b79ea606136aaa00a3bd6e8e755bd53b0c8fe9afc92ea2e8ebedc6a19f8f8a5e6c9bc5d4c2d3e7f118c085210c56ab22f75ddb7447a898bf4a7ccf5be3c95a81260b957c60ace437b498d041380b4fad6ef0c7055ce57f537199db55c835847dc525c457476348066d38db0ad877031485d69d6e4da924f4a132b53048499a4687ad191363669d90721e01f988056cf98013309fa31b164a2d37e788fa47a52b91e0655270b929aedcc8b58d9b677bdffb649fa3de370e11cb6251ddbc50c265657bbabf0662bb852360bbb80a1a774

/-- The block has the bytes `00 01` and ones. -/
theorem onesRoot_decrypted :
    Decrypted (cubeKey 5) (beBytes 256 onesRoot) (beBytes 256 (2 ^ 2033 - 1)) := by
  refine ⟨length_beBytes _ _, by rw [length_beBytes]; decide, ?_⟩
  rw [rsaModExpSw_eq (cubeKey_describes (by decide)) (by decide) (by decide) (length_beBytes _ _),
    beValue_beBytes]
  have hpower : (onesRoot % 256 ^ 256) ^ seenExponent 5 % 3 ^ 1292 = 2 ^ 2033 - 1 := by
    decide +kernel
  rw [hpower]

theorem verifies_exactly_iff_cubeKey :
    VerifiesExactly (cubeKey 5) (beBytes 256 onesRoot) (List.replicate 512 0)
        (checksumSha256Rsa4096 emptyEnv) ↔
      ∀ buf, Decrypted (cubeKey 5) (beBytes 256 onesRoot) buf →
        Comparable buf (List.replicate 512 0) (checksumSha256Rsa4096 emptyEnv) :=
  verifies_exactly_iff (mem_checksumAlgos_rsa4096 emptyEnv) _ _ List.length_replicate

/-- With a key of 2048 bits and an algorithm for 4096 bits, the comparison of the padding
reads behind the block. -/
theorem padding_read_behind_block :
    ¬∀ (env : Env) (algo : ChecksumAlgo) (prop : KeyProp) (sig hash : List UInt8),
      algo ∈ checksumAlgos env → (RSA_MIN_KEY_BITS : Int) ≤ prop.numBits →
      prop.numBits ≤ RSA_MAX_KEY_BITS → hash.length = algo.padLen →
        VerifiesExactly prop sig hash algo := by
  intro h
  have hexact := h emptyEnv (checksumSha256Rsa4096 emptyEnv) (cubeKey 5) (beBytes 256 onesRoot)
    (List.replicate 512 0) (mem_checksumAlgos_rsa4096 emptyEnv) (by decide) (by decide)
    List.length_replicate
  have hfirst := hexact.2 _ (by
    rw [comparisons_of_decrypted onesRoot_decrypted, blockComparisons]
    exact List.mem_cons_self)
  have houtside : ¬(Comparison.mk (beBytes 256 (2 ^ 2033 - 1))
      (padding 458 sha256DigestInfo) (512 - 32)).Inside := by
    decide +kernel
  exact houtside hfirst

end UBoot.Fit
