import Mathlib.Logic.Relation
import UBoot.Rsa.Verify

/-!
# What a required key guarantees

`rsa_verify` accepts when the required key accepts, but also when another key
that it tries does. So the verdict is the one of the required key, and
independent of the hint, of the FIT and of the other keys, exactly when none of
those keys makes a difference.
-/

namespace UBoot.Rsa

open Verification UBoot.Libfdt

/-- One call of `rsa_verify`. -/
structure Request where
  info : ImageSignInfo
  region : List (List UInt8)
  sig : List UInt8
  stack : List UInt8

namespace Request

/-- The value that `rsa_verify` returns. -/
def verdict (x : Request) : Option Int := rsaVerify x.info x.region x.sig x.stack

/-- The call gets as far as trying keys, with this digest array and this offset
of the signature node. -/
def Prepared (x : Request) (hash : List UInt8) (sigNode : Int) : Prop :=
  x.info.checksum.checksumLen ≤ x.info.checksum.padLen ∧
    fdtSubnodeOffset x.info.fdtBlob 0 FIT_SIG_NODENAME = some sigNode ∧ 0 ≤ sigNode ∧
    ∃ digest, x.info.checksum.calculate x.region = some digest ∧
      hash = digest ++ x.stack.drop digest.length

/-- The key of `required_keynode` accepts the signature. -/
def RequiredAccepts (x : Request) : Prop :=
  ∃ hash sigNode, x.Prepared hash sigNode ∧
    rsaVerifyWithKeynode x.info hash x.sig x.info.requiredKeynode = some 0

/-- One advance of the last loop, from a node at some depth to the next one. -/
def WalkStep (fit : Fdt) (a b : Int × Int) : Prop :=
  0 ≤ a.1 ∧ 0 < a.2 ∧ fdtNextNode fit a.1 a.2 = some b

/-- The nodes that the last loop meets, with their depth. -/
def Walked (x : Request) (sigNode : Int) (b : Int × Int) : Prop :=
  ∃ a, fdtNextNode x.info.fit sigNode 0 = some a ∧
    Relation.ReflTransGen (WalkStep x.info.fit) a b

/-- A key other than the required one is tried and accepts: the one that the
hint names, or one at an offset taken from the FIT. -/
def OtherAccepts (x : Request) : Prop :=
  ∃ hash sigNode node, x.Prepared hash sigNode ∧
    fdtSubnodeOffset x.info.fdtBlob sigNode (hintNodeName x.info.keyname) = some node ∧
    (rsaVerifyWithKeynode x.info hash x.sig node = some 0 ∨
      ∃ noffset, x.Walked sigNode (noffset, 1) ∧ 0 ≤ noffset ∧ noffset ≠ node ∧
        rsaVerifyWithKeynode x.info hash x.sig noffset = some 0)

theorem Prepared.unique {x : Request} {hash hash' : List UInt8} {sigNode sigNode' : Int}
    (h : x.Prepared hash sigNode) (h' : x.Prepared hash' sigNode') :
    hash' = hash ∧ sigNode' = sigNode := by
  obtain ⟨-, hs, -, digest, hd, rfl⟩ := h
  obtain ⟨-, hs', -, digest', hd', rfl⟩ := h'
  rw [hs, Option.some.injEq] at hs'
  rw [hd, Option.some.injEq] at hd'
  exact ⟨by rw [hd'], hs'.symm⟩

/-- The walk ends with 0 exactly when one of the nodes from here on accepts. -/
theorem tryNodesLoop_eq_zero_iff {info : ImageSignInfo} {hash sig : List UInt8} {node : Int}
    (fuel : Nat) {noffset ndepth ret r : Int} (hret : ret ≠ 0)
    (h : tryNodesLoop info hash sig node fuel noffset ndepth ret = some r) :
    r = 0 ↔ ∃ o, Relation.ReflTransGen (WalkStep info.fit) (noffset, ndepth) (o, 1) ∧
      0 ≤ o ∧ o ≠ node ∧ rsaVerifyWithKeynode info hash sig o = some 0 := by
  induction fuel generalizing noffset ndepth ret with
  | zero => simp [tryNodesLoop] at h
  | succ fuel ih =>
    rw [tryNodesLoop] at h
    split at h
    · rename_i hin
      -- whatever follows the current node is reached through its successor
      have hnext : ∀ p, fdtNextNode info.fit noffset ndepth = some p → ∀ o,
          Relation.ReflTransGen (WalkStep info.fit) (noffset, ndepth) (o, 1) ↔
            (ndepth = 1 ∧ o = noffset) ∨
              Relation.ReflTransGen (WalkStep info.fit) p (o, 1) := by
        intro p hp o
        constructor
        · intro hreach
          rcases hreach.cases_head with heq | ⟨q, hq, hrest⟩
          · rw [Prod.mk.injEq] at heq
            exact .inl ⟨heq.2, heq.1.symm⟩
          · have : q = p := Option.some.inj (hq.2.2.symm.trans hp)
            exact .inr (this ▸ hrest)
        · rintro (⟨rfl, rfl⟩ | hrest)
          · exact .refl
          · exact .head ⟨hin.1, hin.2, hp⟩ hrest
      split at h
      · rename_i htry
        obtain ⟨ret', hret', h⟩ := Option.bind_eq_some_iff.mp h
        split at h
        · rename_i hzero
          rw [Option.pure_def, Option.some.injEq] at h
          rw [hzero] at hret' h
          refine ⟨fun _ => ⟨noffset, ?_, hin.1, htry.2, hret'⟩, fun _ => h.symm⟩
          rw [htry.1]
        · rename_i hne
          obtain ⟨p, hp, h⟩ := Option.bind_eq_some_iff.mp h
          rw [ih hne h]
          constructor
          · rintro ⟨o, hreach, hrest⟩
            exact ⟨o, (hnext p hp o).mpr (.inr hreach), hrest⟩
          · rintro ⟨o, hreach, ho, hnode, hv⟩
            rcases (hnext p hp o).mp hreach with ⟨-, rfl⟩ | hreach
            · rw [hret', Option.some.injEq] at hv
              exact absurd hv hne
            · exact ⟨o, hreach, ho, hnode, hv⟩
      · rename_i hskip
        obtain ⟨p, hp, h⟩ := Option.bind_eq_some_iff.mp h
        rw [ih hret h]
        constructor
        · rintro ⟨o, hreach, hrest⟩
          exact ⟨o, (hnext p hp o).mpr (.inr hreach), hrest⟩
        · rintro ⟨o, hreach, ho, hnode, hv⟩
          rcases (hnext p hp o).mp hreach with ⟨hd, rfl⟩ | hreach
          · exact absurd ⟨hd, hnode⟩ hskip
          · exact ⟨o, hreach, ho, hnode, hv⟩
    · rename_i hout
      rw [Option.some.injEq] at h
      subst h
      constructor
      · exact fun h => absurd h hret
      · rintro ⟨o, hreach, ho, -, -⟩
        rcases hreach.cases_head with heq | ⟨q, hq, -⟩
        · rw [Prod.mk.injEq] at heq
          exact absurd ⟨heq.1 ▸ ho, by omega⟩ hout
        · exact absurd ⟨hq.1, hq.2.1⟩ hout

/-- What the keys tried after the required one decide. -/
theorem tryOtherKeys_eq_zero_iff {x : Request} {hash : List UInt8} {sigNode r : Int}
    (hp : x.Prepared hash sigNode) (h : tryOtherKeys x.info hash x.sig sigNode = some r) :
    r = 0 ↔ x.OtherAccepts := by
  obtain ⟨node, hnode, h⟩ := Option.bind_eq_some_iff.mp h
  obtain ⟨ret, hret, h⟩ := Option.bind_eq_some_iff.mp h
  -- the facts in `OtherAccepts` are about this hash and these nodes
  have hother : x.OtherAccepts ↔ (rsaVerifyWithKeynode x.info hash x.sig node = some 0 ∨
      ∃ noffset, x.Walked sigNode (noffset, 1) ∧ 0 ≤ noffset ∧ noffset ≠ node ∧
        rsaVerifyWithKeynode x.info hash x.sig noffset = some 0) := by
    constructor
    · rintro ⟨hash', sigNode', node', hp', hnode', hacc⟩
      obtain ⟨rfl, rfl⟩ := hp.unique hp'
      rw [hnode, Option.some.injEq] at hnode'
      rwa [← hnode'] at hacc
    · exact fun hacc => ⟨hash, sigNode, node, hp, hnode, hacc⟩
  rw [hother]
  split at h
  · rename_i hzero
    rw [Option.pure_def, Option.some.injEq] at h
    rw [hzero] at hret h
    exact ⟨fun _ => .inl hret, fun _ => h.symm⟩
  · rename_i hne
    obtain ⟨a, ha, h⟩ := Option.bind_eq_some_iff.mp h
    rw [tryNodesLoop_eq_zero_iff _ hne h]
    constructor
    · rintro ⟨o, hreach, hrest⟩
      exact .inr ⟨o, ⟨a, ha, hreach⟩, hrest⟩
    · rintro (hv | ⟨o, ⟨b, hb, hreach⟩, hrest⟩)
      · rw [hret, Option.some.injEq] at hv
        exact absurd hv hne
      · rw [ha, Option.some.injEq] at hb
        exact ⟨o, hb ▸ hreach, hrest⟩

/-- The call accepts exactly when the required key, if there is one, or another key
that it tries does. -/
theorem verdict_eq_zero_iff_of_some {x : Request} {r : Int} (h : x.verdict = some r) :
    r = 0 ↔ (x.info.requiredKeynode ≠ -1 ∧ x.RequiredAccepts) ∨ x.OtherAccepts := by
  -- when no key is tried the call fails, and nothing is accepted
  have hnone : (∀ hash sigNode, ¬ x.Prepared hash sigNode) → r ≠ 0 →
      (r = 0 ↔ (x.info.requiredKeynode ≠ -1 ∧ x.RequiredAccepts) ∨ x.OtherAccepts) := by
    intro hnot hne
    refine ⟨fun hr => absurd hr hne, ?_⟩
    rintro (⟨-, hash, sigNode, hp, -⟩ | ⟨hash, sigNode, -, hp, -⟩)
    · exact absurd hp (hnot hash sigNode)
    · exact absurd hp (hnot hash sigNode)
  rw [verdict, rsaVerify] at h
  split at h
  · rename_i hlen
    rw [Option.some.injEq] at h
    refine hnone (fun hash sigNode hp => absurd hp.1 (by omega)) (by rw [← h]; decide)
  · rename_i hlen
    obtain ⟨sigNode, hsig, h⟩ := Option.bind_eq_some_iff.mp h
    split at h
    · rename_i hneg
      rw [Option.pure_def, Option.some.injEq] at h
      refine hnone (fun hash sigNode' hp => ?_) (by rw [← h]; decide)
      have := hp.2.1
      rw [hsig, Option.some.injEq] at this
      have := hp.2.2.1
      omega
    · rename_i hpos
      split at h
      · rename_i hcalc
        rw [Option.pure_def, Option.some.injEq] at h
        refine hnone (fun hash sigNode' hp => ?_) (by rw [← h]; decide)
        obtain ⟨digest, hd, -⟩ := hp.2.2.2
        rw [hcalc] at hd
        cases hd
      · rename_i digest hcalc
        have hp : x.Prepared (digest ++ x.stack.drop digest.length) sigNode :=
          ⟨by omega, hsig, by omega, digest, hcalc, rfl⟩
        split at h
        · rename_i hreq
          obtain ⟨ret, hret, h⟩ := Option.bind_eq_some_iff.mp h
          split at h
          · rename_i hzero
            rw [Option.pure_def, Option.some.injEq] at h
            rw [hzero] at hret h
            exact ⟨fun _ => .inl ⟨hreq, _, _, hp, hret⟩, fun _ => h.symm⟩
          · rename_i hne
            rw [tryOtherKeys_eq_zero_iff hp h]
            refine ⟨.inr, ?_⟩
            rintro (⟨-, hash', sigNode', hp', hv⟩ | hother)
            · obtain ⟨rfl, rfl⟩ := hp.unique hp'
              rw [hret, Option.some.injEq] at hv
              exact absurd hv hne
            · exact hother
        · rename_i hany
          rw [tryOtherKeys_eq_zero_iff hp h]
          refine ⟨.inr, ?_⟩
          rintro (⟨hreq, -⟩ | hother)
          · exact absurd hreq hany
          · exact hother

/-- The call accepts exactly when the required key or another key that it tries
does. -/
theorem verdict_eq_zero_iff {x : Request} (hreq : x.info.requiredKeynode ≠ -1) {r : Int}
    (h : x.verdict = some r) : r = 0 ↔ x.RequiredAccepts ∨ x.OtherAccepts := by
  rw [verdict_eq_zero_iff_of_some h]
  simp [hreq]

/-- When the required key rejects, the key that the hint names decides. -/
theorem verdict_of_hint {x : Request} {hash : List UInt8} {sigNode r : Int} (node : Int)
    (hp : x.Prepared hash sigNode) (hreq : x.info.requiredKeynode ≠ -1)
    (hr : rsaVerifyWithKeynode x.info hash x.sig x.info.requiredKeynode = some r) (hne : r ≠ 0)
    (hnode : fdtSubnodeOffset x.info.fdtBlob sigNode (hintNodeName x.info.keyname) = some node)
    (hv : rsaVerifyWithKeynode x.info hash x.sig node = some 0) : x.verdict = some 0 := by
  obtain ⟨hlen, hsig, hpos, digest, hd, rfl⟩ := hp
  rw [verdict, rsaVerify, if_neg (by omega), hsig]
  simp only [Option.bind_eq_bind, Option.bind_some]
  rw [if_neg (by omega), hd]
  simp only [if_pos hreq, hr, Option.bind_some, if_neg hne, tryOtherKeys, Option.bind_eq_bind,
    hnode, hv]
  rfl

/-- Where any key will do, the key that the hint names is tried first. -/
theorem Prepared.verdict_of_hint_only {x : Request} {hash : List UInt8} {sigNode : Int}
    (hp : x.Prepared hash sigNode) (node : Int) (hreq : x.info.requiredKeynode = -1)
    (hnode : fdtSubnodeOffset x.info.fdtBlob sigNode (hintNodeName x.info.keyname) = some node)
    (hv : rsaVerifyWithKeynode x.info hash x.sig node = some 0) : x.verdict = some 0 := by
  obtain ⟨hlen, hsig, hpos, digest, hd, rfl⟩ := hp
  rw [verdict, rsaVerify, if_neg (by omega), hsig]
  simp only [Option.bind_eq_bind, Option.bind_some]
  rw [if_neg (by omega), hd]
  simp only [hreq, ne_eq, not_true_eq_false, if_false, tryOtherKeys, Option.bind_eq_bind, hnode,
    Option.bind_some, hv]
  rfl

end Request

/-! ### What the required key is -/

/-- Two descriptions of one key: the same numbers, and the same bytes as far as
the arithmetic reads them. -/
structure KeyProp.Same (a b : KeyProp) : Prop where
  numBits : a.numBits = b.numBits
  n0inv : a.n0inv = b.n0inv
  exponent : a.publicExponent.map (·.bytes 8) = b.publicExponent.map (·.bytes 8)
  modulus : a.modulus.map (·.bytes (4 * (u32 a.numBits / 32))) =
    b.modulus.map (·.bytes (4 * (u32 a.numBits / 32)))
  rr : a.rr.map (·.bytes (4 * (u32 a.numBits / 32))) =
    b.rr.map (·.bytes (4 * (u32 a.numBits / 32)))

theorem rsaConvertBigEndian_congr {p q : Ptr} {len : Nat}
    (h : p.bytes (4 * len) = q.bytes (4 * len)) :
    rsaConvertBigEndian p len = rsaConvertBigEndian q len :=
  value_injective (by simp) (by rw [value_rsaConvertBigEndian, value_rsaConvertBigEndian, h])

theorem KeyProp.Same.exponent_eq {a b : KeyProp} (h : a.Same b) :
    keyExponent a = keyExponent b := by
  have hexp := h.exponent
  rw [keyExponent, keyExponent]
  cases ha : a.publicExponent <;> cases hb : b.publicExponent <;> simp_all

/-- The exponentiation is a function of the key, not of where it is stored. -/
theorem rsaModExpSw_congr {a b : KeyProp} (h : a.Same b) (sig : List UInt8) :
    rsaModExpSw sig (some a) = rsaModExpSw sig (some b) := by
  have hexp := h.exponent_eq
  have hbits := h.numBits
  have hinv := h.n0inv
  have hm := h.modulus
  have hr := h.rr
  simp only [u32] at hm hr
  simp only [rsaModExpSw]
  cases hma : a.modulus <;> cases hmb : b.modulus <;> simp only [hma, hmb] at hm <;>
    try simp at hm
  · rfl
  cases hra : a.rr <;> cases hrb : b.rr <;> simp only [hra, hrb] at hr <;> try simp at hr
  · rfl
  rename_i m m' r r'
  have hconvm := rsaConvertBigEndian_congr hm
  have hconvr := rsaConvertBigEndian_congr hr
  simp only [hexp, hinv, ← hbits, hconvm, hconvr]

theorem rsaVerifyKey_congr {a b : KeyProp} (h : a.Same b) (sig hash : List UInt8)
    (algo : ChecksumAlgo) : rsaVerifyKey a sig hash algo = rsaVerifyKey b sig hash algo := by
  rw [rsaVerifyKey, rsaVerifyKey, h.numBits, rsaModExpSw_congr h]

namespace Request

/-- The two calls differ at most in the hint, the FIT, and the control blob away
from the key of `required_keynode` and from the offset of the signature node. -/
structure SameTrusted (x y : Request) : Prop where
  requiredKeynode : x.info.requiredKeynode = y.info.requiredKeynode
  checksum : x.info.checksum = y.info.checksum
  region : x.region = y.region
  sig : x.sig = y.sig
  stack : x.stack = y.stack
  signature : fdtSubnodeOffset x.info.fdtBlob 0 FIT_SIG_NODENAME =
    fdtSubnodeOffset y.info.fdtBlob 0 FIT_SIG_NODENAME
  key : Option.Rel KeyProp.Same (readKeyProp x.info.fdtBlob x.info.requiredKeynode)
    (readKeyProp y.info.fdtBlob x.info.requiredKeynode)

theorem SameTrusted.prepared {x y : Request} (h : x.SameTrusted y) (hash : List UInt8)
    (sigNode : Int) : x.Prepared hash sigNode ↔ y.Prepared hash sigNode := by
  rw [Prepared, Prepared, h.checksum, h.signature, h.region, h.stack]

theorem SameTrusted.required {x y : Request} (h : x.SameTrusted y) (hash : List UInt8) :
    rsaVerifyWithKeynode x.info hash x.sig x.info.requiredKeynode =
      rsaVerifyWithKeynode y.info hash y.sig y.info.requiredKeynode := by
  have hkey := h.key
  rw [rsaVerifyWithKeynode, rsaVerifyWithKeynode, ← h.requiredKeynode, ← h.sig, ← h.checksum]
  generalize readKeyProp x.info.fdtBlob x.info.requiredKeynode = kx at hkey ⊢
  generalize readKeyProp y.info.fdtBlob x.info.requiredKeynode = ky at hkey ⊢
  cases hkey with
  | none => rfl
  | @some a b hsame =>
    have hnull : a.modulus = none ↔ b.modulus = none := by
      rw [← Option.map_eq_none_iff (f := (·.bytes (4 * (u32 a.numBits / 32)))), hsame.modulus,
        Option.map_eq_none_iff]
    simp only [Option.bind_eq_bind, Option.bind_some, hsame.numBits, hnull,
      rsaVerifyKey_congr hsame]

theorem SameTrusted.requiredAccepts {x y : Request} (h : x.SameTrusted y) :
    x.RequiredAccepts ↔ y.RequiredAccepts := by
  simp only [RequiredAccepts, h.prepared, h.required]

/-- For every call with a required key that returns: it accepts only on behalf
of the required key, exactly when that key accepts or no other key does. And for
every second call that differs in untrusted parts only, the verdicts agree
exactly when the required key accepts or the other keys do not tell the two
calls apart. -/
theorem verdict_of_required_key (x y : Request) (hreq : x.info.requiredKeynode ≠ -1)
    (hsame : x.SameTrusted y) (rx ry : Int) (hx : x.verdict = some rx)
    (hy : y.verdict = some ry) :
    ((rx = 0 → x.RequiredAccepts) ↔ x.RequiredAccepts ∨ ¬ x.OtherAccepts) ∧
    ((rx = 0 ↔ ry = 0) ↔ x.RequiredAccepts ∨ (x.OtherAccepts ↔ y.OtherAccepts)) := by
  have hreq' : y.info.requiredKeynode ≠ -1 := hsame.requiredKeynode ▸ hreq
  have htrusted := hsame.requiredAccepts
  rw [verdict_eq_zero_iff hreq hx, verdict_eq_zero_iff hreq' hy]
  by_cases hx : x.RequiredAccepts
  · simp [hx, htrusted.mp hx]
  · simp [hx, htrusted.not.mp hx]

end Request

/-! ### A control blob with two keys -/

/-- `padding_sha1_rsa2048` -/
def paddingSha1Rsa2048 : List UInt8 :=
  [0x00, 0x01] ++ List.replicate 218 0xff ++
    [0x00, 0x30, 0x21, 0x30, 0x09, 0x06, 0x05, 0x2b,
     0x0e, 0x03, 0x02, 0x1a, 0x05, 0x00, 0x04, 0x14]

/-- The SHA-1 digest of nothing. -/
def emptyDigest : List UInt8 :=
  [0xda, 0x39, 0xa3, 0xee, 0x5e, 0x6b, 0x4b, 0x0d, 0x32, 0x55,
   0xbf, 0xef, 0x95, 0x60, 0x18, 0x90, 0xaf, 0xd8, 0x07, 0x09]

/-- A 2048-bit modulus under which the cube of `3 * 2 ^ 681` is the padded
digest. -/
def devModulus : Nat := (3 * 2 ^ 681) ^ 3 - beValue (paddingSha1Rsa2048 ++ emptyDigest)

/-- Big-endian words of a blob. -/
def words (ws : List Nat) : List UInt8 := ws.flatMap (beBytes 4)

/-- The header, and the structure block up to the modulus of `key-prod`. -/
def blobStart : List UInt8 :=
  words [0xd00dfeed, 1323, 56, 1256, 40, 17, 16, 0, 67, 1200, 0, 0, 0, 0] ++
  words [1, 0] ++ words [1] ++ ascii "signature" ++ [0, 0, 0] ++
  words [1] ++ ascii "key-prod" ++ [0, 0, 0, 0] ++
  words [3, 4, 0, 4096] ++ words [3, 512, 41]

/-- From the end of `key-prod` to the modulus of `key-dev`. -/
def blobMiddle : List UInt8 :=
  words [2, 1] ++ ascii "key-dev" ++ [0] ++
  words [3, 4, 0, 2048] ++ words [3, 4, 13, 1839707961] ++ words [3, 8, 28, 0, 3] ++
  words [3, 256, 41]

/-- The end of the structure block, and the property names. -/
def blobEnd : List UInt8 :=
  words [2, 2, 2, 9] ++ ascii "rsa,num-bits" ++ [0] ++ ascii "rsa,n0-inverse" ++ [0] ++
  ascii "rsa,exponent" ++ [0] ++ ascii "rsa,modulus" ++ [0] ++ ascii "rsa,r-squared" ++ [0]

/-- A control blob with two keys: `key-prod` of 4096 bits at offset 24 of the
structure block and `key-dev` of 2048 bits at offset 584. -/
def twoKeys : Fdt where
  addr := 0
  mem a :=
    if a < 124 then blobStart.getD a 0
    else if a < 636 then 0xff
    else if a < 716 then blobMiddle.getD (a - 636) 0
    else if a < 972 then UInt8.ofNat (devModulus / 256 ^ (971 - a))
    else if a < 984 then (words [3, 256, 53]).getD (a - 972) 0
    else if a < 1240 then UInt8.ofNat (2 ^ 4096 % devModulus / 256 ^ (1239 - a))
    else blobEnd.getD (a - 1240) 0

/-- The parts of the blob as numbers, which are quick to read. -/
def blobStartNumber : Nat :=
  0xd00dfeed0000052b00000038000004e80000002800000011000000100000000000000043000004b0000000000000000000000000000000000000000100000000000000017369676e6174757265000000000000016b65792d70726f640000000000000003000000040000000000001000000000030000020000000029

def blobMiddleNumber : Nat :=
  0x2000000016b65792d646576000000000300000004000000000000080000000003000000040000000d6da7b73900000003000000080000001c0000000000000003000000030000010000000029

def blobEndNumber : Nat :=
  0x20000000200000002000000097273612c6e756d2d62697473007273612c6e302d696e7665727365007273612c6578706f6e656e74007273612c6d6f64756c7573007273612c722d7371756172656400

/-- The same blob. -/
def twoKeysNumbered : Fdt where
  addr := 0
  mem a :=
    if a < 124 then UInt8.ofNat (blobStartNumber / 256 ^ (123 - a))
    else if a < 636 then 0xff
    else if a < 716 then UInt8.ofNat (blobMiddleNumber / 256 ^ (79 - (a - 636)))
    else if a < 972 then UInt8.ofNat (devModulus / 256 ^ (971 - a))
    else if a < 984 then (words [3, 256, 53]).getD (a - 972) 0
    else if a < 1240 then UInt8.ofNat (2 ^ 4096 % devModulus / 256 ^ (1239 - a))
    else if a < 1323 then UInt8.ofNat (blobEndNumber / 256 ^ (82 - (a - 1240)))
    else 0

theorem twoKeys_eq : twoKeys = twoKeysNumbered := by
  obtain ⟨hstart, hmiddle, hend⟩ : beBytes 124 blobStartNumber = blobStart ∧
      beBytes 80 blobMiddleNumber = blobMiddle ∧ beBytes 83 blobEndNumber = blobEnd := by
    set_option maxRecDepth 8000 in decide
  rw [twoKeys, twoKeysNumbered, ← hstart, ← hmiddle, ← hend]
  refine congrArg (Fdt.mk 0) (funext fun a => ?_)
  split_ifs with h1 h2 h3 h4 h5 h6 h7
  · exact getD_beBytes h1 _
  · rfl
  · exact getD_beBytes (by omega) _
  · rfl
  · rfl
  · rfl
  · exact getD_beBytes (by omega) _
  · exact List.getD_eq_default _ _ (by rw [length_beBytes]; omega)

/-- A FIT without nodes below the root. -/
def emptyFit : Fdt where
  addr := 0
  mem a := (words [0xd00dfeed, 72, 56, 72, 40, 17, 16, 0, 0, 16, 0, 0, 0, 0, 1, 0, 2, 9]).getD a 0

/-- `sha1,rsa2048`, where no region is hashed. -/
def sha1Rsa2048 : ChecksumAlgo where
  checksumLen := 20
  padLen := 256
  calculate _ := some emptyDigest
  rsaPadding := paddingSha1Rsa2048

/-- A signature by `key-dev` on an image that requires `key-prod`. -/
def hinted (hint : String) : Request where
  info := {
    keyname := some (ascii hint)
    fit := emptyFit
    checksum := sha1Rsa2048
    fdtBlob := twoKeys
    requiredKeynode := 24 }
  region := []
  sig := beBytes 256 (3 * 2 ^ 681)
  stack := List.replicate 256 0

/-- The array that holds the digest. -/
def hintedHash : List UInt8 := emptyDigest ++ List.replicate 236 0

theorem twoKeys_nodes :
    fdtSubnodeOffset twoKeysNumbered 0 FIT_SIG_NODENAME = some 8 ∧
    fdtSubnodeOffset twoKeysNumbered 8 (hintNodeName (some (ascii "dev"))) = some 584 ∧
    fdtSubnodeOffset twoKeysNumbered 8 (hintNodeName (some (ascii "other"))) = some (-1) ∧
    fdtNextNode emptyFit 8 0 = some (-4, 0) ∧
    (readKeyProp twoKeysNumbered 24).map (fun p => (p.numBits, p.modulus.isSome)) =
      some (4096, true) ∧
    (readKeyProp twoKeysNumbered 584).map (fun p =>
      (p.numBits, p.n0inv, p.modulus.map (fun q => beValue (q.bytes 256)),
        p.rr.map (fun q => beValue (q.bytes 256)),
        p.publicExponent.map (fun q => beValue (q.bytes 8)))) =
      some (2048, 1839707961, some devModulus, some (2 ^ (64 * 64) % devModulus), some 3) := by
  decide +kernel

/-- What is set up for the signature, with the numbered blob. -/
theorem hinted_info (hint : String) : (hinted hint).info =
    ⟨some (ascii hint), emptyFit, sha1Rsa2048, twoKeysNumbered, 24⟩ := by
  rw [← twoKeys_eq]
  rfl

theorem hinted_prepared : (hinted "dev").Prepared hintedHash 8 := by
  have hnode : fdtSubnodeOffset (hinted "dev").info.fdtBlob 0 FIT_SIG_NODENAME = some 8 := by
    rw [hinted_info]
    exact twoKeys_nodes.1
  have hhash : hintedHash = emptyDigest ++ (List.replicate 256 0).drop emptyDigest.length := by
    rw [List.drop_replicate]
    rfl
  exact ⟨by decide, hnode, by decide, emptyDigest, rfl, hhash⟩

/-- A key of 4096 bits makes no signature of 256 bytes. -/
theorem rejected_of_numBits {info : ImageSignInfo} {hash sig : List UInt8} {node : Int}
    (hpos : 0 ≤ node) (hread : (readKeyProp info.fdtBlob node).map
      (fun p => (p.numBits, p.modulus.isSome)) = some (4096, true)) (hsig : sig.length = 256) :
    rsaVerifyWithKeynode info hash sig node = some (-EINVAL) := by
  obtain ⟨p, hp, hfields⟩ := Option.map_eq_some_iff.mp hread
  obtain ⟨hbits, hmodulus⟩ := Prod.mk.inj hfields
  have hknown : ¬ (p.numBits = 0 ∨ p.modulus = none) := by
    rw [hbits, ← Option.not_isSome_iff_eq_none, hmodulus]
    decide
  have hlen : sig.length ≠ u32 (p.numBits.tdiv 8) := by
    rw [hsig, hbits]
    decide
  rw [rsaVerifyWithKeynode, if_neg (Int.not_lt.2 hpos), hp]
  simp only [Option.bind_eq_bind, Option.bind_some]
  rw [if_neg hknown, rsaVerifyKey, if_pos hlen]

theorem hinted_required :
    rsaVerifyWithKeynode (hinted "dev").info hintedHash (hinted "dev").sig 24 =
      some (-EINVAL) := by
  rw [hinted_info]
  obtain ⟨-, -, -, -, hread, -⟩ := twoKeys_nodes
  exact rejected_of_numBits (by decide) hread (length_beBytes _ _)

theorem describes_devKey {blob : Fdt} {node : Int}
    (hread : (readKeyProp blob node).map (fun p =>
      (p.numBits, p.n0inv, p.modulus.map (fun q => beValue (q.bytes 256)),
        p.rr.map (fun q => beValue (q.bytes 256)),
        p.publicExponent.map (fun q => beValue (q.bytes 8)))) =
      some (2048, 1839707961, some devModulus, some (2 ^ (64 * 64) % devModulus), some 3)) :
    ∃ p, readKeyProp blob node = some p ∧ Describes p 64 devModulus 3 := by
  obtain ⟨p, hp, hfields⟩ := Option.map_eq_some_iff.mp hread
  simp only [Prod.mk.injEq, Option.map_eq_some_iff] at hfields
  obtain ⟨hbits, hinv, hm, hr, he⟩ := hfields
  refine ⟨p, hp, hm, hr, .inl he, ?_, hbits, by decide, ?_, ?_⟩
  · rw [hinv]
    set_option maxRecDepth 8000 in decide
  · set_option maxRecDepth 8000 in decide
  · set_option maxRecDepth 8000 in decide

theorem devKey_read : ∃ p, readKeyProp twoKeys 584 = some p ∧
    Describes p 64 devModulus 3 := by
  obtain ⟨-, -, -, -, -, hread⟩ := twoKeys_nodes
  rw [twoKeys_eq]
  exact describes_devKey hread

/-- The key with this modulus and exponent 3 made the signature, wherever it is stored. -/
theorem devKey_verifies {info : ImageSignInfo} {node : Int} {p : KeyProp} (hpos : 0 ≤ node)
    (hread : readKeyProp info.fdtBlob node = some p) (hkey : Describes p 64 devModulus 3)
    (hchecksum : info.checksum.checksumLen = 20 ∧ info.checksum.padLen = 256 ∧
      info.checksum.rsaPadding = paddingSha1Rsa2048) :
    rsaVerifyWithKeynode info hintedHash (beBytes 256 (3 * 2 ^ 681)) node = some 0 := by
  obtain ⟨hlength, hpad, hpadding⟩ := hchecksum
  have hsig : (beBytes 256 (3 * 2 ^ 681)).length = 4 * 64 := length_beBytes _ _
  have hpow := rsaModExpSw_eq hkey (by decide) (by decide) hsig
  obtain ⟨hvalue, hpadLength⟩ :
      (3 * 2 ^ 681 % 256 ^ 256) ^ seenExponent 3 % devModulus =
          beValue (paddingSha1Rsa2048 ++ emptyDigest) ∧
        paddingSha1Rsa2048.length = 256 - 20 := by set_option maxRecDepth 8000 in decide
  have hdigest : emptyDigest.length = 20 := rfl
  have hbuf : beBytes (4 * 64) (beValue (beBytes 256 (3 * 2 ^ 681)) ^ seenExponent 3 %
      devModulus) = paddingSha1Rsa2048 ++ emptyDigest := by
    have hround := beBytes_beValue (paddingSha1Rsa2048 ++ emptyDigest)
    rw [List.length_append, hpadLength, hdigest, ← hvalue] at hround
    rw [beValue_beBytes]
    exact hround
  rw [hbuf] at hpow
  obtain ⟨m, hm, -⟩ := hkey.modulus
  have hknown : ¬ (p.numBits = 0 ∨ p.modulus = none) := by
    rw [hm, hkey.numBits]
    simp
  have hlen : ¬ (beBytes 256 (3 * 2 ^ 681)).length ≠ u32 (p.numBits.tdiv 8) := by
    rw [hsig, hkey.numBits]
    decide
  rw [rsaVerifyWithKeynode, if_neg (Int.not_lt.2 hpos), hread]
  simp only [Option.bind_eq_bind, Option.bind_some]
  rw [if_neg hknown, rsaVerifyKey, if_neg hlen, if_neg (by rw [hsig]; decide), hpow, hsig, hlength,
    hpad, hpadding]
  have hfirst : memcmpEq (paddingSha1Rsa2048 ++ emptyDigest) paddingSha1Rsa2048 (256 - 20) =
      some true := by
    rw [memcmpEq, if_pos (by rw [List.length_append, hpadLength]; omega),
      List.take_left' hpadLength, List.take_of_length_le hpadLength.le]
    simp
  have hsecond : memcmpEq ((paddingSha1Rsa2048 ++ emptyDigest).drop (256 - 20)) hintedHash
      (u32 ((4 * 64 : Nat) - (256 - 20 : Nat))) = some true := by
    rw [List.drop_left' hpadLength, show u32 ((4 * 64 : Nat) - (256 - 20 : Nat)) = 20 from rfl, memcmpEq,
      hintedHash, if_pos (by rw [List.length_append, hdigest]; omega), List.take_left' hdigest,
      List.take_of_length_le hdigest.le]
    simp
  simp only [Option.bind_eq_bind, Option.bind_some, hfirst, hsecond]
  rfl

theorem devKey_accepts :
    rsaVerifyWithKeynode (hinted "dev").info hintedHash (hinted "dev").sig 584 = some 0 := by
  obtain ⟨p, hp, hkey⟩ := devKey_read
  exact devKey_verifies (by decide) hp hkey ⟨rfl, rfl, rfl⟩

theorem hinted_dev_accepted : (hinted "dev").verdict = some 0 := by
  have hnode : fdtSubnodeOffset (hinted "dev").info.fdtBlob 8
      (hintNodeName (hinted "dev").info.keyname) = some 584 := by
    rw [hinted_info]
    exact twoKeys_nodes.2.1
  exact Request.verdict_of_hint 584 hinted_prepared (by decide) hinted_required (by decide)
    hnode devKey_accepts

/-- Another hint names no key, and the FIT has no nodes to try. -/
theorem other_rejected {sig : List UInt8} (hsig : sig.length = 256) (stack : List UInt8) :
    rsaVerify ⟨some (ascii "other"), emptyFit, sha1Rsa2048, twoKeysNumbered, 24⟩ [] sig stack =
      some (-EBADF) := by
  obtain ⟨hnode, -, hother, hfit, hread, -⟩ := twoKeys_nodes
  have hrequired : ∀ info : ImageSignInfo, info.fdtBlob = twoKeysNumbered →
      ∀ hash, rsaVerifyWithKeynode info hash sig 24 = some (-EINVAL) := by
    intro info hblob hash
    rw [← hblob] at hread
    exact rejected_of_numBits (by decide) hread hsig
  have hmissing : ∀ info hash sig, rsaVerifyWithKeynode info hash sig (-1) = some (-EBADF) :=
    fun _ _ _ => rfl
  obtain ⟨fuel, hfuel⟩ : ∃ fuel, iterations = fuel + 1 := ⟨4294967295, rfl⟩
  rw [rsaVerify, if_neg (by decide)]
  simp only [hnode, Option.bind_eq_bind, Option.bind_some]
  rw [if_neg (by decide), show sha1Rsa2048.calculate [] = some emptyDigest from rfl]
  dsimp only
  rw [if_pos (by decide), hrequired _ rfl]
  simp only [Option.bind_some, tryOtherKeys, Option.bind_eq_bind, hother, hfit, hmissing, hfuel,
    tryNodesLoop]
  rfl

theorem hinted_other_rejected : (hinted "other").verdict = some (-EBADF) := by
  rw [Request.verdict, hinted_info]
  exact other_rejected (length_beBytes _ _) _

theorem hinted_not_required : ¬ (hinted "dev").RequiredAccepts := by
  rintro ⟨hash, sigNode, hp, hv⟩
  obtain ⟨rfl, rfl⟩ := hinted_prepared.unique hp
  rw [show (hinted "dev").info.requiredKeynode = 24 from rfl, hinted_required] at hv
  exact absurd hv (by decide)

theorem hinted_sameTrusted : (hinted "dev").SameTrusted (hinted "other") where
  requiredKeynode := rfl
  checksum := rfl
  region := rfl
  sig := rfl
  stack := rfl
  signature := rfl
  key := by
    change Option.Rel KeyProp.Same (readKeyProp twoKeys 24) (readKeyProp twoKeys 24)
    cases readKeyProp twoKeys 24 with
    | none => exact .none
    | some p => exact .some ⟨rfl, rfl, rfl, rfl, rfl⟩

/-- The two verdicts differ only because the key named by the hint accepts. -/
theorem verdict_of_required_key_hinted :
    ((0 : Int) = 0 → (hinted "dev").RequiredAccepts ↔
      (hinted "dev").RequiredAccepts ∨ ¬ (hinted "dev").OtherAccepts) ∧
    (((0 : Int) = 0 ↔ -EBADF = 0) ↔ (hinted "dev").RequiredAccepts ∨
      ((hinted "dev").OtherAccepts ↔ (hinted "other").OtherAccepts)) :=
  Request.verdict_of_required_key (hinted "dev") (hinted "other") (by decide)
    hinted_sameTrusted 0 (-EBADF) hinted_dev_accepted hinted_other_rejected

/-- A signature by another key passes although the required key rejects it, and
a change of the hint alone changes the verdict. -/
theorem required_key_bypassed :
    ∃ x y : Request, x.info.requiredKeynode ≠ -1 ∧ x.SameTrusted y ∧
      x.verdict = some 0 ∧ ¬ x.RequiredAccepts ∧ y.verdict = some (-EBADF) :=
  ⟨hinted "dev", hinted "other", by decide, hinted_sameTrusted, hinted_dev_accepted,
    hinted_not_required, hinted_other_rejected⟩

end UBoot.Rsa
