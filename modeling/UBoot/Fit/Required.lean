import UBoot.Fit.Signature
import UBoot.Rsa.Required

/-!
# Required keys of a FIT

For each required key the code looks for a signature that verifies. The signature
of an image is checked without the key, so that any key will do; the signature of a
configuration is checked with the key, but other keys are tried after it. So a key
that is required has made a signature exactly when no other key makes up for it.
-/

namespace UBoot.Fit

open Verification UBoot.Libfdt UBoot.Rsa

/-- A key node of the blob that is required for `what`. -/
def RequiredKey (sigBlob : Fdt) (what : List UInt8) (key : Int) : Prop :=
  ∃ sigNode, fdtSubnodeOffset sigBlob 0 FIT_SIG_NODENAME = some sigNode ∧ 0 ≤ sigNode ∧
    Subnode sigBlob sigNode key ∧ isRequired sigBlob what key = some true

/-- A signature subnode of an image or a configuration. -/
def SignatureOf (fit : Fdt) (noffset signature : Int) : Prop :=
  Subnode fit noffset signature ∧ isSignatureNode fit signature = some true

/-- The call of `rsa_verify` for a signature of an image, with the key `key`. -/
def ImageRequest (env : Env) (fit : Fdt) (data : List UInt8) (key signature : Int) (x : Request) :
    Prop :=
  ∃ info value, fitImageSetupVerify env fit signature key = some (.ok info) ∧
    fitImageHashGetValue fit signature = some (some value) ∧
    x = ⟨info, [data], value, env.stack signature info.requiredKeynode⟩

/-- The call of `rsa_verify` for a signature of a configuration, with the key `key`. -/
def ConfigRequest (env : Env) (fit : Fdt) (key signature : Int) (x : Request) : Prop :=
  ∃ info value regions, fitImageSetupVerify env fit signature key = some (.ok info) ∧
    fitImageHashGetValue fit signature = some (some value) ∧
    configRegions fit signature = some (.ok regions) ∧
    x = ⟨info, fitRegionMakeList fit regions, value, env.stack signature info.requiredKeynode⟩

/-- The signature verifies under the key itself. -/
def Verifies (request : Int → Int → Request → Prop) (key signature : Int) : Prop :=
  ∃ x, request key signature x ∧ x.RequiredAccepts

/-- The signature verifies under another key: the one that its hint names, or one at
an offset taken from the FIT. -/
def VerifiesOtherwise (request : Int → Int → Request → Prop) (key signature : Int) : Prop :=
  ∃ x, request key signature x ∧ x.OtherAccepts

/-! ### The loops -/

theorem verifyKey_cases {sigBlob : Fdt} {what : List UInt8} {verify : Int → Option Int} {key : Int}
    {count : Nat} {r : Except Int Nat} (h : verifyKey sigBlob what verify key count = some r) :
    (isRequired sigBlob what key = some false ∧ r = .ok count) ∨
      (isRequired sigBlob what key = some true ∧ verify key = some 0 ∧ r = .ok (count + 1)) ∨
      ∃ ret, isRequired sigBlob what key = some true ∧ verify key = some ret ∧ ret ≠ 0 ∧
        r = .error ret := by
  obtain ⟨required, hreq, h⟩ := Option.bind_eq_some_iff.mp h
  cases required with
  | false => exact .inl ⟨hreq, (Option.some.inj h).symm⟩
  | true =>
    obtain ⟨ret, hret, h⟩ := Option.bind_eq_some_iff.mp h
    by_cases hzero : ret = 0
    · subst hzero
      exact .inr (.inl ⟨hreq, hret, (Option.some.inj h).symm⟩)
    · simp only [ne_eq, hzero, not_false_eq_true, if_true] at h
      exact .inr (.inr ⟨ret, hreq, hret, hzero, (Option.some.inj h).symm⟩)

/-- The code returns 0 when all required keys are verified, and the value for one that
is not otherwise. -/
theorem verifyRequired_cases {sigBlob : Fdt} {what : List UInt8} {verify : Int → Option Int}
    {ret : Int} {count : Nat} (h : verifyRequired sigBlob what verify = some (ret, count)) :
    (ret = 0 ∧ ∀ key, RequiredKey sigBlob what key → verify key = some 0) ∨
      (ret ≠ 0 ∧ ∃ key, RequiredKey sigBlob what key ∧ verify key = some ret) := by
  obtain ⟨sigNode, hnode, h⟩ := Option.bind_eq_some_iff.mp h
  split at h
  · rename_i hneg
    cases h
    refine .inl ⟨rfl, fun key hkey => ?_⟩
    obtain ⟨sigNode', hnode', hpos, -⟩ := hkey
    rw [hnode, Option.some.injEq] at hnode'
    omega
  · rename_i hpos
    obtain ⟨⟨left, last⟩, hloop, h⟩ := Option.bind_eq_some_iff.mp h
    cases left with
    | error ret' =>
      cases h
      obtain ⟨hsub, t, hbody⟩ := fdtForEachSubnode_error hloop
      rcases verifyKey_cases hbody with ⟨-, hr⟩ | ⟨-, -, hr⟩ | ⟨ret', hreq, hv, hne, hr⟩
      · cases hr
      · cases hr
      · cases hr
        exact .inr ⟨hne, last, ⟨sigNode, hnode, by omega, hsub, hreq⟩, hv⟩
    | ok count' =>
      cases h
      refine .inl ⟨rfl, fun key hkey => ?_⟩
      obtain ⟨sigNode', hnode', -, hsub, hreq⟩ := hkey
      rw [hnode, Option.some.injEq] at hnode'
      obtain ⟨t, t', hbody⟩ := fdtForEachSubnode_ok hloop (hnode' ▸ hsub)
      rcases verifyKey_cases hbody with ⟨hnot, -⟩ | ⟨-, hv, -⟩ | ⟨_, -, -, -, hr⟩
      · rw [hreq] at hnot
        cases hnot
      · exact hv
      · cases hr

theorem checkSubnode_cases {fit : Fdt} {check : Int → Option (Except String Unit)} {node : Int}
    {u : Unit} {r : Except Unit Unit} (h : checkSubnode fit check node u = some r) :
    (isSignatureNode fit node = some false ∧ r = .ok ()) ∨
      (isSignatureNode fit node = some true ∧
        ((∃ msg, check node = some (.error msg) ∧ r = .ok ()) ∨
          (check node = some (.ok ()) ∧ r = .error ()))) := by
  obtain ⟨signature, hsig, h⟩ := Option.bind_eq_some_iff.mp h
  cases signature with
  | false => exact .inl ⟨hsig, (Option.some.inj h).symm⟩
  | true =>
    obtain ⟨checked, hcheck, h⟩ := Option.bind_eq_some_iff.mp h
    cases checked with
    | error msg => exact .inr ⟨hsig, .inl ⟨msg, hcheck, (Option.some.inj h).symm⟩⟩
    | ok _ => exact .inr ⟨hsig, .inr ⟨hcheck, (Option.some.inj h).symm⟩⟩

/-- The code returns 0 when a signature verifies. Otherwise all of them were checked. -/
theorem verifySig_cases {fit : Fdt} {noffset : Int} {check : Int → Option (Except String Unit)}
    {ret : Int} (h : verifySig fit noffset check = some ret) :
    (ret = 0 ∧ ∃ node, SignatureOf fit noffset node ∧ check node = some (.ok ())) ∨
      (ret ≠ 0 ∧ ∀ node, SignatureOf fit noffset node → ∃ msg, check node = some (.error msg)) := by
  obtain ⟨⟨left, last⟩, hloop, h⟩ := Option.bind_eq_some_iff.mp h
  cases left with
  | error u =>
    obtain ⟨hsub, t, hbody⟩ := fdtForEachSubnode_error hloop
    have hpos : 0 ≤ last := hsub.choose_spec.2.2
    have hlast : ¬(last = -FDT_ERR_TRUNCATED ∨ last = -FDT_ERR_BADSTRUCTURE) := by
      simp only [FDT_ERR_TRUNCATED, FDT_ERR_BADSTRUCTURE]
      omega
    simp only [if_neg hlast] at h
    cases h
    rcases checkSubnode_cases hbody with ⟨-, hr⟩ | ⟨hsig, ⟨_, -, hr⟩ | ⟨hcheck, -⟩⟩
    · cases hr
    · cases hr
    · exact .inl ⟨rfl, last, ⟨hsub, hsig⟩, hcheck⟩
  | ok u =>
    refine .inr ⟨?_, fun node hnode => ?_⟩
    · simp only at h
      split at h
      · cases h
        decide
      · cases h
        decide
    · obtain ⟨t, t', hbody⟩ := fdtForEachSubnode_ok hloop hnode.1
      rcases checkSubnode_cases hbody with ⟨hnot, -⟩ | ⟨-, ⟨msg, hcheck, -⟩ | ⟨-, hr⟩⟩
      · rw [hnode.2] at hnot
        cases hnot
      · exact ⟨msg, hcheck⟩
      · cases hr

/-! ### A signature node -/

theorem fitImageSetupVerify_spec {env : Env} {fit : Fdt} {noffset key : Int} {info : ImageSignInfo}
    (h : fitImageSetupVerify env fit noffset key = some (.ok info)) :
    info.requiredKeynode = key ∧ info.fdtBlob = env.fdtBlob ∧ info.fit = fit := by
  obtain ⟨algo, -, h⟩ := Option.bind_eq_some_iff.mp h
  cases algo with
  | error _ => cases h
  | ok algo =>
    obtain ⟨keyname, -, h⟩ := Option.bind_eq_some_iff.mp h
    split at h
    · cases h
    · cases h
      exact ⟨rfl, rfl, rfl⟩

/-- A check that accepts, or that returns an error, made this call or none. -/
theorem verifyRegions_ok_iff {env : Env} {noffset : Int} {info : ImageSignInfo}
    {region : List (List UInt8)} {value : List UInt8} {r : Except String Unit}
    (h : verifyRegions env noffset info region value = some r) :
    r = .ok () ↔ (info.requiredKeynode ≠ -1 ∧
        (Request.mk info region value (env.stack noffset info.requiredKeynode)).RequiredAccepts) ∨
      (Request.mk info region value (env.stack noffset info.requiredKeynode)).OtherAccepts := by
  obtain ⟨ret, hret, h⟩ := Option.bind_eq_some_iff.mp h
  have hverdict : (Request.mk info region value
      (env.stack noffset info.requiredKeynode)).verdict = some ret := hret
  rw [← Request.verdict_eq_zero_iff_of_some hverdict]
  by_cases hzero : ret = 0
  · subst hzero
    cases h
    simp
  · simp only [ne_eq, hzero, not_false_eq_true, if_true] at h
    cases h
    simp [hzero]

/-- Where no call is made, nothing verifies. -/
theorem error_iff_of_no_request {request : Int → Int → Request → Prop} {key signature : Int}
    {msg : String} (h : ∀ x, ¬request key signature x) :
    (Except.error msg : Except String Unit) = .ok () ↔
      (key ≠ -1 ∧ Verifies request key signature) ∨ VerifiesOtherwise request key signature := by
  constructor
  · intro heq
    cases heq
  · rintro (⟨-, x, hx, -⟩ | ⟨x, hx, -⟩)
    · exact absurd hx (h x)
    · exact absurd hx (h x)

theorem ok_iff_of_request {request : Int → Int → Request → Prop} {key signature : Int}
    {x : Request} (h : ∀ y, request key signature y ↔ y = x) :
    (key ≠ -1 ∧ Verifies request key signature) ∨ VerifiesOtherwise request key signature ↔
      (key ≠ -1 ∧ x.RequiredAccepts) ∨ x.OtherAccepts := by
  simp only [Verifies, VerifiesOtherwise, h, exists_eq_left]

theorem fitImageCheckSig_ok_iff {env : Env} {fit : Fdt} {noffset key : Int} {data : List UInt8}
    {r : Except String Unit} (h : fitImageCheckSig env fit noffset data key = some r) :
    r = .ok () ↔ (key ≠ -1 ∧ Verifies (ImageRequest env fit data) key noffset) ∨
      VerifiesOtherwise (ImageRequest env fit data) key noffset := by
  obtain ⟨setup, hsetup, h⟩ := Option.bind_eq_some_iff.mp h
  cases setup with
  | error msg =>
    cases h
    refine error_iff_of_no_request ?_
    rintro x ⟨info, value, hinfo, -⟩
    rw [hsetup] at hinfo
    cases hinfo
  | ok info =>
    obtain ⟨value, hvalue, hverify⟩ := Option.bind_eq_some_iff.mp h
    cases value with
    | none =>
      cases hverify
      refine error_iff_of_no_request ?_
      rintro x ⟨info, value', -, hvalue', -⟩
      rw [hvalue] at hvalue'
      cases hvalue'
    | some value =>
      obtain ⟨rfl, -⟩ := fitImageSetupVerify_spec hsetup
      rw [verifyRegions_ok_iff hverify, ok_iff_of_request]
      intro x
      constructor
      · rintro ⟨info', value', hinfo, hvalue', rfl⟩
        rw [hsetup] at hinfo
        rw [hvalue] at hvalue'
        cases hinfo
        cases hvalue'
        rfl
      · rintro rfl
        exact ⟨info, value, hsetup, hvalue, rfl⟩

theorem fitConfigCheckSig_ok_iff {env : Env} {fit : Fdt} {noffset key : Int}
    {r : Except String Unit} (h : fitConfigCheckSig env fit noffset key = some r) :
    r = .ok () ↔ (key ≠ -1 ∧ Verifies (ConfigRequest env fit) key noffset) ∨
      VerifiesOtherwise (ConfigRequest env fit) key noffset := by
  obtain ⟨setup, hsetup, h⟩ := Option.bind_eq_some_iff.mp h
  cases setup with
  | error msg =>
    cases h
    refine error_iff_of_no_request ?_
    rintro x ⟨info, value, regions, hinfo, -⟩
    rw [hsetup] at hinfo
    cases hinfo
  | ok info =>
    obtain ⟨value, hvalue, h⟩ := Option.bind_eq_some_iff.mp h
    cases value with
    | none =>
      cases h
      refine error_iff_of_no_request ?_
      rintro x ⟨info, value', regions, -, hvalue', -⟩
      rw [hvalue] at hvalue'
      cases hvalue'
    | some value =>
      obtain ⟨regions, hregions, hverify⟩ := Option.bind_eq_some_iff.mp h
      cases regions with
      | error msg =>
        cases hverify
        refine error_iff_of_no_request ?_
        rintro x ⟨info, value', regions', -, -, hregions', -⟩
        rw [hregions] at hregions'
        cases hregions'
      | ok regions =>
        obtain ⟨rfl, -⟩ := fitImageSetupVerify_spec hsetup
        rw [verifyRegions_ok_iff hverify, ok_iff_of_request]
        intro x
        constructor
        · rintro ⟨info', value', regions', hinfo, hvalue', hregions', rfl⟩
          rw [hsetup] at hinfo
          rw [hvalue] at hvalue'
          rw [hregions] at hregions'
          cases hinfo
          cases hvalue'
          cases hregions'
          rfl
        · rintro rfl
          exact ⟨info, value, regions, hsetup, hvalue, hregions, rfl⟩

/-- An image signature for which `rsa_verify` returns 0 passes. -/
theorem fitImageCheckSig_of_verdict {env : Env} {fit : Fdt} {noffset key : Int}
    {data : List UInt8} {x : Request} (hx : ImageRequest env fit data key noffset x)
    (hverdict : x.verdict = some 0) :
    fitImageCheckSig env fit noffset data key = some (.ok ()) := by
  obtain ⟨info, value, hsetup, hvalue, rfl⟩ := hx
  have hverify : rsaVerify info [data] value (env.stack noffset info.requiredKeynode) = some 0 :=
    hverdict
  rw [fitImageCheckSig, hsetup]
  simp only [Option.bind_eq_bind, Option.bind_some, hvalue, verifyRegions, hverify]
  rfl

/-! ### All required keys -/

/-- Each required key has made a signature that is accepted, where `accepted` says
for which keys a signature counts. -/
def AllSigned (sigBlob fit : Fdt) (what : List UInt8) (noffset : Int)
    (accepted : Int → Int → Prop) : Prop :=
  ∀ key, RequiredKey sigBlob what key → ∃ signature, SignatureOf fit noffset signature ∧
    accepted key signature

theorem RequiredKey.ne {sigBlob : Fdt} {what : List UInt8} {key : Int}
    (h : RequiredKey sigBlob what key) : key ≠ -1 := by
  obtain ⟨-, -, -, ⟨-, -, -, hpos⟩, -⟩ := h
  omega

theorem verifyRequired_eq_zero_iff {sigBlob fit : Fdt} {what : List UInt8} {noffset : Int}
    {accepted : Int → Int → Prop} (check : Int → Int → Option (Except String Unit))
    (hcheck : ∀ {key signature r}, RequiredKey sigBlob what key →
      check key signature = some r → (r = .ok () ↔ accepted key signature))
    {ret : Int} {count : Nat}
    (h : verifyRequired sigBlob what (fun key => verifySig fit noffset (check key)) =
      some (ret, count)) :
    ret = 0 ↔ AllSigned sigBlob fit what noffset accepted := by
  rcases verifyRequired_cases h with ⟨hzero, hall⟩ | ⟨hne, key, hkey, hverify⟩
  · refine iff_of_true hzero fun key hkey => ?_
    rcases verifySig_cases (hall key hkey) with ⟨-, node, hnode, hok⟩ | ⟨habs, -⟩
    · exact ⟨node, hnode, (hcheck hkey hok).1 rfl⟩
    · exact absurd rfl habs
  · refine iff_of_false hne fun hall => ?_
    rcases verifySig_cases hverify with ⟨hzero, -⟩ | ⟨-, herrors⟩
    · exact hne hzero
    · obtain ⟨node, hnode, hacc⟩ := hall key hkey
      obtain ⟨msg, hmsg⟩ := herrors node hnode
      cases (hcheck hkey hmsg).2 hacc

/-- A key is required for `what`, and no signature counts for it. -/
def SomeUnsigned (sigBlob fit : Fdt) (what : List UInt8) (noffset : Int)
    (accepted : Int → Int → Prop) : Prop :=
  ∃ key, RequiredKey sigBlob what key ∧ ∀ signature, SignatureOf fit noffset signature →
    ¬accepted key signature

theorem not_allSigned_iff {sigBlob fit : Fdt} {what : List UInt8} {noffset : Int}
    {accepted : Int → Int → Prop} :
    ¬AllSigned sigBlob fit what noffset accepted ↔
      SomeUnsigned sigBlob fit what noffset accepted := by
  simp only [AllSigned, SomeUnsigned, not_forall, not_exists, not_and, exists_prop]

/-- Each required key of an image has a signature that verifies under it when the code
returns 0, exactly when that is so anyway or the image has no signature that verifies
under any key. Each required key of a configuration has one, exactly when that is so
anyway or a required key has no signature that verifies under it or another key. -/
theorem required_keys_verified (env : Env) (fit sigBlob : Fdt) (noffset : Int)
    (data : List UInt8) :
    (∀ ret noSigs, fitImageVerifyRequiredSigs env fit noffset data sigBlob = some (ret, noSigs) →
      ((ret = 0 → AllSigned sigBlob fit (ascii "image") noffset
          (Verifies (ImageRequest env fit data))) ↔
        AllSigned sigBlob fit (ascii "image") noffset (Verifies (ImageRequest env fit data)) ∨
          SomeUnsigned sigBlob fit (ascii "image") noffset fun _ signature =>
            VerifiesOtherwise (ImageRequest env fit data) (-1) signature)) ∧
    (∀ ret, fitConfigVerifyRequiredSigs env fit noffset sigBlob = some ret →
      ((ret = 0 → AllSigned sigBlob fit (ascii "conf") noffset
          (Verifies (ConfigRequest env fit))) ↔
        AllSigned sigBlob fit (ascii "conf") noffset (Verifies (ConfigRequest env fit)) ∨
          SomeUnsigned sigBlob fit (ascii "conf") noffset fun key signature =>
            Verifies (ConfigRequest env fit) key signature ∨
              VerifiesOtherwise (ConfigRequest env fit) key signature)) := by
  constructor
  · intro ret noSigs h
    obtain ⟨⟨ret', count⟩, hrequired, h⟩ := Option.bind_eq_some_iff.mp h
    cases h
    have hzero : ret = 0 ↔ AllSigned sigBlob fit (ascii "image") noffset fun _ signature =>
        VerifiesOtherwise (ImageRequest env fit data) (-1) signature := by
      refine verifyRequired_eq_zero_iff
        (fun _ signature => fitImageCheckSig env fit signature data (-1)) ?_ hrequired
      intro key signature r _ hcheck
      rw [fitImageCheckSig_ok_iff hcheck]
      simp
    rw [hzero, ← not_allSigned_iff]
    tauto
  · intro ret h
    obtain ⟨⟨ret', count⟩, hrequired, h⟩ := Option.bind_eq_some_iff.mp h
    cases h
    have hzero : ret = 0 ↔ AllSigned sigBlob fit (ascii "conf") noffset fun key signature =>
        Verifies (ConfigRequest env fit) key signature ∨
          VerifiesOtherwise (ConfigRequest env fit) key signature := by
      refine verifyRequired_eq_zero_iff
        (fun key signature => fitConfigCheckSig env fit signature key) ?_ hrequired
      intro key signature r hkey hcheck
      rw [fitConfigCheckSig_ok_iff hcheck]
      simp [hkey.ne]
    rw [hzero, ← not_allSigned_iff]
    tauto

/-! ### Two required keys and one signature -/

/-- The header, and the structure block up to the modulus of `key-prod`. -/
def requiredStart : List UInt8 :=
  words [0xd00dfeed, 1372, 56, 1296, 40, 17, 16, 0, 76, 1240, 0, 0, 0, 0] ++
  words [1, 0] ++ words [1] ++ ascii "signature" ++ [0, 0, 0] ++
  words [1] ++ ascii "key-prod" ++ [0, 0, 0, 0] ++
  words [3, 6, 67] ++ ascii "image" ++ [0, 0, 0] ++
  words [3, 4, 0, 4096] ++ words [3, 512, 41]

/-- From the end of `key-prod` to the modulus of `key-dev`. -/
def requiredMiddle : List UInt8 :=
  words [2, 1] ++ ascii "key-dev" ++ [0] ++
  words [3, 6, 67] ++ ascii "image" ++ [0, 0, 0] ++
  words [3, 4, 0, 2048] ++ words [3, 4, 13, 1839707961] ++ words [3, 8, 28, 0, 3] ++
  words [3, 256, 41]

/-- The end of the structure block, and the property names. -/
def requiredEnd : List UInt8 := blobEnd ++ ascii "required" ++ [0]

/-- A control blob with two keys that are required for images: `key-prod` of 4096 bits
at offset 24 of the structure block and `key-dev` of 2048 bits at offset 604. -/
def requiredBlob : Fdt where
  addr := 0
  mem a :=
    if a < 144 then requiredStart.getD a 0
    else if a < 656 then 0xff
    else if a < 756 then requiredMiddle.getD (a - 656) 0
    else if a < 1012 then UInt8.ofNat (devModulus / 256 ^ (1011 - a))
    else if a < 1024 then (words [3, 256, 53]).getD (a - 1012) 0
    else if a < 1280 then UInt8.ofNat (2 ^ 4096 % devModulus / 256 ^ (1279 - a))
    else requiredEnd.getD (a - 1280) 0

/-- The parts of the blob as numbers, which are quick to read. -/
def requiredStartNumber : Nat :=
  0xd00dfeed0000055c0000003800000510000000280000001100000010000000000000004c000004d8000000000000000000000000000000000000000100000000000000017369676e6174757265000000000000016b65792d70726f6400000000000000030000000600000043696d61676500000000000003000000040000000000001000000000030000020000000029

def requiredMiddleNumber : Nat :=
  0x2000000016b65792d64657600000000030000000600000043696d6167650000000000000300000004000000000000080000000003000000040000000d6da7b73900000003000000080000001c0000000000000003000000030000010000000029

def requiredEndNumber : Nat :=
  0x20000000200000002000000097273612c6e756d2d62697473007273612c6e302d696e7665727365007273612c6578706f6e656e74007273612c6d6f64756c7573007273612c722d7371756172656400726571756972656400

def requiredBlobNumbered : Fdt where
  addr := 0
  mem a :=
    if a < 144 then UInt8.ofNat (requiredStartNumber / 256 ^ (143 - a))
    else if a < 656 then 0xff
    else if a < 756 then UInt8.ofNat (requiredMiddleNumber / 256 ^ (99 - (a - 656)))
    else if a < 1012 then UInt8.ofNat (devModulus / 256 ^ (1011 - a))
    else if a < 1024 then (words [3, 256, 53]).getD (a - 1012) 0
    else if a < 1280 then UInt8.ofNat (2 ^ 4096 % devModulus / 256 ^ (1279 - a))
    else if a < 1372 then UInt8.ofNat (requiredEndNumber / 256 ^ (91 - (a - 1280)))
    else 0

theorem requiredBlob_eq : requiredBlob = requiredBlobNumbered := by
  obtain ⟨hstart, hmiddle, hend⟩ : beBytes 144 requiredStartNumber = requiredStart ∧
      beBytes 100 requiredMiddleNumber = requiredMiddle ∧
      beBytes 92 requiredEndNumber = requiredEnd := by set_option maxRecDepth 8000 in decide
  rw [requiredBlob, requiredBlobNumbered, ← hstart, ← hmiddle, ← hend]
  refine congrArg (Fdt.mk 0) (funext fun a => ?_)
  split_ifs with h1 h2 h3 h4 h5 h6 h7
  · exact getD_beBytes h1 _
  · rfl
  · exact getD_beBytes (by omega) _
  · rfl
  · rfl
  · rfl
  · exact getD_beBytes (by omega) _
  · exact List.getD_eq_default _ _ (by rw [length_beBytes]; omega)

/-- A FIT up to the value of the signature of its image. -/
def signedStart : List UInt8 :=
  words [0xd00dfeed, 465, 56, 440, 40, 17, 16, 0, 25, 384, 0, 0, 0, 0] ++
  words [1, 0] ++ words [1] ++ ascii "images" ++ [0, 0] ++
  words [1] ++ ascii "kernel@1" ++ [0, 0, 0, 0] ++
  words [1] ++ ascii "signature@1" ++ [0] ++
  words [3, 13, 0] ++ ascii "sha1,rsa2048" ++ [0, 0, 0, 0] ++
  words [3, 4, 11] ++ ascii "dev" ++ [0] ++ words [3, 256, 5]

def signedEnd : List UInt8 :=
  words [2, 2, 2, 2, 9] ++ ascii "algo" ++ [0] ++ ascii "value" ++ [0] ++
  ascii "key-name-hint" ++ [0]

/-- A FIT with an image at offset 20, which has a signature by `key-dev` at offset 36. -/
def signedFit : Fdt where
  addr := 0
  mem a :=
    if a < 164 then signedStart.getD a 0
    else if a < 420 then UInt8.ofNat (3 * 2 ^ 681 / 256 ^ (419 - a))
    else signedEnd.getD (a - 420) 0

def signedStartNumber : Nat :=
  0xd00dfeed000001d100000038000001b800000028000000110000001000000000000000190000018000000000000000000000000000000000000000010000000000000001696d616765730000000000016b65726e656c403100000000000000017369676e6174757265403100000000030000000d00000000736861312c727361323034380000000000000003000000040000000b64657600000000030000010000000005

def signedEndNumber : Nat :=
  0x200000002000000020000000200000009616c676f0076616c7565006b65792d6e616d652d68696e7400

def signedFitNumbered : Fdt where
  addr := 0
  mem a :=
    if a < 164 then UInt8.ofNat (signedStartNumber / 256 ^ (163 - a))
    else if a < 420 then UInt8.ofNat (3 * 2 ^ 681 / 256 ^ (419 - a))
    else if a < 465 then UInt8.ofNat (signedEndNumber / 256 ^ (44 - (a - 420)))
    else 0

theorem signedFit_eq : signedFit = signedFitNumbered := by
  obtain ⟨hstart, hend⟩ : beBytes 164 signedStartNumber = signedStart ∧
      beBytes 45 signedEndNumber = signedEnd := by set_option maxRecDepth 8000 in decide
  rw [signedFit, signedFitNumbered, ← hstart, ← hend]
  refine congrArg (Fdt.mk 0) (funext fun a => ?_)
  split_ifs with h1 h2 h3
  · exact getD_beBytes h1 _
  · rfl
  · exact getD_beBytes (by omega) _
  · exact List.getD_eq_default _ _ (by rw [length_beBytes]; omega)

theorem signedFit_nodes : fdtFirstSubnode signedFit 20 = some 36 ∧
    fdtNextSubnode signedFit 36 = some (-1) ∧ isSignatureNode signedFit 36 = some true ∧
    ((fdtGetprop signedFit 36 (ascii "algo")).map fun r => match r with
      | .ok (p, _) => strcmpEq p (ascii "sha1,rsa2048")
      | .error _ => false) = some true ∧
    keyNameHint signedFit 36 = some (some (ascii "dev")) ∧
    (fitImageHashGetValue signedFit 36).map (·.map fun value => (value.length, beValue value)) =
      some (some (256, 3 * 2 ^ 681)) := by
  rw [signedFit_eq]
  set_option maxRecDepth 8000 in decide

theorem requiredBlob_nodes : fdtSubnodeOffset requiredBlob 0 FIT_SIG_NODENAME = some 8 ∧
    fdtFirstSubnode requiredBlob 8 = some 24 ∧ fdtNextSubnode requiredBlob 24 = some 604 ∧
    fdtNextSubnode requiredBlob 604 = some (-1) ∧
    fdtSubnodeOffset requiredBlob 8 (hintNodeName (some (ascii "dev"))) = some 604 ∧
    isRequired requiredBlob (ascii "image") 24 = some true ∧
    isRequired requiredBlob (ascii "image") 604 = some true ∧
    (readKeyProp requiredBlob 24).map (fun p => (p.numBits, p.modulus.isSome)) =
      some (4096, true) ∧
    (readKeyProp requiredBlob 604).map (fun p =>
      (p.numBits, p.n0inv, p.modulus.map (fun q => beValue (q.bytes 256)),
        p.rr.map (fun q => beValue (q.bytes 256)),
        p.publicExponent.map (fun q => beValue (q.bytes 8)))) =
      some (2048, 1839707961, some devModulus, some (2 ^ (64 * 64) % devModulus), some 3) := by
  rw [requiredBlob_eq]
  decide +kernel

/-- The digest is the one of an image without data. -/
def requiredEnv : Env where
  fdtBlob := requiredBlob
  sha1 _ := some emptyDigest
  sha256 _ := none
  stack _ _ := List.replicate 256 0

/-- What is set up for the signature. -/
def signedInfo (key : Int) : ImageSignInfo where
  keyname := some (ascii "dev")
  fit := signedFit
  checksum := checksumSha1Rsa2048 requiredEnv
  fdtBlob := requiredBlob
  requiredKeynode := key

def signedRequest (key : Int) : Request :=
  ⟨signedInfo key, [[]], beBytes 256 (3 * 2 ^ 681), List.replicate 256 0⟩

theorem signedFit_setup (key : Int) :
    fitImageSetupVerify requiredEnv signedFit 36 key = some (.ok (signedInfo key)) := by
  obtain ⟨-, -, -, halgo, hhint, -⟩ := signedFit_nodes
  obtain ⟨r, hr, hname⟩ := Option.map_eq_some_iff.mp halgo
  cases r with
  | error e => cases hname
  | ok p =>
    obtain ⟨algo, len⟩ := p
    have hname : strcmpEq algo (ascii "sha1,rsa2048") = true := hname
    rw [fitImageSetupVerify, hr]
    simp only [Option.bind_eq_bind, Option.bind_some, hhint, imageGetSigAlgo, if_pos hname]
    rfl

theorem signedFit_value :
    fitImageHashGetValue signedFit 36 = some (some (beBytes 256 (3 * 2 ^ 681))) := by
  obtain ⟨-, -, -, -, -, hnumber⟩ := signedFit_nodes
  obtain ⟨found, hfound, hsome⟩ := Option.map_eq_some_iff.mp hnumber
  obtain ⟨value, rfl, hvalue⟩ := Option.map_eq_some_iff.mp hsome
  obtain ⟨hlen, hbytes⟩ := Prod.mk.inj hvalue
  rw [hfound, ← hlen, ← hbytes, beBytes_beValue]

theorem signedRequest_prepared (key : Int) : (signedRequest key).Prepared hintedHash 8 := by
  refine ⟨?_, requiredBlob_nodes.1, by decide, emptyDigest, rfl, ?_⟩
  · exact (by decide : 20 ≤ 256)
  · rw [signedRequest, List.drop_replicate]
    rfl

theorem requiredBlob_devKey : ∃ p, readKeyProp requiredBlob 604 = some p ∧
    Describes p 64 devModulus 3 := by
  obtain ⟨-, -, -, -, -, -, -, -, hread⟩ := requiredBlob_nodes
  exact describes_devKey hread

/-- The signature passes where any key will do. -/
theorem signedRequest_verdict : (signedRequest (-1)).verdict = some 0 := by
  obtain ⟨p, hread, hkey⟩ := requiredBlob_devKey
  obtain ⟨-, -, -, -, hnode, -⟩ := requiredBlob_nodes
  have hverify : rsaVerifyWithKeynode (signedInfo (-1)) hintedHash (beBytes 256 (3 * 2 ^ 681)) 604 =
      some 0 :=
    devKey_verifies (by decide) hread hkey ⟨rfl, rfl, by set_option maxRecDepth 8000 in decide⟩
  exact (signedRequest_prepared (-1)).verdict_of_hint_only 604 rfl hnode hverify

theorem signedFit_check :
    fitImageCheckSig requiredEnv signedFit 36 [] (-1) = some (.ok ()) :=
  fitImageCheckSig_of_verdict ⟨_, _, signedFit_setup (-1), signedFit_value, rfl⟩
    signedRequest_verdict

theorem verifySig_signedFit {check : Int → Option (Except String Unit)}
    (hcheck : check 36 = some (.ok ())) : verifySig signedFit 20 check = some 0 := by
  obtain ⟨hfirst, -, hname, -⟩ := signedFit_nodes
  obtain ⟨fuel, hfuel⟩ : ∃ fuel, iterations = fuel + 1 := ⟨4294967295, rfl⟩
  rw [verifySig, fdtForEachSubnode, hfirst, hfuel]
  simp only [Option.bind_eq_bind, Option.bind_some, forEachLoop, checkSubnode, hname, if_true,
    hcheck]
  rfl

theorem verifyRequired_requiredBlob {verify : Int → Option Int} (hprod : verify 24 = some 0)
    (hdev : verify 604 = some 0) :
    verifyRequired requiredBlob (ascii "image") verify = some (0, 2) := by
  obtain ⟨hnode, hfirst, hnext, hlast, -, hreq, hreq', -⟩ := requiredBlob_nodes
  obtain ⟨fuel, hfuel⟩ : ∃ fuel, iterations = fuel + 1 + 1 + 1 := ⟨4294967293, rfl⟩
  rw [verifyRequired, hnode]
  simp only [Option.bind_eq_bind, Option.bind_some, fdtForEachSubnode, hfirst]
  rw [hfuel]
  simp [forEachLoop, verifyKey, hreq, hreq', hnext, hlast, hprod, hdev]

theorem signedFit_accepted :
    fitImageVerifyRequiredSigs requiredEnv signedFit 20 [] requiredBlob = some (0, false) := by
  have hverify : ∀ key, fitImageVerifySig requiredEnv signedFit 20 [] key = some 0 :=
    fun _ => verifySig_signedFit signedFit_check
  rw [fitImageVerifyRequiredSigs, verifyRequired_requiredBlob (hverify 24) (hverify 604)]
  rfl

theorem requiredBlob_prodKey : RequiredKey requiredBlob (ascii "image") 24 := by
  obtain ⟨hnode, hfirst, -, -, -, hreq, -⟩ := requiredBlob_nodes
  exact ⟨8, hnode, by decide, ⟨24, hfirst, .refl, by decide⟩, hreq⟩

theorem signedFit_subnode {node : Int} (h : Subnode signedFit 20 node) : node = 36 := by
  obtain ⟨hfirst, hnext, -⟩ := signedFit_nodes
  obtain ⟨first, hfirst', hreach, hpos⟩ := h
  obtain rfl := Option.some.inj (hfirst.symm.trans hfirst')
  rcases hreach.cases_head with rfl | ⟨next, hstep, hrest⟩
  · rfl
  · obtain rfl := Option.some.inj (hnext.symm.trans hstep.2)
    rcases hrest.cases_head with rfl | ⟨last, hstep', -⟩
    · omega
    · exact absurd hstep'.1 (by decide)

/-- `key-prod` has made no signature. -/
theorem signedFit_not_verifies (signature : Int) (hsignature : SignatureOf signedFit 20 signature) :
    ¬Verifies (ImageRequest requiredEnv signedFit []) 24 signature := by
  rintro ⟨x, ⟨info, value, hsetup, hvalue, rfl⟩, hash, sigNode, hprepared, hverify⟩
  obtain rfl := signedFit_subnode hsignature.1
  obtain rfl := Except.ok.inj (Option.some.inj ((signedFit_setup 24).symm.trans hsetup))
  obtain rfl := Option.some.inj (Option.some.inj (signedFit_value.symm.trans hvalue))
  obtain ⟨rfl, rfl⟩ := (signedRequest_prepared 24).unique hprepared
  have hreject : rsaVerifyWithKeynode (signedInfo 24) hintedHash (beBytes 256 (3 * 2 ^ 681)) 24 =
      some (-EINVAL) := by
    obtain ⟨-, -, -, -, -, -, -, hread, -⟩ := requiredBlob_nodes
    exact rejected_of_numBits (by decide) hread (length_beBytes _ _)
  exact absurd (hreject.symm.trans hverify) (by decide)

theorem required_keys_verified_two :
    ((0 : Int) = 0 → AllSigned requiredBlob signedFit (ascii "image") 20
        (Verifies (ImageRequest requiredEnv signedFit [])) ↔
      AllSigned requiredBlob signedFit (ascii "image") 20
          (Verifies (ImageRequest requiredEnv signedFit [])) ∨
        SomeUnsigned requiredBlob signedFit (ascii "image") 20 fun _ signature =>
          VerifiesOtherwise (ImageRequest requiredEnv signedFit []) (-1) signature) ∧
    ((0 : Int) = 0 → AllSigned requiredBlob signedFit (ascii "conf") 20
        (Verifies (ConfigRequest requiredEnv signedFit)) ↔
      AllSigned requiredBlob signedFit (ascii "conf") 20
          (Verifies (ConfigRequest requiredEnv signedFit)) ∨
        SomeUnsigned requiredBlob signedFit (ascii "conf") 20 fun key signature =>
          Verifies (ConfigRequest requiredEnv signedFit) key signature ∨
            VerifiesOtherwise (ConfigRequest requiredEnv signedFit) key signature) := by
  obtain ⟨himage, hconfig⟩ := required_keys_verified requiredEnv signedFit requiredBlob 20 []
  exact ⟨himage 0 false signedFit_accepted, hconfig 0 (by decide)⟩

/-- Two keys are required and one of them has made a signature. -/
theorem required_key_without_signature :
    ¬∀ (env : Env) (fit sigBlob : Fdt) (noffset : Int) (data : List UInt8) (noSigs : Bool),
      fitImageVerifyRequiredSigs env fit noffset data sigBlob = some (0, noSigs) →
        AllSigned sigBlob fit (ascii "image") noffset (Verifies (ImageRequest env fit data)) := by
  intro h
  obtain ⟨signature, hsignature, hverifies⟩ :=
    h requiredEnv signedFit requiredBlob 20 [] false signedFit_accepted 24 requiredBlob_prodKey
  exact signedFit_not_verifies signature hsignature hverifies

end UBoot.Fit
