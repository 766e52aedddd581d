import UBoot.Libfdt.Regions
import UBoot.Rsa.Verify

/-!
# Signatures in a FIT

`common/image-sig.c`: an image or a configuration has signature subnodes, and the
control blob has key nodes, some of them required. The digests of `lib/sha1.c` and
`lib/sha256.c` are functions of the environment. A result is `none` where a loop of
libfdt does not end or a pointer is used that has no object behind it.
-/

namespace UBoot.Fit

open Verification UBoot.Libfdt UBoot.Rsa

def IMAGE_MAX_HASHED_NODES : Nat := 100
def EPERM : Int := 1

/-- What the code finds around it: `gd_fdt_blob()`, the digests of the regions, and
what the stack holds when a signature node is checked for a required key. -/
structure Env where
  fdtBlob : Fdt
  sha1 : List (List UInt8) → Option (List UInt8)
  sha256 : List (List UInt8) → Option (List UInt8)
  stack : Int → Int → List UInt8

/-! ### Algorithms -/

/-- A padding of PKCS 1.5: the bytes after the `0xff` ones are those of the digest
algorithm. -/
def padding (ones : Nat) (digestInfo : List UInt8) : List UInt8 :=
  [0x00, 0x01] ++ List.replicate ones 0xff ++ [0x00] ++ digestInfo

def sha1DigestInfo : List UInt8 :=
  [0x30, 0x21, 0x30, 0x09, 0x06, 0x05, 0x2b, 0x0e, 0x03, 0x02, 0x1a, 0x05, 0x00, 0x04, 0x14]

def sha256DigestInfo : List UInt8 :=
  [0x30, 0x31, 0x30, 0x0d, 0x06, 0x09, 0x60, 0x86, 0x48, 0x01, 0x65, 0x03, 0x04, 0x02, 0x01,
   0x05, 0x00, 0x04, 0x20]

/-- `checksum_algos[0]` -/
def checksumSha1Rsa2048 (env : Env) : ChecksumAlgo where
  checksumLen := 20
  padLen := 256
  calculate := env.sha1
  rsaPadding := padding 218 sha1DigestInfo

/-- `checksum_algos[1]` -/
def checksumSha256Rsa2048 (env : Env) : ChecksumAlgo where
  checksumLen := 32
  padLen := 256
  calculate := env.sha256
  rsaPadding := padding 202 sha256DigestInfo

/-- `checksum_algos[2]` -/
def checksumSha256Rsa4096 (env : Env) : ChecksumAlgo where
  checksumLen := 32
  padLen := 512
  calculate := env.sha256
  rsaPadding := padding 458 sha256DigestInfo

/-- `image_get_sig_algo` -/
def imageGetSigAlgo (env : Env) (name : Ptr) : Option ChecksumAlgo :=
  if strcmpEq name (ascii "sha1,rsa2048") then some (checksumSha1Rsa2048 env)
  else if strcmpEq name (ascii "sha256,rsa2048") then some (checksumSha256Rsa2048 env)
  else if strcmpEq name (ascii "sha256,rsa4096") then some (checksumSha256Rsa4096 env)
  else none

/-! ### One signature node -/

def keyNameHint (fit : Fdt) (noffset : Int) : Option (Option (List UInt8)) := do
  match ← fdtGetprop fit noffset (ascii "key-name-hint") with
  | .ok (hint, _) => return some (← cString hint)
  | .error _ => return none

/-- `fit_image_setup_verify`, with the message of an error. -/
def fitImageSetupVerify (env : Env) (fit : Fdt) (noffset requiredKeynode : Int) :
    Option (Except String ImageSignInfo) := do
  match ← fdtGetprop fit noffset (ascii "algo") with
  | .error _ => return .error "Can't get hash algo property"
  | .ok (algoName, _) =>
    let keyname ← keyNameHint fit noffset
    match imageGetSigAlgo env algoName with
    | none => return .error "Unknown signature algorithm"
    | some checksum => return .ok {
        keyname := keyname
        fit := fit
        checksum := checksum
        fdtBlob := env.fdtBlob
        requiredKeynode := requiredKeynode }

/-- `fit_image_hash_get_value` -/
def fitImageHashGetValue (fit : Fdt) (noffset : Int) : Option (Option (List UInt8)) := do
  match ← fdtGetprop fit noffset (ascii "value") with
  | .ok (value, len) => return some (value.bytes (u32 len))
  | .error _ => return none

/-- The call of `algo->verify`, as the two check functions make it. -/
def verifyRegions (env : Env) (noffset : Int) (info : ImageSignInfo) (region : List (List UInt8))
    (value : List UInt8) : Option (Except String Unit) := do
  let ret ← rsaVerify info region value (env.stack noffset info.requiredKeynode)
  return if ret ≠ 0 then .error "Verification failed" else .ok ()

/-- `fit_image_check_sig` -/
def fitImageCheckSig (env : Env) (fit : Fdt) (noffset : Int) (data : List UInt8)
    (requiredKeynode : Int) : Option (Except String Unit) := do
  match ← fitImageSetupVerify env fit noffset requiredKeynode with
  | .error msg => return .error msg
  | .ok info =>
    match ← fitImageHashGetValue fit noffset with
    | none => return .error "Can't get hash value property"
    | some value => verifyRegions env noffset info [data] value

/-- The strings in a property, each with its NUL. After the last NUL nothing may
follow, as the array of names has room for the strings that end. -/
def nodeNames (prop : List UInt8) : Option (List (List UInt8)) :=
  if prop.getLast? = some 0 then some ((prop.splitOn 0).dropLast) else none

/-- The hashed nodes that a signature node lists, or the message of an error. -/
def hashedNodes (fit : Fdt) (noffset : Int) : Option (Except String (List (List UInt8))) := do
  match ← fdtGetprop fit noffset (ascii "hashed-nodes") with
  | .error _ => return .error "Can't get hashed-nodes property"
  | .ok (prop, propLen) =>
    let bytes := prop.bytes propLen.toNat
    let count := bytes.count 0
    if count = 0 then return .error "Can't get hashed-nodes property"
    else if IMAGE_MAX_HASHED_NODES < count then
      return .error "Number of hashed nodes exceeds maximum"
    else return .ok (← nodeNames bytes)

/-- The region of the string table that a signature node names. -/
def hashedStrings (fit : Fdt) (noffset : Int) : Option (List FdtRegion) := do
  match ← fdtGetprop fit noffset (ascii "hashed-strings") with
  | .error _ => return []
  | .ok (strings, _) =>
    return [⟨s32 (fdtOffDtStrings fit + beValue (strings.bytes 4)),
      s32 (beValue ((strings.add 4).bytes 4))⟩]

/-- `fit_region_make_list` -/
def fitRegionMakeList (fit : Fdt) (regions : List FdtRegion) : List (List UInt8) :=
  regions.map fun r => (fit.ptr (u32 (fit.addr + r.offset))).bytes (u32 r.size)

/-- The regions that a signature of a configuration covers, or the message of an error. -/
def configRegions (fit : Fdt) (noffset : Int) : Option (Except String (List FdtRegion)) := do
  match ← hashedNodes fit noffset with
  | .error msg => return .error msg
  | .ok nodeInc =>
    let maxRegions := 20 + nodeInc.length * 7
    match ← fdtFindRegions fit nodeInc [ascii "data"] (maxRegions - 1) 200 with
    | .error _ => return .error "Failed to hash configuration"
    | .ok (regions, count) =>
      if count = 0 then return .error "No data to hash"
      else if maxRegions - 1 ≤ count then return .error "Too many hash regions"
      else return .ok (regions ++ (← hashedStrings fit noffset))

/-- `fit_config_check_sig` -/
def fitConfigCheckSig (env : Env) (fit : Fdt) (noffset requiredKeynode : Int) :
    Option (Except String Unit) := do
  match ← fitImageSetupVerify env fit noffset requiredKeynode with
  | .error msg => return .error msg
  | .ok info =>
    match ← fitImageHashGetValue fit noffset with
    | none => return .error "Can't get hash value property"
    | some value =>
      match ← configRegions fit noffset with
      | .error msg => return .error msg
      | .ok regions => verifyRegions env noffset info (fitRegionMakeList fit regions) value

/-! ### All signature nodes -/

/-- Whether a subnode is a signature node: `strncmp` with `FIT_SIG_NODENAME`. A name
that is `NULL` cannot be compared. -/
def isSignatureNode (fit : Fdt) (noffset : Int) : Option Bool := do
  let addr ← (← fdtGetName fit noffset)
  return (fit.ptr addr).bytes FIT_SIG_NODENAME.length = FIT_SIG_NODENAME

/-- The body of the loop over the subnodes; the loop is left when a signature
verifies. -/
def checkSubnode (fit : Fdt) (check : Int → Option (Except String Unit)) (noffset : Int) (_ : Unit) :
    Option (Except Unit Unit) := do
  if ← isSignatureNode fit noffset then
    match ← check noffset with
    | .error _ => return .ok ()
    | .ok () => return .error ()
  else return .ok ()

/-- `fit_image_verify_sig` and `fit_config_verify_sig`, which differ in how a signature
node is checked. -/
def verifySig (fit : Fdt) (noffset : Int) (check : Int → Option (Except String Unit)) :
    Option Int := do
  let (left, last) ← fdtForEachSubnode fit noffset (checkSubnode fit check) ()
  if last = -FDT_ERR_TRUNCATED ∨ last = -FDT_ERR_BADSTRUCTURE then return -1
  else
    match left with
    | .error () => return 0
    | .ok () => return -EPERM

/-- `fit_image_verify_sig`. It has the offset of the key node and does not use it. -/
def fitImageVerifySig (env : Env) (fit : Fdt) (imageNoffset : Int) (data : List UInt8)
    (_sigOffset : Int) : Option Int :=
  verifySig fit imageNoffset fun noffset => fitImageCheckSig env fit noffset data (-1)

/-- `fit_config_verify_sig` -/
def fitConfigVerifySig (env : Env) (fit : Fdt) (confNoffset sigOffset : Int) : Option Int :=
  verifySig fit confNoffset fun noffset => fitConfigCheckSig env fit noffset sigOffset

/-! ### All required keys -/

/-- Whether a key node is required for `what`. -/
def isRequired (sigBlob : Fdt) (what : List UInt8) (noffset : Int) : Option Bool := do
  match ← fdtGetprop sigBlob noffset (ascii "required") with
  | .ok (required, _) => return strcmpEq required what
  | .error _ => return false

/-- The body of the loop over the key nodes, with `verify_count`. -/
def verifyKey (sigBlob : Fdt) (what : List UInt8) (verify : Int → Option Int) (noffset : Int)
    (verifyCount : Nat) : Option (Except Int Nat) := do
  if ← isRequired sigBlob what noffset then
    let ret ← verify noffset
    return if ret ≠ 0 then .error ret else .ok (verifyCount + 1)
  else return .ok verifyCount

/-- The loop over the key nodes of the signature node: the value returned, and the
number of keys verified. -/
def verifyRequired (sigBlob : Fdt) (what : List UInt8) (verify : Int → Option Int) :
    Option (Int × Nat) := do
  let sigNode ← fdtSubnodeOffset sigBlob 0 FIT_SIG_NODENAME
  if sigNode < 0 then return (0, 0)
  else
    match ← fdtForEachSubnode sigBlob sigNode (verifyKey sigBlob what verify) 0 with
    | (.error ret, _) => return (ret, 0)
    | (.ok verifyCount, _) => return (0, verifyCount)

/-- `fit_image_verify_required_sigs`, with `no_sigsp`. -/
def fitImageVerifyRequiredSigs (env : Env) (fit : Fdt) (imageNoffset : Int) (data : List UInt8)
    (sigBlob : Fdt) : Option (Int × Bool) := do
  let (ret, verifyCount) ← verifyRequired sigBlob (ascii "image")
    (fitImageVerifySig env fit imageNoffset data)
  return (ret, verifyCount = 0)

/-- `fit_config_verify_required_sigs` -/
def fitConfigVerifyRequiredSigs (env : Env) (fit : Fdt) (confNoffset : Int) (sigBlob : Fdt) :
    Option Int := do
  let (ret, _) ← verifyRequired sigBlob (ascii "conf") (fitConfigVerifySig env fit confNoffset)
  return ret

end UBoot.Fit
