import UBoot.Libfdt.Basic
import UBoot.Rsa.Power

/-!
# Verifying a signature

`lib/rsa/rsa-verify.c`. When `required_keynode` names a key of the control blob,
`rsa_verify` tries that key first. If it does not accept, the code goes on with
the key named by the hint of the FIT and then with every node it meets while it
walks the FIT from the offset that the signature node has in the control blob.

The modular exponentiation is the software one. `memcmp` past the end of an
array has no result (`none`).
-/

namespace UBoot.Rsa

open Verification UBoot.Libfdt

def RSA_MAX_SIG_BITS : Nat := 4096
def ENOENT : Int := 2
def EACCES : Int := 13

def FIT_SIG_NODENAME : List UInt8 := ascii "signature"

/-- `struct checksum_algo`. `calculate` returns the digest of the regions, or
nothing when it fails. -/
structure ChecksumAlgo where
  checksumLen : Nat
  padLen : Nat
  calculate : List (List UInt8) → Option (List UInt8)
  rsaPadding : List UInt8

/-- The part of `struct image_sign_info` that verification reads. -/
structure ImageSignInfo where
  keyname : Option (List UInt8)
  fit : Fdt
  checksum : ChecksumAlgo
  fdtBlob : Fdt
  requiredKeynode : Int

/-- `memcmp`, as the test for equality. -/
def memcmpEq (s1 s2 : List UInt8) (n : Nat) : Option Bool :=
  if n ≤ s1.length ∧ n ≤ s2.length then some (s1.take n = s2.take n) else none

/-- `rsa_verify_key` -/
def rsaVerifyKey (prop : KeyProp) (sig hash : List UInt8) (algo : ChecksumAlgo) : Option Int :=
  if sig.length ≠ u32 (prop.numBits.tdiv 8) then some (-EINVAL)
  else if sig.length > RSA_MAX_SIG_BITS / 8 then some (-EINVAL)
  else do
    match ← rsaModExpSw sig (some prop) with
    | .error ret => return ret
    | .ok buf =>
      let padLen := algo.padLen - algo.checksumLen
      if !(← memcmpEq buf algo.rsaPadding padLen) then return -EINVAL
      else if !(← memcmpEq (buf.drop padLen) hash (u32 (sig.length - padLen))) then
        return -EACCES
      else return 0

/-- The reads of `rsa_verify_with_keynode`. -/
def readKeyProp (blob : Fdt) (node : Int) : Option KeyProp := do
  let numBits ← fdtdecGetInt blob node (ascii "rsa,num-bits") 0
  let n0inv ← fdtdecGetInt blob node (ascii "rsa,n0-inverse") 0
  let exponent ← fdtGetprop blob node (ascii "rsa,exponent")
  let modulus ← fdtGetprop blob node (ascii "rsa,modulus")
  let rr ← fdtGetprop blob node (ascii "rsa,r-squared")
  return {
    rr := rr.toOption.map Prod.fst
    modulus := modulus.toOption.map Prod.fst
    publicExponent :=
      (exponent.toOption.filter fun (_, length) => 8 ≤ u32 length).map Prod.fst
    n0inv := UInt32.ofNat (u32 n0inv)
    numBits := numBits
    expLen := 8 }

/-- `rsa_verify_with_keynode` -/
def rsaVerifyWithKeynode (info : ImageSignInfo) (hash sig : List UInt8) (node : Int) :
    Option Int :=
  if node < 0 then some (-EBADF)
  else do
    let prop ← readKeyProp info.fdtBlob node
    if prop.numBits = 0 ∨ prop.modulus = none then return -EFAULT
    else rsaVerifyKey prop sig hash info.checksum

/-- The name of the key node that a hint asks for, in a buffer of 100 bytes. -/
def hintNodeName (keyname : Option (List UInt8)) : List UInt8 :=
  (ascii "key-" ++ keyname.getD (ascii "<NULL>")).take 99

/-- The last loop of `rsa_verify`, over the nodes of the FIT. -/
def tryNodesLoop (info : ImageSignInfo) (hash sig : List UInt8) (node : Int) :
    Nat → Int → Int → Int → Option Int
  | 0, _, _, _ => none
  | fuel + 1, noffset, ndepth, ret =>
    if 0 ≤ noffset ∧ 0 < ndepth then
      if ndepth = 1 ∧ noffset ≠ node then do
        let ret ← rsaVerifyWithKeynode info hash sig noffset
        if ret = 0 then return ret
        else
          let (noffset, ndepth) ← fdtNextNode info.fit noffset ndepth
          tryNodesLoop info hash sig node fuel noffset ndepth ret
      else do
        let (noffset, ndepth) ← fdtNextNode info.fit noffset ndepth
        tryNodesLoop info hash sig node fuel noffset ndepth ret
    else some ret

/-- The rest of `rsa_verify` after the required key: the hint, then all nodes. -/
def tryOtherKeys (info : ImageSignInfo) (hash sig : List UInt8) (sigNode : Int) :
    Option Int := do
  let node ← fdtSubnodeOffset info.fdtBlob sigNode (hintNodeName info.keyname)
  let ret ← rsaVerifyWithKeynode info hash sig node
  if ret = 0 then return ret
  else
    let (noffset, ndepth) ← fdtNextNode info.fit sigNode 0
    tryNodesLoop info hash sig node iterations noffset ndepth ret

/-- `rsa_verify`. `stack` is what the array for the digest held before. -/
def rsaVerify (info : ImageSignInfo) (region : List (List UInt8)) (sig stack : List UInt8) :
    Option Int :=
  if info.checksum.checksumLen > info.checksum.padLen then some (-EINVAL)
  else do
    let sigNode ← fdtSubnodeOffset info.fdtBlob 0 FIT_SIG_NODENAME
    if sigNode < 0 then return -ENOENT
    else
      match info.checksum.calculate region with
      | none => return -EINVAL
      | some digest =>
        let hash := digest ++ stack.drop digest.length
        if info.requiredKeynode ≠ -1 then
          let ret ← rsaVerifyWithKeynode info hash sig info.requiredKeynode
          if ret = 0 then return ret
          else tryOtherKeys info hash sig sigNode
        else tryOtherKeys info hash sig sigNode

end UBoot.Rsa
