import UBoot.Verification.Bytes

/-!
# Modular exponentiation in software

`lib/rsa/rsa-mod-exp.c`. A number is an array of 32-bit words, least
significant word first, and all arrays of one key have `key->len` words. The
accumulators are 64-bit words, as in the source.

A copy past the end of an array on the stack has no result (`none`); an error
code is returned as `.error`.
-/

namespace UBoot.Rsa

open Verification

def RSA_MIN_KEY_BITS : Nat := 2048
def RSA_MAX_KEY_BITS : Nat := 4096
def RSA_DEFAULT_PUBEXP : UInt64 := 65537

def EBADF : Int := 9
def EFAULT : Int := 14
def EINVAL : Int := 22

/-- `struct rsa_public_key`. `modulus` and `rr` are arrays of `len` words. -/
structure RsaPublicKey where
  len : Nat
  n0inv : UInt32
  modulus : List UInt32
  rr : List UInt32
  exponent : UInt64
  length_modulus : modulus.length = len
  length_rr : rr.length = len

/-- `struct key_prop`. A pointer is null or leads to memory; the length of the
property it points into is not known to its readers. -/
structure KeyProp where
  rr : Option Ptr
  modulus : Option Ptr
  publicExponent : Option Ptr
  n0inv : UInt32
  numBits : Int
  expLen : Nat

/-- `get_unaligned_be32` of word `i` of an array. -/
def getUnalignedBe32 (src : Ptr) (i : Nat) : UInt32 :=
  UInt32.ofNat (beValue ((src.add (4 * i)).bytes 4))

/-- `put_unaligned_be32` -/
def putUnalignedBe32 (w : UInt32) : List UInt8 := beBytes 4 w.toNat

/-- The loop of `subtract_modulus`. The accumulator is signed, it stays between
`-2 ^ 32` and `2 ^ 32` and its shift rounds down. -/
def subtractLoop : Int → List UInt32 → List UInt32 → List UInt32
  | acc, num :: nums, m :: ms =>
    let acc := acc + ((num.toNat : Int) - m.toNat)
    UInt32.ofNat (acc % 4294967296).toNat :: subtractLoop (acc / 4294967296) nums ms
  | _, _, _ => []

/-- `subtract_modulus` -/
def subtractModulus (key : RsaPublicKey) (num : List UInt32) : List UInt32 :=
  subtractLoop 0 num key.modulus

/-- The loop of `greater_equal_modulus`, from the last word down. -/
def greaterEqualLoop : List (UInt32 × UInt32) → Bool
  | [] => true
  | (num, m) :: rest =>
    if num < m then false
    else if num > m then true
    else greaterEqualLoop rest

/-- `greater_equal_modulus` -/
def greaterEqualModulus (key : RsaPublicKey) (num : List UInt32) : Bool :=
  greaterEqualLoop (num.zip key.modulus).reverse

/-- The loop of `montgomery_mul_add_step`: the words it stores and the final
accumulators. -/
def mulAddLoop (a d0 : UInt32) :
    UInt64 → UInt64 → List UInt32 → List UInt32 → List UInt32 →
      List UInt32 × UInt64 × UInt64
  | accA, accB, b :: bs, r :: rs, m :: ms =>
    let accA := (accA >>> 32) + a.toUInt64 * b.toUInt64 + r.toUInt64
    let accB := (accB >>> 32) + d0.toUInt64 * m.toUInt64 + accA.toUInt32.toUInt64
    let rest := mulAddLoop a d0 accA accB bs rs ms
    (accB.toUInt32 :: rest.1, rest.2)
  | accA, accB, _, _, _ => ([], accA, accB)

/-- `montgomery_mul_add_step` -/
def montgomeryMulAddStep (key : RsaPublicKey) (b result : List UInt32) (a : UInt32) :
    List UInt32 :=
  match b, result, key.modulus with
  | b0 :: bs, r0 :: rs, m0 :: ms =>
    let accA := a.toUInt64 * b0.toUInt64 + r0.toUInt64
    let d0 := accA.toUInt32 * key.n0inv
    let accB := d0.toUInt64 * m0.toUInt64 + accA.toUInt32.toUInt64
    let (words, accA, accB) := mulAddLoop a d0 accA accB bs rs ms
    let accA := (accA >>> 32) + (accB >>> 32)
    let result := words ++ [accA.toUInt32]
    if accA >>> 32 ≠ 0 then subtractModulus key result else result
  | _, _, _ => result

/-- `montgomery_mul` -/
def montgomeryMul (key : RsaPublicKey) (a b : List UInt32) : List UInt32 :=
  a.foldl (montgomeryMulAddStep key b) (List.replicate key.len 0)

/-- The loop of `num_public_exponent_bits`. -/
def numBitsLoop : Nat → Nat → UInt64 → Option Nat
  | 0, _, _ => none
  | fuel + 1, exponentBits, exponent =>
    if exponent >>> 1 = 0 then some exponentBits
    else numBitsLoop fuel (exponentBits + 1) (exponent >>> 1)

/-- `num_public_exponent_bits`, with `none` for `-EINVAL`. -/
def numPublicExponentBits (key : RsaPublicKey) : Option Nat :=
  if key.exponent = 0 then some 0 else numBitsLoop 64 1 key.exponent

/-- `is_public_exponent_bit_set`. The 64-bit conjunction is returned through an
`int`, which keeps its low 32 bits. -/
def isPublicExponentBitSet (key : RsaPublicKey) (pos : Nat) : UInt32 :=
  (key.exponent &&& (1 <<< UInt64.ofNat pos)).toUInt32

/-- The square-and-multiply loop of `pow_mod`, for `j` down to 1. -/
def powModLoop (key : RsaPublicKey) (aScaled : List UInt32) : Nat → List UInt32 → List UInt32
  | 0, acc => acc
  | j + 1, acc =>
    let tmp := montgomeryMul key acc acc
    let acc :=
      if isPublicExponentBitSet key (j + 1) ≠ 0 then montgomeryMul key tmp aScaled
      else tmp
    powModLoop key aScaled j acc

/-- The words of a big-endian array, least significant first
(`rsa_convert_big_endian`). -/
def rsaConvertBigEndian (src : Ptr) (len : Nat) : List UInt32 :=
  (List.range len).map fun i => getUnalignedBe32 src (len - 1 - i)

@[simp] theorem length_rsaConvertBigEndian (src : Ptr) (len : Nat) :
    (rsaConvertBigEndian src len).length = len := by
  simp [rsaConvertBigEndian]

/-- `pow_mod` on a buffer of bytes. The words past `key->len` are left alone. -/
def powMod (key : RsaPublicKey) (inout : List UInt8) : Option (Except Int (List UInt8)) :=
  if key.len > RSA_MAX_KEY_BITS / 32 then some (.error (-EINVAL))
  else if inout.length < 4 * key.len then none
  else
    let val := rsaConvertBigEndian (Ptr.ofList inout) key.len
    match numPublicExponentBits key with
    | none => some (.error (-EINVAL))
    | some k =>
      if k < 2 then some (.error (-EINVAL))
      else if isPublicExponentBitSet key 0 = 0 then some (.error (-EINVAL))
      else
        let aScaled := montgomeryMul key val key.rr
        let acc := powModLoop key aScaled (k - 2) aScaled
        let tmp := montgomeryMul key acc acc
        let acc := montgomeryMul key tmp val
        let result := if greaterEqualModulus key acc then subtractModulus key acc else acc
        some (.ok (result.reverse.flatMap putUnalignedBe32 ++ inout.drop (4 * key.len)))

/-- The exponent of a key, or the default for keys without one. -/
def keyExponent (prop : KeyProp) : UInt64 :=
  match prop.publicExponent with
  | none => RSA_DEFAULT_PUBEXP
  | some p => UInt64.ofNat (beValue (p.bytes 8))

/-- `rsa_mod_exp_sw`. The buffer on the stack has `sig_len / 4` words, and
`memcpy` fills it with `sig_len` bytes. -/
def rsaModExpSw (sig : List UInt8) :
    Option KeyProp → Option (Except Int (List UInt8))
  | none => some (.error (-EBADF))
  | some prop =>
    let bits := (prop.numBits % 4294967296).toNat
    match prop.modulus, prop.rr with
    | some modulus, some rr =>
      if bits = 0 then some (.error (-EFAULT))
      else if bits > RSA_MAX_KEY_BITS ∨ bits < RSA_MIN_KEY_BITS then some (.error (-EFAULT))
      else if sig.length % 4 ≠ 0 then none
      else
        powMod
          { len := bits / 32
            n0inv := prop.n0inv
            modulus := rsaConvertBigEndian modulus (bits / 32)
            rr := rsaConvertBigEndian rr (bits / 32)
            exponent := keyExponent prop
            length_modulus := length_rsaConvertBigEndian _ _
            length_rr := length_rsaConvertBigEndian _ _ }
          sig
    | _, _ => some (.error (-EFAULT))

end UBoot.Rsa
