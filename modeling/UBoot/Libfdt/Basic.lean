import UBoot.Verification.Bytes

/-!
# Reading a flat device tree

The read-only half of `lib/libfdt` that key lookup rests on. A blob is an
address and the memory around it: nothing but `fdt_offset_ptr` bounds an access,
and only for blobs of version 17. Addresses are 32 bits wide, offsets into the
structure block are `int`.

The loops of libfdt follow tags found in the blob, so a damaged blob may keep
them busy for ever. They get as many iterations as there are addresses and have
no result (`none`) when these do not suffice.
-/

namespace UBoot.Libfdt

open Verification

/-- The value of a 32-bit `unsigned int`. -/
def u32 (x : Int) : Nat := (x % 4294967296).toNat

/-- The value of a 32-bit `int`. -/
def s32 (x : Int) : Int := (x + 2147483648) % 4294967296 - 2147483648

/-- More iterations than any loop over the blob needs that ends at all. -/
def iterations : Nat := 4294967296

def FDT_MAGIC : Nat := 0xd00dfeed
def FDT_SW_MAGIC : Nat := 4294967295 - FDT_MAGIC
def FDT_FIRST_SUPPORTED_VERSION : Nat := 0x10
def FDT_LAST_SUPPORTED_VERSION : Nat := 0x11
def FDT_TAGSIZE : Nat := 4

def FDT_ERR_NOTFOUND : Int := 1
def FDT_ERR_BADOFFSET : Int := 4
def FDT_ERR_BADSTATE : Int := 7
def FDT_ERR_TRUNCATED : Int := 8
def FDT_ERR_BADMAGIC : Int := 9
def FDT_ERR_BADVERSION : Int := 10
def FDT_ERR_BADSTRUCTURE : Int := 11
def FDT_ERR_INTERNAL : Int := 13

/-- A device tree blob: where it is, and what memory holds. -/
structure Fdt where
  addr : Nat
  mem : Nat → UInt8

/-- The memory from an address on. -/
def Fdt.ptr (fdt : Fdt) (p : Nat) : Ptr := fun i => fdt.mem ((p + i) % 4294967296)

/-- `fdt32_to_cpu` of the word at an address. -/
def Fdt.word (fdt : Fdt) (p : Nat) : Nat := beValue ((fdt.ptr p).bytes 4)

/-! ### The header -/

def fdtMagic (fdt : Fdt) : Nat := fdt.word fdt.addr
def fdtTotalsize (fdt : Fdt) : Nat := fdt.word (fdt.addr + 4)
def fdtOffDtStruct (fdt : Fdt) : Nat := fdt.word (fdt.addr + 8)
def fdtOffDtStrings (fdt : Fdt) : Nat := fdt.word (fdt.addr + 12)
def fdtVersion (fdt : Fdt) : Nat := fdt.word (fdt.addr + 20)
def fdtLastCompVersion (fdt : Fdt) : Nat := fdt.word (fdt.addr + 24)
def fdtSizeDtStruct (fdt : Fdt) : Nat := fdt.word (fdt.addr + 36)

/-- `fdt_check_header` -/
def fdtCheckHeader (fdt : Fdt) : Int :=
  if fdtMagic fdt = FDT_MAGIC then
    if fdtVersion fdt < FDT_FIRST_SUPPORTED_VERSION then -FDT_ERR_BADVERSION
    else if fdtLastCompVersion fdt > FDT_LAST_SUPPORTED_VERSION then -FDT_ERR_BADVERSION
    else 0
  else if fdtMagic fdt = FDT_SW_MAGIC then
    if fdtSizeDtStruct fdt = 0 then -FDT_ERR_BADSTATE else 0
  else -FDT_ERR_BADMAGIC

/-! ### Tags -/

/-- `_fdt_offset_ptr` -/
def fdtOffsetPtrUnchecked (fdt : Fdt) (offset : Int) : Nat :=
  u32 (fdt.addr + fdtOffDtStruct fdt + offset)

/-- `fdt_offset_ptr`: the address of `len` bytes at an offset, or `NULL`. -/
def fdtOffsetPtr (fdt : Fdt) (offset : Int) (len : Nat) : Option Nat :=
  if 0x11 ≤ fdtVersion fdt ∧
      (u32 (offset + len) < u32 offset ∨ fdtSizeDtStruct fdt < u32 (offset + len)) then none
  else
    let p := fdtOffsetPtrUnchecked fdt offset
    if u32 (p + len) < p then none else some p

/-- The values of `tag`. Every other word is reported as `FDT_END`. -/
inductive Tag where
  | beginNode
  | endNode
  | prop
  | nop
  | fdtEnd
  deriving DecidableEq, Repr

/-- `FDT_TAGALIGN` -/
def fdtTagalign (offset : Int) : Int := s32 (u32 (offset + 3) / 4 * 4 : Nat)

/-- The loop that skips the name of a node: the offset past its NUL, or `none`
inside when the structure block ends first. -/
def skipName (fdt : Fdt) : Nat → Int → Option (Option Int)
  | 0, _ => none
  | fuel + 1, offset =>
    match fdtOffsetPtr fdt offset 1 with
    | none => some none
    | some p =>
      if fdt.mem p = 0 then some (some (s32 (offset + 1)))
      else skipName fdt fuel (s32 (offset + 1))

/-- The end of the item that starts with the tag word `tag`, or `none` inside
when the structure block ends first or the tag is unknown. -/
def itemEnd (fdt : Fdt) (tag : Nat) (offset : Int) : Option (Option (Tag × Int)) :=
  if tag = 1 then do
    let stop ← skipName fdt iterations offset
    return stop.map (Tag.beginNode, ·)
  else if tag = 3 then
    match fdtOffsetPtr fdt offset 4 with
    | none => some none
    | some lenp => some (some (Tag.prop, s32 (offset + 8 + fdt.word lenp)))
  else if tag = 9 then some (some (Tag.fdtEnd, offset))
  else if tag = 2 then some (some (Tag.endNode, offset))
  else if tag = 4 then some (some (Tag.nop, offset))
  else some none

/-- `fdt_next_tag`: the tag at an offset and the offset of the next one. -/
def fdtNextTag (fdt : Fdt) (startoffset : Int) : Option (Tag × Int) :=
  match fdtOffsetPtr fdt startoffset FDT_TAGSIZE with
  | none => some (.fdtEnd, -FDT_ERR_TRUNCATED)
  | some tagp => do
    match ← itemEnd fdt (fdt.word tagp) (s32 (startoffset + 4)) with
    | none => return (.fdtEnd, -FDT_ERR_BADSTRUCTURE)
    | some (tag, offset) =>
      match fdtOffsetPtr fdt startoffset (u32 (offset - startoffset)) with
      | none => return (.fdtEnd, -FDT_ERR_BADSTRUCTURE)
      | some _ => return (tag, fdtTagalign offset)

/-- `_fdt_check_node_offset` and `_fdt_check_prop_offset`, for the tag that has
to be there. -/
def fdtCheckOffset (fdt : Fdt) (wanted : Tag) (offset : Int) : Option Int :=
  if offset < 0 ∨ u32 offset % FDT_TAGSIZE ≠ 0 then some (-FDT_ERR_BADOFFSET)
  else do
    let (tag, next) ← fdtNextTag fdt offset
    return if tag = wanted then next else -FDT_ERR_BADOFFSET

/-- `_fdt_check_node_offset` -/
def fdtCheckNodeOffset (fdt : Fdt) (offset : Int) : Option Int :=
  fdtCheckOffset fdt .beginNode offset

/-- `_fdt_check_prop_offset` -/
def fdtCheckPropOffset (fdt : Fdt) (offset : Int) : Option Int :=
  fdtCheckOffset fdt .prop offset

/-! ### Nodes -/

/-- The loop of `fdt_next_node`. -/
def nextNodeLoop (fdt : Fdt) : Nat → Int → Int → Option (Int × Int)
  | 0, _, _ => none
  | fuel + 1, offset, depth => do
    let (tag, nextoffset) ← fdtNextTag fdt offset
    match tag with
    | .prop | .nop => nextNodeLoop fdt fuel nextoffset depth
    | .beginNode => return (offset, depth + 1)
    | .endNode =>
      if depth - 1 < 0 then return (nextoffset, depth - 1)
      else nextNodeLoop fdt fuel nextoffset (depth - 1)
    | .fdtEnd =>
      return (if 0 ≤ nextoffset then -FDT_ERR_NOTFOUND else nextoffset, depth)

/-- `fdt_next_node` with a depth: the offset it returns and the depth there. -/
def fdtNextNode (fdt : Fdt) (offset depth : Int) : Option (Int × Int) :=
  if 0 ≤ offset then do
    let nextoffset ← fdtCheckNodeOffset fdt offset
    if nextoffset < 0 then return (nextoffset, depth)
    else nextNodeLoop fdt iterations nextoffset depth
  else nextNodeLoop fdt iterations 0 depth

/-- `_fdt_nodename_eq` -/
def fdtNodenameEq (fdt : Fdt) (offset : Int) (s : List UInt8) : Bool :=
  match fdtOffsetPtr fdt (s32 (offset + 4)) (s.length + 1) with
  | none => false
  | some p =>
    let stop := fdt.ptr p s.length
    (fdt.ptr p).bytes s.length = s ∧ (stop = 0 ∨ (0x40 ∉ s ∧ stop = 0x40))

/-- The loop of `fdt_subnode_offset_namelen`. -/
def subnodeLoop (fdt : Fdt) (name : List UInt8) : Nat → Int → Int → Option Int
  | 0, _, _ => none
  | fuel + 1, offset, depth =>
    if 0 ≤ offset ∧ 0 ≤ depth then
      if depth = 1 ∧ fdtNodenameEq fdt offset name then some offset
      else do
        let (next, depth) ← fdtNextNode fdt offset depth
        subnodeLoop fdt name fuel next depth
    else if depth < 0 then some (-FDT_ERR_NOTFOUND)
    else some offset

/-- `fdt_subnode_offset` -/
def fdtSubnodeOffset (fdt : Fdt) (parentoffset : Int) (name : List UInt8) : Option Int :=
  if fdtCheckHeader fdt ≠ 0 then some (fdtCheckHeader fdt)
  else subnodeLoop fdt name iterations parentoffset 0

/-! ### Properties -/

/-- The loop of `_nextprop`. -/
def nextpropLoop (fdt : Fdt) : Nat → Int → Option Int
  | 0, _ => none
  | fuel + 1, offset => do
    let (tag, nextoffset) ← fdtNextTag fdt offset
    match tag with
    | .fdtEnd => return if 0 ≤ nextoffset then -FDT_ERR_BADSTRUCTURE else nextoffset
    | .prop => return offset
    | .nop => nextpropLoop fdt fuel nextoffset
    | .beginNode | .endNode => return -FDT_ERR_NOTFOUND

/-- `fdt_first_property_offset` and `fdt_next_property_offset` after their check. -/
def propertyAfter (fdt : Fdt) (checked : Option Int) : Option Int := do
  let offset ← checked
  if offset < 0 then return offset else nextpropLoop fdt iterations offset

/-- `fdt_first_property_offset` -/
def fdtFirstPropertyOffset (fdt : Fdt) (nodeoffset : Int) : Option Int :=
  propertyAfter fdt (fdtCheckNodeOffset fdt nodeoffset)

/-- `fdt_next_property_offset` -/
def fdtNextPropertyOffset (fdt : Fdt) (offset : Int) : Option Int :=
  propertyAfter fdt (fdtCheckPropOffset fdt offset)

/-- `_fdt_string_eq` -/
def fdtStringEq (fdt : Fdt) (stroffset : Int) (s : List UInt8) : Bool :=
  let p := fdt.ptr (u32 (fdt.addr + fdtOffDtStrings fdt + stroffset))
  (p.bytes s.length).all (· ≠ 0) ∧ p s.length = 0 ∧ p.bytes s.length = s

/-- The loop of `fdt_get_property_namelen`: the address of the property and its
length, or an error code. -/
def propertyLoop (fdt : Fdt) (name : List UInt8) : Nat → Int → Option (Except Int (Nat × Int))
  | 0, _ => none
  | fuel + 1, offset =>
    if offset < 0 then some (.error offset)
    else do
      let checked ← fdtCheckPropOffset fdt offset
      if checked < 0 then return .error (-FDT_ERR_INTERNAL)
      else
        let prop := fdtOffsetPtrUnchecked fdt offset
        if fdtStringEq fdt (s32 (fdt.word (prop + 8))) name then
          return .ok (prop, s32 (fdt.word (prop + 4)))
        else
          let next ← fdtNextPropertyOffset fdt offset
          propertyLoop fdt name fuel next

/-- `fdt_getprop`: where the value of a property is, and its length. -/
def fdtGetprop (fdt : Fdt) (nodeoffset : Int) (name : List UInt8) :
    Option (Except Int (Ptr × Int)) := do
  let offset ← fdtFirstPropertyOffset fdt nodeoffset
  let found ← propertyLoop fdt name iterations offset
  return found.map fun (prop, len) => (fdt.ptr (prop + 12), len)

/-- `fdtdec_get_int`. The length is compared as an unsigned number. -/
def fdtdecGetInt (blob : Fdt) (node : Int) (propName : List UInt8) (defaultVal : Int) :
    Option Int := do
  match ← fdtGetprop blob node propName with
  | .ok (cell, len) =>
    return if 4 ≤ u32 len then s32 (beValue (cell.bytes 4)) else defaultVal
  | .error _ => return defaultVal

end UBoot.Libfdt
