import Mathlib.Logic.Function.Basic

/-!
# Logical memory blocks

`struct lmb_region` is a table of at most `MAX_LMB_REGIONS` regions with one
spare entry, kept in an array whose entries past `cnt` are stale. Addresses and
sizes are 32-bit words held as natural numbers, so every sum and difference of
the source is taken modulo `2 ^ 32`; so is `cnt - 1`, which is a huge bound
when the table is empty.

An operation that indexes the array out of bounds has no result (`none`).
-/

namespace UBoot.Lmb

def MAX_LMB_REGIONS : Nat := 8

/-- Addition of `unsigned long`. -/
def add32 (a b : Nat) : Nat := (a + b) % 4294967296

/-- Subtraction of `unsigned long`. -/
def sub32 (a b : Nat) : Nat := (a + 4294967296 - b) % 4294967296

/-- `struct lmb_property` -/
structure LmbProperty where
  base : Nat
  size : Nat
  deriving DecidableEq, Repr

/-- `struct lmb_region`. The array has `MAX_LMB_REGIONS + 1` entries. -/
structure LmbRegion where
  cnt : Nat
  region : Nat → LmbProperty

/-- Store one entry of the array. -/
def LmbRegion.set (rgn : LmbRegion) (i : Nat) (value : LmbProperty) : LmbRegion :=
  { rgn with region := Function.update rgn.region i value }

/-- `lmb_addrs_adjacent`: 1 when the second range follows the first one, -1
when it precedes it. -/
def lmbAddrsAdjacent (base1 size1 base2 size2 : Nat) : Int :=
  if base2 = add32 base1 size1 then 1
  else if base1 = add32 base2 size2 then -1
  else 0

/-- `lmb_regions_adjacent` -/
def lmbRegionsAdjacent (region : Nat → LmbProperty) (r1 r2 : Nat) : Int :=
  lmbAddrsAdjacent (region r1).base (region r1).size (region r2).base (region r2).size

/-- The loop of `lmb_remove_region`, which moves entry `i + 1` to `i` while `i`
is below `bound`. It runs off the array when `bound` is not the real one. -/
def removeLoop (bound : Nat) : Nat → Nat → (Nat → LmbProperty) → Option (Nat → LmbProperty)
  | 0, _, _ => none
  | fuel + 1, i, region =>
    if i < bound then
      if i + 1 ≤ MAX_LMB_REGIONS then
        removeLoop bound fuel (i + 1) (Function.update region i (region (i + 1)))
      else none
    else some region

/-- `lmb_remove_region` -/
def lmbRemoveRegion (rgn : LmbRegion) (r : Nat) : Option LmbRegion := do
  let region ← removeLoop (sub32 rgn.cnt 1) (MAX_LMB_REGIONS + 2) r rgn.region
  return { cnt := sub32 rgn.cnt 1, region := region }

/-- `lmb_coalesce_regions` -/
def lmbCoalesceRegions (rgn : LmbRegion) (r1 r2 : Nat) : Option LmbRegion :=
  let size := add32 (rgn.region r1).size (rgn.region r2).size
  lmbRemoveRegion (rgn.set r1 ⟨(rgn.region r1).base, size⟩) r2

/-- The reserved half of `lmb_init`: one dummy region of size zero. -/
def lmbInit : LmbRegion where
  cnt := 1
  region := fun _ => ⟨0, 0⟩

/-- What the first loop of `lmb_add_region` finds. -/
inductive Scan where
  | same
  | grown (i : Nat) (region : Nat → LmbProperty)
  | apart

/-- The first loop of `lmb_add_region`, with `fuel` iterations left at `i`. -/
def coalesceLoop (base size : Nat) (region : Nat → LmbProperty) : Nat → Nat → Scan
  | 0, _ => .apart
  | fuel + 1, i =>
    let rgn := region i
    if rgn.base = base ∧ rgn.size = size then .same
    else
      let adjacent := lmbAddrsAdjacent base size rgn.base rgn.size
      if adjacent > 0 then
        .grown i (Function.update region i ⟨sub32 rgn.base size, add32 rgn.size size⟩)
      else if adjacent < 0 then
        .grown i (Function.update region i ⟨rgn.base, add32 rgn.size size⟩)
      else coalesceLoop base size region fuel (i + 1)

/-- The second loop of `lmb_add_region`, from entry `n - 1` down. -/
def insertLoop (base size : Nat) : Nat → (Nat → LmbProperty) → Nat → LmbProperty
  | 0, region => region
  | i + 1, region =>
    if base < (region i).base then
      insertLoop base size i (Function.update region (i + 1) (region i))
    else Function.update region (i + 1) ⟨base, size⟩

/-- `lmb_add_region` -/
def lmbAddRegion (rgn : LmbRegion) (base size : Nat) : Option (Int × LmbRegion) :=
  if rgn.cnt = 1 ∧ (rgn.region 0).size = 0 then
    some (0, rgn.set 0 ⟨base, size⟩)
  else
    match coalesceLoop base size rgn.region rgn.cnt 0 with
    | .same => some (0, rgn)
    | .grown i region =>
      let rgn := { rgn with region := region }
      if i < sub32 rgn.cnt 1 ∧ lmbRegionsAdjacent region i (i + 1) ≠ 0 then
        (lmbCoalesceRegions rgn i (i + 1)).map fun rgn => (2, rgn)
      else some (1, rgn)
    | .apart =>
      -- The loop ended with i = cnt; an empty table still passes the test.
      if rgn.cnt < sub32 rgn.cnt 1 ∧
          lmbRegionsAdjacent rgn.region rgn.cnt (rgn.cnt + 1) ≠ 0 then
        (lmbCoalesceRegions rgn rgn.cnt (rgn.cnt + 1)).map fun rgn => (1, rgn)
      else if rgn.cnt ≥ MAX_LMB_REGIONS then some (-1, rgn)
      else
        let region := insertLoop base size rgn.cnt rgn.region
        let region :=
          if base < (region 0).base then Function.update region 0 ⟨base, size⟩ else region
        some (0, { cnt := rgn.cnt + 1, region := region })

/-- The search loop of `lmb_free`: the first region that contains the range. -/
def findRegion (base end_ : Nat) (region : Nat → LmbProperty) : Nat → Nat → Option Nat
  | 0, _ => none
  | fuel + 1, i =>
    let rgnbegin := (region i).base
    let rgnend := add32 rgnbegin (region i).size
    if rgnbegin ≤ base ∧ end_ ≤ rgnend then some i
    else findRegion base end_ region fuel (i + 1)

/-- `lmb_free` on the reserved table. -/
def lmbFree (rgn : LmbRegion) (base size : Nat) : Option (Int × LmbRegion) :=
  let end_ := add32 base size
  match findRegion base end_ rgn.region rgn.cnt 0 with
  | none => some (-1, rgn)
  | some i =>
    let rgnbegin := (rgn.region i).base
    let rgnend := add32 rgnbegin (rgn.region i).size
    if rgnbegin = base ∧ rgnend = end_ then
      (lmbRemoveRegion rgn i).map fun rgn => (0, rgn)
    else if rgnbegin = base then
      some (0, rgn.set i ⟨end_, sub32 (rgn.region i).size size⟩)
    else if rgnend = end_ then
      some (0, rgn.set i ⟨rgnbegin, sub32 (rgn.region i).size size⟩)
    else
      -- Cut the region short at the hole and add what follows the hole.
      lmbAddRegion (rgn.set i ⟨rgnbegin, sub32 base rgnbegin⟩) end_ (sub32 rgnend end_)

/-- `lmb_reserve` -/
def lmbReserve (rgn : LmbRegion) (base size : Nat) : Option (Int × LmbRegion) :=
  lmbAddRegion rgn base size

end UBoot.Lmb
