import UBoot.Libfdt.Subnodes

/-!
# Finding regions

`fdt_find_regions` of `lib/libfdt/fdt_wip.c`: the parts of the structure block that
belong to a list of nodes, without a list of properties. The region array holds
`max_regions` entries; regions past its end are counted only.
-/

namespace UBoot.Libfdt

open Verification

def FDT_MAX_DEPTH : Nat := 32
def FDT_ERR_NOSPACE : Int := 3
def FDT_ERR_BADLAYOUT : Int := 12

/-- `struct fdt_region` -/
structure FdtRegion where
  offset : Int
  size : Int
  deriving DecidableEq, Repr

/-- The variables of the loop. `path` is the text before `end`, and `stack` holds the
values saved for the open nodes, the last one first. -/
structure RegionState where
  region : List FdtRegion
  count : Nat
  start : Int
  want : Nat
  path : List UInt8
  stack : List Nat

/-- Leave the last component of a path: `while (end > path && *--end != '/')`. -/
def leavePath (path : List UInt8) : List UInt8 :=
  ((path.reverse.dropWhile (· ≠ 0x2f)).drop 1).reverse

/-- `str_in_list` for the name of a property. -/
def strInList (str : Ptr) (list : List (List UInt8)) : Bool := list.any (strcmpEq str ·)

/-- `fdt_string` of the property at an offset, or `NULL` for the property. -/
def propertyName (fdt : Fdt) (offset : Int) : Option (Option Ptr) := do
  let checked ← fdtCheckPropOffset fdt offset
  if checked < 0 then return none
  else
    let prop := fdtOffsetPtrUnchecked fdt offset
    return some (fdt.ptr (u32 (fdt.addr + fdtOffDtStrings fdt + s32 (fdt.word (prop + 8)))))

/-- The `switch` on the tag: the new state, whether the item is included, and where a
region before it stops. `error` returns from the function. -/
def regionSwitch (fdt : Fdt) (inc excProp : List (List UInt8)) (pathLen : Nat) (tag : Tag)
    (offset nextoffset : Int) (s : RegionState) :
    Option (Except Int (RegionState × Bool × Int)) :=
  match tag with
  | .prop => do
    -- `prop->nameoff` of a `NULL` pointer has no value
    let str ← (← propertyName fdt offset)
    return .ok (s, 2 ≤ s.want ∧ strInList str excProp = false, offset)
  | .nop => some (.ok (s, 2 ≤ s.want, offset))
  | .beginNode =>
    if s.stack.length = FDT_MAX_DEPTH then some (.error (-FDT_ERR_BADSTRUCTURE))
    else do
      let addr ← (← fdtGetName fdt offset)
      let name ← cString (fdt.ptr addr)
      if pathLen ≤ s.path.length + 2 + name.length then return .error (-FDT_ERR_NOSPACE)
      else
        let path := (if s.path.length ≠ 1 then s.path ++ [0x2f] else s.path) ++ name
        let listed := path ∈ inc
        let want := if listed then 2 else s.want - 1
        let stopAt := if s.want = 1 ∨ (¬listed ∧ s.want = 0) then offset else nextoffset
        return .ok ({ s with path := path, stack := s.want :: s.stack, want := want },
          want ≠ 0, stopAt)
  | .endNode =>
    match s.stack with
    | [] => none
    | want :: stack =>
      some (.ok ({ s with path := leavePath s.path, stack := stack, want := want },
        s.want ≠ 0, nextoffset))
  | .fdtEnd => some (.ok (s, true, nextoffset))

/-- Start a region at an included item, or take up the last one again. -/
def openRegion (base : Int) (maxRegions : Nat) (offset : Int) (s : RegionState) : RegionState :=
  match s.region.getLast? with
  | some last =>
    if s.count ≤ maxRegions ∧ offset = s32 (last.offset + last.size - base) then
      { s with region := s.region.dropLast, count := s.count - 1, start := s32 (last.offset - base) }
    else { s with start := offset }
  | none => { s with start := offset }

/-- Store a region that stops. -/
def closeRegion (base : Int) (maxRegions : Nat) (stopAt : Int) (s : RegionState) : RegionState :=
  { s with
    region := if s.count < maxRegions then
        s.region ++ [⟨s32 (base + s.start), s32 (stopAt - s.start)⟩]
      else s.region
    count := s.count + 1
    start := -1 }

/-- The two tests after the `switch`. -/
def regionUpdate (base : Int) (maxRegions : Nat) (offset stopAt : Int) (included : Bool)
    (s : RegionState) : RegionState :=
  if included ∧ s.start = -1 then openRegion base maxRegions offset s
  else if included = false ∧ s.start ≠ -1 then closeRegion base maxRegions stopAt s
  else s

/-- The loop over the tags: the state and `nextoffset` after it. -/
def regionLoop (fdt : Fdt) (inc excProp : List (List UInt8)) (maxRegions pathLen : Nat) :
    Nat → Int → RegionState → Option (Except Int (RegionState × Int))
  | 0, _, _ => none
  | fuel + 1, offset, s => do
    let (tag, nextoffset) ← fdtNextTag fdt offset
    match ← regionSwitch fdt inc excProp pathLen tag offset nextoffset s with
    | .error ret => return .error ret
    | .ok (s, included, stopAt) =>
      let s := regionUpdate (s32 (fdtOffDtStruct fdt)) maxRegions offset stopAt included s
      if tag = .fdtEnd then return .ok (s, nextoffset)
      else regionLoop fdt inc excProp maxRegions pathLen fuel nextoffset s

/-- `fdt_find_regions` without the string table: the regions stored and their number,
or an error code. -/
def fdtFindRegions (fdt : Fdt) (inc excProp : List (List UInt8)) (maxRegions pathLen : Nat) :
    Option (Except Int (List FdtRegion × Nat)) := do
  match ← regionLoop fdt inc excProp maxRegions pathLen iterations 0 ⟨[], 0, -1, 0, [], []⟩ with
  | .error ret => return .error ret
  | .ok (s, nextoffset) =>
    if u32 nextoffset ≠ fdtSizeDtStruct fdt then return .error (-FDT_ERR_BADLAYOUT)
    else
      let s := closeRegion (s32 (fdtOffDtStruct fdt)) maxRegions nextoffset s
      return .ok (s.region, s.count)

end UBoot.Libfdt
