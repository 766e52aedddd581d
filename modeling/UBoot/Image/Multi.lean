import Mathlib.Algebra.Order.BigOperators.Group.List
import UBoot.Verification.Bytes

/-!
# Multi-component images

The payload that `tools/mkimage.c` writes for an image of type `IH_TYPE_MULTI`
or `IH_TYPE_SCRIPT`, and the functions of `common/image.c` that find the
components in memory. A `ulong` of the boot loader has `w` bits. The search for
the end of the size table has no bound in the source; here it takes fuel.
-/

namespace UBoot.Image

open Verification

/-- `sizeof(image_header_t)` -/
def headerSize : Nat := 64

/-- The files that can be read, by name. -/
abbrev Files := List UInt8 → Option (List UInt8)

/-- The loop of `main` that writes the size of every file and a zero word. -/
def sizeTable (files : Files) : List (List UInt8) → Option (List UInt8)
  | [] => some (beBytes 4 0)
  | name :: names => do
    let data ← files name
    let table ← sizeTable files names
    some (beBytes 4 data.length ++ table)

/-- `copy_file`: what is written for the contents of a file. An empty file
cannot be mapped, and a negative size cannot be written. -/
def copyFile (xflag : Bool) (data : List UInt8) (pad : Nat) : Option (List UInt8) :=
  if pad ≥ 4096 ∨ data = [] then none
  else if xflag ∧ (data.length % 2 ^ 32 < headerSize ∨
      data.take headerSize ≠ List.replicate headerSize 0xFF) then none
  else
    let offset := if xflag then headerSize else 0
    let size : Int := ((data.length : Int) - offset).bmod (2 ^ 32)
    if size < 0 then none
    else
      let size := size.toNat
      let tail := size % 4
      let padding := if pad = 1 ∧ tail ≠ 0 then 4 - tail else if pad > 1 then pad else 0
      some ((data.drop offset).take size ++ List.replicate padding 0)

/-- The loop of `main` that writes the files; all but the last one are padded. -/
def copyFiles (files : Files) (xflag : Bool) : List (List UInt8) → Option (List UInt8)
  | [] => some []
  | name :: names => do
    let data ← files name
    let first ← copyFile xflag data (if names = [] then 0 else 1)
    let rest ← copyFiles files xflag names
    some (first ++ rest)

/-- The payload for the names in `params.datafile`, with colons between them. -/
def multiPayload (files : Files) (xflag : Bool) (datafile : List UInt8) : Option (List UInt8) := do
  let names := datafile.splitOn 58
  let table ← sizeTable files names
  let data ← copyFiles files xflag names
  some (table ++ data)

section

variable (w : Nat) (mem : Ptr)

/-- `image_get_data` -/
def imageGetData (hdr : Nat) : Nat := (hdr + headerSize) % 2 ^ w

/-- `uimage_to_cpu(size[i])` -/
def sizeAt (size i : Nat) : Nat := beValue ((mem.add ((size + 4 * i) % 2 ^ w)).bytes 4)

/-- The loop of `image_multi_count` from slot `i` on. -/
def countFrom (size : Nat) : Nat → Nat → Nat → Option Nat
  | 0, _, _ => none
  | fuel + 1, i, count =>
    if sizeAt w mem size i = 0 then some count
    else countFrom size fuel ((i + 1) % 2 ^ w) ((count + 1) % 2 ^ w)

/-- `image_multi_count` -/
def imageMultiCount (fuel hdr : Nat) : Option Nat := countFrom w mem (imageGetData w hdr) fuel 0 0

/-- `(size + 3) & ~3` on 32 bits. -/
def roundUp (size : Nat) : Nat := (size + 3) % 2 ^ 32 / 4 * 4

/-- `image_multi_getimg`: the values of `data` and `len`. -/
def imageMultiGetimg (fuel hdr idx : Nat) : Option (Nat × Nat) := do
  let count ← imageMultiCount w mem fuel hdr
  let size := imageGetData w hdr
  let imgData := (imageGetData w hdr + (count + 1) * 4) % 2 ^ w
  if idx < count then
    let len := sizeAt w mem size idx
    let offset := (List.range idx).foldl
      (fun offset i => (offset + roundUp (sizeAt w mem size i)) % 2 ^ w) 0
    some ((imgData + offset) % 2 ^ w, len)
  else some (0, 0)

/-- An image with the given payload is in memory at `hdr`. -/
structure Loaded (hdr : Nat) (payload : List UInt8) : Prop where
  fits : hdr + headerSize + payload.length ≤ 2 ^ w
  bytes : (mem.add (hdr + headerSize)).bytes payload.length = payload

end

/-! ### The payload -/

def padded (data : List UInt8) : List UInt8 :=
  data ++ List.replicate (roundUp data.length - data.length) 0

/-- The files one after another. -/
def body : List (List UInt8) → List UInt8
  | [] => []
  | [data] => data
  | data :: rest => padded data ++ body rest

def table (contents : List (List UInt8)) : List UInt8 :=
  contents.flatMap (fun data => beBytes 4 data.length) ++ beBytes 4 0

theorem roundUp_eq {size : Nat} (h : size < 2 ^ 31) : roundUp size = (size + 3) / 4 * 4 := by
  rw [roundUp, Nat.mod_eq_of_lt (by omega)]

theorem length_padded {data : List UInt8} (h : data.length < 2 ^ 31) :
    (padded data).length = roundUp data.length := by
  rw [padded, List.length_append, List.length_replicate, roundUp_eq h]
  omega

theorem copyFile_last {data : List UInt8} (hne : data ≠ []) (h : data.length < 2 ^ 31) :
    copyFile false data 0 = some data := by
  have hsize : ((data.length : Int) - (0 : Nat)).bmod (2 ^ 32) = data.length := by
    rw [Int.bmod_eq_of_le] <;> omega
  simp only [copyFile, hne, Bool.false_eq_true, if_false, false_and, hsize]
  rw [if_neg (by simp), if_neg (by omega)]
  simp

theorem copyFile_padded {data : List UInt8} (hne : data ≠ []) (h : data.length < 2 ^ 31) :
    copyFile false data 1 = some (padded data) := by
  have hsize : ((data.length : Int) - (0 : Nat)).bmod (2 ^ 32) = data.length := by
    rw [Int.bmod_eq_of_le] <;> omega
  have hpadding : (if data.length % 4 ≠ 0 then 4 - data.length % 4 else 0) =
      roundUp data.length - data.length := by
    rw [roundUp_eq h]
    split_ifs <;> omega
  simp only [copyFile, hne, Bool.false_eq_true, if_false, false_and, hsize]
  rw [if_neg (by simp), if_neg (by omega)]
  simp [padded, ← hpadding]

theorem sizeTable_eq {files : Files} {names contents : List (List UInt8)}
    (h : names.map files = contents.map some) : sizeTable files names = some (table contents) := by
  induction names generalizing contents with
  | nil =>
    obtain rfl : contents = [] := by simpa using h.symm
    rfl
  | cons name names ih =>
    cases contents with
    | nil => simp at h
    | cons data contents =>
      obtain ⟨hdata, hrest⟩ := List.cons.inj h
      rw [sizeTable, hdata, ih hrest]
      simp [table]

theorem copyFiles_eq {files : Files} {names contents : List (List UInt8)}
    (h : names.map files = contents.map some) (hne : ∀ data ∈ contents, data ≠ [])
    (hlt : ∀ data ∈ contents, data.length < 2 ^ 31) :
    copyFiles files false names = some (body contents) := by
  induction names generalizing contents with
  | nil =>
    obtain rfl : contents = [] := by simpa using h.symm
    rfl
  | cons name names ih =>
    cases contents with
    | nil => simp at h
    | cons data contents =>
      obtain ⟨hdata, hrest⟩ := List.cons.inj h
      have hd := hne data (List.mem_cons_self ..)
      have hl := hlt data (List.mem_cons_self ..)
      have hcopy := ih hrest (fun d hm => hne d (List.mem_cons_of_mem _ hm))
        (fun d hm => hlt d (List.mem_cons_of_mem _ hm))
      rw [copyFiles, hdata, hcopy]
      cases contents with
      | nil =>
        obtain rfl : names = [] := by simpa using hrest
        simp [copyFile_last hd hl, body]
      | cons next contents =>
        have : names ≠ [] := by
          rintro rfl
          simp at hrest
        simp [this, copyFile_padded hd hl, body]

/-! ### The components -/

/-- The size of a component is in its slot. -/
theorem slice_table {contents : List (List UInt8)} {rest : List UInt8} {i : Nat}
    {data : List UInt8} (h : contents[i]? = some data) :
    slice (table contents ++ rest) (4 * i) 4 = beBytes 4 data.length := by
  induction contents generalizing i with
  | nil => simp at h
  | cons first contents ih =>
    rw [table, List.flatMap_cons, List.append_assoc, List.append_assoc]
    cases i with
    | zero =>
      obtain rfl : first = data := by simpa using h
      exact slice_append_left (length_beBytes ..)
    | succ i =>
      rw [slice_append_right (length_beBytes ..) (by omega), ← List.append_assoc]
      exact ih h

/-- The slot behind the sizes is zero. -/
theorem slice_table_end (contents : List (List UInt8)) (rest : List UInt8) :
    slice (table contents ++ rest) (4 * contents.length) 4 = beBytes 4 0 := by
  induction contents with
  | nil => exact slice_append_left (length_beBytes ..)
  | cons first contents ih =>
    rw [table, List.flatMap_cons, List.append_assoc, List.append_assoc,
      slice_append_right (length_beBytes ..) (by rw [List.length_cons]; omega),
      ← List.append_assoc]
    exact ih

theorem length_table (contents : List (List UInt8)) :
    (table contents).length = 4 * (contents.length + 1) := by
  induction contents with
  | nil => rfl
  | cons first contents ih =>
    rw [table, List.flatMap_cons, List.append_assoc, List.length_append, length_beBytes,
      ← table, ih, List.length_cons]
    omega

/-- The offset of a component behind the table. -/
def offsetOf (contents : List (List UInt8)) (i : Nat) : Nat :=
  ((contents.take i).map fun data => roundUp data.length).sum

theorem body_at {contents : List (List UInt8)} (hlt : ∀ data ∈ contents, data.length < 2 ^ 31)
    {i : Nat} {data : List UInt8} (h : contents[i]? = some data) :
    offsetOf contents i + data.length ≤ (body contents).length ∧
      slice (body contents) (offsetOf contents i) data.length = data := by
  induction contents generalizing i with
  | nil => simp at h
  | cons first contents ih =>
    have hl := hlt first (List.mem_cons_self ..)
    cases i with
    | zero =>
      obtain rfl : first = data := by simpa using h
      cases contents with
      | nil => simp [offsetOf, body, slice]
      | cons next contents => simp [offsetOf, body, slice, padded]
    | succ i =>
      cases contents with
      | nil => simp at h
      | cons next contents =>
        obtain ⟨hle, hslice⟩ := ih (fun d hm => hlt d (List.mem_cons_of_mem _ hm)) h
        have hoffset : offsetOf (first :: next :: contents) (i + 1) =
            (padded first).length + offsetOf (next :: contents) i := by
          rw [length_padded hl]
          simp [offsetOf]
        rw [body, hoffset]
        · refine ⟨?_, ?_⟩
          · rw [List.length_append]
            omega
          · rw [slice_append_right rfl (by omega), Nat.add_sub_cancel_left]
            exact hslice
        · simp

/-! ### Reading the image in memory -/

section

variable {w : Nat} {mem : Ptr} {hdr : Nat}

theorem Loaded.imageGetData {payload : List UInt8} (loaded : Loaded w mem hdr payload)
    (hpos : 0 < payload.length) : imageGetData w hdr = hdr + headerSize :=
  Nat.mod_eq_of_lt (by have := loaded.fits; omega)

theorem Loaded.slice {payload : List UInt8} (loaded : Loaded w mem hdr payload) {k n : Nat}
    (h : k + n ≤ payload.length) :
    (mem.add (hdr + headerSize + k)).bytes n = slice payload k n := by
  have hadd : mem.add (hdr + headerSize + k) = (mem.add (hdr + headerSize)).add k := by
    funext i
    simp only [Ptr.add, Nat.add_assoc]
  rw [hadd, Ptr.bytes_add_eq _ h, loaded.bytes, Verification.slice]

variable {contents : List (List UInt8)}

theorem Loaded.sizeAt_slot (loaded : Loaded w mem hdr (table contents ++ body contents))
    {i : Nat} (hi : i ≤ contents.length) :
    sizeAt w mem (hdr + headerSize) i =
      beValue (Verification.slice (table contents ++ body contents) (4 * i) 4) := by
  have htable := length_table contents
  have hfits := loaded.fits
  rw [List.length_append] at hfits
  rw [sizeAt, Nat.mod_eq_of_lt (by omega), loaded.slice]
  rw [List.length_append]
  omega

theorem Loaded.sizeAt_eq (loaded : Loaded w mem hdr (table contents ++ body contents))
    {i : Nat} {data : List UInt8} (h : contents[i]? = some data) (hlt : data.length < 2 ^ 31) :
    sizeAt w mem (hdr + headerSize) i = data.length := by
  have hi := (List.getElem?_eq_some_iff.mp h).1
  rw [loaded.sizeAt_slot hi.le, slice_table h, beValue_beBytes]
  omega

theorem Loaded.sizeAt_end (loaded : Loaded w mem hdr (table contents ++ body contents)) :
    sizeAt w mem (hdr + headerSize) contents.length = 0 := by
  rw [loaded.sizeAt_slot le_rfl, slice_table_end]
  rfl

/-- The search goes on to the end of the table. -/
theorem Loaded.countFrom (loaded : Loaded w mem hdr (table contents ++ body contents))
    (hne : ∀ data ∈ contents, data ≠ []) (hlt : ∀ data ∈ contents, data.length < 2 ^ 31)
    {fuel i : Nat} (hi : i ≤ contents.length) (hfuel : contents.length < fuel + i) :
    countFrom w mem (hdr + headerSize) fuel i i = some contents.length := by
  induction fuel generalizing i with
  | zero => omega
  | succ fuel ih =>
    obtain hlast | hless : i = contents.length ∨ i < contents.length := by omega
    · rw [Image.countFrom, hlast, loaded.sizeAt_end, if_pos rfl]
    · obtain ⟨data, hdata⟩ : ∃ data, contents[i]? = some data :=
        ⟨_, List.getElem?_eq_getElem hless⟩
      have hm := List.mem_of_getElem? hdata
      have hpos := List.length_pos_iff.mpr (hne data hm)
      have hnext : (i + 1) % 2 ^ w = i + 1 := by
        have hfits := loaded.fits
        rw [List.length_append, length_table] at hfits
        exact Nat.mod_eq_of_lt (by omega)
      rw [Image.countFrom, loaded.sizeAt_eq hdata (hlt data hm), if_neg (by omega), hnext]
      exact ih hless (by omega)

/-- The loop of `image_multi_getimg` over the components before the one asked for. -/
theorem Loaded.offset (loaded : Loaded w mem hdr (table contents ++ body contents))
    (hlt : ∀ data ∈ contents, data.length < 2 ^ 31) {i : Nat} {data : List UInt8}
    (h : contents[i]? = some data) :
    (List.range i).foldl (fun offset i =>
        (offset + roundUp (sizeAt w mem (hdr + headerSize) i)) % 2 ^ w) 0 =
      offsetOf contents i := by
  have hsmall : ∀ {j data}, contents[j]? = some data → offsetOf contents j < 2 ^ w := by
    intro j data hj
    have hbody := (body_at hlt hj).1
    have hfits := loaded.fits
    rw [List.length_append, length_table] at hfits
    omega
  induction i generalizing data with
  | zero => rfl
  | succ i ih =>
    have hi := (List.getElem?_eq_some_iff.mp h).1
    have hget : contents[i]? = some contents[i] := List.getElem?_eq_getElem (by omega)
    have hnext : offsetOf contents (i + 1) =
        offsetOf contents i + roundUp contents[i].length := by
      rw [offsetOf, List.take_add_one, hget, List.map_append, List.sum_append]
      rfl
    rw [List.range_succ, List.foldl_append, ih hget, List.foldl_cons, List.foldl_nil,
      loaded.sizeAt_eq hget (hlt _ (List.mem_of_getElem? hget)), ← hnext]
    exact Nat.mod_eq_of_lt (hsmall h)

end

/-- The components of a multi-component image are found in memory as they were
in the files: their number, and for each one its address and its length. -/
theorem multi_image_round_trip {files : Files} {names contents : List (List UInt8)}
    (hnames : names ≠ []) (hcolon : ∀ name ∈ names, 58 ∉ name)
    (hfiles : names.map files = contents.map some) (hne : ∀ data ∈ contents, data ≠ [])
    (htotal : (contents.map List.length).sum < 2 ^ 31) :
    ∃ payload, multiPayload files false ([58].intercalate names) = some payload ∧
      ∀ (w : Nat) (mem : Ptr) (hdr : Nat), Loaded w mem hdr payload →
        ∀ fuel > contents.length,
          imageMultiCount w mem fuel hdr = some contents.length ∧
          ∀ (i : Nat) (data : List UInt8), contents[i]? = some data → ∃ addr,
            imageMultiGetimg w mem fuel hdr i = some (addr, data.length) ∧
              (mem.add addr).bytes data.length = data := by
  have hlt : ∀ data ∈ contents, data.length < 2 ^ 31 := fun data hm =>
    (List.single_le_sum (by simp) _ (List.mem_map_of_mem hm)).trans_lt htotal
  refine ⟨table contents ++ body contents, ?_, ?_⟩
  · rw [multiPayload, List.splitOn_intercalate 58 hcolon hnames, sizeTable_eq hfiles,
      copyFiles_eq hfiles hne hlt]
    rfl
  · intro w mem hdr loaded fuel hfuel
    have htable := length_table contents
    have hfits := loaded.fits
    rw [List.length_append] at hfits
    have hdata := loaded.imageGetData (by rw [List.length_append]; omega)
    have hcount : imageMultiCount w mem fuel hdr = some contents.length := by
      rw [imageMultiCount, hdata]
      exact loaded.countFrom hne hlt (Nat.zero_le _) hfuel
    refine ⟨hcount, ?_⟩
    intro i data hi
    obtain ⟨hbody, hslice⟩ := body_at hlt hi
    have hless := (List.getElem?_eq_some_iff.mp hi).1
    have hpos := List.length_pos_iff.mpr (hne data (List.mem_of_getElem? hi))
    refine ⟨hdr + headerSize + ((table contents).length + offsetOf contents i), ?_, ?_⟩
    · rw [imageMultiGetimg, hcount, hdata]
      simp only [Option.bind_eq_bind, Option.bind_some, if_pos hless,
        loaded.sizeAt_eq hi (hlt data (List.mem_of_getElem? hi)), loaded.offset hlt hi]
      have himg : (hdr + headerSize + (contents.length + 1) * 4) % 2 ^ w =
          hdr + headerSize + (table contents).length := by
        rw [htable, Nat.mul_comm]
        exact Nat.mod_eq_of_lt (by omega)
      rw [himg, Nat.mod_eq_of_lt (by omega), Nat.add_assoc]
    · rw [loaded.slice (by rw [List.length_append]; omega), slice_append_right rfl (by omega),
        Nat.add_sub_cancel_left, hslice]

/-- Two files, one of them with a length that is no multiple of 4. -/
def twoFiles : Files := fun name =>
  if name = [97] then some [1, 2, 3] else if name = [98] then some [4, 5, 6, 7, 8] else none

theorem multi_image_round_trip_two :
    ∃ payload, multiPayload twoFiles false [97, 58, 98] = some payload ∧
      ∀ (w : Nat) (mem : Ptr) (hdr : Nat), Loaded w mem hdr payload → ∀ fuel > 2,
        imageMultiCount w mem fuel hdr = some 2 ∧
        ∀ (i : Nat) (data : List UInt8), [[1, 2, 3], [4, 5, 6, 7, 8]][i]? = some data → ∃ addr,
          imageMultiGetimg w mem fuel hdr i = some (addr, data.length) ∧
            (mem.add addr).bytes data.length = data :=
  @multi_image_round_trip twoFiles [[97], [98]] [[1, 2, 3], [4, 5, 6, 7, 8]]
    (by decide) (by decide) (by decide) (by decide) (by decide)

end UBoot.Image
