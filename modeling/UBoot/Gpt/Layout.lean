import Mathlib.Data.UInt
import Mathlib.Tactic.Common
import UBoot.Gpt.Basic

/-!
# Headers and entries as bytes

Reading back what was written, field by field.
-/

namespace UBoot.Gpt

open Verification

theorem ofNat_leValue_32 (v : UInt32) : UInt32.ofNat (leValue (leBytes 4 v.toNat)) = v := by
  have := v.toNat_lt
  rw [leValue_leBytes, Nat.mod_eq_of_lt (by omega), UInt32.ofNat_toNat]

theorem ofNat_leValue_64 (v : UInt64) : UInt64.ofNat (leValue (leBytes 8 v.toNat)) = v := by
  have := v.toNat_lt
  rw [leValue_leBytes, Nat.mod_eq_of_lt (by omega), UInt64.ofNat_toNat]

theorem ofNat_leValue_16 (v : UInt16) : UInt16.ofNat (leValue (leBytes 2 v.toNat)) = v := by
  have := v.toNat_lt
  rw [leValue_leBytes, Nat.mod_eq_of_lt (by omega), UInt16.ofNat_toNat]

/-- Skip a number in front of a field. -/
theorem slice_leBytes {k v : Nat} {rest : List UInt8} {i n : Nat} (hk : k ≤ i) :
    slice (leBytes k v ++ rest) i n = slice rest (i - k) n :=
  slice_append_right (length_leBytes k v) hk

theorem slice_leBytes_self {k v : Nat} {rest : List UInt8} :
    slice (leBytes k v ++ rest) 0 k = leBytes k v :=
  slice_append_left (length_leBytes k v)

/-! ### The header -/

theorem GptHeader.length_toBytes {h : GptHeader} (hguid : h.diskGuid.length = 16) :
    h.toBytes.length = Gpt.headerSize := by
  simp [toBytes, hguid, Gpt.headerSize]

theorem GptHeader.ofBytes_toBytes {h : GptHeader} (hguid : h.diskGuid.length = 16)
    (rest : List UInt8) : GptHeader.ofBytes (h.toBytes ++ rest) = h := by
  have hskip : ∀ (tail : List UInt8) (i n : Nat), 16 ≤ i →
      slice (h.diskGuid ++ tail) i n = slice tail (i - 16) n :=
    fun tail i n hi => slice_append_right hguid hi
  have hself : ∀ tail : List UInt8, slice (h.diskGuid ++ tail) 0 16 = h.diskGuid :=
    fun tail => slice_append_left hguid
  simp (disch := decide) only [ofBytes, toBytes, le32, le64, List.append_assoc, slice_leBytes,
    slice_leBytes_self, hskip, hself, Nat.reduceSub, ofNat_leValue_32, ofNat_leValue_64]

theorem GptHeader.toBytes_clear (h : GptHeader) (rest : List UInt8) :
    (h.toBytes ++ rest).take 16 ++ (List.replicate 4 0 ++ (h.toBytes ++ rest).drop 20) =
      { h with headerCrc32 := 0 }.toBytes ++ rest := by
  obtain ⟨front, tail, hfront, hbytes⟩ : ∃ front tail : List UInt8, front.length = 16 ∧
      ∀ sum : UInt32, { h with headerCrc32 := sum }.toBytes =
        front ++ (leBytes 4 sum.toNat ++ tail) := by
    refine ⟨leBytes 8 h.signature.toNat ++ (leBytes 4 h.revision.toNat ++
      leBytes 4 h.headerSize.toNat), leBytes 4 h.reserved1.toNat ++ (leBytes 8 h.myLba.toNat ++
      (leBytes 8 h.alternateLba.toNat ++ (leBytes 8 h.firstUsableLba.toNat ++
      (leBytes 8 h.lastUsableLba.toNat ++ (h.diskGuid ++ (leBytes 8 h.partitionEntryLba.toNat ++
      (leBytes 4 h.numPartitionEntries.toNat ++ (leBytes 4 h.sizeofPartitionEntry.toNat ++
      leBytes 4 h.partitionEntryArrayCrc32.toNat)))))))), by simp, fun sum => ?_⟩
    simp only [toBytes, List.append_assoc]
  have hself : h.toBytes = front ++ (leBytes 4 h.headerCrc32.toNat ++ tail) := hbytes h.headerCrc32
  have hdrop : (h.toBytes ++ rest).drop 20 = tail ++ rest := by
    rw [show 20 = 16 + 4 from rfl, ← List.drop_drop, hself, List.append_assoc,
      List.drop_left' hfront, List.append_assoc, List.drop_left' (length_leBytes 4 _)]
  rw [hdrop, hself, List.append_assoc, List.take_left' hfront, hbytes 0, List.append_assoc,
    List.append_assoc]
  rfl

/-! ### The entries -/

structure GptEntry.Wf (e : GptEntry) : Prop where
  typeGuid : e.partitionTypeGuid.length = 16
  uniqueGuid : e.uniquePartitionGuid.length = 16
  name : e.partitionName.length = PARTNAME_SZ

theorem GptEntry.Wf.length_toBytes {e : GptEntry} (h : e.Wf) : e.toBytes.length = entrySize := by
  simp [toBytes, h.typeGuid, h.uniqueGuid, h.name, PARTNAME_SZ, entrySize]

/-- The characters of a name, one after another. -/
theorem slice_name (name : List UInt16) (rest : List UInt8) {i : Nat} (hi : i < name.length) :
    slice (name.flatMap (fun c => leBytes 2 c.toNat) ++ rest) (2 * i) 2 =
      leBytes 2 name[i].toNat := by
  induction name generalizing i with
  | nil => exact absurd hi (Nat.not_lt_zero i)
  | cons c name ih =>
    rw [List.flatMap_cons, List.append_assoc]
    cases i with
    | zero => exact slice_leBytes_self
    | succ i =>
      rw [slice_leBytes (by omega), show 2 * (i + 1) - 2 = 2 * i by omega]
      exact ih (Nat.lt_of_succ_lt_succ hi)

theorem GptEntry.Wf.ofBytes_toBytes {e : GptEntry} (h : e.Wf) (rest : List UInt8) :
    GptEntry.ofBytes (e.toBytes ++ rest) = e := by
  have hskip : ∀ guid : List UInt8, guid.length = 16 → ∀ (tail : List UInt8) (i n : Nat), 16 ≤ i →
      slice (guid ++ tail) i n = slice tail (i - 16) n :=
    fun guid hguid tail i n hi => slice_append_right hguid hi
  have hname : (List.range PARTNAME_SZ).map (fun i => UInt16.ofNat (leValue
      (slice (e.toBytes ++ rest) (56 + 2 * i) 2))) = e.partitionName := by
    apply List.ext_getElem
    · simp [h.name]
    · intro i h1 h2
      have hi : slice (e.toBytes ++ rest) (56 + 2 * i) 2 =
          slice (e.partitionName.flatMap (fun c => leBytes 2 c.toNat) ++ rest) (2 * i) 2 := by
        simp only [toBytes, List.append_assoc]
        rw [hskip _ h.typeGuid _ _ _ (by omega), hskip _ h.uniqueGuid _ _ _ (by omega),
          slice_leBytes (by omega), slice_leBytes (by omega), slice_leBytes (by omega)]
        congr 1
        omega
      rw [List.getElem_map, List.getElem_range, hi, slice_name _ _ h2, ofNat_leValue_16]
  have htype : ∀ tail : List UInt8, slice (e.partitionTypeGuid ++ tail) 0 16 =
      e.partitionTypeGuid := fun tail => slice_append_left h.typeGuid
  have hunique : ∀ tail : List UInt8, slice (e.uniquePartitionGuid ++ tail) 0 16 =
      e.uniquePartitionGuid := fun tail => slice_append_left h.uniqueGuid
  rw [ofBytes, hname]
  simp (disch := decide) only [toBytes, le64, List.append_assoc, slice_leBytes,
    slice_leBytes_self, hskip _ h.typeGuid, hskip _ h.uniqueGuid, htype, hunique, Nat.reduceSub,
    ofNat_leValue_64]

/-! ### The table -/

theorem GptEntry.unused_wf : GptEntry.unused.Wf := ⟨rfl, rfl, rfl⟩

theorem length_flatMap_toBytes {entries : List GptEntry} (h : ∀ e ∈ entries, e.Wf) :
    (entries.flatMap GptEntry.toBytes).length = entrySize * entries.length := by
  induction entries with
  | nil => rfl
  | cons e entries ih =>
    rw [List.flatMap_cons, List.length_append, (h e List.mem_cons_self).length_toBytes,
      ih fun e he => h e (List.mem_cons_of_mem _ he), List.length_cons, Nat.mul_succ,
      Nat.add_comm]

theorem drop_flatMap_toBytes {entries : List GptEntry} (h : ∀ e ∈ entries, e.Wf) {k : Nat}
    {e : GptEntry} (hk : entries[k]? = some e) :
    ∃ rest, (entries.flatMap GptEntry.toBytes).drop (entrySize * k) = e.toBytes ++ rest := by
  obtain ⟨hlt, rfl⟩ := List.getElem?_eq_some_iff.mp hk
  have hfront : ((entries.take k).flatMap GptEntry.toBytes).length = entrySize * k := by
    rw [length_flatMap_toBytes fun e he => h e (List.mem_of_mem_take he), List.length_take]
    congr 1
    omega
  refine ⟨(entries.drop (k + 1)).flatMap GptEntry.toBytes, ?_⟩
  rw [← List.flatMap_cons, List.getElem_cons_drop]
  conv_lhs => rw [← List.take_append_drop k entries, List.flatMap_append]
  exact List.drop_left' hfront

theorem length_tableBytes {entries : List GptEntry} (h : ∀ e ∈ entries, e.Wf)
    (hlen : entries.length ≤ GPT_ENTRY_NUMBERS) :
    (tableBytes entries).length = entrySize * GPT_ENTRY_NUMBERS := by
  rw [tableBytes, length_flatMap_toBytes, List.length_append, List.length_replicate,
    Nat.add_sub_cancel' hlen]
  intro e he
  obtain he | he := List.mem_append.mp he
  · exact h e he
  · rw [List.eq_of_mem_replicate he]
    exact GptEntry.unused_wf

/-- A slot of a table: an entry, or an unused one behind the last. -/
theorem drop_tableBytes {entries : List GptEntry} (h : ∀ e ∈ entries, e.Wf)
    (hlen : entries.length ≤ GPT_ENTRY_NUMBERS) {k : Nat} (hk : k < GPT_ENTRY_NUMBERS) :
    ∃ rest, (tableBytes entries).drop (entrySize * k) =
      (entries.getD k GptEntry.unused).toBytes ++ rest := by
  apply drop_flatMap_toBytes
  · intro e he
    obtain he | he := List.mem_append.mp he
    · exact h e he
    · rw [List.eq_of_mem_replicate he]
      exact GptEntry.unused_wf
  · rw [List.getD_eq_getElem?_getD]
    by_cases hlt : k < entries.length
    · rw [List.getElem?_append_left hlt, List.getElem?_eq_getElem hlt, Option.getD_some]
    · have hnone : entries[k]? = none := List.getElem?_eq_none (Nat.not_lt.mp hlt)
      rw [List.getElem?_append_right (Nat.not_lt.mp hlt), hnone, Option.getD_none,
        List.getElem?_replicate_of_lt (by omega)]

end UBoot.Gpt
