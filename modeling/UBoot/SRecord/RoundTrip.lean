import UBoot.SRecord.Save

/-!
# Loading what was saved

`load_serial` on the characters that `save_serial` wrote.
-/

namespace UBoot.SRecord

open Verification

/-- The `n` bytes from an address on. -/
def bytesAt (mem : Memory) (address : UInt32) (n : Nat) : List UInt8 :=
  (List.range n).map fun i => mem (address + UInt32.ofNat i)

@[simp] theorem length_bytesAt (mem : Memory) (address : UInt32) (n : Nat) :
    (bytesAt mem address n).length = n := by
  rw [bytesAt, List.length_map, List.length_range]

theorem bytesAt_succ (mem : Memory) (address : UInt32) (n : Nat) :
    bytesAt mem address (n + 1) =
      bytesAt mem address n ++ [mem (address + UInt32.ofNat n)] := by
  rw [bytesAt, List.range_succ, List.map_append]
  rfl

/-- The bytes up to the end of a record become one. -/
theorem saveLoop_record (mem : Memory) (address : UInt32) (count : Nat) :
    ∀ k < 16, 0 < count → ∃ m ≤ 16, k < m ∧ m ≤ k + count ∧
      saveLoop mem count (collected address (bytesAt mem address k)) =
        recordLine address (bytesAt mem address m) ++ 10 ::
          saveLoop mem (k + count - m) (collected (address + UInt32.ofNat m) []) := by
  induction count with
  | zero => exact fun _ _ h => absurd h (Nat.lt_irrefl 0)
  | succ count ih =>
    intro k hk _
    have hnext : collect mem (collected address (bytesAt mem address k)) =
        collected address (bytesAt mem address (k + 1)) := by
      rw [collect_collected, length_bytesAt, bytesAt_succ]
    have hreclen : (collected address (bytesAt mem address (k + 1))).reclen = k + 1 :=
      length_bytesAt mem address (k + 1)
    by_cases hfull : k + 1 = SREC_BYTES_PER_RECORD ∨ count = 0
    · refine ⟨k + 1, hk, Nat.lt_succ_self k, by omega, ?_⟩
      simp only [saveLoop, hnext, hreclen]
      rw [if_pos hfull, dump_collected address (by rw [length_bytesAt]; exact hk),
        List.append_assoc, List.singleton_append,
        show k + (count + 1) - (k + 1) = count by omega]
      rfl
    · rw [not_or, SREC_BYTES_PER_RECORD] at hfull
      obtain ⟨m, hm, hlt, hle, hsave⟩ := ih (k + 1) (by omega) (Nat.pos_of_ne_zero hfull.2)
      refine ⟨m, hm, by omega, by omega, ?_⟩
      simp only [saveLoop, hnext, hreclen]
      rw [if_neg (by rw [SREC_BYTES_PER_RECORD]; omega), hsave,
        show k + 1 + count - m = k + (count + 1) - m by omega]

/-- The first `i` bytes of the range are back in memory. -/
structure Loading (saved mem : Memory) (address : UInt32) (i : Nat) (s : Load) : Prop where
  startAddr : s.startAddr = if i = 0 then 0xffffffff else address
  endAddr : s.endAddr = if i = 0 then 0 else address + UInt32.ofNat (i - 1)
  mem : ∀ q, s.mem q = if (q - address).toNat < i then saved q else mem q

theorem loading_start (saved mem : Memory) (address : UInt32) :
    Loading saved mem address 0 ⟨0xffffffff, 0, mem⟩ :=
  ⟨rfl, rfl, fun _ => rfl⟩

theorem memcpy_bytesAt (saved mem : Memory) (dest : UInt32) (n : Nat) (q : UInt32) :
    memcpy mem dest (bytesAt saved dest n) q =
      if (q - dest).toNat < n then saved q else mem q := by
  rw [memcpy, length_bytesAt]
  split_ifs with hq
  · have hself : dest + UInt32.ofNat (q - dest).toNat = q := by
      rw [UInt32.ofNat_toNat, UInt32.add_comm, UInt32.sub_add_cancel]
    rw [bytesAt, List.getD_eq_getElem?_getD, List.getElem?_map, List.getElem?_range hq,
      Option.map_some, Option.getD_some, hself]
  · rfl

/-- The next record is stored behind the bytes that are there. -/
theorem Loading.record {saved mem : Memory} {address : UInt32} {i m : Nat} {s : Load}
    (loading : Loading saved mem address i s) (hm : 0 < m)
    (hfit : address.toNat + i + m < 2 ^ 32) :
    Loading saved mem address (i + m) (storeRecord 0 s
      ⟨.data4, m, address + UInt32.ofNat i, bytesAt saved (address + UInt32.ofNat i) m⟩) := by
  have hdest : (address + UInt32.ofNat i).toNat = address.toNat + i := by
    rw [UInt32.toNat_add, UInt32.toNat_ofNat']
    omega
  have hzero : address + UInt32.ofNat i + 0 = address + UInt32.ofNat i := UInt32.add_zero _
  have hlast : address + UInt32.ofNat i + UInt32.ofNat (m : Int).toNat - 1 =
      address + UInt32.ofNat (i + m - 1) := by
    rw [← UInt32.toNat_inj, UInt32.toNat_sub, UInt32.toNat_add, hdest, UInt32.toNat_add,
      UInt32.toNat_ofNat', UInt32.toNat_ofNat', Int.toNat_natCast,
      show (1 : UInt32).toNat = 1 from rfl]
    omega
  have hend (k : Nat) (hk : address.toNat + k < 2 ^ 32) :
      (address + UInt32.ofNat k).toNat = address.toNat + k := by
    rw [UInt32.toNat_add, UInt32.toNat_ofNat']
    omega
  refine ⟨?_, ?_, fun q => ?_⟩
  · simp only [storeRecord, hzero, loading.startAddr, if_neg (show i + m ≠ 0 by omega)]
    rcases Nat.eq_zero_or_pos i with rfl | hpos
    · rw [if_pos rfl, if_pos, show UInt32.ofNat 0 = 0 from rfl, UInt32.add_zero]
      rw [UInt32.lt_iff_toNat_lt, hdest, show (0xffffffff : UInt32).toNat = 4294967295 from rfl]
      omega
    · rw [if_neg (show i ≠ 0 by omega), if_neg]
      rw [UInt32.lt_iff_toNat_lt, hdest]
      omega
  · simp only [storeRecord, hzero, hlast, loading.endAddr, if_neg (show i + m ≠ 0 by omega)]
    rcases Nat.eq_zero_or_pos i with rfl | hpos
    · -- a first record of one byte at address 0 leaves `endAddr` alone
      rw [if_pos rfl]
      split_ifs with hgt
      · rfl
      · rw [gt_iff_lt, UInt32.lt_iff_toNat_lt, hend _ (by omega)] at hgt
        rw [← UInt32.toNat_inj, hend _ (by omega)]
        exact (Nat.le_zero.mp (Nat.le_of_not_lt hgt)).symm
    · rw [if_neg (show i ≠ 0 by omega), if_pos]
      rw [gt_iff_lt, UInt32.lt_iff_toNat_lt, hend _ (by omega), hend _ (by omega)]
      omega
  · simp only [storeRecord, hzero]
    rw [memcpy_bytesAt, loading.mem]
    have hq := (q - address).toNat_lt
    have hshift : (q - (address + UInt32.ofNat i)).toNat =
        if (q - address).toNat < i then 2 ^ 32 + (q - address).toNat - i
        else (q - address).toNat - i := by
      have hq' := q.toNat_lt
      rw [UInt32.toNat_sub, UInt32.toNat_sub, hdest]
      split_ifs <;> omega
    rw [hshift]
    split_ifs <;> first | rfl | omega

/-- The rest of the range and the end record. -/
theorem loadLoop_saveLoop {saved mem : Memory} {address : UInt32} (count : Nat) :
    ∀ {i : Nat} {s : Load}, Loading saved mem address i s →
      address.toNat + i + count < 2 ^ 32 →
      ∃ s', Loading saved mem address (i + count) s' ∧
        loadLoop 0 s (saveLoop saved count (collected (address + UInt32.ofNat i) []) ++
          SREC3_END) = .complete 0 (report s') s'.mem [] := by
  induction count using Nat.strong_induction_on with
  | _ count ih =>
    intro i s loading hfit
    rcases Nat.eq_zero_or_pos count with rfl | hpos
    · refine ⟨s, loading, ?_⟩
      have hend : SREC3_END = ascii "S70500000000FA" ++ 10 :: [] := by decide
      rw [saveLoop, List.nil_append, hend]
      have hdecode : srecDecode (ascii "S70500000000FA" ++ [0]) = .ok ⟨.end4, 0, 0, []⟩ := by
        decide
      have hplain : Plain (ascii "S70500000000FA") := by decide
      exact loadLoop_end 0 s [] hplain (by decide) hdecode (by decide) (by decide)
    · obtain ⟨m, hm, hlt, hle, hsave⟩ :=
        saveLoop_record saved (address + UInt32.ofNat i) count 0 (by decide) hpos
      rw [Nat.zero_add] at hle hsave
      have hnext : address + UInt32.ofNat i + UInt32.ofNat m = address + UInt32.ofNat (i + m) := by
        rw [UInt32.ofNat_add, UInt32.add_assoc]
      obtain ⟨s', hs', hload⟩ := ih (count - m) (by omega) (loading.record hlt (by omega))
        (by omega)
      refine ⟨s', by rwa [show i + m + (count - m) = i + count by omega] at hs', ?_⟩
      rw [show bytesAt saved (address + UInt32.ofNat i) 0 = [] from rfl] at hsave
      rw [hsave, List.append_assoc, List.cons_append, hnext,
        loadLoop_data 0 s _ (plain_recordLine _ _)
          (by rw [length_recordLine, length_bytesAt, SREC_MAXRECLEN]; omega)
          (srecDecode_recordLine _ (by rwa [length_bytesAt])) rfl (Int.natCast_nonneg _),
        length_bytesAt]
      exact hload

/-- A saved range is loaded back, and nothing else is written. -/
theorem load_of_save (saved mem : Memory) (address count : UInt32) (hpos : 0 < count.toNat)
    (hfit : address.toNat + count.toNat < 2 ^ 32) :
    ∃ mem', loadSerial 0 mem (saveSerial saved address count) =
        .complete 0 ⟨address, address + count - 1, count⟩ mem' [] ∧
      ∀ q, mem' q = if address.toNat ≤ q.toNat ∧ q.toNat < address.toNat + count.toNat
        then saved q else mem q := by
  obtain ⟨s, loading, hload⟩ := loadLoop_saveLoop count.toNat (loading_start saved mem address)
    (by omega)
  rw [Nat.zero_add] at loading
  have hne : count.toNat ≠ 0 := by omega
  have hstart : s.startAddr = address := loading.startAddr.trans (if_neg hne)
  have hend : s.endAddr = address + UInt32.ofNat (count.toNat - 1) :=
    loading.endAddr.trans (if_neg hne)
  have hreport : report s = ⟨address, address + count - 1, count⟩ := by
    have hlast : address + UInt32.ofNat (count.toNat - 1) = address + count - 1 := by
      rw [← UInt32.toNat_inj, UInt32.toNat_sub, UInt32.toNat_add, UInt32.toNat_add,
        UInt32.toNat_ofNat', show (1 : UInt32).toNat = 1 from rfl]
      omega
    have hsize : address + count - 1 - address + 1 = count := by
      rw [← UInt32.toNat_inj, UInt32.toNat_add, UInt32.toNat_sub, UInt32.toNat_sub,
        UInt32.toNat_add, show (1 : UInt32).toNat = 1 from rfl]
      omega
    rw [report, hstart, hend, hlast, hsize]
  refine ⟨s.mem, ?_, fun q => ?_⟩
  · have hheader : SREC3_START = ascii "S0030000FC" ++ 10 :: [] := by decide
    have hdecode : srecDecode (ascii "S0030000FC" ++ [0]) = .ok ⟨.start, 0, 0, []⟩ := by decide
    have hplain : Plain (ascii "S0030000FC") := by decide
    rw [loadSerial, saveSerial, hheader, List.append_assoc, List.append_assoc, List.cons_append,
      List.nil_append, loadLoop_skip 0 _ _ hplain (by decide) hdecode (by decide) (by decide),
      ← hreport]
    rw [show UInt32.ofNat 0 = 0 from rfl, UInt32.add_zero] at hload
    exact hload
  · rw [loading.mem]
    have hiff : (q - address).toNat < count.toNat ↔
        address.toNat ≤ q.toNat ∧ q.toNat < address.toNat + count.toNat := by
      have hq := q.toNat_lt
      rw [UInt32.toNat_sub]
      omega
    simp only [hiff]

/-- Three records. -/
theorem load_of_save_forty : ∃ mem', loadSerial 0 (fun _ => 0)
    (saveSerial (fun q => q.toUInt8) 0x1000 40) = .complete 0 ⟨0x1000, 0x1027, 40⟩ mem' [] ∧
      ∀ q, mem' q = if 0x1000 ≤ q.toNat ∧ q.toNat < 0x1028 then q.toUInt8 else 0 :=
  load_of_save (fun q => q.toUInt8) (fun _ => 0) 0x1000 40 (by decide) (by decide)

end UBoot.SRecord
