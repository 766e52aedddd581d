import UBoot.Nand.Walk

/-!
# Writing and reading back around bad blocks

A write that succeeds programs the pieces of the walk, and a read returns them,
as long as the test of a block with its 32-bit address finds what the test with
the whole address finds.
-/

namespace UBoot.Nand

open Verification

/-- The bytes at the pieces. -/
def gather (flash : Flash) (pieces : List Access) : List UInt8 :=
  pieces.flatMap fun a => (flash.add a.1).bytes a.2

/-- Every byte of an access lies in the region and in a good block. -/
def Inside (nand : NandInfo) (offset stop : Nat) (a : Access) : Prop :=
  ∀ q, a.1 ≤ q → q < a.1 + a.2 →
    offset ≤ q ∧ q < stop ∧ nand.bad (blockStart nand q) = false

/-- The bytes of the good blocks of a region are erased. -/
def Erased (nand : NandInfo) (flash : Flash) (offset stop : Nat) : Prop :=
  ∀ q, offset ≤ q → q < stop → nand.bad (blockStart nand q) = false → flash q = 0xFF

/-- The 32-bit address of each block of a region has the same mark as the block. -/
def Agree (nand : NandInfo) (offset stop : Nat) : Prop :=
  ∀ q, offset ≤ q → q < stop → nand.bad (blockStart32 nand q) = nand.bad (blockStart nand q)

def RoundTrips (nand : NandInfo) (progFails : Nat → Bool) (flags : Flags) (offset : Nat)
    (length : UInt32) (lim : Nat) (buf : Ptr) (flash : Flash) : Prop :=
  ∀ fuel written,
    nandWriteSkipBad nand progFails flags fuel offset length lim buf flash = some written →
    (written.error = none →
      ∃ fuel₀ log, (∀ fuel' ≥ fuel₀, nandReadSkipBad nand fuel' offset length lim written.flash =
          some ⟨none, written.actual, buf.bytes length.toNat, log⟩) ∧
        ∀ a ∈ written.log ++ log, Inside nand offset (offset + lim) a) ∧
    (written.error = some .einval ∨ written.error = some .efbig →
      written.flash = flash ∧ written.log = [])

/-- The inputs whose region is measured and visited with addresses that do not wrap onto other
ones. A walk that leaves the device, or whose count is above the limit, is refused before. -/
structure Addressable (nand : NandInfo) (flags : Flags) (offset : Nat) (length : UInt32)
    (lim : Nat) : Prop where
  inDevice : length = 0 → flags.dropFfs = true → offset ≤ nand.size
  measured : ∀ pieces stop, Walk nand offset length.toNat pieces stop → stop ≤ nand.size →
    (stop - offset) % 2 ^ 32 ≤ lim → stop - offset ≤ lim
  visited : ∀ pieces stop, Walk nand offset length.toNat pieces stop → stop ≤ nand.size →
    stop - offset ≤ lim →
      (NoBad nand offset stop ∧ flags.dropFfs = false) ∨ Agree nand offset stop

section

variable {nand : NandInfo}

theorem Inside.mono {offset offset' stop : Nat} {a : Access} (hle : offset ≤ offset')
    (h : Inside nand offset' stop a) : Inside nand offset stop a := by
  intro q hge hlt
  obtain ⟨h1, h2, h3⟩ := h q hge hlt
  exact ⟨by omega, h2, h3⟩

theorem inside_of_noBad {offset stop : Nat} {a : Access} (hno : NoBad nand offset stop)
    (hge : offset ≤ a.1) (hle : a.1 + a.2 ≤ stop) : Inside nand offset stop a := by
  intro q h1 h2
  exact ⟨by omega, by omega, hno q (by omega) (by omega)⟩

theorem inside_append {offset stop stop' : Nat} {written read : List Access}
    (hle : stop ≤ stop') (hwritten : ∀ a ∈ written, a ∈ [] ∨ Inside nand offset stop a)
    (hread : ∀ a ∈ read, a ∈ [] ∨ Inside nand offset stop a) :
    ∀ a ∈ written ++ read, Inside nand offset stop' a := by
  intro a ha q h1 h2
  have hin : Inside nand offset stop a := by
    rcases List.mem_append.mp ha with ha | ha
    · exact (hwritten a ha).resolve_left List.not_mem_nil
    · exact (hread a ha).resolve_left List.not_mem_nil
  obtain ⟨h3, h4, h5⟩ := hin q h1 h2
  exact ⟨h3, by omega, h5⟩

/-- The dropped bytes are all ones. -/
theorem dropFfs_spec (nand : NandInfo) (buf : Ptr) (len : Nat) :
    dropFfs nand buf len ≤ len ∧ ∀ i, dropFfs nand buf len ≤ i → i < len → buf i = 0xFF := by
  refine ⟨Nat.min_le_right _ _, fun i hge hlt => ?_⟩
  set kept := (buf.bytes len).reverse.dropWhile (· = 0xFF) with hkept
  have hle : kept.length ≤ dropFfs nand buf len := by
    refine Nat.le_min.mpr ⟨?_, ?_⟩
    · have hdiv := Nat.div_add_mod (kept.length + nand.writesize - 1) nand.writesize
      have hmod := Nat.mod_lt (kept.length + nand.writesize - 1) nand.writesize_pos
      have hpos := nand.writesize_pos
      rw [Nat.mul_comm] at hdiv
      show kept.length ≤ (kept.length + nand.writesize - 1) / nand.writesize * nand.writesize
      omega
    · have hsuffix := (List.dropWhile_suffix (l := (buf.bytes len).reverse)
        (p := (· = 0xFF))).length_le
      simpa using hsuffix
  -- the byte is among those taken from the end
  set taken := (buf.bytes len).reverse.takeWhile (· = 0xFF) with htaken
  have hsplit : taken ++ kept = (buf.bytes len).reverse := List.takeWhile_append_dropWhile
  have hlen : taken.length + kept.length = len := by
    rw [← List.length_append, hsplit, List.length_reverse, Ptr.length_bytes]
  have hmem : buf i ∈ taken := by
    have hget : (buf.bytes len).reverse[len - 1 - i]? = some (buf i) := by
      rw [List.getElem?_reverse (by simp; omega), Ptr.length_bytes,
        show len - 1 - (len - 1 - i) = i by omega]
      simp [Ptr.bytes, hlt]
    rw [← hsplit, List.getElem?_append_left (by omega)] at hget
    exact List.mem_of_getElem? hget
  have hall := List.all_eq_true.mp
    (List.all_takeWhile (l := (buf.bytes len).reverse) (p := (· = 0xFF))) _ hmem
  simpa using hall

/-- Programming erased bytes stores the buffer. -/
theorem nandWrite_spec {progFails : Nat → Bool} {flash flash' : Flash} {offset len : Nat}
    {buf : Ptr} (h : nandWrite nand progFails flash offset len buf = some flash')
    (herased : ∀ q, offset ≤ q → q < offset + len → flash q = 0xFF) :
    offset + len ≤ nand.size ∧ flash' = flash.write offset len buf := by
  unfold nandWrite at h
  split_ifs at h with hfail
  rw [not_or, Nat.not_lt] at hfail
  refine ⟨hfail.1, ?_⟩
  rw [Option.some.injEq] at h
  rw [← h]
  funext q
  unfold Ptr.write
  split_ifs with hq
  · rw [herased q hq.1 hq.2]
    exact UInt8.neg_one_and
  · rfl

theorem nandVerify_ne_true {flash : Flash} {stop : Nat} (hstop : 2 ^ 32 ≤ stop) :
    ∀ (fuel : Nat) (verofs : UInt32) (buf : Ptr) (log log' : List Access),
      nandVerify nand flash stop fuel verofs buf log ≠ some (true, log') := by
  intro fuel
  induction fuel with
  | zero => intro _ _ _ _ h; cases h
  | succ fuel ih =>
    intro verofs buf log log' h
    have hlt : verofs.toNat < stop := lt_of_lt_of_le verofs.toNat_lt hstop
    unfold nandVerify at h
    rw [if_pos hlt] at h
    dsimp only at h
    split at h
    · cases h
    · split_ifs at h
      · exact ih _ _ _ _ h
      · cases h

theorem nandVerify_log {flash : Flash} {stop : Nat} (hstop : stop < 2 ^ 32) {ok : Bool} :
    ∀ (fuel : Nat) (verofs : UInt32) (buf : Ptr) (log log' : List Access),
      nandVerify nand flash stop fuel verofs buf log = some (ok, log') →
      ∀ a ∈ log', a ∈ log ∨ verofs.toNat ≤ a.1 ∧ a.1 + a.2 ≤ stop := by
  intro fuel
  induction fuel with
  | zero => intro _ _ _ _ h; cases h
  | succ fuel ih =>
    intro verofs buf log log' h a ha
    unfold nandVerify at h
    split_ifs at h with hlt
    · dsimp only at h
      generalize hver : min nand.writesize ((stop - verofs.toNat) % 2 ^ 32) = verlen at h
      have hle : verofs.toNat + verlen ≤ stop := by omega
      split at h
      · cases h
        exact .inl ha
      · split_ifs at h
        · have hnext : (verofs + UInt32.ofNat verlen).toNat = verofs.toNat + verlen := by
            rw [UInt32.toNat_add, UInt32.toNat_ofNat']
            omega
          rcases ih _ _ _ _ h a ha with hmem | hin
          · rcases List.mem_cons.mp hmem with rfl | hmem
            · exact .inr ⟨le_rfl, hle⟩
            · exact .inl hmem
          · exact .inr ⟨by omega, hin.2⟩
        · cases h
          rcases List.mem_cons.mp ha with rfl | hmem
          · exact .inr ⟨le_rfl, hle⟩
          · exact .inl hmem
    · cases h
      exact .inl ha

/-- A write that succeeds programs the bytes, and its accesses stay on them. A
verification that ends does not reach an address of more than 32 bits. -/
theorem writeAndVerify_spec {progFails : Nat → Bool} {flags : Flags} {fuel : Nat}
    {flash flash' : Flash} {offset len : Nat} {buf : Ptr} {log log' : List Access}
    (h : writeAndVerify nand progFails flags fuel flash offset len buf log =
      some (true, flash', log'))
    (herased : ∀ q, offset ≤ q → q < offset + len → flash q = 0xFF) :
    offset + len ≤ nand.size ∧ flash' = flash.write offset len buf ∧
      ∀ a ∈ log', a ∈ log ∨ offset ≤ a.1 ∧ a.1 + a.2 ≤ offset + len := by
  unfold writeAndVerify at h
  split at h
  · cases h
  · rename_i flash₁ hwrite
    obtain ⟨hsize, rfl⟩ := nandWrite_spec hwrite herased
    split_ifs at h with hverify
    · obtain ⟨⟨ok, log₁⟩, hver, hres⟩ := Option.map_eq_some_iff.mp h
      obtain ⟨rfl, rfl, rfl⟩ : ok = true ∧ flash.write offset len buf = flash' ∧ log₁ = log' := by
        simpa using hres
      have hstop : offset + len < 2 ^ 32 := by
        by_contra hge
        exact nandVerify_ne_true (Nat.le_of_not_lt hge) _ _ _ _ _ hver
      have hoff : (UInt32.ofNat offset).toNat = offset := by
        rw [UInt32.toNat_ofNat']
        omega
      refine ⟨hsize, rfl, fun a ha => ?_⟩
      have hlog := nandVerify_log hstop _ _ _ _ _ hver a ha
      rw [hoff] at hlog
      rcases hlog with hmem | hin
      · rcases List.mem_cons.mp hmem with rfl | hmem
        · exact .inr ⟨le_rfl, le_rfl⟩
        · exact .inl hmem
      · exact .inr hin
    · obtain ⟨rfl, rfl⟩ : flash.write offset len buf = flash' ∧ (offset, len) :: log = log' := by
        simpa using h
      refine ⟨hsize, rfl, fun a ha => ?_⟩
      rcases List.mem_cons.mp ha with rfl | hmem
      · exact .inr ⟨le_rfl, le_rfl⟩
      · exact .inl hmem

/-- The length that a write programs leaves out only bytes that are all ones. -/
theorem truncated_spec (nand : NandInfo) (flags : Flags) (buf : Ptr) (len : Nat) :
    (if flags.dropFfs = true then dropFfs nand buf len else len) ≤ len ∧
      ∀ i, (if flags.dropFfs = true then dropFfs nand buf len else len) ≤ i → i < len →
        buf i = 0xFF := by
  split_ifs
  · exact dropFfs_spec nand buf len
  · exact ⟨le_rfl, fun i hge hlt => absurd hge (by omega)⟩

theorem write_truncated {flash : Flash} {buf : Ptr} {offset t n : Nat}
    (hones : ∀ i, t ≤ i → i < n → buf i = 0xFF)
    (herased : ∀ q, offset ≤ q → q < offset + n → flash q = 0xFF) {i : Nat} (hi : i < n) :
    flash.write offset t buf (offset + i) = buf i := by
  unfold Ptr.write
  split_ifs with hin
  · rw [Nat.add_sub_cancel_left]
  · rw [herased _ (by omega) (by omega), hones i (by omega) hi]

theorem toNat_sub_ofNat {left : UInt32} {m n : Nat} (hleft : left.toNat = m) (hle : n ≤ m) :
    (left - UInt32.ofNat n).toNat = m - n := by
  have hlt := left.toNat_lt
  have hof : (UInt32.ofNat n).toNat = n := by
    rw [UInt32.toNat_ofNat']
    omega
  have hsub : UInt32.ofNat n ≤ left := by
    rw [UInt32.le_iff_toNat_le]
    omega
  rw [UInt32.toNat_sub_of_le _ _ hsub, hof, hleft]

theorem ne_zero_of_toNat {left : UInt32} {n : Nat} (hleft : left.toNat = n) (hpos : 0 < n) :
    left ≠ 0 := by
  rintro rfl
  exact absurd hleft hpos.ne

theorem Agree.not_bad {offset stop : Nat} (h : Agree nand offset stop) (hlt : offset < stop)
    (hgood : nand.bad (blockStart nand offset) = false) :
    ¬nand.bad (blockStart32 nand offset) = true := by
  rw [h offset le_rfl hlt, hgood]
  decide

theorem gather_cons (flash : Flash) (offset n : Nat) (pieces : List Access) :
    gather flash ((offset, n) :: pieces) = (flash.add offset).bytes n ++ gather flash pieces := rfl

/-- Without a bad block the pieces are one run of bytes. -/
theorem Walk.gather_eq {offset left stop : Nat} {pieces : List Access} (flash : Flash)
    (h : Walk nand offset left pieces stop) (hno : NoBad nand offset stop) :
    gather flash pieces = (flash.add offset).bytes left := by
  induction h with
  | done offset => rfl
  | skip hpos hbad hwalk _ =>
    have hle := hwalk.le
    rw [hno _ le_rfl (by omega)] at hbad
    cases hbad
  | @piece offset left stop pieces hpos _ _ ih =>
    generalize hn : min left (nand.blockRest offset) = n at ih ⊢
    rw [gather_cons, ih fun q hge hlt => hno q (by omega) hlt]
    rw [← Ptr.add_add, ← Ptr.bytes_add, Nat.add_sub_cancel' (by omega)]

theorem Agree.mono {offset offset' stop : Nat} (hle : offset ≤ offset')
    (h : Agree nand offset stop) : Agree nand offset' stop :=
  fun q hge hlt => h q (by omega) hlt

/-- The loop of a write that succeeds stores the buffer at the pieces of the walk. -/
theorem writeLoop_spec {progFails : Nat → Bool} {flags : Flags} {actual : UInt32}
    {offset left stop : Nat} {pieces : List Access} (hwalk : Walk nand offset left pieces stop) :
    ∀ {fuel : Nat} {leftToWrite : UInt32} {buf : Ptr} {flash : Flash} {log : List Access}
      {result : WriteResult}, leftToWrite.toNat = left → Agree nand offset stop →
      Erased nand flash offset stop →
      writeLoop nand progFails flags actual fuel offset leftToWrite buf flash log = some result →
      result.error = none →
      result.actual = actual ∧ (∀ q < offset, result.flash q = flash q) ∧
        gather result.flash pieces = buf.bytes left ∧
        ∀ a ∈ result.log, a ∈ log ∨ Inside nand offset stop a := by
  induction hwalk with
  | done offset =>
    intro fuel leftToWrite buf flash log result hleft _ _ h _
    cases fuel with
    | zero => cases h
    | succ fuel =>
      have hzero : leftToWrite = 0 := UInt32.toNat_inj.mp hleft
      unfold writeLoop at h
      rw [if_pos hzero, Option.some.injEq] at h
      rw [← h]
      exact ⟨rfl, fun _ _ => rfl, rfl, fun a ha => .inl ha⟩
  | @skip offset left stop pieces hpos hbad hwalk ih =>
    intro fuel leftToWrite buf flash log result hleft hagree herased h hok
    have hle := hwalk.le
    cases fuel with
    | zero => cases h
    | succ fuel =>
      unfold writeLoop at h
      rw [if_neg (ne_zero_of_toNat hleft hpos)] at h
      dsimp only at h
      rw [if_pos ((hagree offset le_rfl (by omega)).trans hbad)] at h
      obtain ⟨hactual, hframe, hdata, hlog⟩ := ih hleft (hagree.mono (Nat.le_add_right _ _))
        (fun q hge => herased q (Nat.le_trans (Nat.le_add_right _ _) hge)) h hok
      refine ⟨hactual, fun q hq => hframe q (by omega), hdata, fun a ha => ?_⟩
      exact (hlog a ha).imp_right (Inside.mono (Nat.le_add_right _ _))
  | @piece offset left stop pieces hpos hgood hwalk ih =>
    intro fuel leftToWrite buf flash log result hleft hagree herased h hok
    have hle := hwalk.le
    cases fuel with
    | zero => cases h
    | succ fuel =>
      have htest := hagree.not_bad (by omega) hgood
      unfold writeLoop at h
      rw [if_neg (ne_zero_of_toNat hleft hpos)] at h
      dsimp only at h
      rw [if_neg htest, hleft] at h
      have hrest : nand.erasesize - offset % nand.erasesize = nand.blockRest offset := rfl
      rw [hrest] at h
      have hwithin : min left (nand.blockRest offset) ≤ nand.blockRest offset :=
        Nat.min_le_right _ _
      generalize hn : min left (nand.blockRest offset) = n at *
      obtain ⟨htle, hones⟩ := truncated_spec nand flags buf n
      generalize (if flags.dropFfs = true then dropFfs nand buf n else n) = t at h htle hones
      have hnobad : NoBad nand offset (offset + n) :=
        noBad_block hgood (Nat.add_le_add_left hwithin _)
      have herased' : ∀ q, offset ≤ q → q < offset + n → flash q = 0xFF :=
        fun q hge hlt => herased q hge (by omega) (hnobad q hge hlt)
      split at h
      · cases h
      · rw [← Option.some.inj h] at hok
        cases hok
      · rename_i flash₁ log₁ hwrite
        obtain ⟨-, rfl, hlog₁⟩ :=
          writeAndVerify_spec hwrite fun q hge hlt => herased' q hge (by omega)
        have hnext : (leftToWrite - UInt32.ofNat n).toNat = left - n :=
          toNat_sub_ofNat hleft (by omega)
        have herased₁ : Erased nand (flash.write offset t buf) (offset + n) stop := by
          intro q hge hlt hq
          rw [Ptr.write, if_neg (by omega)]
          exact herased q (by omega) hlt hq
        obtain ⟨hactual, hframe, hdata, hlog⟩ :=
          ih hnext (hagree.mono (Nat.le_add_right _ _)) herased₁ h hok
        refine ⟨hactual, fun q hq => ?_, ?_, fun a ha => ?_⟩
        · rw [hframe q (by omega), Ptr.write, if_neg (by omega)]
        · have hpiece : (result.flash.add offset).bytes n = buf.bytes n := by
            apply Ptr.bytes_congr
            intro i hi
            rw [Ptr.add, hframe _ (by omega)]
            exact write_truncated hones herased' hi
          rw [gather_cons, hdata, hpiece, ← Ptr.bytes_add, Nat.add_sub_cancel' (by omega)]
        · rcases hlog a ha with hmem | hin
          · refine (hlog₁ a hmem).imp_right fun hin q h1 h2 => ?_
            exact ⟨by omega, by omega, hnobad q (by omega) (by omega)⟩
          · exact .inr (hin.mono (Nat.le_add_right _ _))

/-- The loop of a write fails only on an error of the chip. -/
theorem writeLoop_error {progFails : Nat → Bool} {flags : Flags} {actual : UInt32} :
    ∀ {fuel offset : Nat} {leftToWrite : UInt32} {buf : Ptr} {flash : Flash} {log : List Access}
      {result : WriteResult},
      writeLoop nand progFails flags actual fuel offset leftToWrite buf flash log = some result →
      result.error = none ∨ result.error = some .eio := by
  intro fuel
  induction fuel with
  | zero => intro _ _ _ _ _ _ h; cases h
  | succ fuel ih =>
    intro offset leftToWrite buf flash log result h
    unfold writeLoop at h
    dsimp only at h
    by_cases hzero : leftToWrite = 0
    · rw [if_pos hzero] at h
      cases h
      exact .inl rfl
    · rw [if_neg hzero] at h
      by_cases hbad : nand.bad (blockStart32 nand offset) = true
      · rw [if_pos hbad] at h
        exact ih h
      · rw [if_neg hbad] at h
        split at h
        · cases h
        · cases h
          exact .inr rfl
        · exact ih h

theorem readLoop_spec {flash : Flash} {actual : UInt32} {offset left stop : Nat}
    {pieces : List Access} (hwalk : Walk nand offset left pieces stop) :
    ∀ {leftToRead : UInt32} (data : List UInt8) (log : List Access),
      leftToRead.toNat = left → Agree nand offset stop → stop ≤ nand.size →
      ∃ fuel₀ log', (∀ fuel ≥ fuel₀,
          readLoop nand flash actual fuel offset leftToRead data log =
            some ⟨none, actual, data ++ gather flash pieces, log'⟩) ∧
        ∀ a ∈ log', a ∈ log ∨ Inside nand offset stop a := by
  induction hwalk with
  | done offset =>
    intro leftToRead data log hleft _ _
    refine ⟨1, log, fun fuel hfuel => ?_, fun a ha => .inl ha⟩
    obtain ⟨fuel, rfl⟩ := Nat.exists_eq_add_of_le' hfuel
    have hzero : leftToRead = 0 := UInt32.toNat_inj.mp hleft
    unfold readLoop
    rw [if_pos hzero, gather, List.flatMap_nil, List.append_nil]
  | @skip offset left stop pieces hpos hbad hwalk ih =>
    intro leftToRead data log hleft hagree hsize
    have hle := hwalk.le
    obtain ⟨fuel₀, log', hread, hlog⟩ :=
      ih data log hleft (hagree.mono (Nat.le_add_right _ _)) hsize
    refine ⟨fuel₀ + 1, log', fun fuel hfuel => ?_, fun a ha => ?_⟩
    · obtain ⟨fuel, rfl⟩ := Nat.exists_eq_add_of_le' (Nat.le_trans (Nat.le_add_left 1 _) hfuel)
      unfold readLoop
      rw [if_neg (ne_zero_of_toNat hleft hpos)]
      dsimp only
      rw [if_pos ((hagree offset le_rfl (by omega)).trans hbad)]
      exact hread fuel (by omega)
    · exact (hlog a ha).imp_right (Inside.mono (Nat.le_add_right _ _))
  | @piece offset left stop pieces hpos hgood hwalk ih =>
    intro leftToRead data log hleft hagree hsize
    have hle := hwalk.le
    have hwithin : min left (nand.blockRest offset) ≤ nand.blockRest offset :=
      Nat.min_le_right _ _
    have hmin : min left (nand.erasesize - offset % nand.erasesize) =
      min left (nand.blockRest offset) := rfl
    generalize hn : min left (nand.blockRest offset) = n at *
    have hnext : (leftToRead - UInt32.ofNat n).toNat = left - n :=
      toNat_sub_ofNat hleft (by omega)
    obtain ⟨fuel₀, log', hread, hlog⟩ := ih (data ++ (flash.add offset).bytes n)
      ((offset, n) :: log) hnext (hagree.mono (Nat.le_add_right _ _)) hsize
    refine ⟨fuel₀ + 1, log', fun fuel hfuel => ?_, fun a ha => ?_⟩
    · obtain ⟨fuel, rfl⟩ := Nat.exists_eq_add_of_le' (Nat.le_trans (Nat.le_add_left 1 _) hfuel)
      have htest := hagree.not_bad (by omega) hgood
      unfold readLoop
      rw [if_neg (ne_zero_of_toNat hleft hpos)]
      dsimp only
      rw [if_neg htest, hleft, hmin, nandRead, if_neg (by omega)]
      dsimp only
      rw [hread fuel (by omega), gather_cons, List.append_assoc]
    · rcases hlog a ha with hmem | hin
      · rcases List.mem_cons.mp hmem with rfl | hmem
        · refine .inr fun q h1 h2 => ?_
          exact ⟨h1, by omega, noBad_block hgood (Nat.add_le_add_left hwithin _) q h1 h2⟩
        · exact .inl hmem
      · exact .inr (hin.mono (Nat.le_add_right _ _))

section

variable {progFails : Nat → Bool} {flags : Flags} {offset : Nat} {length : UInt32} {lim : Nat}
variable {buf : Ptr} {flash : Flash}

/-- The read after a write that took the path without bad blocks. -/
theorem nandReadSkipBad_contiguous {fuel : Nat} {used : UInt32}
    (halign : offset % nand.writesize = 0)
    (hcheck : checkSkipLen nand length fuel offset 0 false 0 = some (.fits false, used))
    (hlim : used.toNat ≤ lim) (hsize : offset + length.toNat ≤ nand.size) :
    ∀ fuel' ≥ fuel, nandReadSkipBad nand fuel' offset length lim flash =
      some ⟨none, used, (flash.add offset).bytes length.toNat, [(offset, length.toNat)]⟩ := by
  intro fuel' hfuel
  unfold nandReadSkipBad
  rw [if_neg (not_not.mpr halign), checkSkipLen_mono hfuel hcheck]
  dsimp only
  rw [if_neg (by omega), if_pos Bool.not_false, nandRead, if_neg (by omega)]

/-- The read after a write that had to skip blocks. -/
theorem nandReadSkipBad_skipping {fuel : Nat} {used : UInt32}
    (halign : offset % nand.writesize = 0)
    (hcheck : checkSkipLen nand length fuel offset 0 false 0 = some (.fits true, used))
    (hlim : used.toNat ≤ lim) :
    ∀ fuel' ≥ fuel, nandReadSkipBad nand fuel' offset length lim flash =
      readLoop nand flash used fuel' offset length [] [] := by
  intro fuel' hfuel
  unfold nandReadSkipBad
  rw [if_neg (not_not.mpr halign), checkSkipLen_mono hfuel hcheck]
  dsimp only
  rw [if_neg (by omega), if_neg (by decide)]

/-- A walk over no bytes ends where it starts. -/
theorem Walk.eq_of_zero {left stop : Nat} {pieces : List Access}
    (h : Walk nand offset left pieces stop) (hzero : left = 0) : stop = offset := by
  cases h with
  | done => rfl
  | skip hpos => omega
  | piece hpos => omega

/-- The measured region ends before the limit. -/
theorem Addressable.stop_sub_le (haddr : Addressable nand flags offset length lim)
    {pieces : List Access} {stop : Nat} (hwalk : Walk nand offset length.toNat pieces stop)
    (hstop : 0 < length.toNat → stop ≤ nand.size) {used : UInt32}
    (hused : used = 0 + UInt32.ofNat (stop - offset)) (hlim : used.toNat ≤ lim) :
    stop - offset ≤ lim := by
  rw [UInt32.zero_add] at hused
  rw [hused, UInt32.toNat_ofNat'] at hlim
  rcases Nat.eq_zero_or_pos length.toNat with hzero | hpos
  · have := hwalk.eq_of_zero hzero
    omega
  · exact haddr.measured _ _ hwalk (hstop hpos) hlim

/-- The marks of the blocks of the measured region are found, unless it is written at once. -/
theorem Addressable.agree (haddr : Addressable nand flags offset length lim)
    {pieces : List Access} {stop : Nat} (hwalk : Walk nand offset length.toNat pieces stop)
    (hstop : 0 < length.toNat → stop ≤ nand.size) (hle : stop - offset ≤ lim)
    (hslow : ¬(NoBad nand offset stop ∧ flags.dropFfs = false)) : Agree nand offset stop := by
  rcases Nat.eq_zero_or_pos length.toNat with hzero | hpos
  · have hempty := hwalk.eq_of_zero hzero
    exact fun q hge hlt => absurd hlt (by omega)
  · exact (haddr.visited _ _ hwalk (hstop hpos) hle).resolve_left hslow

/-- What a write that fits and succeeds leaves is read back. -/
theorem roundTrips_fits (herased : Erased nand flash offset (offset + lim))
    (haddr : Addressable nand flags offset length lim) {fuel : Nat} {needSkip : Bool}
    {used : UInt32} {written : WriteResult} (halign : offset % nand.writesize = 0)
    (hcheck : checkSkipLen nand length fuel offset 0 false 0 = some (.fits needSkip, used))
    (hlim : used.toNat ≤ lim)
    (h : (if (!needSkip && !flags.dropFfs) = true then
        (writeAndVerify nand progFails flags fuel flash offset length.toNat buf []).map
          fun (ok, flash, log) => (⟨if ok then none else some .eio, used, flash, log⟩ : WriteResult)
      else writeLoop nand progFails flags used fuel offset length buf flash []) = some written)
    (hok : written.error = none) :
    ∃ fuel₀ log, (∀ fuel' ≥ fuel₀, nandReadSkipBad nand fuel' offset length lim written.flash =
        some ⟨none, written.actual, buf.bytes length.toNat, log⟩) ∧
      ∀ a ∈ written.log ++ log, Inside nand offset (offset + lim) a := by
  obtain ⟨pieces, stop, hwalk, hused, hstop, hskip⟩ := checkSkipLen_fits hcheck
    (UInt32.le_iff_toNat_le.mpr (Nat.zero_le _)) (.inr rfl)
  rw [UInt32.toNat_zero, Nat.sub_zero] at hwalk hstop
  have hle := hwalk.le
  have hmeasured := haddr.stop_sub_le hwalk hstop hused hlim
  have hregion : stop ≤ offset + lim := by omega
  have herased' : Erased nand flash offset stop :=
    fun q hge hlt => herased q hge (by omega)
  split_ifs at h with hfast
  · -- no bad block, and the whole buffer at once
    obtain ⟨rfl, hdrop⟩ : needSkip = false ∧ flags.dropFfs = false := by simpa using hfast
    have hno := (hskip.mp rfl).2
    obtain ⟨⟨ok, flash₁, log₁⟩, hwrite, rfl⟩ := Option.map_eq_some_iff.mp h
    obtain rfl : ok = true := by
      cases ok with
      | false => cases hok
      | true => rfl
    obtain ⟨hsize, rfl, hlog⟩ := writeAndVerify_spec hwrite fun q hge hlt =>
      herased' q hge (by omega) (hno q hge (by omega))
    refine ⟨fuel, [(offset, length.toNat)], fun fuel' hfuel => ?_, inside_append hregion ?_ ?_⟩
    · rw [nandReadSkipBad_contiguous halign hcheck hlim hsize fuel' hfuel, Ptr.bytes_write_self]
    · intro a ha
      exact (hlog a ha).imp_right fun hin => inside_of_noBad hno hin.1 (by omega)
    · intro a ha
      rw [List.mem_singleton.mp ha]
      exact .inr (inside_of_noBad hno le_rfl hle)
  · -- block by block
    have hagree : Agree nand offset stop := by
      refine haddr.agree hwalk hstop hmeasured fun hno => hfast ?_
      simp [hskip.mpr ⟨rfl, hno.1⟩, hno.2]
    obtain ⟨hactual, -, hdata, hlog⟩ := writeLoop_spec hwalk rfl hagree herased' h hok
    rw [hactual]
    cases needSkip with
    | false =>
      have hno := (hskip.mp rfl).2
      have hsize : offset + length.toNat ≤ nand.size := by
        rcases Nat.eq_zero_or_pos length.toNat with hzero | hpos
        · have hdrop : flags.dropFfs = true := by simpa using hfast
          have hin := haddr.inDevice (UInt32.toNat_inj.mp hzero) hdrop
          omega
        · have hin := hstop hpos
          omega
      refine ⟨fuel, [(offset, length.toNat)], fun fuel' hfuel => ?_, inside_append hregion hlog ?_⟩
      · rw [nandReadSkipBad_contiguous halign hcheck hlim hsize fuel' hfuel,
          ← hwalk.gather_eq _ hno, hdata]
      · intro a ha
        rw [List.mem_singleton.mp ha]
        exact .inr (inside_of_noBad hno le_rfl hle)
    | true =>
      have hpos : 0 < length.toNat := by
        -- a walk over no bytes meets no bad block
        refine Nat.pos_of_ne_zero fun hzero => ?_
        have hempty := hwalk.eq_of_zero hzero
        exact absurd (hskip.mpr ⟨rfl, fun q h1 h2 => by omega⟩) (by decide)
      obtain ⟨fuel₀, log, hread, hlog'⟩ := readLoop_spec hwalk [] [] rfl hagree (hstop hpos)
      refine ⟨max fuel fuel₀, log, fun fuel' hfuel => ?_, inside_append hregion hlog hlog'⟩
      rw [nandReadSkipBad_skipping halign hcheck hlim fuel' (by omega), hread fuel' (by omega),
        List.nil_append, hdata]

/-- What `nand_write_skip_bad` stores on erased blocks, `nand_read_skip_bad` returns. -/
theorem write_skip_bad_round_trip (herased : Erased nand flash offset (offset + lim))
    (haddr : Addressable nand flags offset length lim) :
    RoundTrips nand progFails flags offset length lim buf flash := by
  intro fuel written h
  unfold nandWriteSkipBad at h
  split_ifs at h with halign
  · cases h
    exact ⟨fun hok => (nomatch hok), fun _ => ⟨rfl, rfl⟩⟩
  · rw [not_not] at halign
    split at h
    · cases h
    · cases h
      exact ⟨fun hok => (nomatch hok), fun _ => ⟨rfl, rfl⟩⟩
    · rename_i needSkip used hcheck
      by_cases hlim : used.toNat > lim
      · rw [if_pos hlim] at h
        cases h
        exact ⟨fun hok => (nomatch hok), fun _ => ⟨rfl, rfl⟩⟩
      · rw [if_neg hlim] at h
        refine ⟨roundTrips_fits herased haddr halign hcheck (Nat.le_of_not_lt hlim) h, ?_⟩
        have herror : written.error = none ∨ written.error = some .eio := by
          split_ifs at h
          · obtain ⟨⟨ok, flash₁, log₁⟩, -, rfl⟩ := Option.map_eq_some_iff.mp h
            cases ok with
            | false => exact .inr rfl
            | true => exact .inl rfl
          · exact writeLoop_error h
        rcases herror with herror | herror <;> simp [herror]

end

end

/-- A chip of two blocks, the first of which is bad. -/
def twoBlocks : NandInfo where
  size := 8
  erasesize := 4
  writesize := 2
  bad := (· = 0)
  writesize_pos := by decide
  writesize_dvd := by decide
  erasesize_pow := four_eq_pow
  size_dvd := four_dvd_eight

theorem walk_twoBlocks : Walk twoBlocks 0 3 [(4, 3)] 7 :=
  .skip (by decide) rfl (.piece (by decide) rfl (.done 7))

theorem write_skip_bad_round_trip_two :
    Addressable twoBlocks ⟨true, true⟩ 0 3 8 ∧
      RoundTrips twoBlocks (fun _ => false) ⟨true, true⟩ 0 3 8 (Ptr.ofList [1, 2, 255])
        fun _ => 0xFF := by
  have haddr : Addressable twoBlocks ⟨true, true⟩ 0 3 8 := by
    refine ⟨fun _ _ => by decide, fun pieces stop hwalk _ _ => ?_, fun pieces stop hwalk _ _ => ?_⟩
    · obtain ⟨-, rfl⟩ := hwalk.unique walk_twoBlocks
      decide
    · obtain ⟨-, rfl⟩ := hwalk.unique walk_twoBlocks
      exact .inr (by unfold Agree; decide)
  exact ⟨haddr, write_skip_bad_round_trip (fun _ _ _ _ => rfl) haddr⟩

/-- A chip of 8 GiB whose block at 4 GiB is bad. -/
def largeChip : NandInfo where
  size := 2 ^ 33
  erasesize := 2 ^ 17
  writesize := 2048
  bad := (· = 2 ^ 32)
  writesize_pos := by decide
  writesize_dvd := by decide
  erasesize_pow := ⟨17, by decide⟩
  size_dvd := by decide

/-- The loop tests the block at address 0 and writes into the bad one. -/
theorem write_into_bad_block :
    Erased largeChip (fun _ => 0xFF) (2 ^ 32) (2 ^ 32 + 2 ^ 20) ∧
      ¬ RoundTrips largeChip (fun _ => false) ⟨false, false⟩ (2 ^ 32) 1 (2 ^ 20)
        (Ptr.ofList [0]) fun _ => 0xFF := by
  refine ⟨fun _ _ _ _ => rfl, fun h => ?_⟩
  obtain ⟨h, -⟩ := h 5 _ rfl
  obtain ⟨fuel₀, log, -, hinside⟩ := h rfl
  have hbad := (hinside (2 ^ 32, 1) (List.mem_append_left _ (List.mem_singleton.mpr rfl))
    (2 ^ 32) le_rfl (by decide)).2.2
  exact absurd hbad (by decide)

end UBoot.Nand
