import UBoot.Env.Fw.Flash

/-!
# The loops over the blocks

What a pass over the good blocks of a NAND flash reads and writes, as one sequence of
bytes.
-/

namespace UBoot.Env.Fw

open Verification

section

variable {sys : System} {type : MtdType} {data : Buffer} {flash flash' : Flash}

theorem Flash.erase_spec {start length : Nat} (h : flash.erase sys start length = some flash') :
    start + length ≤ flash.size ∧
      flash' = { flash with bytes := flash.bytes.write start length fun _ => 255 } := by
  rw [Flash.erase] at h
  split_ifs at h with hfail
  exact ⟨by omega, (Option.some.inj h).symm⟩

theorem write_over_erased (bytes : Ptr) (pos length : Nat) (data : Ptr) :
    ((bytes.write pos length fun _ => 255).write pos length fun i =>
      ((bytes.write pos length fun _ => 255).add pos) i &&& data i) =
        bytes.write pos length data := by
  funext i
  by_cases hi : pos ≤ i ∧ i < pos + length
  · have hin : pos ≤ pos + (i - pos) ∧ pos + (i - pos) < pos + length := by omega
    simp only [Ptr.write, Ptr.add, if_pos hi, if_pos hin]
    exact UInt8.neg_one_and
  · simp only [Ptr.write, if_neg hi]

theorem Flash.write_dataFlash {pos length : Nat} {data : Ptr}
    (h : flash.write sys .dataFlash pos length data = some flash') :
    pos + length ≤ flash.size ∧
      flash' = { flash with bytes := flash.bytes.write pos length data } := by
  rw [Flash.write, if_neg (by decide : MtdType.dataFlash ≠ .absent), if_pos rfl] at h
  split_ifs at h with hfail hsize
  exact ⟨by omega, (Option.some.inj h).symm⟩

theorem Flash.write_raw {pos length : Nat} {data : Ptr} (habsent : type ≠ .absent)
    (hdata : type ≠ .dataFlash) (h : flash.write sys type pos length data = some flash') :
    pos + length ≤ flash.size ∧ flash' = { flash with
      bytes := flash.bytes.write pos length fun i => (flash.bytes.add pos) i &&& data i } := by
  rw [Flash.write, if_neg habsent, if_neg hdata] at h
  split_ifs at h with hfail hsize
  exact ⟨by omega, (Option.some.inj h).symm⟩

theorem renewBlock_spec (htype : type ≠ .absent) {erasesize processed blockstart : Nat}
    {done : List FlashEvent}
    (h : renewBlock sys type data erasesize processed blockstart flash = some (flash', done)) :
    blockstart + erasesize ≤ flash.size ∧ flash' = { flash with
        bytes := flash.bytes.write blockstart erasesize (data.bytes.add processed) } ∧
      ∀ e ∈ done, e = .erase blockstart erasesize ∨ e = .write blockstart processed erasesize := by
  rw [renewBlock] at h
  obtain rfl | hdata := eq_or_ne type .dataFlash
  · rw [if_neg (by simp)] at h
    simp only [bind, Option.bind_eq_some_iff, Option.some.injEq, Prod.mk.injEq] at h
    obtain ⟨flash₁, hw, rfl, rfl⟩ := h
    obtain ⟨hsize, rfl⟩ := Flash.write_dataFlash hw
    exact ⟨hsize, rfl, by simp⟩
  · rw [if_pos ⟨htype, hdata⟩] at h
    simp only [bind, Option.bind_eq_some_iff, Option.some.injEq, Prod.mk.injEq] at h
    obtain ⟨flash₁, he, flash₂, hw, rfl, rfl⟩ := h
    obtain ⟨hsize, rfl⟩ := Flash.erase_spec he
    obtain ⟨-, rfl⟩ := Flash.write_raw htype hdata hw
    refine ⟨hsize, ?_, by simp⟩
    rw [write_over_erased]

/-- The fuel is enough: a loop that moves on comes to the end of the range. -/
theorem writeLoop_returns {blocklen erasesize top total fuel processed start : Nat}
    {events : List FlashEvent} (hblock : 0 < blocklen) (herase : 0 < erasesize)
    (hfuel : 0 < fuel) (hstart : top + 2 ≤ fuel + start) :
    ∃ r, writeLoop sys type data blocklen erasesize top total fuel processed start flash events =
      some r := by
  induction fuel generalizing processed start flash events with
  | zero => exact absurd hfuel (lt_irrefl 0)
  | succ fuel ih =>
    rw [writeLoop]
    dsimp only
    split_ifs with hmore hanswer hinside hbad
    · exact ⟨_, rfl⟩
    · exact ⟨_, rfl⟩
    · exact ih (by omega) (by omega)
    · split
      · exact ⟨_, rfl⟩
      · exact ih (by omega) (by omega)
    · exact ⟨_, rfl⟩

end

/-! ## A pass over the blocks -/

/-- The blocks from index `j` to `k` can be passed. -/
structure Passable (sys : System) (dev : EnvDev) (size top first j k : Nat) : Prop where
  answers : ∀ i, j ≤ i → i < k → 0 ≤ sys.getBadBlock ((first + i) * dev.eraseSize)
  inside : j < k → (first + k) * dev.eraseSize ≤ top
  size : ∀ i, j ≤ i → i < k → GoodBlock sys .nandFlash dev (first + i) →
    (first + i + 1) * dev.eraseSize ≤ size

section

variable {sys : System} {dev : EnvDev} {data : Buffer} {first top need : Nat}

theorem Passable.refl (size k : Nat) : Passable sys dev size top first k k :=
  ⟨fun i hj hi => absurd hj (by omega), fun h => absurd h (lt_irrefl k),
    fun i hj hi => absurd hj (by omega)⟩

/-- One more block in front. -/
theorem Passable.cons {size j k : Nat} (h : Passable sys dev size top first (j + 1) k) (hjk : j < k)
    (hanswer : 0 ≤ sys.getBadBlock ((first + j) * dev.eraseSize))
    (hinside : (first + (j + 1)) * dev.eraseSize ≤ top)
    (hsize : GoodBlock sys .nandFlash dev (first + j) → (first + j + 1) * dev.eraseSize ≤ size) :
    Passable sys dev size top first j k where
  answers i hji hik := by
    obtain rfl | hlt := hji.eq_or_lt
    · exact hanswer
    · exact h.answers i hlt hik
  inside _ := by
    obtain rfl | hlt := (show j + 1 ≤ k from hjk).eq_or_lt
    · exact hinside
    · exact h.inside hlt
  size i hji hik hgood := by
    obtain rfl | hlt := hji.eq_or_lt
    · exact hsize hgood
    · exact h.size i hlt hik hgood

theorem div_eq_iff_mem_block {p b n : Nat} (hn : 0 < n) :
    p / n = b ↔ b * n ≤ p ∧ p < b * n + n := by
  rw [Nat.div_eq_iff hn]
  omega

theorem write_block {n b : Nat} (hn : 0 < n) (bytes data : Ptr) (p : Nat) :
    (bytes.write (b * n) n data) p = if p / n = b then data (p - b * n) else bytes p :=
  if_congr (div_eq_iff_mem_block hn).symm rfl rfl

/-- The event concerns one of the blocks from index `j` on. -/
def BlockEvent (sys : System) (dev : EnvDev) (top need first j : Nat) (e : FlashEvent) : Prop :=
  ∃ i ≥ j, (first + i + 1) * dev.eraseSize ≤ top ∧
    goodCount (GoodBlock sys .nandFlash dev) first i < need ∧
    (e = .erase ((first + i) * dev.eraseSize) dev.eraseSize ∨
      e = .write ((first + i) * dev.eraseSize)
        (goodCount (GoodBlock sys .nandFlash dev) first i * dev.eraseSize) dev.eraseSize)

theorem writeLoop_blocks (hpos : 0 < dev.eraseSize) {fuel k : Nat} {flash : Flash}
    {events : List FlashEvent} {r : Written}
    (hle : goodCount (GoodBlock sys .nandFlash dev) first k ≤ need)
    (h : writeLoop sys .nandFlash data dev.eraseSize dev.eraseSize top (need * dev.eraseSize) fuel
      (goodCount (GoodBlock sys .nandFlash dev) first k * dev.eraseSize)
      ((first + k) * dev.eraseSize) flash events = some r) (hret : 0 ≤ r.ret) :
    ∃ last ≥ k, goodCount (GoodBlock sys .nandFlash dev) first last = need ∧
      Passable sys dev flash.size top first k last ∧ r.flash.size = flash.size ∧ r.data = data ∧
      (∀ p, r.flash.bytes p =
        if first + k ≤ p / dev.eraseSize ∧ p / dev.eraseSize < first + last ∧
          GoodBlock sys .nandFlash dev (p / dev.eraseSize) then
            data.bytes (goodPlace (GoodBlock sys .nandFlash dev) dev.eraseSize first p)
        else flash.bytes p) ∧
      ∀ e ∈ r.events, e ∈ events ∨ BlockEvent sys dev top need first k e := by
  induction fuel generalizing k flash events with
  | zero => cases h
  | succ fuel ih =>
    have hadd : (first + k) * dev.eraseSize + dev.eraseSize =
        (first + (k + 1)) * dev.eraseSize := by
      rw [← Nat.succ_mul, Nat.succ_eq_add_one, Nat.add_assoc]
    rw [writeLoop] at h
    dsimp only at h
    split_ifs at h with hmore hanswer hinside hbad
    · cases h
      exact absurd hret (by simpa using hanswer)
    · cases h
      exact absurd hret (show ¬(0 : Int) ≤ -1 by decide)
    · -- a bad block
      have hnot : ¬GoodBlock sys .nandFlash dev (first + k) := hbad
      rw [hadd, ← goodCount_succ_of_not hnot] at h
      obtain ⟨last, hlast, hcount, hpass, hsize, hdata, hbytes, hevents⟩ :=
        ih (by rwa [goodCount_succ_of_not hnot]) h
      refine ⟨last, by omega, hcount, ?_, hsize, hdata, ?_, ?_⟩
      · exact hpass.cons (by omega) (not_lt.mp hanswer) (by omega) fun hgood => absurd hgood hnot
      · intro p
        rw [hbytes]
        refine if_congr ⟨?_, ?_⟩ rfl rfl
        · rintro ⟨hp, hlt, hgood⟩
          exact ⟨by omega, hlt, hgood⟩
        · rintro ⟨hp, hlt, hgood⟩
          have hne : first + k ≠ p / dev.eraseSize := fun heq => hnot (heq ▸ hgood)
          exact ⟨by omega, hlt, hgood⟩
      · intro e he
        refine (hevents e he).imp id ?_
        rintro ⟨i, hi, hrest⟩
        exact ⟨i, by omega, hrest⟩
    · -- a good block
      have hgood : GoodBlock sys .nandFlash dev (first + k) := not_not.mp hbad
      have hlt : goodCount (GoodBlock sys .nandFlash dev) first k < need :=
        lt_of_mul_lt_mul_right hmore (Nat.zero_le _)
      split at h
      · cases h
        exact absurd hret (show ¬(0 : Int) ≤ -1 by decide)
      · rename_i flash₁ done hrenew
        obtain ⟨hfits, rfl, hdone⟩ := renewBlock_spec (by decide) hrenew
        rw [hadd, ← Nat.succ_mul, Nat.succ_eq_add_one, ← goodCount_succ_of_good hgood] at h
        obtain ⟨last, hlast, hcount, hpass, hsize, hdata, hbytes, hevents⟩ :=
          ih (by rwa [goodCount_succ_of_good hgood]) h
        refine ⟨last, by omega, hcount, ?_, hsize, hdata, ?_, ?_⟩
        · exact hpass.cons (by omega) (not_lt.mp hanswer) (by omega)
            fun _ => by rwa [Nat.succ_mul]
        · intro p
          rw [hbytes]
          dsimp only
          rw [write_block hpos]
          by_cases hblock : p / dev.eraseSize = first + k
          · rw [if_neg (by omega), if_pos hblock, if_pos ⟨hblock.ge, by omega, hblock ▸ hgood⟩,
              goodPlace_of_block hblock]
            rfl
          · rw [if_neg hblock]
            refine if_congr ⟨?_, ?_⟩ rfl rfl
            · rintro ⟨hp, hrest⟩
              exact ⟨by omega, hrest⟩
            · rintro ⟨hp, hrest⟩
              exact ⟨by omega, hrest⟩
        · intro e he
          obtain hmem | ⟨i, hi, hrest⟩ := hevents e he
          · refine (List.mem_append.mp hmem).imp id fun hin => ?_
            exact ⟨k, le_rfl, by rw [Nat.add_assoc]; omega, hlt, hdone e hin⟩
          · exact .inr ⟨i, by omega, hrest⟩
    · cases h
      refine ⟨k, le_rfl, ?_, .refl _ _, rfl, rfl, ?_, fun e he => .inl he⟩
      · rw [Nat.mul_lt_mul_right hpos] at hmore
        omega
      · intro p
        rw [if_neg (by omega)]

/-- What a read from `seek₀` on gets, when the good blocks hold the bytes of `view`. -/
theorem readLoop_blocks (hpos : 0 < dev.eraseSize) {flash : Flash} {last room count seek₀ : Nat}
    {view : Ptr} (hpass : Passable sys dev flash.size top first 0 last)
    (hcount : goodCount (GoodBlock sys .nandFlash dev) first last = need)
    (hview : ∀ p, first ≤ p / dev.eraseSize → GoodBlock sys .nandFlash dev (p / dev.eraseSize) →
      goodPlace (GoodBlock sys .nandFlash dev) dev.eraseSize first p < need * dev.eraseSize →
      view (goodPlace (GoodBlock sys .nandFlash dev) dev.eraseSize first p) = flash.bytes p)
    (hfit : seek₀ + count ≤ need * dev.eraseSize) (hroom : count ≤ room)
    {fuel k processed seek : Nat} {buf : Ptr} (hfuel : last < fuel + k) (hk : k ≤ last)
    (hle : processed ≤ count)
    (hseek : processed < count → seek < dev.eraseSize ∧ seek₀ + processed =
      goodCount (GoodBlock sys .nandFlash dev) first k * dev.eraseSize + seek)
    (hbuf : ∀ j < processed, buf j = view (seek₀ + j)) :
    ∃ out, readLoop sys .nandFlash flash room count dev.eraseSize top fuel processed
        (min (dev.eraseSize - seek) (count - processed)) seek ((first + k) * dev.eraseSize) buf =
          some ((count : Int), out) ∧ ∀ j < count, out j = view (seek₀ + j) := by
  induction fuel generalizing k processed seek buf with
  | zero => omega
  | succ fuel ih =>
    rw [readLoop]
    by_cases hmore : processed < count
    · obtain ⟨hlt, hplace⟩ := hseek hmore
      have hbelow : goodCount (GoodBlock sys .nandFlash dev) first k < need := by
        apply lt_of_mul_lt_mul_right (a := dev.eraseSize) _ (Nat.zero_le _)
        omega
      have hklt : k < last := by
        apply hk.lt_of_ne
        rintro rfl
        omega
      have hanswer : ¬flashBadBlock sys .nandFlash ((first + k) * dev.eraseSize) < 0 :=
        not_lt.mpr (hpass.answers k (Nat.zero_le k) hklt)
      have hadd : (first + k) * dev.eraseSize + dev.eraseSize =
          (first + (k + 1)) * dev.eraseSize := by
        rw [← Nat.succ_mul, Nat.succ_eq_add_one, Nat.add_assoc]
      have htop : (first + (k + 1)) * dev.eraseSize ≤ top :=
        (Nat.mul_le_mul_right _ (by omega)).trans (hpass.inside (by omega))
      rw [if_pos hmore]
      dsimp only
      rw [if_neg hanswer, if_neg (by omega), hadd]
      by_cases hbad : flashBadBlock sys .nandFlash ((first + k) * dev.eraseSize) ≠ 0
      · rw [if_pos hbad]
        have hnot : ¬GoodBlock sys .nandFlash dev (first + k) := hbad
        apply ih (by omega) hklt hle _ hbuf
        rwa [goodCount_succ_of_not hnot]
      · have hgood : GoodBlock sys .nandFlash dev (first + k) := not_not.mp hbad
        have hsize := hpass.size k (Nat.zero_le k) hklt hgood
        rw [Nat.add_assoc] at hsize
        rw [if_neg hbad, if_neg (by omega), if_neg (by omega)]
        generalize hn : min (dev.eraseSize - seek) (count - processed) = n
        have hstep := @ih (k + 1) (processed + n) 0
          (buf.write processed n (flash.bytes.add ((first + k) * dev.eraseSize + seek)))
          (by omega) hklt (by omega) ?_ ?_
        · rwa [Nat.sub_zero] at hstep
        · intro hmore'
          rw [goodCount_succ_of_good hgood, Nat.succ_mul]
          omega
        · intro j hj
          rw [Ptr.write]
          split_ifs with hin
          · -- the byte comes from the block
            have hblock : ((first + k) * dev.eraseSize + seek + (j - processed)) /
                dev.eraseSize = first + k := (div_eq_iff_mem_block hpos).mpr (by omega)
            have hp : goodPlace (GoodBlock sys .nandFlash dev) dev.eraseSize first
                ((first + k) * dev.eraseSize + seek + (j - processed)) = seek₀ + j := by
              rw [goodPlace_of_block hblock]
              omega
            have hbyte := hview _ (by omega) (hblock ▸ hgood) (by rw [hp]; omega)
            rw [hp] at hbyte
            exact hbyte.symm
          · exact hbuf j (by omega)
    · obtain rfl : processed = count := by omega
      exact ⟨buf, if_neg hmore, hbuf⟩

end

end UBoot.Env.Fw
