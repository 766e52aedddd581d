import UBoot.Env.Fw.FlashBlocks

/-!
# Writes that are sound

A NAND flash is written block by block, and the other devices in one piece. What is written is
the environment and around it what the good blocks held before.
-/

namespace UBoot.Env.Fw

open Verification

/-! ## Reading -/

section

variable {sys : System} {type : MtdType} {dev : EnvDev} {flash : Flash}

theorem flashReadBuf_linear (htype : type ≠ .nandFlash) (hpos : 0 < dev.eraseSize)
    {room count offset : Nat} (hroom : count ≤ room)
    (hsize : 0 < count → offset + count ≤ flash.size) (into : Ptr) :
    flashReadBuf sys type dev flash room into count offset =
      some ((count : Int), into.write 0 count (flash.bytes.add offset)) := by
  have hstart : offset / dev.eraseSize * dev.eraseSize ≤ offset := Nat.div_mul_le_self _ _
  rw [flashReadBuf, if_neg hpos.ne']
  dsimp only
  rw [if_neg htype, readLoop]
  obtain rfl | hcount := Nat.eq_zero_or_pos count
  · rw [if_neg (lt_irrefl 0), Ptr.write_zero into 0]
  · have hend := hsize hcount
    have hbad : flashBadBlock sys type (offset / dev.eraseSize * dev.eraseSize) = 0 :=
      if_neg htype
    rw [if_pos hcount]
    dsimp only
    rw [hbad, if_neg (lt_irrefl _), if_neg (by omega), if_neg (by simp), if_neg (by omega),
      if_neg (by omega), readLoop, if_neg (by omega), Nat.zero_add, Nat.add_sub_of_le hstart]

theorem flashReadBuf_blocks (hpos : 0 < dev.eraseSize) {last need room count offset : Nat}
    {view : Ptr}
    (hpass : Passable sys dev flash.size
      ((dev.devoff / dev.eraseSize + dev.envSectors) * dev.eraseSize)
      (offset / dev.eraseSize) 0 last)
    (hcount : goodCount (GoodBlock sys .nandFlash dev) (offset / dev.eraseSize) last = need)
    (hview : ∀ p, offset / dev.eraseSize ≤ p / dev.eraseSize →
      GoodBlock sys .nandFlash dev (p / dev.eraseSize) →
      goodPlace (GoodBlock sys .nandFlash dev) dev.eraseSize (offset / dev.eraseSize) p <
        need * dev.eraseSize →
      view (goodPlace (GoodBlock sys .nandFlash dev) dev.eraseSize
        (offset / dev.eraseSize) p) = flash.bytes p)
    (hfit : offset % dev.eraseSize + count ≤ need * dev.eraseSize) (hroom : count ≤ room)
    (into : Ptr) :
    ∃ out, flashReadBuf sys .nandFlash dev flash room into count offset =
        some ((count : Int), out) ∧ ∀ j < count, out j = view (offset % dev.eraseSize + j) := by
  have hmod := Nat.mod_lt offset hpos
  have hlast : last ≤ (dev.devoff / dev.eraseSize + dev.envSectors) * dev.eraseSize := by
    obtain rfl | hlast := Nat.eq_zero_or_pos last
    · exact Nat.zero_le _
    · have hmul := Nat.le_mul_of_pos_right (offset / dev.eraseSize + last) hpos
      exact (Nat.le_add_left _ _).trans (hmul.trans (hpass.inside hlast))
  have hseek : offset - offset / dev.eraseSize * dev.eraseSize = offset % dev.eraseSize :=
    Nat.mod_eq_sub_div_mul.symm
  rw [flashReadBuf, if_neg hpos.ne']
  dsimp only
  rw [if_pos rfl, hseek, Nat.min_comm]
  exact @readLoop_blocks _ _ _ _ _ hpos _ _ _ _ _ _ hpass hcount hview hfit hroom _ 0 0 _ _
    (by omega) (Nat.zero_le _) (Nat.zero_le _) (fun _ => ⟨hmod, by simp⟩)
    fun j hj => absurd hj (Nat.not_lt_zero j)

end

/-! ## Writing -/

/-- The data that is written: the environment, and around it what the good blocks held. -/
structure Patched (sys : System) (type : MtdType) (dev : EnvDev) (flash : Flash) (buf : Ptr)
    (count offset need : Nat) (data : Buffer) : Prop where
  len : need * dev.eraseSize ≤ data.len
  env : ∀ j < count, data.bytes (offset % dev.eraseSize + j) = buf j
  rest : ∀ p, offset / dev.eraseSize ≤ p / dev.eraseSize →
    GoodBlock sys type dev (p / dev.eraseSize) →
    goodPlace (GoodBlock sys type dev) dev.eraseSize (offset / dev.eraseSize) p <
      need * dev.eraseSize →
    (∀ k < count, ¬EnvByte sys type dev offset k p) →
    data.bytes (goodPlace (GoodBlock sys type dev) dev.eraseSize (offset / dev.eraseSize) p) =
      flash.bytes p

/-- The data is in the first good bytes, and the rest is as it was. -/
structure Renewed (sys : System) (type : MtdType) (dev : EnvDev) (flash flash' : Flash)
    (offset need : Nat) (data : Buffer) : Prop where
  size : flash'.size = flash.size
  new : ∀ p, offset / dev.eraseSize ≤ p / dev.eraseSize →
    GoodBlock sys type dev (p / dev.eraseSize) →
    goodPlace (GoodBlock sys type dev) dev.eraseSize (offset / dev.eraseSize) p <
      need * dev.eraseSize →
    flash'.bytes p =
      data.bytes (goodPlace (GoodBlock sys type dev) dev.eraseSize (offset / dev.eraseSize) p)
  old : ∀ p, ¬(offset / dev.eraseSize ≤ p / dev.eraseSize ∧
    goodPlace (GoodBlock sys type dev) dev.eraseSize (offset / dev.eraseSize) p <
      need * dev.eraseSize) →
    GoodBlock sys type dev (p / dev.eraseSize) → flash'.bytes p = flash.bytes p

section

variable {sys : System} {type : MtdType} {dev : EnvDev} {flash flash' : Flash} {buf : Ptr}
  {count offset need : Nat} {data : Buffer}

/-- Only the bytes of the environment are changed. -/
theorem Renewed.kept (h : Renewed sys type dev flash flash' offset need data)
    (hdata : Patched sys type dev flash buf count offset need data) {p : Nat}
    (hgood : GoodBlock sys type dev (p / dev.eraseSize))
    (henv : ∀ k < count, ¬EnvByte sys type dev offset k p) : flash'.bytes p = flash.bytes p := by
  by_cases hin : offset / dev.eraseSize ≤ p / dev.eraseSize ∧
      goodPlace (GoodBlock sys type dev) dev.eraseSize (offset / dev.eraseSize) p <
        need * dev.eraseSize
  · rw [h.new p hin.1 hgood hin.2, hdata.rest p hin.1 hgood hin.2 henv]
  · exact h.old p hin hgood

/-- The environment is copied over the bytes that were read. -/
theorem patched_write {out : Ptr} {len : Nat} (hlen : need * dev.eraseSize ≤ len)
    (hout : ∀ p, offset / dev.eraseSize ≤ p / dev.eraseSize →
      GoodBlock sys type dev (p / dev.eraseSize) →
      goodPlace (GoodBlock sys type dev) dev.eraseSize (offset / dev.eraseSize) p <
        need * dev.eraseSize →
      out (goodPlace (GoodBlock sys type dev) dev.eraseSize (offset / dev.eraseSize) p) =
        flash.bytes p) :
    Patched sys type dev flash buf count offset need
      ⟨out.write (offset % dev.eraseSize) count buf, len⟩ where
  len := hlen
  env j hj := by
    dsimp only
    rw [Ptr.write, if_pos (by omega), Nat.add_sub_cancel_left]
  rest p hp hgood hlt henv := by
    dsimp only
    rw [Ptr.write, if_neg, hout p hp hgood hlt]
    rintro ⟨hle, hlt'⟩
    obtain ⟨k, hk⟩ := Nat.exists_eq_add_of_le hle
    exact henv k (by omega) ⟨hp, hgood, hk⟩

/-- The environment fills whole blocks. -/
theorem patched_self (hseek : offset % dev.eraseSize = 0) (hcount : count = need * dev.eraseSize) :
    Patched sys type dev flash buf count offset need ⟨buf, count⟩ where
  len := hcount.ge
  env j hj := by rw [hseek, Nat.zero_add]
  rest p hp hgood hlt henv := by
    exfalso
    rw [← hcount] at hlt
    exact henv _ hlt ⟨hp, hgood, by rw [hseek, Nat.zero_add]⟩

/-- The bytes of the blocks that the environment reaches into. -/
theorem writeTotal_cases (hpos : 0 < dev.eraseSize) (count offset : Nat) :
    offset % dev.eraseSize + count ≤ neededBlocks dev count offset * dev.eraseSize ∧
      (¬count < neededBlocks dev count offset * dev.eraseSize →
        offset % dev.eraseSize = 0 ∧ count = neededBlocks dev count offset * dev.eraseSize) := by
  have hle : offset % dev.eraseSize + count ≤
      neededBlocks dev count offset * dev.eraseSize := by
    have hdiv := Nat.lt_div_mul_add (a := offset % dev.eraseSize + count + dev.eraseSize - 1) hpos
    rw [neededBlocks]
    omega
  exact ⟨hle, by omega⟩

theorem eraseLen_eq (dev : EnvDev) (offset : Nat) :
    (dev.devoff / dev.eraseSize + dev.envSectors) * dev.eraseSize -
      offset / dev.eraseSize * dev.eraseSize = rangeBlocks dev offset * dev.eraseSize :=
  (Nat.sub_mul _ _ _).symm

/-- The data that a write on a flash device uses. -/
def DataOf (sys : System) (type : MtdType) (dev : EnvDev) (flash : Flash) (fresh buf : Ptr)
    (count offset : Nat) (data : Buffer) : Prop :=
  if count < neededBlocks dev count offset * dev.eraseSize then
    ∃ out, flashReadBuf sys type dev flash (rangeBlocks dev offset * dev.eraseSize) fresh
        (neededBlocks dev count offset * dev.eraseSize)
        (offset / dev.eraseSize * dev.eraseSize) =
          some (((neededBlocks dev count offset * dev.eraseSize : Nat) : Int), out) ∧
      data = ⟨out.write (offset % dev.eraseSize) count buf, rangeBlocks dev offset * dev.eraseSize⟩
  else data = ⟨buf, count⟩

/-- The loop that a write on a flash device runs. -/
def mtdLoop (sys : System) (type : MtdType) (dev : EnvDev) (flash : Flash) (count offset : Nat)
    (data : Buffer) : Option Written :=
  writeLoop sys type data dev.eraseSize
    (if type = .nandFlash then dev.eraseSize else rangeBlocks dev offset * dev.eraseSize)
    ((dev.devoff / dev.eraseSize + dev.envSectors) * dev.eraseSize)
    (neededBlocks dev count offset * dev.eraseSize)
    ((dev.devoff / dev.eraseSize + dev.envSectors) * dev.eraseSize + 2) 0
    (offset / dev.eraseSize * dev.eraseSize) flash []

theorem flashWriteBuf_mtd (htype : type ≠ .absent) {fresh : Ptr} {r : Written}
    (h : flashWriteBuf sys type dev flash fresh buf count offset = some r) (hret : 0 ≤ r.ret) :
    0 < dev.eraseSize ∧ ∃ data, DataOf sys type dev flash fresh buf count offset data ∧
      mtdLoop sys type dev flash count offset data = some r := by
  have hseek : offset - offset / dev.eraseSize * dev.eraseSize = offset % dev.eraseSize :=
    Nat.mod_eq_sub_div_mul.symm
  rw [flashWriteBuf, if_neg htype] at h
  by_cases hzero : dev.eraseSize = 0
  · rw [if_pos hzero] at h
    cases h
  refine ⟨Nat.pos_of_ne_zero hzero, ?_⟩
  rw [if_neg hzero] at h
  dsimp only at h
  rw [eraseLen_eq, hseek, ← neededBlocks] at h
  by_cases hmore : count < neededBlocks dev count offset * dev.eraseSize
  · rw [if_pos hmore, preserve] at h
    by_cases hmalloc : sys.mallocFails (rangeBlocks dev offset * dev.eraseSize) = true
    · rw [if_pos hmalloc] at h
      cases h
      exact absurd hret (show ¬(0 : Int) ≤ -1 by decide)
    rw [if_neg hmalloc] at h
    simp only [bind, Option.bind_eq_some_iff] at h
    obtain ⟨data, ⟨⟨rc, out⟩, hread, hdata⟩, hloop⟩ := h
    by_cases hrc : ((neededBlocks dev count offset * dev.eraseSize : Nat) : Int) ≠ rc
    · rw [if_pos hrc] at hdata
      cases hdata
      cases hloop
      exact absurd hret (show ¬(0 : Int) ≤ -1 by decide)
    · rw [if_neg hrc] at hdata
      cases hdata
      refine ⟨_, ?_, hloop⟩
      rw [DataOf, if_pos hmore]
      exact ⟨out, by rw [hread, not_not.mp hrc], rfl⟩
  · rw [if_neg hmore] at h
    refine ⟨⟨buf, count⟩, ?_, h⟩
    rw [DataOf, if_neg hmore]

end

/-! ## NAND flash -/

section

variable {sys : System} {dev : EnvDev} {flash : Flash} {fresh buf : Ptr} {count offset last : Nat}
  {data : Buffer} {r : Written}

theorem mtdLoop_nand (hpos : 0 < dev.eraseSize)
    (h : mtdLoop sys .nandFlash dev flash count offset data = some r) (hret : 0 ≤ r.ret) :
    ∃ last, goodCount (GoodBlock sys .nandFlash dev) (offset / dev.eraseSize) last =
        neededBlocks dev count offset ∧
      Passable sys dev flash.size ((dev.devoff / dev.eraseSize + dev.envSectors) * dev.eraseSize)
        (offset / dev.eraseSize) 0 last ∧
      Renewed sys .nandFlash dev flash r.flash offset (neededBlocks dev count offset) data ∧
      r.data = data ∧ ∀ e ∈ r.events, BlockEvent sys dev
        ((dev.devoff / dev.eraseSize + dev.envSectors) * dev.eraseSize)
        (neededBlocks dev count offset) (offset / dev.eraseSize) 0 e := by
  rw [mtdLoop, if_pos rfl] at h
  obtain ⟨last, -, hcount, hpass, hsize, hdata, hbytes, hevents⟩ :=
    @writeLoop_blocks sys dev data (offset / dev.eraseSize) _ (neededBlocks dev count offset) hpos
      _ 0 _ _ _ (Nat.zero_le _) (by rw [goodCount_zero, Nat.zero_mul]; exact h) hret
  refine ⟨last, hcount, hpass, ⟨hsize, ?_, ?_⟩, hdata, ?_⟩
  · intro p hp hgood hlt
    rw [goodPlace_lt_iff hpos, ← hcount] at hlt
    have hindex : p / dev.eraseSize - offset / dev.eraseSize < last := by
      by_contra hge
      exact absurd hlt (not_lt.mpr (goodCount_mono (not_lt.mp hge)))
    rw [hbytes, if_pos ⟨hp, by omega, hgood⟩]
  · intro p hout hgood
    rw [hbytes, if_neg]
    rintro ⟨hfirst, hlt, -⟩
    have hp : offset / dev.eraseSize ≤ p / dev.eraseSize := hfirst
    have hcnt : goodCount (GoodBlock sys .nandFlash dev) (offset / dev.eraseSize)
        (p / dev.eraseSize - offset / dev.eraseSize) < neededBlocks dev count offset := by
      rw [← hcount]
      apply goodCount_lt (by omega)
      rwa [Nat.add_sub_of_le hp]
    exact hout ⟨hp, (goodPlace_lt_iff hpos).mpr hcnt⟩
  · intro e he
    exact (hevents e he).resolve_left (List.not_mem_nil)

theorem Passable.needed_le (hpos : 0 < dev.eraseSize)
    (hpass : Passable sys dev flash.size
      ((dev.devoff / dev.eraseSize + dev.envSectors) * dev.eraseSize) (offset / dev.eraseSize) 0
      last)
    (hcount : goodCount (GoodBlock sys .nandFlash dev) (offset / dev.eraseSize) last =
      neededBlocks dev count offset) :
    neededBlocks dev count offset ≤ rangeBlocks dev offset := by
  rw [← hcount]
  apply (goodCount_le last).trans
  obtain rfl | hlast := Nat.eq_zero_or_pos last
  · exact Nat.zero_le _
  · have hle := Nat.le_of_mul_le_mul_right (hpass.inside hlast) hpos
    rw [rangeBlocks]
    omega

theorem patched_nand (hpos : 0 < dev.eraseSize)
    (hpass : Passable sys dev flash.size
      ((dev.devoff / dev.eraseSize + dev.envSectors) * dev.eraseSize) (offset / dev.eraseSize) 0
      last)
    (hcount : goodCount (GoodBlock sys .nandFlash dev) (offset / dev.eraseSize) last =
      neededBlocks dev count offset)
    (hdata : DataOf sys .nandFlash dev flash fresh buf count offset data) :
    Patched sys .nandFlash dev flash buf count offset (neededBlocks dev count offset) data := by
  have htotal := writeTotal_cases hpos count offset
  rw [DataOf] at hdata
  split_ifs at hdata with hmore
  · have hroom := Nat.mul_le_mul_right dev.eraseSize (hpass.needed_le hpos hcount)
    have hdiv : offset / dev.eraseSize * dev.eraseSize / dev.eraseSize = offset / dev.eraseSize :=
      Nat.mul_div_cancel _ hpos
    have hmod : offset / dev.eraseSize * dev.eraseSize % dev.eraseSize = 0 := Nat.mul_mod_left _ _
    obtain ⟨view, hview⟩ := @exists_goodView (GoodBlock sys .nandFlash dev) _ _
      (offset / dev.eraseSize) _ _ hpos flash.bytes
    obtain ⟨out, hread, rfl⟩ := hdata
    obtain ⟨out', hread', hout⟩ := @flashReadBuf_blocks sys dev flash hpos last
      (neededBlocks dev count offset) (rangeBlocks dev offset * dev.eraseSize)
      (neededBlocks dev count offset * dev.eraseSize) (offset / dev.eraseSize * dev.eraseSize) view
      (by rwa [hdiv]) (by rwa [hdiv])
      (by rw [hdiv]; exact fun p hp hgood _ => hview p hp hgood) (by omega) hroom fresh
    obtain rfl : out = out' := by
      rw [hread] at hread'
      cases hread'
      rfl
    apply patched_write hroom
    intro p hp hgood hlt
    rw [hout _ hlt, hmod, Nat.zero_add, hview p hp hgood]
  · obtain ⟨hseek, hcount'⟩ := htotal.2 hmore
    rw [hdata]
    exact patched_self hseek hcount'

theorem inSectors_block (type : MtdType) (htype : type ≠ .absent) {i : Nat}
    (hsectors : dev.devoff / dev.eraseSize ≤ offset / dev.eraseSize)
    (htop : (offset / dev.eraseSize + i + 1) * dev.eraseSize ≤
      (dev.devoff / dev.eraseSize + dev.envSectors) * dev.eraseSize) :
    InSectors type dev count offset ((offset / dev.eraseSize + i) * dev.eraseSize)
      ((offset / dev.eraseSize + i) * dev.eraseSize + dev.eraseSize) := by
  rw [InSectors, if_neg htype, ← Nat.succ_mul]
  exact ⟨Nat.mul_le_mul_right _ (by omega), htop⟩

theorem sound_nand
    (hsectors : neededBlocks dev count offset ≠ 0 →
      dev.devoff / dev.eraseSize ≤ offset / dev.eraseSize)
    (h : flashWriteBuf sys .nandFlash dev flash fresh buf count offset = some r)
    (hret : 0 ≤ r.ret) : WriteSound sys .nandFlash dev flash buf count offset r := by
  obtain ⟨hpos, data, hof, hloop⟩ := flashWriteBuf_mtd (by decide) h hret
  obtain ⟨last, hcount, hpass, hrenewed, hdata, hevents⟩ := mtdLoop_nand hpos hloop hret
  have hpatched := patched_nand hpos hpass hcount hof
  have htotal := writeTotal_cases hpos count offset
  refine ⟨?_, ?_, ?_, ?_⟩
  · intro into
    obtain ⟨out, hread, hout⟩ := @flashReadBuf_blocks sys dev r.flash hpos last _ count count
      offset data.bytes (by rwa [hrenewed.size]) hcount
      (fun p hp hgood hlt => (hrenewed.new p hp hgood hlt).symm) htotal.1 le_rfl into
    refine ⟨out, hread, Ptr.bytes_congr fun j hj => ?_⟩
    rw [hout j hj, hpatched.env j hj]
  · intro p _ hgood henv
    exact hrenewed.kept hpatched hgood henv
  · intro start length he
    obtain ⟨i, -, htop, hlt, heq | heq⟩ := hevents _ he <;> cases heq
    exact inSectors_block _ (by decide) (hsectors (Nat.ne_zero_of_lt hlt)) htop
  · intro pos first length he
    obtain ⟨i, -, htop, hlt, heq | heq⟩ := hevents _ he <;> cases heq
    refine ⟨inSectors_block _ (by decide) (hsectors (Nat.ne_zero_of_lt hlt)) htop, ?_⟩
    rw [← Nat.succ_mul, hdata]
    exact (Nat.mul_le_mul_right _ hlt).trans hpatched.len

end

/-! ## Devices without bad blocks -/

section

variable {sys : System} {type : MtdType} {dev : EnvDev} {flash flash' : Flash} {fresh buf : Ptr}
  {count offset : Nat} {data : Buffer} {r : Written}

theorem goodBlock_linear (htype : type ≠ .nandFlash) (b : Nat) : GoodBlock sys type dev b :=
  if_neg htype

theorem goodPlace_linear (htype : type ≠ .nandFlash) {first p : Nat}
    (hp : first ≤ p / dev.eraseSize) :
    goodPlace (GoodBlock sys type dev) dev.eraseSize first p = p - first * dev.eraseSize :=
  goodPlace_of_all (goodBlock_linear htype) hp

/-- Everything is written in one piece. -/
theorem writeLoop_single (htype : type ≠ .nandFlash)
    {blocklen erasesize top total fuel start : Nat} (htotal : 0 < total) (hle : total ≤ erasesize)
    (h : writeLoop sys type data blocklen erasesize top total (fuel + 2) 0 start flash [] = some r)
    (hret : 0 ≤ r.ret) :
    start + erasesize ≤ top ∧ ∃ flash' done,
      renewBlock sys type data erasesize 0 start flash = some (flash', done) ∧
        r = ⟨erasesize, flash', done, data⟩ := by
  have hgood : flashBadBlock sys type start = 0 := if_neg htype
  rw [writeLoop, if_pos htotal] at h
  dsimp only at h
  rw [hgood, if_neg (lt_irrefl _)] at h
  split_ifs at h with htop hzero
  · cases h
    exact absurd hret (show ¬(0 : Int) ≤ -1 by decide)
  · exact absurd rfl hzero
  · split at h
    · cases h
      exact absurd hret (show ¬(0 : Int) ≤ -1 by decide)
    · rename_i flash' done hrenew
      rw [Nat.zero_add, writeLoop, if_neg (by omega)] at h
      cases h
      exact ⟨by omega, flash', done, hrenew, rfl⟩

/-- A range that is too short is found out, at the latest behind its end. -/
theorem writeLoop_short (htype : type ≠ .nandFlash)
    {blocklen erasesize top total fuel processed start : Nat} {events : List FlashEvent}
    (hlt : erasesize < total)
    (hstart : (processed = 0 ∧ top ≤ start + erasesize) ∨
      (processed = erasesize ∧ top < start + erasesize))
    (h : writeLoop sys type data blocklen erasesize top total fuel processed start flash events =
      some r) : r.ret < 0 := by
  induction fuel generalizing processed start flash events with
  | zero => cases h
  | succ fuel ih =>
    have hgood : flashBadBlock sys type start = 0 := if_neg htype
    rw [writeLoop, if_pos (by omega)] at h
    dsimp only at h
    rw [hgood, if_neg (lt_irrefl _)] at h
    split_ifs at h with htop hzero
    · cases h
      exact show (-1 : Int) < 0 by decide
    · exact absurd rfl hzero
    · split at h
      · cases h
        exact show (-1 : Int) < 0 by decide
      · exact ih (by omega) h

theorem sound_nothing (htype : type ≠ .nandFlash) (hpos : 0 < dev.eraseSize) (ret : Int)
    (data : Buffer) : WriteSound sys type dev flash buf 0 offset ⟨ret, flash, [], data⟩ where
  readBack into :=
    ⟨_, flashReadBuf_linear htype hpos le_rfl (fun h => absurd h (lt_irrefl 0)) into, rfl⟩
  kept _ _ _ _ := rfl
  erased _ _ he := absurd he List.not_mem_nil
  written _ _ _ he := absurd he List.not_mem_nil

/-- One piece is written, from the start of a block on. -/
theorem renewed_linear (htype : type ≠ .nandFlash) (hpos : 0 < dev.eraseSize) (flash : Flash)
    (offset need : Nat) (data : Buffer) :
    Renewed sys type dev flash { flash with
      bytes := flash.bytes.write (offset / dev.eraseSize * dev.eraseSize) (need * dev.eraseSize)
        (data.bytes.add 0) } offset need data where
  size := rfl
  new p hp _ hlt := by
    rw [goodPlace_linear htype hp] at hlt ⊢
    have hle := (Nat.le_div_iff_mul_le hpos).mp hp
    dsimp only
    rw [Ptr.add_zero, Ptr.write, if_pos (by omega)]
  old p hout _ := by
    dsimp only
    rw [Ptr.write, if_neg]
    rintro ⟨hle, hlt⟩
    have hp := (Nat.le_div_iff_mul_le hpos).mpr hle
    refine hout ⟨hp, ?_⟩
    rw [goodPlace_linear htype hp]
    omega

theorem patched_linear (htype : type ≠ .nandFlash) (hpos : 0 < dev.eraseSize)
    (heq : rangeBlocks dev offset = neededBlocks dev count offset)
    (hsize : offset / dev.eraseSize * dev.eraseSize +
      neededBlocks dev count offset * dev.eraseSize ≤ flash.size)
    (hdata : DataOf sys type dev flash fresh buf count offset data) :
    Patched sys type dev flash buf count offset (neededBlocks dev count offset) data := by
  have htotal := writeTotal_cases hpos count offset
  rw [DataOf] at hdata
  split_ifs at hdata with hmore
  · obtain ⟨out, hread, rfl⟩ := hdata
    rw [flashReadBuf_linear htype hpos (by rw [heq]) (fun _ => hsize)] at hread
    cases hread
    apply patched_write (by rw [heq])
    intro p hp _ hlt
    have hle := (Nat.le_div_iff_mul_le hpos).mp hp
    rw [Ptr.write, if_pos (by omega), goodPlace_linear htype hp, Nat.sub_zero, Ptr.add,
      Nat.add_sub_of_le hle]
  · obtain ⟨hseek, hcount'⟩ := htotal.2 hmore
    rw [hdata]
    exact patched_self hseek hcount'

/-- A write on a device without bad blocks that is a flash device. -/
theorem sound_linear (htype : type ≠ .nandFlash) (habsent : type ≠ .absent)
    (hfit : rangeBlocks dev offset < neededBlocks dev count offset ∨
      (dev.devoff / dev.eraseSize ≤ offset / dev.eraseSize ∧
        rangeBlocks dev offset = neededBlocks dev count offset))
    (hneed : 0 < neededBlocks dev count offset)
    (h : flashWriteBuf sys type dev flash fresh buf count offset = some r)
    (hret : 0 ≤ r.ret) : WriteSound sys type dev flash buf count offset r := by
  obtain ⟨hpos, data, hof, hloop⟩ := flashWriteBuf_mtd habsent h hret
  rw [mtdLoop, if_neg htype] at hloop
  obtain hlt | ⟨hsectors, heq⟩ := hfit
  · have hneg := writeLoop_short htype (Nat.mul_lt_mul_of_pos_right hlt hpos)
      (.inl ⟨rfl, by rw [← eraseLen_eq]; omega⟩) hloop
    omega
  · rw [heq] at hloop
    obtain ⟨htop, flash', done, hrenew, rfl⟩ :=
      writeLoop_single htype (Nat.mul_pos hneed hpos) le_rfl hloop hret
    obtain ⟨hend, hflash, hdone⟩ := renewBlock_spec habsent hrenew
    have hrenewed : Renewed sys type dev flash flash' offset (neededBlocks dev count offset)
        data := by
      rw [hflash]
      exact renewed_linear htype hpos _ _ _ _
    have hpatched := patched_linear htype hpos heq hend hof
    have htotal := writeTotal_cases hpos count offset
    have hoffset := Nat.div_add_mod' offset dev.eraseSize
    have hinside : InSectors type dev count offset (offset / dev.eraseSize * dev.eraseSize)
        (offset / dev.eraseSize * dev.eraseSize +
          neededBlocks dev count offset * dev.eraseSize) := by
      rw [InSectors, if_neg habsent]
      exact ⟨Nat.mul_le_mul_right _ hsectors, htop⟩
    refine ⟨?_, ?_, ?_, ?_⟩
    · intro into
      have hfits : offset + count ≤ flash'.size := by
        rw [hrenewed.size]
        omega
      refine ⟨_, flashReadBuf_linear htype hpos le_rfl (fun _ => hfits) into,
        Ptr.bytes_congr fun j hj => ?_⟩
      have hp : offset / dev.eraseSize ≤ (offset + j) / dev.eraseSize :=
        Nat.div_le_div_right (Nat.le_add_right _ _)
      have hplace : goodPlace (GoodBlock sys type dev) dev.eraseSize (offset / dev.eraseSize)
          (offset + j) = offset % dev.eraseSize + j := by
        rw [goodPlace_linear htype hp]
        omega
      rw [Ptr.write, if_pos (by omega), Nat.sub_zero, Ptr.add,
        hrenewed.new _ hp (goodBlock_linear htype _) (by rw [hplace]; omega), hplace,
        hpatched.env j hj]
    · intro p _ hgood henv
      exact hrenewed.kept hpatched hgood henv
    · intro start length he
      obtain heq | heq := hdone _ he <;> cases heq
      exact hinside
    · intro pos first length he
      obtain heq | heq := hdone _ he <;> cases heq
      exact ⟨hinside, by rw [Nat.zero_add]; exact hpatched.len⟩

theorem envByte_linear (htype : type ≠ .nandFlash) (k : Nat) :
    EnvByte sys type dev offset k (offset + k) := by
  have hp : offset / dev.eraseSize ≤ (offset + k) / dev.eraseSize :=
    Nat.div_le_div_right (Nat.le_add_right _ _)
  have hoffset := Nat.div_add_mod' offset dev.eraseSize
  refine ⟨hp, goodBlock_linear htype _, ?_⟩
  rw [goodPlace_linear htype hp]
  omega

theorem renewBlock_absent {length processed start : Nat} {done : List FlashEvent}
    (h : renewBlock sys .absent data length processed start flash = some (flash', done)) :
    start + length ≤ flash'.size ∧
      flash'.bytes = Ptr.write (fun i => if flash.size ≤ i ∧ i < start then 0 else flash.bytes i)
        start length (data.bytes.add processed) ∧
      done = [.write start processed length] := by
  rw [renewBlock, if_neg (by simp)] at h
  simp only [bind, Option.bind_eq_some_iff, Option.some.injEq, Prod.mk.injEq] at h
  obtain ⟨flash₁, hw, rfl, rfl⟩ := h
  rw [Flash.write, if_pos rfl] at hw
  split_ifs at hw
  cases hw
  exact ⟨Nat.le_max_right _ _, rfl, rfl⟩

theorem sound_absent (hpos : 0 < dev.eraseSize)
    (h : flashWriteBuf sys .absent dev flash fresh buf count offset = some r)
    (hret : 0 ≤ r.ret) : WriteSound sys .absent dev flash buf count offset r := by
  rw [flashWriteBuf, if_pos rfl] at h
  obtain rfl | hcount := Nat.eq_zero_or_pos count
  · rw [writeLoop, if_neg (lt_irrefl 0)] at h
    cases h
    exact sound_nothing (by decide) hpos _ _
  · obtain ⟨-, flash', done, hrenew, rfl⟩ :=
      writeLoop_single (by decide) hcount le_rfl h hret
    obtain ⟨hsize, hbytes, rfl⟩ := renewBlock_absent hrenew
    refine ⟨?_, ?_, ?_, ?_⟩
    · intro into
      refine ⟨_, flashReadBuf_linear (by decide) hpos le_rfl (fun _ => hsize) into,
        Ptr.bytes_congr fun j hj => ?_⟩
      rw [Ptr.write, if_pos (by omega), Nat.sub_zero, Ptr.add, hbytes, Ptr.write,
        if_pos (by omega), Nat.add_sub_cancel_left, Ptr.add_zero]
    · intro p hp _ henv
      dsimp only
      rw [hbytes, Ptr.write, if_neg, if_neg (by omega)]
      rintro ⟨hle, hlt⟩
      obtain ⟨k, rfl⟩ := Nat.exists_eq_add_of_le hle
      exact henv k (by omega) (envByte_linear (by decide) k)
    · intro start length he
      cases List.mem_singleton.mp he
    · intro pos first length he
      cases List.mem_singleton.mp he
      exact ⟨⟨le_rfl, le_rfl⟩, (Nat.zero_add count).le⟩

end

end UBoot.Env.Fw
