import UBoot.Fat.Cluster

/-!
# The contents of a file

`get_contents` goes along the chain to the cluster at `pos`, reads a first cluster in part
through `get_contents_vfatname_block`, and then one run of consecutive clusters after the
other. Every step keeps the part of the FAT that is held true, and puts the next bytes of the
file behind those that are there.
-/

namespace UBoot.Fat

open Verification

section

variable {fs : FsData} {disk : Disk} {buf : FatBuf}

theorem Chain.getFatent (opened : Opened fs disk) (hcache : CacheOk fs disk buf)
    (chain : Chain fs disk) {i : Nat} (h : i + 1 < chain.length) :
    (getFatent fs disk buf (chain.cluster i)).1 = chain.cluster (i + 1) ∧
      CacheOk fs disk (getFatent fs disk buf (chain.cluster i)).2 := by
  have hvalid := chain.valid i (by omega)
  have hspec := getFatent_spec opened hcache (lt_of_valid hvalid) (chain.inside i (by omega))
  exact ⟨UInt32.toNat_inj.mp (hspec.1.trans (chain.linked i h)), hspec.2⟩

/-! ### The cluster at `pos` -/

theorem seek_ok (opened : Opened fs disk) (chain : Chain fs disk) {pos : Nat}
    (hpos : pos < chain.length * bytesperclust fs) (fuel : Nat) {i : Nat}
    (hi : i * bytesperclust fs ≤ pos) (hfuel : pos < (i + 1) * bytesperclust fs + fuel)
    (hcache : CacheOk fs disk buf) :
    ∃ buf', CacheOk fs disk buf' ∧
      seek fs disk pos (fuel + 1) ((i + 1) * bytesperclust fs) (chain.cluster i) buf =
        some (.found ((pos / bytesperclust fs + 1) * bytesperclust fs)
          (chain.cluster (pos / bytesperclust fs)) buf') := by
  have hclust := bytesperclust_pos opened
  induction fuel generalizing i buf with
  | zero =>
    have hdiv : pos / bytesperclust fs = i := Nat.div_eq_of_lt_le hi hfuel
    refine ⟨buf, hcache, ?_⟩
    rw [seek, if_neg (by omega), hdiv]
  | succ fuel ih =>
    rw [seek]
    split
    · rename_i hle
      have hnext : i + 1 < chain.length := by
        by_contra hend
        have := Nat.mul_le_mul_right (bytesperclust fs) (Nat.not_lt.mp hend)
        omega
      obtain ⟨hentry, hcache'⟩ := chain.getFatent opened hcache hnext
      have hmore : (i + 1) * bytesperclust fs + bytesperclust fs =
          (i + 1 + 1) * bytesperclust fs := (Nat.succ_mul ..).symm
      simp only [hentry, hmore]
      rw [if_neg (chain.valid _ hnext)]
      exact ih hle (by omega) hcache'
    · rename_i hgt
      have hdiv : pos / bytesperclust fs = i := Nat.div_eq_of_lt_le hi (Nat.not_le.mp hgt)
      exact ⟨buf, hcache, by rw [hdiv]⟩

/-! ### Runs of clusters -/

/-- A search along a run ends within the file, or where the next cluster is another one. -/
inductive MergeOk (chain : Chain fs disk) (i filesize : Nat) : Option Merged → Prop where
  | rest {k : Nat} {buf : FatBuf} (run : chain.Run i k) (hlen : i + k < chain.length)
      (hcache : CacheOk fs disk buf) (hle : filesize ≤ (k + 1) * bytesperclust fs) :
      MergeOk chain i filesize (some (.rest buf))
  | getit {k : Nat} {buf : FatBuf} (run : chain.Run i k) (hlen : i + k + 1 < chain.length)
      (hcache : CacheOk fs disk buf) (hlt : (k + 1) * bytesperclust fs < filesize) :
      MergeOk chain i filesize
        (some (.getit ((k + 1) * bytesperclust fs) (chain.cluster (i + k)) buf))

theorem merge_ok (opened : Opened fs disk) (chain : Chain fs disk) {i filesize : Nat}
    (hfile : i * bytesperclust fs + filesize ≤ chain.length * bytesperclust fs) (fuel : Nat)
    {k : Nat} (run : chain.Run i k) (hlen : i + k < chain.length)
    (hfuel : filesize ≤ (k + 1) * bytesperclust fs + fuel) (hcache : CacheOk fs disk buf) :
    MergeOk chain i filesize
      (merge fs disk filesize (fuel + 1) ((k + 1) * bytesperclust fs) (chain.cluster (i + k))
        buf) := by
  have hclust := bytesperclust_pos opened
  induction fuel generalizing k buf with
  | zero =>
    rw [merge, if_neg (by omega)]
    exact .rest run hlen hcache hfuel
  | succ fuel ih =>
    rw [merge]
    split
    · rename_i hlt
      have hnext : i + k + 1 < chain.length := by
        by_contra hend
        have := Nat.mul_le_mul_right (bytesperclust fs) (Nat.not_lt.mp hend)
        have : (i + k + 1) * bytesperclust fs =
            i * bytesperclust fs + (k + 1) * bytesperclust fs := by ring
        omega
      obtain ⟨hentry, hcache'⟩ := chain.getFatent opened hcache hnext
      have hmore : (k + 1) * bytesperclust fs + bytesperclust fs =
          (k + 1 + 1) * bytesperclust fs := (Nat.succ_mul ..).symm
      simp only [hentry, hmore]
      split
      · exact .getit run hnext hcache' hlt
      rename_i hconsecutive
      rw [if_neg (chain.valid _ hnext)]
      have hrun : chain.Run i (k + 1) := by
        intro j hj
        rcases Nat.lt_succ_iff_lt_or_eq.mp hj with hj | rfl
        · exact run j hj
        · exact UInt32.sub_eq_iff_eq_add.mp (not_not.mp hconsecutive)
      exact ih hrun hnext (by omega) hcache'
    · rename_i hge
      exact .rest run hlen hcache (Nat.not_lt.mp hge)

theorem castSize_eq {n : Nat} (h : n < 2 ^ 31) : castSize n = n :=
  Nat.mod_eq_of_lt (Nat.lt_trans h (by decide))

theorem castInt_eq {n : Nat} (h : n < 2 ^ 31) : castInt n = n := by
  have hword : ((2 ^ 32 : Nat) : Int) = 4294967296 := by norm_num
  have hlow : -(((2 ^ 32 : Nat) : Int) / 2) ≤ (n : Int) := by
    rw [hword]
    omega
  have hhigh : (n : Int) < (((2 ^ 32 : Nat) : Int) + 1) / 2 := by
    rw [hword]
    omega
  exact Int.bmod_eq_of_le hlow hhigh

theorem readClusters_ok (opened : Opened fs disk) (chain : Chain fs disk) (minalign : Nat)
    (fuel : Nat) {i filesize : Nat} (hi : i < chain.length) (hpos : 0 < filesize)
    (hfile : i * bytesperclust fs + filesize ≤ chain.length * bytesperclust fs)
    (hfuel : filesize ≤ fuel) (hlt : filesize < 2 ^ 31) (buffer : Nat) (gotsize : Int) (mem : Ptr)
    (hcache : CacheOk fs disk buf) :
    ∃ buf', CacheOk fs disk buf' ∧
      readClusters fs disk minalign fuel (chain.cluster i) filesize buffer gotsize mem buf =
        some ⟨0, gotsize + filesize, mem.write buffer filesize
          (chain.contents.add (i * bytesperclust fs)), buf'⟩ := by
  have hclust := bytesperclust_pos opened
  induction fuel generalizing i filesize buffer gotsize mem buf with
  | zero => omega
  | succ fuel ih =>
    have hrun : chain.Run i 0 := fun j hj => absurd hj (Nat.not_lt_zero j)
    have hmerge := merge_ok opened chain hfile fuel hrun hi (by omega) hcache
    rw [Nat.zero_add, Nat.one_mul, Nat.add_zero] at hmerge
    rw [readClusters]
    generalize merge fs disk filesize (fuel + 1) (bytesperclust fs) (chain.cluster i) buf =
      merged at hmerge
    cases hmerge with
    | @rest k buf' run hlen hcache' hle =>
      have hcast : castSize filesize = filesize := castSize_eq hlt
      refine ⟨buf', hcache', ?_⟩
      simp only [hcast, run.read opened hlen hle]
      exact if_neg (not_not.mpr rfl)
    | @getit k buf' run hlen hcache' hmore =>
      obtain ⟨hentry, hcache''⟩ := chain.getFatent opened hcache' hlen
      have hnext : (i + k + 1) * bytesperclust fs =
          i * bytesperclust fs + (k + 1) * bytesperclust fs := by ring
      have hpositive : 0 < (k + 1) * bytesperclust fs := Nat.mul_pos (Nat.succ_pos k) hclust
      have hsplit : (k + 1) * bytesperclust fs + (filesize - (k + 1) * bytesperclust fs) =
          filesize := by omega
      have hrest : (i + k + 1) * bytesperclust fs +
          (filesize - (k + 1) * bytesperclust fs) ≤ chain.length * bytesperclust fs := by
        omega
      obtain ⟨buf'', hlast, hread⟩ := ih hlen (by omega) hrest (by omega) (by omega)
        (buffer + (k + 1) * bytesperclust fs) (gotsize + ((k + 1) * bytesperclust fs : Nat))
        (mem.write buffer ((k + 1) * bytesperclust fs)
          (chain.contents.add (i * bytesperclust fs))) hcache''
      have hcast : castSize ((k + 1) * bytesperclust fs) = (k + 1) * bytesperclust fs :=
        castSize_eq (by omega)
      have hint : castInt ((k + 1) * bytesperclust fs) = ((k + 1) * bytesperclust fs : Nat) :=
        castInt_eq (by omega)
      simp only [hcast, hint, run.read opened (by omega) (Nat.le_refl _), hentry]
      rw [if_neg (not_not.mpr rfl), if_neg (chain.valid _ hlen)]
      refine ⟨buf'', hlast, hread.trans ?_⟩
      rw [hnext, ← Ptr.add_add, Ptr.write_write, hsplit, Int.add_assoc, ← Int.natCast_add,
        hsplit]

/-! ### The whole read -/

/-- The end of a read, for `maxsize` 0 the end of the file. -/
def readEnd (size pos maxsize : Nat) : Nat := if maxsize = 0 then size else min size (pos + maxsize)

theorem filesize_eq {size pos maxsize : Nat} :
    (if maxsize > 0 ∧ size > pos + maxsize then pos + maxsize else size) =
      readEnd size pos maxsize := by
  rw [readEnd]
  split_ifs <;> omega

/-- The bytes of the first cluster from `pos` on go through `get_contents_vfatname_block`. -/
theorem write_part (mem block src : Ptr) (buffer : Nat) {pos size : Nat} (h : pos ≤ size) :
    mem.write buffer (size - pos) ((block.write 0 size src).add pos) =
      mem.write buffer (size - pos) (src.add pos) := by
  apply Ptr.write_congr
  intro i hi
  rw [Ptr.add, Ptr.add, Ptr.write, if_pos (by omega), Nat.sub_zero]

/-- `get_contents` reads the bytes of the file from `pos` on and counts them, however the chain
lies on the device and whichever part of the FAT is held, where the first cluster fits
`get_contents_vfatname_block` when it is read in part, and `pos + maxsize` is a `loff_t`. -/
theorem getContents_reads (opened : Opened fs disk) (chain : Chain fs disk) (dentptr : DirEntry)
    (hfirst : 0 < chain.length → START fs dentptr = chain.cluster 0)
    (hsize : dentptr.size.toNat < 2 ^ 31)
    (hchain : dentptr.size.toNat ≤ chain.length * bytesperclust fs) (pos maxsize : Nat)
    (hsum : pos < dentptr.size.toNat → pos + maxsize < 2 ^ 63)
    (hblock : pos % bytesperclust fs ≠ 0 →
      min (readEnd dentptr.size.toNat pos maxsize - pos / bytesperclust fs * bytesperclust fs)
        (bytesperclust fs) ≤ MAX_CLUSTSIZE)
    (hcache : CacheOk fs disk buf) (minalign buffer : Nat) (block mem : Ptr) {fuel : Nat}
    (hfuel : dentptr.size.toNat < fuel) :
    ∃ buf', CacheOk fs disk buf' ∧
      getContents fs disk minalign fuel dentptr pos maxsize buffer block mem buf =
        some ⟨0, (readEnd dentptr.size.toNat pos maxsize - pos : Nat),
          mem.write buffer (readEnd dentptr.size.toNat pos maxsize - pos)
            (chain.contents.add pos), buf'⟩ := by
  have hclust := bytesperclust_pos opened
  simp only [getContents]
  by_cases hpast : pos ≥ dentptr.size.toNat
  · have hnone : readEnd dentptr.size.toNat pos maxsize - pos = 0 := by
      rw [readEnd]
      split_ifs <;> omega
    rw [if_pos hpast, hnone, Ptr.write_zero]
    exact ⟨buf, hcache, rfl⟩
  have hend : pos < readEnd dentptr.size.toNat pos maxsize ∧
      readEnd dentptr.size.toNat pos maxsize ≤ dentptr.size.toNat := by
    rw [readEnd]
    split_ifs <;> omega
  rw [if_neg hpast, if_neg (by omega), filesize_eq]
  generalize readEnd dentptr.size.toNat pos maxsize = stop at hend hblock ⊢
  obtain ⟨fuel, rfl⟩ : ∃ f, fuel = f + 1 := ⟨fuel - 1, by omega⟩
  have hlength : 0 < chain.length := by
    by_contra hzero
    rw [Nat.eq_zero_of_not_pos hzero, Nat.zero_mul] at hchain
    omega
  obtain ⟨buf', hcache', hseek⟩ := seek_ok opened chain (by omega : pos < _) fuel (i := 0)
    (by omega) (by omega) hcache
  rw [Nat.zero_add, Nat.one_mul, ← hfirst hlength, Nat.succ_mul] at hseek
  have hsplit := Nat.div_add_mod' pos (bytesperclust fs)
  have hpart := Nat.mod_lt pos hclust
  have hindex : pos / bytesperclust fs < chain.length := by
    apply Nat.lt_of_mul_lt_mul_right (a := bytesperclust fs)
    omega
  simp only [hseek, Nat.add_sub_cancel]
  have hrest : pos - pos / bytesperclust fs * bytesperclust fs = pos % bytesperclust fs := by
    omega
  rw [hrest]
  generalize hq : pos / bytesperclust fs = q at *
  generalize hr : pos % bytesperclust fs = r at *
  by_cases hzero : r = 0
  · rw [if_pos hzero]
    have hstart : q * bytesperclust fs = pos := by omega
    obtain ⟨buf'', hlast, hread⟩ := readClusters_ok opened chain minalign (fuel + 1) hindex
      (by omega : 0 < stop - q * bytesperclust fs) (by omega) (by omega) (by omega) buffer 0 mem
      hcache'
    refine ⟨buf'', hlast, hread.trans ?_⟩
    rw [hstart, Int.zero_add]
  rw [if_neg hzero, if_neg (Nat.not_lt.mpr (hblock hzero))]
  generalize hfirst' : min (stop - q * bytesperclust fs) (bytesperclust fs) = first at hblock ⊢
  have hmax : first < 2 ^ 31 := Nat.lt_of_le_of_lt (hblock hzero) (by decide)
  have hle : r ≤ first := by omega
  have hrun : chain.Run q 0 := fun j hj => absurd hj (Nat.not_lt_zero j)
  have hsrc : (chain.contents.add (q * bytesperclust fs)).add r = chain.contents.add pos := by
    rw [Ptr.add_add, hsplit]
  have hgot := hrun.read opened hindex (by omega : first ≤ (0 + 1) * bytesperclust fs) minalign
    block 0
  simp only [castSize_eq hmax, hgot, write_part mem block _ buffer hle, hsrc]
  rw [if_neg (not_not.mpr rfl)]
  by_cases hdone : stop - q * bytesperclust fs - first = 0
  · have hcount : first - r = stop - pos := by omega
    rw [if_pos hdone, hcount]
    exact ⟨buf', hcache', rfl⟩
  · have hfull : first = bytesperclust fs := by omega
    have hstart : (q + 1) * bytesperclust fs = pos + (first - r) := by
      rw [Nat.succ_mul]
      omega
    have hnext : q + 1 < chain.length := by
      apply Nat.lt_of_mul_lt_mul_right (a := bytesperclust fs)
      omega
    obtain ⟨hentry, hcache''⟩ := chain.getFatent opened hcache' hnext
    have hcount : first - r + (stop - q * bytesperclust fs - first) = stop - pos := by omega
    obtain ⟨buf'', hlast, hread⟩ := readClusters_ok opened chain minalign (fuel + 1) hnext
      (Nat.pos_of_ne_zero hdone) (by omega) (by omega) (by omega) (buffer + (first - r))
      ((first - r : Nat) : Int) (mem.write buffer (first - r) (chain.contents.add pos)) hcache''
    rw [if_neg hdone]
    simp only [hentry]
    rw [if_neg (chain.valid _ hnext)]
    refine ⟨buf'', hlast, hread.trans ?_⟩
    rw [hstart, ← Ptr.add_add, Ptr.write_write, ← Int.natCast_add, hcount]

end

/-! ### Two volumes -/

/-- A FAT with entries of 16 bits in the second block. Cluster 2 leads to cluster 5. -/
def smallDisk : Disk where
  start := 0
  lba := 16
  blksz := 512
  bytes i := if i = 516 then 5 else if 512 ≤ i ∧ i < 1024 then 0 else UInt8.ofNat i

def smallFs : FsData := ⟨16, 1, 1, 2, 512, 1, 1⟩

theorem smallFs_opened : Opened smallFs smallDisk where
  fatsize := .inr (.inl rfl)
  sectSize := rfl
  sect_pos := by decide
  sect_four := by decide
  clust_pos := by decide
  lba := by decide
  fat := by decide

def smallChain : Chain smallFs smallDisk where
  length := 2
  cluster i := if i = 0 then 2 else 5
  valid := by decide
  inside i hi := by
    obtain rfl | rfl : i = 0 ∨ i = 1 := by omega
    · exact (by decide : 2 * 2 + 2 ≤ 1 * 512)
    · exact (by decide : 2 * 5 + 2 ≤ 1 * 512)
  onDisk i hi := by
    obtain rfl | rfl : i = 0 ∨ i = 1 := by omega
    · exact ⟨by decide, by decide⟩
    · exact ⟨by decide, by decide⟩
  linked i hi := by
    obtain rfl : i = 0 := by omega
    decide

/-- A file in two clusters that are not consecutive, read from within the first one. -/
theorem getContents_reads_fragmented :
    ∃ buf', CacheOk smallFs smallDisk buf' ∧
      getContents smallFs smallDisk 64 701 ⟨0, 2, 700⟩ 100 0 4096 (fun _ => 0) (fun _ => 0)
        ⟨fun _ => 0, -1⟩ =
          some ⟨0, (600 : Nat), Ptr.write (fun _ => 0) 4096 600 (smallChain.contents.add 100),
            buf'⟩ :=
  getContents_reads smallFs_opened smallChain ⟨0, 2, 700⟩ (fun _ => rfl) (by decide) (by decide)
    100 0 (by decide) (by decide) (cacheOk_init _ _ _) 64 4096 (fun _ => 0) (fun _ => 0) (by decide)

/-- A volume with blocks of 1024 bytes and clusters of 128 of them. -/
def largeDisk : Disk := ⟨0, 1024, 1024, fun _ => 0⟩

def largeFs : FsData := ⟨16, 1, 1, 2, 1024, 128, 0⟩

theorem largeFs_opened : Opened largeFs largeDisk where
  fatsize := .inr (.inl rfl)
  sectSize := rfl
  sect_pos := by decide
  sect_four := by decide
  clust_pos := by decide
  lba := by decide
  fat := by decide

/-- The chain of a file of one cluster. -/
def largeChain : Chain largeFs largeDisk where
  length := 1
  cluster _ := 2
  valid := by decide
  inside _ _ := (by decide : 2 * 2 + 2 ≤ 1 * 1024)
  onDisk _ _ := ⟨by decide, by decide⟩
  linked i hi := absurd hi (by omega)

/-- The first cluster of a valid chain is larger than `get_contents_vfatname_block`, and the sum
of `pos` and the largest `maxsize` is no `loff_t`. -/
theorem large_cluster :
    (Opened largeFs largeDisk ∧ START largeFs ⟨0, 2, 131072⟩ = largeChain.cluster 0 ∧
      131072 ≤ largeChain.length * bytesperclust largeFs ∧
      CacheOk largeFs largeDisk ⟨fun _ => 0, -1⟩ ∧
      ∀ fuel, getContents largeFs largeDisk 64 fuel ⟨0, 2, 131072⟩ 1 0 4096 (fun _ => 0)
        (fun _ => 0) ⟨fun _ => 0, -1⟩ = none) ∧
    ∀ fuel, getContents smallFs smallDisk 64 fuel ⟨0, 2, 700⟩ 100 (2 ^ 63 - 1) 4096 (fun _ => 0)
      (fun _ => 0) ⟨fun _ => 0, -1⟩ = none := by
  refine ⟨⟨largeFs_opened, rfl, by decide, cacheOk_init _ _ _, fun fuel => ?_⟩, fun fuel => ?_⟩
  · cases fuel with
    | zero => rfl
    | succ fuel => rfl
  · rfl

end UBoot.Fat
