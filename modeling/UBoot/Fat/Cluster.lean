import UBoot.Fat.Table

/-!
# The clusters of a file

A chain of clusters and the bytes that stand for it on the device. Consecutive clusters lie
one behind the other, so that `get_cluster` reads a run of them at once.
-/

namespace UBoot.Fat

open Verification

section

variable (fs : FsData) (disk : Disk)

/-- The first sector of a cluster, from the start of the partition on. -/
def sector (c : UInt32) : Int := fs.dataBegin.toInt + c.toNat * fs.clustSize.toNat

/-- The cluster lies on the device. -/
def OnDisk (c : UInt32) : Prop :=
  0 ≤ sector fs c ∧ disk.start.toNat + sector fs c + fs.clustSize.toNat ≤ disk.lba

/-- The first byte of a cluster on the device. -/
def clusterStart (c : UInt32) : Nat := (disk.start.toNat + (sector fs c).toNat) * disk.blksz

/-- A valid chain of clusters. -/
structure Chain where
  length : Nat
  cluster : Nat → UInt32
  valid : ∀ i < length, ¬CHECK_CLUST fs (cluster i)
  inside : ∀ i < length, EntryInside fs (cluster i).toNat
  onDisk : ∀ i < length, OnDisk fs disk (cluster i)
  linked : ∀ i, i + 1 < length → fatEntry fs disk (cluster i).toNat = (cluster (i + 1)).toNat

variable {fs disk}

/-- The bytes of the clusters one behind the other. -/
def Chain.contents (chain : Chain fs disk) : Ptr := fun i =>
  disk.bytes (clusterStart fs disk (chain.cluster (i / bytesperclust fs)) + i % bytesperclust fs)

/-- The cluster at `i` and the `k` next ones are consecutive. -/
def Chain.Run (chain : Chain fs disk) (i k : Nat) : Prop :=
  ∀ j < k, chain.cluster (i + j + 1) = chain.cluster (i + j) + 1

end

/-! ### Reading sectors -/

section

variable {fs : FsData} {disk : Disk}

theorem diskRead_ok {block nrBlocks : UInt32} (hlba : disk.lba < 2 ^ 32)
    (h : disk.start.toNat + block.toNat + nrBlocks.toNat ≤ disk.lba) (mem : Ptr) (buf : Nat) :
    diskRead disk block nrBlocks mem buf = (nrBlocks.toNat, mem.write buf
      (nrBlocks.toNat * disk.blksz)
        (disk.bytes.add ((disk.start.toNat + block.toNat) * disk.blksz))) := by
  have hblk : (disk.start + block).toNat = disk.start.toNat + block.toNat := by
    rw [UInt32.toNat_add]
    omega
  simp only [diskRead]
  rw [hblk, if_pos h]

/-- A copy of a buffer that has just been filled. -/
theorem write_filled (mem tmp src : Ptr) (buffer : Nat) {n size : Nat} (h : n ≤ size) :
    mem.write buffer n (tmp.write 0 size src) = mem.write buffer n src := by
  apply Ptr.write_congr
  intro i hi
  rw [Ptr.write, if_pos (by omega), Nat.sub_zero]

theorem readSectors_ok (opened : Opened fs disk) (left : Nat) {startsect : UInt32}
    (h : disk.start.toNat + startsect.toNat + left ≤ disk.lba) (mem : Ptr) (buffer : Nat) :
    readSectors fs disk left startsect mem buffer = (0, mem.write buffer (left * disk.blksz)
      (disk.bytes.add ((disk.start.toNat + startsect.toNat) * disk.blksz))) := by
  have hlba := opened.lba
  induction left generalizing startsect mem buffer with
  | zero => rw [readSectors, Nat.zero_mul, Ptr.write_zero]
  | succ left ih =>
    have hone : (1 : UInt32).toNat = 1 := rfl
    have hroom : disk.start.toNat + startsect.toNat + (1 : UInt32).toNat ≤ disk.lba := by
      omega
    have hread := diskRead_ok hlba hroom (fun _ => 0) 0
    have hnext : (startsect + 1).toNat = startsect.toNat + 1 := by
      rw [UInt32.toNat_add, hone]
      omega
    simp only [readSectors]
    rw [hread, if_neg (by simp), ih (by omega), opened.sectSize, hone, Nat.one_mul,
      write_filled _ _ _ _ (Nat.le_refl _), hnext]
    have hsrc : disk.bytes.add ((disk.start.toNat + (startsect.toNat + 1)) * disk.blksz) =
        (disk.bytes.add ((disk.start.toNat + startsect.toNat) * disk.blksz)).add disk.blksz := by
      rw [Ptr.add_add]
      congr 1
      ring
    rw [hsrc, Ptr.write_write, Nat.succ_mul, Nat.add_comm disk.blksz]

/-- `get_cluster` reads the sectors from the first one of the cluster on. -/
theorem getCluster_ok (opened : Opened fs disk) {c : UInt32} {n size : Nat}
    (h : disk.start.toNat + (startsect fs c).toNat + n ≤ disk.lba) (hsize : size ≤ n * disk.blksz)
    (minalign : Nat) (mem : Ptr) (buffer : Nat) :
    getCluster fs disk minalign c mem buffer size = (0, mem.write buffer size
      (disk.bytes.add ((disk.start.toNat + (startsect fs c).toNat) * disk.blksz))) := by
  have hlba := opened.lba
  have hpos := opened.sect_pos
  have hone : (1 : UInt32).toNat = 1 := rfl
  have hsplit : size / disk.blksz * disk.blksz + size % disk.blksz = size := Nat.div_add_mod' ..
  have hidx : size / disk.blksz ≤ n := by
    have := Nat.div_le_div_right (c := disk.blksz) hsize
    rwa [Nat.mul_div_cancel _ hpos] at this
  have hofNat : (UInt32.ofNat (size / disk.blksz)).toNat = size / disk.blksz := by
    rw [UInt32.toNat_ofNat']
    exact Nat.mod_eq_of_lt (Nat.lt_of_le_of_lt hidx (by omega))
  generalize hsrc : disk.bytes.add ((disk.start.toNat + (startsect fs c).toNat) * disk.blksz) =
    src
  have hwhole : (if buffer &&& (minalign - 1) ≠ 0 then
        readSectors fs disk (size / disk.blksz) (startsect fs c) mem buffer
      else
        ((if (diskRead disk (startsect fs c) (UInt32.ofNat (size / disk.blksz)) mem buffer).1 ≠
            size / disk.blksz then -1 else 0),
          (diskRead disk (startsect fs c) (UInt32.ofNat (size / disk.blksz)) mem buffer).2)) =
      ((0 : Int), mem.write buffer (size / disk.blksz * disk.blksz) src) := by
    split
    · rw [readSectors_ok opened _ (by omega), hsrc]
    · rw [diskRead_ok hlba (by omega), hofNat, hsrc, if_neg (by simp)]
  simp only [getCluster, opened.sectSize]
  rw [hwhole, if_neg (by simp)]
  by_cases hrest : size % disk.blksz = 0
  · rw [if_neg (by simp [hrest])]
    rw [hrest, Nat.add_zero] at hsplit
    rw [hsplit]
  · have hlast : size / disk.blksz < n := by
      by_contra hge
      have := Nat.mul_le_mul_right disk.blksz (Nat.not_lt.mp hge)
      omega
    have hnext : (startsect fs c + UInt32.ofNat (size / disk.blksz)).toNat =
        (startsect fs c).toNat + size / disk.blksz := by
      rw [UInt32.toNat_add, hofNat]
      omega
    have hroom : disk.start.toNat + (startsect fs c + UInt32.ofNat (size / disk.blksz)).toNat +
        (1 : UInt32).toNat ≤ disk.lba := by omega
    have hrestSrc : disk.bytes.add ((disk.start.toNat + ((startsect fs c).toNat +
        size / disk.blksz)) * disk.blksz) = src.add (size / disk.blksz * disk.blksz) := by
      rw [← hsrc, Ptr.add_add]
      congr 1
      ring
    have hle : size % disk.blksz ≤ (1 : UInt32).toNat * disk.blksz := by
      rw [hone, Nat.one_mul]
      exact (Nat.mod_lt _ hpos).le
    rw [if_pos hrest, diskRead_ok hlba hroom, if_neg (by simp), write_filled _ _ _ _ hle, hnext,
      hrestSrc, Ptr.write_write, hsplit]

end

/-! ### Runs of clusters -/

section

variable {fs : FsData} {disk : Disk}

theorem one_lt_of_valid {c : UInt32} (h : ¬CHECK_CLUST fs c) : 1 < c.toNat := by
  have hle := not_or.mp h |>.1
  rw [UInt32.le_iff_toNat_le, show (1 : UInt32).toNat = 1 from rfl] at hle
  omega

theorem lt_of_valid {c : UInt32} (h : ¬CHECK_CLUST fs c) : c.toNat < 2 ^ 28 := by
  have hge := not_or.mp h |>.2
  rw [ge_iff_le, UInt32.le_iff_toNat_le] at hge
  have hbound : (if fs.fatsize ≠ 32 then (if fs.fatsize ≠ 16 then 0xff0 else 0xfff0)
      else 0xffffff0 : UInt32).toNat < 2 ^ 28 := by
    split_ifs <;> decide
  omega

/-- The sector that is computed in 32 bits, also where `data_begin` is negative. -/
theorem startsect_toNat (opened : Opened fs disk) {c : UInt32} (hvalid : ¬CHECK_CLUST fs c)
    (hdisk : OnDisk fs disk c) : (startsect fs c).toNat = (sector fs c).toNat := by
  have hlba := opened.lba
  have hc := one_lt_of_valid hvalid
  have hpos : c > 0 := by
    rw [gt_iff_lt, UInt32.lt_iff_toNat_lt, show (0 : UInt32).toNat = 0 from rfl]
    omega
  obtain ⟨hnonneg, hend⟩ := hdisk
  have hbegin : fs.dataBegin.toInt = fs.dataBegin.toUInt32.toNat ∨
      fs.dataBegin.toInt = (fs.dataBegin.toUInt32.toNat : Int) - 2 ^ 32 := by
    rw [← Int32.toInt_toBitVec, BitVec.toInt_eq_toNat_cond]
    split
    · exact .inl rfl
    · exact .inr rfl
  have hcast : (c.toNat : Int) * fs.clustSize.toNat = (c.toNat * fs.clustSize.toNat : Nat) :=
    (Nat.cast_mul ..).symm
  rw [sector, hcast] at hnonneg hend ⊢
  rw [startsect, if_pos hpos, UInt32.toNat_add, UInt32.toNat_mul, UInt16.toNat_toUInt32]
  omega

theorem bytesperclust_eq (opened : Opened fs disk) :
    bytesperclust fs = fs.clustSize.toNat * disk.blksz := by
  rw [bytesperclust, opened.sectSize]

theorem bytesperclust_pos (opened : Opened fs disk) : 0 < bytesperclust fs := by
  rw [bytesperclust_eq opened]
  exact Nat.mul_pos opened.clust_pos opened.sect_pos

/-- The numbers of a run do not wrap. -/
theorem Chain.Run.toNat {chain : Chain fs disk} {i k j : Nat} (run : chain.Run i k)
    (hlen : i + k < chain.length) (hj : j ≤ k) :
    (chain.cluster (i + j)).toNat = (chain.cluster i).toNat + j := by
  induction j with
  | zero => rfl
  | succ j ih =>
    have hbound := lt_of_valid (chain.valid (i + j) (by omega))
    have hnext := run j (by omega)
    rw [← Nat.add_assoc, hnext, UInt32.toNat_add, ih (by omega),
      show (1 : UInt32).toNat = 1 from rfl]
    rw [ih (by omega)] at hbound
    omega

theorem Chain.Run.sector {chain : Chain fs disk} {i k j : Nat} (run : chain.Run i k)
    (hlen : i + k < chain.length) (hj : j ≤ k) :
    sector fs (chain.cluster (i + j)) =
      sector fs (chain.cluster i) + (j * fs.clustSize.toNat : Nat) := by
  rw [Fat.sector, Fat.sector, run.toNat hlen hj]
  push_cast
  ring

theorem Chain.Run.start (opened : Opened fs disk) {chain : Chain fs disk} {i k j : Nat}
    (run : chain.Run i k) (hlen : i + k < chain.length) (hj : j ≤ k) :
    clusterStart fs disk (chain.cluster (i + j)) =
      clusterStart fs disk (chain.cluster i) + j * bytesperclust fs := by
  have hnonneg := (chain.onDisk i (by omega)).1
  have hsector : (Fat.sector fs (chain.cluster (i + j))).toNat =
      (Fat.sector fs (chain.cluster i)).toNat + j * fs.clustSize.toNat := by
    rw [run.sector hlen hj]
    omega
  rw [clusterStart, clusterStart, hsector, bytesperclust_eq opened]
  ring

/-- The bytes of a run lie one behind the other on the device. -/
theorem Chain.Run.contents (opened : Opened fs disk) {chain : Chain fs disk} {i k x : Nat}
    (run : chain.Run i k) (hlen : i + k < chain.length) (hx : x < (k + 1) * bytesperclust fs) :
    chain.contents (i * bytesperclust fs + x) =
      disk.bytes (clusterStart fs disk (chain.cluster i) + x) := by
  have hpos := bytesperclust_pos opened
  have hj : x / bytesperclust fs ≤ k := Nat.lt_succ_iff.mp (Nat.div_lt_of_lt_mul (by
    rwa [Nat.mul_comm]))
  have hdiv : (i * bytesperclust fs + x) / bytesperclust fs = i + x / bytesperclust fs := by
    rw [Nat.add_comm, Nat.add_mul_div_right _ _ hpos, Nat.add_comm]
  have hmod : (i * bytesperclust fs + x) % bytesperclust fs = x % bytesperclust fs :=
    Nat.mul_add_mod_self_right ..
  have hsplit := Nat.div_add_mod' x (bytesperclust fs)
  rw [Chain.contents, hdiv, hmod, run.start opened hlen hj, Nat.add_assoc, hsplit]

/-- `get_cluster` reads a run of clusters, or the first bytes of it. -/
theorem Chain.Run.read (opened : Opened fs disk) {chain : Chain fs disk} {i k size : Nat}
    (run : chain.Run i k) (hlen : i + k < chain.length)
    (hsize : size ≤ (k + 1) * bytesperclust fs) (minalign : Nat) (mem : Ptr) (buffer : Nat) :
    getCluster fs disk minalign (chain.cluster i) mem buffer size =
      (0, mem.write buffer size (chain.contents.add (i * bytesperclust fs))) := by
  have hstart := startsect_toNat opened (chain.valid i (by omega)) (chain.onDisk i (by omega))
  have hnonneg := (chain.onDisk i (by omega)).1
  have hroom : disk.start.toNat + (startsect fs (chain.cluster i)).toNat +
      (k + 1) * fs.clustSize.toNat ≤ disk.lba := by
    have hlast := (chain.onDisk (i + k) hlen).2
    rw [run.sector hlen (Nat.le_refl k)] at hlast
    rw [hstart, Nat.succ_mul]
    omega
  have hbytes : size ≤ (k + 1) * fs.clustSize.toNat * disk.blksz := by
    rwa [bytesperclust_eq opened, ← Nat.mul_assoc] at hsize
  rw [getCluster_ok opened hroom hbytes, hstart]
  congr 1
  apply Ptr.write_congr
  intro x hx
  exact (run.contents opened hlen (Nat.lt_of_lt_of_le hx hsize)).symm

end

end UBoot.Fat
