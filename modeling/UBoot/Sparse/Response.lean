import UBoot.Sparse.Inside

/-!
# What `write_sparse_image` tells the host

Every error returns at once with one report. Behind the loop a wrong number of blocks is
reported without a return, so that `fastboot_okay` follows. The blocks are counted in 32
bits, and those of a FILL chunk are computed back from its size in bytes.
-/

namespace UBoot.Sparse

open Verification

section

variable (info : Info) (image : Ptr) (env : Env) (h : Header)

/-- All chunks are processed without an error. -/
def AllDone : Nat → Vars → Prop
  | 0, _ => True
  | chunks + 1, s => Done info image env h s ∧ AllDone chunks (s.next info image h)

/-- Nothing is divided by zero before an error. -/
def Divides : Nat → Vars → Prop
  | 0, _ => True
  | chunks + 1, s =>
    info.blksz ≠ 0 ∧ (Done info image env h s →
      (chunkType image s.data = CHUNK_TYPE_FILL → h.blkSz ≠ 0) ∧
        Divides chunks (s.next info image h))

/-- The blocks that the chunks cover, without a wrap. -/
def covered : Nat → Spot → Nat
  | 0, _ => 0
  | chunks + 1, p => (chunkSz image p.data).toNat + covered chunks (p.next info image h)

/-- The bytes of every FILL chunk have a size of 32 bits. -/
def FillsFit : Nat → Spot → Prop
  | 0, _ => True
  | chunks + 1, p =>
    (chunkType image p.data = CHUNK_TYPE_FILL →
      h.blkSz.toNat * (chunkSz image p.data).toNat < 2 ^ 32) ∧
        FillsFit chunks (p.next info image h)

/-- The blocks that the chunks are counted for, without a wrap. -/
def countedBlocks : Nat → Spot → Nat
  | 0, _ => 0
  | chunks + 1, p => (p.counted image h).toNat + countedBlocks chunks (p.next info image h)

inductive RunEnded (chunks : Nat) (s : Vars) : Outcome → Prop where
  | next {s' : Vars} (divides : Divides info image env h chunks s)
      (done : AllDone info image env h chunks s) (total : s'.totalBlocks =
        s.totalBlocks + UInt32.ofNat (countedBlocks info image h chunks s.spot)) :
      RunEnded chunks s (.next s')
  | hang (zero : ¬Divides info image env h chunks s) : RunEnded chunks s .hang
  | stop {why : String} (divides : Divides info image env h chunks s)
      (refused : ¬AllDone info image env h chunks s) :
      RunEnded chunks s (.stop why)

end

section

variable {info : Info} {image : Ptr} {env : Env} {h : Header} {s : Vars}

theorem chunkRun_succ_of_next {chunks : Nat} {s' : Vars}
    (hstep : (chunkStep info image env h s).2 = .next s') :
    (chunkRun info image env h (chunks + 1) s).2 = (chunkRun info image env h chunks s').2 := by
  simp only [chunkRun, hstep]

theorem chunkRun_succ_of_stop {chunks : Nat} {why : String}
    (hstep : (chunkStep info image env h s).2 = .stop why) :
    (chunkRun info image env h (chunks + 1) s).2 = .stop why := by
  simp only [chunkRun, hstep]

theorem chunkRun_succ_of_hang {chunks : Nat} (hstep : (chunkStep info image env h s).2 = .hang) :
    (chunkRun info image env h (chunks + 1) s).2 = .hang := by
  simp only [chunkRun, hstep]

/-- How the loop ends, by induction over the chunks that are left. -/
theorem chunkRun_ended (chunks : Nat) (s : Vars) :
    RunEnded info image env h chunks s (chunkRun info image env h chunks s).2 := by
  induction chunks generalizing s with
  | zero =>
    have hrun : (chunkRun info image env h 0 s).2 = .next s := rfl
    rw [hrun]
    exact .next trivial trivial (UInt32.add_zero _).symm
  | succ chunks ih =>
    by_cases hblksz : info.blksz = 0
    · rw [chunkRun_succ_of_hang (chunkStep_hang hblksz)]
      exact .hang fun divides => divides.1 hblksz
    have hended : Ended info image env h s (chunkStep info image env h s).2 :=
      chunkStep_ended hblksz
    cases hstep : (chunkStep info image env h s).2 with
    | next s' =>
      rw [hstep] at hended
      rw [chunkRun_succ_of_next hstep]
      cases hended with
      | next hdone hfill =>
        have hrest := ih (s.next info image h)
        generalize (chunkRun info image env h chunks (s.next info image h)).2 = o at hrest ⊢
        cases hrest with
        | next divides done total =>
          refine .next ⟨hblksz, fun _ => ⟨hfill, divides⟩⟩ ⟨hdone, done⟩ ?_
          rw [total, countedBlocks, UInt32.ofNat_add, UInt32.ofNat_toNat,
            ← UInt32.add_assoc]
          rfl
        | hang zero => exact .hang fun divides => zero (divides.2 hdone).2
        | stop divides refused =>
          exact .stop ⟨hblksz, fun _ => ⟨hfill, divides⟩⟩ fun done => refused done.2
    | stop why =>
      rw [hstep] at hended
      rw [chunkRun_succ_of_stop hstep]
      cases hended with
      | stop refused why =>
        exact .stop ⟨hblksz, fun done => absurd done refused⟩ fun done => refused done.1
    | hang =>
      rw [hstep] at hended
      rw [chunkRun_succ_of_hang hstep]
      cases hended with
      | hang hdone fill zero => exact .hang fun divides => (divides.2 hdone).1 fill zero

/-! ### The blocks that are counted -/

theorem chunkDataSz_toNat (data : Nat) : (chunkDataSz image h data).toNat =
    h.blkSz.toNat * (chunkSz image data).toNat % 2 ^ 32 := UInt32.toNat_mul ..

/-- A product that wraps gives too few blocks. -/
theorem wrapped_div (b c : Nat) :
    b * c % 2 ^ 32 / b ≤ c ∧ (b ≠ 0 → (b * c % 2 ^ 32 / b = c ↔ b * c < 2 ^ 32)) := by
  constructor
  · exact Nat.div_le_of_le_mul (Nat.mod_le _ _)
  · intro hzero
    constructor
    · intro heq
      by_contra hwrap
      have hmod : b * c % 2 ^ 32 + 2 ^ 32 ≤ b * c := by
        have := Nat.mod_add_div (b * c) (2 ^ 32)
        have : 0 < b * c / 2 ^ 32 := Nat.div_pos (Nat.not_lt.mp hwrap) (by decide)
        omega
      have hback : b * c ≤ b * c % 2 ^ 32 :=
        calc b * c = b * (b * c % 2 ^ 32 / b) := by rw [heq]
          _ ≤ b * c % 2 ^ 32 := Nat.mul_div_le ..
      omega
    · intro hlt
      rw [Nat.mod_eq_of_lt hlt, Nat.mul_div_cancel_left _ (Nat.pos_of_ne_zero hzero)]

theorem counted_le (p : Spot) : (p.counted image h).toNat ≤ (chunkSz image p.data).toNat := by
  rw [Spot.counted]
  split
  · rw [UInt32.toNat_div, chunkDataSz_toNat]
    exact (wrapped_div _ _).1
  · exact Nat.le_refl _

theorem counted_eq_iff (p : Spot)
    (hzero : chunkType image p.data = CHUNK_TYPE_FILL → h.blkSz ≠ 0) :
    (p.counted image h).toNat = (chunkSz image p.data).toNat ↔
      (chunkType image p.data = CHUNK_TYPE_FILL →
        h.blkSz.toNat * (chunkSz image p.data).toNat < 2 ^ 32) := by
  rw [Spot.counted]
  split
  · rename_i htype
    have hpos : h.blkSz.toNat ≠ 0 := fun h0 => hzero htype (UInt32.toNat_inj.mp h0)
    rw [UInt32.toNat_div, chunkDataSz_toNat, (wrapped_div _ _).2 hpos]
    exact ⟨fun hlt _ => hlt, fun hlt => hlt htype⟩
  · rename_i htype
    exact ⟨fun _ hfill => absurd hfill htype, fun _ => rfl⟩

theorem countedBlocks_le (chunks : Nat) (p : Spot) :
    countedBlocks info image h chunks p ≤ covered info image h chunks p := by
  induction chunks generalizing p with
  | zero => exact Nat.le_refl _
  | succ chunks ih => exact Nat.add_le_add (counted_le p) (ih _)

/-- Chunks that are processed are counted for what they cover when no FILL chunk wraps. -/
theorem countedBlocks_eq_iff {chunks : Nat} (divides : Divides info image env h chunks s)
    (done : AllDone info image env h chunks s) :
    countedBlocks info image h chunks s.spot = covered info image h chunks s.spot ↔
      FillsFit info image h chunks s.spot := by
  induction chunks generalizing s with
  | zero => exact ⟨fun _ => trivial, fun _ => rfl⟩
  | succ chunks ih =>
    obtain ⟨hfill, hrest⟩ := divides.2 done.1
    have hle : (s.spot.counted image h).toNat ≤ (chunkSz image s.spot.data).toNat :=
      counted_le s.spot
    have hles : countedBlocks info image h chunks (s.spot.next info image h) ≤
        covered info image h chunks (s.spot.next info image h) := countedBlocks_le ..
    have heq := counted_eq_iff s.spot hfill
    have hnext := ih hrest done.2
    rw [Vars.next_spot] at hnext
    rw [countedBlocks, covered, FillsFit, ← heq, ← hnext]
    omega

end

/-! ### The report -/

section

variable (info : Info) (image : Ptr) (env : Env)

/-- The chunks of the image are processed without an error. -/
def ImageDone : Prop :=
  AllDone info image env (readHeader image) (readHeader image).totalChunks
    (startVars info (readHeader image))

def ImageDivides : Prop :=
  Divides info image env (readHeader image) (readHeader image).totalChunks
    (startVars info (readHeader image))

/-- The chunks cover the blocks that the header promises. -/
def ImageCovered : Prop :=
  covered info image (readHeader image) (readHeader image).totalChunks
    (startVars info (readHeader image)).spot = (readHeader image).totalBlks.toNat

def ImageFillsFit : Prop :=
  FillsFit info image (readHeader image) (readHeader image).totalChunks
    (startVars info (readHeader image)).spot

/-- The function returns with one report: `fastboot_okay` exactly when the block size is
taken, all chunks are processed, and they cover the blocks of the image. -/
def RightResponse : Prop :=
  ∃ r, (writeSparseImageEvents info image env).2 = some [r] ∧
    (r = .okay ↔
      BlkSzOk info (readHeader image) ∧ ImageDone info image env ∧ ImageCovered info image)

end

/-- What is told to the host when the loop is left with this outcome. -/
def Outcome.reports (totalBlks : UInt32) : Outcome → Option (List Report)
  | .next s =>
    some (if s.totalBlocks ≠ totalBlks then [.fail "sparse image write failure", .okay]
      else [.okay])
  | .stop why => some [.fail why]
  | .hang => none

theorem writeSparseImageEvents_reports {info : Info} {image : Ptr} {env : Env}
    (hok : BlkSzOk info (readHeader image)) :
    (writeSparseImageEvents info image env).2 = (chunkRun info image env (readHeader image)
      (readHeader image).totalChunks (startVars info (readHeader image))).2.reports
        (readHeader image).totalBlks := by
  simp only [writeSparseImageEvents]
  rw [if_neg (not_not.mpr hok)]
  split <;> simp only [Outcome.reports, *]

/-- The counter of 32 bits agrees with the header exactly when no FILL chunk is too large,
where the chunks cover the blocks of the image. -/
theorem counter_eq_iff {info : Info} {image : Ptr} {env : Env}
    (divides : ImageDivides info image env) (done : ImageDone info image env)
    (hcovered : ImageCovered info image) :
    0 + UInt32.ofNat (countedBlocks info image (readHeader image) (readHeader image).totalChunks
      (startVars info (readHeader image)).spot) = (readHeader image).totalBlks ↔
        ImageFillsFit info image := by
  have heq := countedBlocks_eq_iff divides done
  have hle : countedBlocks info image (readHeader image) (readHeader image).totalChunks
      (startVars info (readHeader image)).spot ≤ covered info image (readHeader image)
        (readHeader image).totalChunks (startVars info (readHeader image)).spot :=
    countedBlocks_le ..
  have hlt := (readHeader image).totalBlks.toNat_lt
  rw [ImageCovered] at hcovered
  rw [hcovered] at heq hle
  rw [ImageFillsFit, ← heq, UInt32.zero_add, ← UInt32.toNat_inj, UInt32.toNat_ofNat',
    Nat.mod_eq_of_lt (Nat.lt_of_le_of_lt hle hlt)]

/-- The response is right exactly when nothing is divided by zero, and, if all chunks are
processed, they cover the blocks of the image and no FILL chunk is too large. -/
theorem rightResponse_iff (info : Info) (image : Ptr) (env : Env) :
    RightResponse info image env ↔ (BlkSzOk info (readHeader image) →
      ImageDivides info image env ∧ (ImageDone info image env →
        ImageCovered info image ∧ ImageFillsFit info image)) := by
  by_cases hok : BlkSzOk info (readHeader image)
  · have hended : RunEnded info image env (readHeader image) (readHeader image).totalChunks
        (startVars info (readHeader image)) _ := chunkRun_ended _ _
    rw [RightResponse, writeSparseImageEvents_reports hok]
    generalize (chunkRun info image env (readHeader image) (readHeader image).totalChunks
      (startVars info (readHeader image))).2 = outcome at hended ⊢
    cases hended with
    | hang zero => exact ⟨fun ⟨_, hnone, _⟩ => (nomatch hnone), fun h => absurd (h hok).1 zero⟩
    | stop divides refused =>
      refine ⟨fun _ _ => ⟨divides, fun done => absurd done refused⟩, fun _ => ?_⟩
      exact ⟨_, rfl, fun hokay => (nomatch hokay), fun h => absurd h.2.1 refused⟩
    | @next s' divides done total =>
      constructor
      · rintro ⟨r, hr, hokay⟩ _
        refine ⟨divides, fun _ => ?_⟩
        rw [Outcome.reports] at hr
        split at hr
        · cases hr
        rename_i hcount
        cases hr
        have hcovered := (hokay.mp rfl).2.2
        refine ⟨hcovered, (counter_eq_iff divides done hcovered).mp ?_⟩
        exact total.symm.trans (not_not.mp hcount)
      · intro h
        obtain ⟨hcovered, hfit⟩ := (h hok).2 done
        refine ⟨.okay, ?_, fun _ => ⟨hok, done, hcovered⟩, fun _ => rfl⟩
        have hcount : s'.totalBlocks = (readHeader image).totalBlks :=
          total.trans ((counter_eq_iff divides done hcovered).mpr hfit)
        rw [Outcome.reports, if_neg (not_not.mpr hcount)]
  · have hreports : (writeSparseImageEvents info image env).2 =
        some [.fail "sparse image block size issue"] := by
      simp only [writeSparseImageEvents]
      rw [if_pos hok]
    refine ⟨fun _ h => absurd h hok, fun _ => ⟨_, hreports, ?_⟩⟩
    exact ⟨fun hokay => (nomatch hokay), fun h => absurd h.1 hok⟩

/-- One block is skipped where the header promises two: both reports are sent. -/
theorem two_reports : ¬RightResponse ⟨64, 16, 512⟩
    (Ptr.ofList (oneChunk 512 2 CHUNK_TYPE_DONT_CARE 12)) willing := by
  rintro ⟨r, hr, _⟩
  have hboth : (writeSparseImageEvents ⟨64, 16, 512⟩
      (Ptr.ofList (oneChunk 512 2 CHUNK_TYPE_DONT_CARE 12)) willing).2 =
        some [.fail "sparse image write failure", .okay] := by decide
  rw [hboth] at hr
  cases hr

/-! ### A device that refuses nothing -/

def Partition.info (info : Partition) : Info := ⟨info.start, info.size, info.blksz⟩

theorem Partition.blksz_ne_zero (info : Partition) : info.info.blksz ≠ 0 := by
  obtain ⟨k, _, hk⟩ := info.blksz_pow
  intro hzero
  have hnat : info.blksz.toNat = 0 := by rw [show info.blksz = 0 from hzero]; rfl
  rw [hk] at hnat
  exact absurd hnat (Nat.pow_eq_zero.not.mpr (by simp))

/-- A round of the loop, under the names of `chunkStep`. -/
theorem chunkLoop_succ (info : Partition) (image : Ptr) (h : Header) (chunks data : Nat)
    (blk totalBlocks : UInt32) (disk : Disk) :
    chunkLoop info image h (chunks + 1) data blk totalBlocks disk =
      let sz := chunkDataSz image h data
      let cnt := blkcnt info.info image h data
      if chunkType image data = CHUNK_TYPE_RAW then
        if totalSz image data ≠ UInt32.ofNat h.chunkHdrSz + sz then
          (disk, [.fail "Bogus chunk size for chunk type Raw"])
        else if Exceeds info.info blk cnt then
          (disk, [.fail "Request would exceed partition size!"])
        else
          chunkLoop info image h chunks (chunkData h data + sz.toNat) (blk + cnt)
            (totalBlocks + chunkSz image data)
            (blockWrite info disk blk cnt (image.add (chunkData h data)))
      else if chunkType image data = CHUNK_TYPE_FILL then
        if totalSz image data ≠ UInt32.ofNat h.chunkHdrSz + 4 then
          (disk, [.fail "Bogus chunk size for chunk type FILL"])
        else if Exceeds info.info blk cnt then
          (disk, [.fail "Request would exceed partition size!"])
        else
          chunkLoop info image h chunks (chunkData h data + 4) (blk + cnt)
            (totalBlocks + sz / h.blkSz)
            (fillLoop info (fillBuf ((image.add (chunkData h data)).bytes 4)) cnt.toNat blk disk)
      else if chunkType image data = CHUNK_TYPE_DONT_CARE then
        chunkLoop info image h chunks (chunkData h data) (blk + cnt)
          (totalBlocks + chunkSz image data) disk
      else if chunkType image data = CHUNK_TYPE_CRC32 then
        if totalSz image data ≠ UInt32.ofNat h.chunkHdrSz then
          (disk, [.fail "Bogus chunk size for chunk type Dont Care"])
        else
          chunkLoop info image h chunks (chunkData h data + sz.toNat) blk
            (totalBlocks + chunkSz image data) disk
      else (disk, [.fail "Unknown chunk type"]) := rfl

/-- `chunkLoop` does with a chunk what the round does. -/
def Follows (info : Partition) (image : Ptr) (h : Header) (chunks : Nat)
    (result : Disk × List Report) : Outcome → Prop
  | .next s => ∃ disk, result = chunkLoop info image h chunks s.data s.blk s.totalBlocks disk
  | .stop why => result.2 = [.fail why]
  | .hang => True

theorem chunkLoop_follows (info : Partition) (image : Ptr) (h : Header) (chunks : Nat) (s : Vars)
    (disk : Disk) :
    Follows info image h chunks
      (chunkLoop info image h (chunks + 1) s.data s.blk s.totalBlocks disk)
      (chunkStep info.info image willing h s).2 := by
  have hmem : ¬(!willing.memalign s.allocs) = true := Bool.false_ne_true
  rw [chunkLoop_succ, chunkStep, if_neg info.blksz_ne_zero]
  dsimp only [chunkCase]
  split_ifs with hraw hsz hexceeds hfill hsz hexceeds hdont hcrc hsz
  · rw [rawChunk, if_pos hsz]
    rfl
  · rw [rawChunk, if_neg hsz, if_pos hexceeds]
    rfl
  · rw [rawChunk, if_neg hsz, if_neg hexceeds]
    dsimp only
    rw [if_neg (not_not.mpr (taken_willing.raw hraw))]
    exact ⟨_, rfl⟩
  · rw [fillChunk, if_pos hsz]
    rfl
  · rw [fillChunk, if_neg hsz, if_neg hmem]
    dsimp only
    rw [if_pos hexceeds]
    rfl
  · rw [fillChunk, if_neg hsz, if_neg hmem]
    dsimp only
    rw [if_neg hexceeds, if_neg (by rw [taken_willing.fill hfill]; decide)]
    split
    · trivial
    · exact ⟨_, rfl⟩
  · exact ⟨_, rfl⟩
  · rw [crc32Chunk, if_pos hsz]
    rfl
  · rw [crc32Chunk, if_neg hsz]
    exact ⟨_, rfl⟩
  · rfl

theorem chunkLoop_reports (info : Partition) (image : Ptr) (h : Header) (chunks : Nat) (s : Vars)
    (disk : Disk) {reports : List Report}
    (hreports : (chunkRun info.info image willing h chunks s).2.reports h.totalBlks =
      some reports) :
    (chunkLoop info image h chunks s.data s.blk s.totalBlocks disk).2 = reports := by
  induction chunks generalizing s disk with
  | zero => exact Option.some.inj hreports
  | succ chunks ih =>
    have hfollows := chunkLoop_follows info image h chunks s disk
    cases hstep : (chunkStep info.info image willing h s).2 with
    | next s' =>
      rw [chunkRun_succ_of_next hstep] at hreports
      rw [hstep] at hfollows
      obtain ⟨disk', hloop⟩ := hfollows
      rw [hloop]
      exact ih s' disk' hreports
    | stop why =>
      rw [hstep] at hfollows
      rw [chunkRun_succ_of_stop hstep] at hreports
      exact hfollows.trans (Option.some.inj hreports)
    | hang =>
      rw [chunkRun_succ_of_hang hstep] at hreports
      cases hreports

/-- The function that writes the disk tells the host the same, if it is not divided by zero. -/
theorem writeSparseImage_reports (info : Partition) (image : Ptr) (disk : Disk)
    {reports : List Report}
    (hreports : (writeSparseImageEvents info.info image willing).2 = some reports) :
    (writeSparseImage info image disk).2 = reports := by
  by_cases hok : BlkSzOk info.info (readHeader image)
  · rw [writeSparseImageEvents_reports hok] at hreports
    have hfunction : writeSparseImage info image disk = chunkLoop info image (readHeader image)
        (readHeader image).totalChunks (firstChunk (readHeader image)) info.start 0 disk :=
      if_neg (not_not.mpr hok)
    rw [hfunction]
    exact chunkLoop_reports info image _ _ (startVars info.info (readHeader image)) disk hreports
  · have hfunction : writeSparseImage info image disk =
        (disk, [.fail "sparse image block size issue"]) := if_pos hok
    simp only [writeSparseImageEvents] at hreports
    rw [if_pos hok] at hreports
    rw [hfunction]
    exact Option.some.inj hreports

end UBoot.Sparse
