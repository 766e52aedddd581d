import UBoot.Sparse.Loop

/-!
# A round of the loop over the chunks

What the checks of a chunk come to, what the chunk asks of the device and of the heap, and
where the next chunk is. A round goes on exactly when the checks pass and nothing is refused,
unless it divides by zero.
-/

namespace UBoot.Sparse

open Verification

/-- A chunk as the function comes to it. -/
structure Spot where
  data : Nat
  blk : UInt32

def Vars.spot (s : Vars) : Spot := ⟨s.data, s.blk⟩

section

variable (info : Info) (image : Ptr) (env : Env) (h : Header)

/-- The chunk passes the checks. -/
def Accepted (p : Spot) : Prop :=
  if chunkType image p.data = CHUNK_TYPE_RAW then
    totalSz image p.data = UInt32.ofNat h.chunkHdrSz + chunkDataSz image h p.data ∧
      ¬Exceeds info p.blk (blkcnt info image h p.data)
  else if chunkType image p.data = CHUNK_TYPE_FILL then
    totalSz image p.data = UInt32.ofNat h.chunkHdrSz + 4 ∧
      ¬Exceeds info p.blk (blkcnt info image h p.data)
  else if chunkType image p.data = CHUNK_TYPE_DONT_CARE then True
  else if chunkType image p.data = CHUNK_TYPE_CRC32 then
    totalSz image p.data = UInt32.ofNat h.chunkHdrSz
  else False

/-- The chunk behind it. -/
def Spot.next (p : Spot) : Spot where
  data :=
    if chunkType image p.data = CHUNK_TYPE_FILL then chunkData h p.data + 4
    else if chunkType image p.data = CHUNK_TYPE_DONT_CARE then chunkData h p.data
    else chunkData h p.data + (chunkDataSz image h p.data).toNat
  blk :=
    if chunkType image p.data = CHUNK_TYPE_CRC32 then p.blk
    else p.blk + blkcnt info image h p.data

/-- The blocks that the chunk is counted for. -/
def Spot.counted (p : Spot) : UInt32 :=
  if chunkType image p.data = CHUNK_TYPE_FILL then chunkDataSz image h p.data / h.blkSz
  else chunkSz image p.data

/-- The device and the heap do what the chunk asks for. -/
structure Taken (s : Vars) : Prop where
  raw : chunkType image s.data = CHUNK_TYPE_RAW →
    env.blockWrite s.writes s.blk (blkcnt info image h s.data) = blkcnt info image h s.data
  memory : chunkType image s.data = CHUNK_TYPE_FILL → env.memalign s.allocs = true
  fill : chunkType image s.data = CHUNK_TYPE_FILL →
    (fillWrites env (blkcnt info image h s.data).toNat s.writes s.blk).2 = true

/-- The chunk is processed without an error. -/
structure Done (s : Vars) : Prop where
  accepted : Accepted info image h s.spot
  taken : Taken info image env h s

/-- The variables behind the chunk. -/
def Vars.next (s : Vars) : Vars where
  data := (s.spot.next info image h).data
  blk := (s.spot.next info image h).blk
  totalBlocks := s.totalBlocks + s.spot.counted image h
  writes :=
    if chunkType image s.data = CHUNK_TYPE_RAW then s.writes + 1
    else if chunkType image s.data = CHUNK_TYPE_FILL then
      s.writes + (blkcnt info image h s.data).toNat
    else s.writes
  allocs := if chunkType image s.data = CHUNK_TYPE_FILL then s.allocs + 1 else s.allocs

inductive Ended (s : Vars) : Outcome → Prop where
  | next (done : Done info image env h s)
      (divides : chunkType image s.data = CHUNK_TYPE_FILL → h.blkSz ≠ 0) :
      Ended s (.next (s.next info image h))
  | hang (done : Done info image env h s) (fill : chunkType image s.data = CHUNK_TYPE_FILL)
      (zero : h.blkSz = 0) : Ended s .hang
  | stop (refused : ¬Done info image env h s) (why : String) : Ended s (.stop why)

end

section

variable {info : Info} {image : Ptr} {env : Env} {h : Header} {s : Vars}

theorem Vars.next_spot : (s.next info image h).spot = s.spot.next info image h := rfl

theorem accepted_raw (htype : chunkType image s.data = CHUNK_TYPE_RAW) :
    Accepted info image h s.spot ↔
      totalSz image s.data = UInt32.ofNat h.chunkHdrSz + chunkDataSz image h s.data ∧
        ¬Exceeds info s.blk (blkcnt info image h s.data) := by
  have hraw : chunkType image s.spot.data = CHUNK_TYPE_RAW := htype
  rw [Accepted, if_pos hraw]
  rfl

theorem accepted_fill (htype : chunkType image s.data = CHUNK_TYPE_FILL) :
    Accepted info image h s.spot ↔ totalSz image s.data = UInt32.ofNat h.chunkHdrSz + 4 ∧
      ¬Exceeds info s.blk (blkcnt info image h s.data) := by
  have hfill : chunkType image s.spot.data = CHUNK_TYPE_FILL := htype
  rw [Accepted, if_neg (by rw [hfill]; decide), if_pos hfill]
  rfl

theorem accepted_crc32 (htype : chunkType image s.data = CHUNK_TYPE_CRC32) :
    Accepted info image h s.spot ↔ totalSz image s.data = UInt32.ofNat h.chunkHdrSz := by
  have hcrc : chunkType image s.spot.data = CHUNK_TYPE_CRC32 := htype
  rw [Accepted, if_neg (by rw [hcrc]; decide), if_neg (by rw [hcrc]; decide),
    if_neg (by rw [hcrc]; decide), if_pos hcrc]
  rfl

/-- A chunk of an unknown type does not pass. -/
theorem known_of_accepted (haccepted : Accepted info image h s.spot) :
    chunkType image s.data = CHUNK_TYPE_RAW ∨ chunkType image s.data = CHUNK_TYPE_FILL ∨
      chunkType image s.data = CHUNK_TYPE_DONT_CARE ∨
        chunkType image s.data = CHUNK_TYPE_CRC32 := by
  rw [Accepted] at haccepted
  split at haccepted
  · exact .inl ‹_›
  split at haccepted
  · exact .inr (.inl ‹_›)
  split at haccepted
  · exact .inr (.inr (.inl ‹_›))
  split at haccepted
  · exact .inr (.inr (.inr ‹_›))
  · exact haccepted.elim

theorem rawChunk_ended (htype : chunkType image s.data = CHUNK_TYPE_RAW) :
    Ended info image env h s (rawChunk info image env h s).2 := by
  have hfill : chunkType image s.data ≠ CHUNK_TYPE_FILL := by rw [htype]; decide
  simp only [rawChunk]
  split
  · exact .stop (fun done => absurd ((accepted_raw htype).mp done.accepted).1 ‹_›) _
  rename_i htotal
  split
  · exact .stop (fun done => absurd ‹_› ((accepted_raw htype).mp done.accepted).2) _
  rename_i hexceeds
  split
  · exact .stop (fun done => absurd (done.taken.raw htype) ‹_›) _
  rename_i htaken
  have done : Done info image env h s := ⟨(accepted_raw htype).mpr ⟨not_not.mp htotal, hexceeds⟩,
    fun _ => not_not.mp htaken, fun htype => absurd htype hfill, fun htype => absurd htype hfill⟩
  have hnext := Ended.next done fun htype => absurd htype hfill
  simpa +decide only [Vars.next, Vars.spot, Spot.next, Spot.counted, htype, ↓reduceIte] using hnext

theorem fillChunk_ended (htype : chunkType image s.data = CHUNK_TYPE_FILL) :
    Ended info image env h s (fillChunk info image env h s).2 := by
  have hraw : chunkType image s.data ≠ CHUNK_TYPE_RAW := by rw [htype]; decide
  simp only [fillChunk]
  split
  · exact .stop (fun done => absurd ((accepted_fill htype).mp done.accepted).1 ‹_›) _
  rename_i htotal
  split
  · rename_i hmem
    exact .stop (fun done => by simp [done.taken.memory htype] at hmem) _
  rename_i hmem
  split
  · exact .stop (fun done => absurd ‹_› ((accepted_fill htype).mp done.accepted).2) _
  rename_i hexceeds
  split
  · rename_i hfill
    exact .stop (fun done => by simp [done.taken.fill htype] at hfill) _
  rename_i hfill
  have done : Done info image env h s := ⟨(accepted_fill htype).mpr ⟨not_not.mp htotal, hexceeds⟩,
    fun htype => absurd htype hraw, fun _ => by simpa using hmem, fun _ => by simpa using hfill⟩
  split
  · exact .hang done htype ‹_›
  · have hnext := Ended.next done fun _ => ‹_›
    simpa +decide only [Vars.next, Vars.spot, Spot.next, Spot.counted, htype, ↓reduceIte]
      using hnext

/-- A chunk that writes nothing asks for nothing. -/
theorem Taken.of_other (hraw : chunkType image s.data ≠ CHUNK_TYPE_RAW)
    (hfill : chunkType image s.data ≠ CHUNK_TYPE_FILL) : Taken info image env h s :=
  ⟨fun htype => absurd htype hraw, fun htype => absurd htype hfill,
    fun htype => absurd htype hfill⟩

theorem dontCareChunk_ended (htype : chunkType image s.data = CHUNK_TYPE_DONT_CARE) :
    Ended info image env h s (dontCareChunk info image h s).2 := by
  have hraw : chunkType image s.data ≠ CHUNK_TYPE_RAW := by rw [htype]; decide
  have hfill : chunkType image s.data ≠ CHUNK_TYPE_FILL := by rw [htype]; decide
  have haccepted : Accepted info image h s.spot := by
    simp +decide only [Accepted, Vars.spot, htype, ↓reduceIte]
  have hnext : Ended info image env h s (.next (s.next info image h)) :=
    .next ⟨haccepted, .of_other hraw hfill⟩ fun htype => absurd htype hfill
  simpa +decide only [dontCareChunk, Vars.next, Vars.spot, Spot.next, Spot.counted, htype,
    ↓reduceIte] using hnext

theorem crc32Chunk_ended (htype : chunkType image s.data = CHUNK_TYPE_CRC32) :
    Ended info image env h s (crc32Chunk image h s).2 := by
  have hraw : chunkType image s.data ≠ CHUNK_TYPE_RAW := by rw [htype]; decide
  have hfill : chunkType image s.data ≠ CHUNK_TYPE_FILL := by rw [htype]; decide
  rw [crc32Chunk]
  split
  · exact .stop (fun done => absurd ((accepted_crc32 htype).mp done.accepted) ‹_›) _
  rename_i htotal
  have hnext : Ended info image env h s (.next (s.next info image h)) :=
    .next ⟨(accepted_crc32 htype).mpr (not_not.mp htotal), .of_other hraw hfill⟩
      fun htype => absurd htype hfill
  simpa +decide only [Vars.next, Vars.spot, Spot.next, Spot.counted, htype, ↓reduceIte] using hnext

theorem chunkStep_ended (hblksz : info.blksz ≠ 0) :
    Ended info image env h s (chunkStep info image env h s).2 := by
  rw [chunkStep, if_neg hblksz]
  simp only [chunkCase]
  split
  · exact rawChunk_ended ‹_›
  rename_i hraw
  split
  · exact fillChunk_ended ‹_›
  rename_i hfill
  split
  · exact dontCareChunk_ended ‹_›
  rename_i hdont
  split
  · exact crc32Chunk_ended ‹_›
  rename_i hcrc
  refine .stop (fun done => ?_) _
  rcases known_of_accepted done.accepted with htype | htype | htype | htype
  · exact hraw htype
  · exact hfill htype
  · exact hdont htype
  · exact hcrc htype

theorem chunkStep_hang (hblksz : info.blksz = 0) :
    (chunkStep info image env h s).2 = .hang := by
  rw [chunkStep, if_pos hblksz]

/-- A round that goes on has processed its chunk. -/
theorem chunkStep_next {s' : Vars} (hnext : (chunkStep info image env h s).2 = .next s') :
    Done info image env h s ∧ s' = s.next info image h := by
  have hblksz : info.blksz ≠ 0 := by
    intro hzero
    rw [chunkStep_hang hzero] at hnext
    cases hnext
  have hended : Ended info image env h s (chunkStep info image env h s).2 :=
    chunkStep_ended hblksz
  rw [hnext] at hended
  cases hended with
  | next done _ => exact ⟨done, rfl⟩

end

end UBoot.Sparse
