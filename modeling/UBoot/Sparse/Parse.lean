import Mathlib.Data.UInt
import UBoot.Sparse.Basic

/-!
# The loop over the chunks of a loaded image

On an image in memory that is well formed, the loop of `write_sparse_image` is a
recursion over the list of its chunks. It stops at the first CRC32 chunk: the
size that it asks for leaves no room for the checksum.
-/

namespace UBoot.Sparse

open Verification

/-- What the loop does with the chunks from block `blk` on. -/
def flash (info : Partition) (blkSz : UInt32) : List Chunk → UInt32 → Disk → Disk
  | [], _, disk => disk
  | c :: chunks, blk, disk =>
    let blkcnt := blkSz * c.chunkSz / info.blksz
    match c.content with
    | .raw data =>
      if blk + blkcnt > info.start + info.size then disk
      else flash info blkSz chunks (blk + blkcnt)
        (blockWrite info disk blk blkcnt (Ptr.ofList data))
    | .fill value =>
      if blk + blkcnt > info.start + info.size then disk
      else flash info blkSz chunks (blk + blkcnt)
        (fillLoop info (fillBuf value.toList) blkcnt.toNat blk disk)
    | .dontCare => flash info blkSz chunks (blk + blkcnt) disk
    | .crc32 _ => disk

/-! ### Fields -/

theorem field_eq {p : Ptr} {bs : List UInt8} (h : p.bytes bs.length = bs) {offset n : Nat}
    (hle : offset + n ≤ bs.length) : field p offset n = leValue (slice bs offset n) := by
  rw [field, Ptr.bytes_add_eq p hle, h, slice]

/-- A field behind `k` bytes. -/
theorem field_append {p : Ptr} {first rest : List UInt8} {k : Nat}
    (h : p.bytes (first ++ rest).length = first ++ rest) (hk : first.length = k) :
    (p.add k).bytes rest.length = rest := by
  rw [List.length_append, hk, Ptr.bytes_add] at h
  exact (List.append_inj h (by rw [Ptr.length_bytes, hk])).2

theorem field_leBytes {p : Ptr} {n value : Nat} {rest : List UInt8}
    (h : p.bytes (leBytes n value ++ rest).length = leBytes n value ++ rest)
    (hlt : value < 256 ^ n) : field p 0 n = value := by
  rw [field_eq h (by simp), slice_append_left (length_leBytes ..), leValue_leBytes,
    Nat.mod_eq_of_lt hlt]

theorem field_add (p : Ptr) (k offset n : Nat) :
    field (p.add k) offset n = field p (k + offset) n := by
  rw [field, field, Ptr.add_add]

theorem Content.type_lt (c : Content) : c.type < 256 ^ 2 := by
  cases c <;> simp only [Content.type] <;> decide

/-- The fields of a chunk in memory. -/
structure ChunkAt (p : Ptr) (chunkHdrSz : Nat) (c : Chunk) : Prop where
  type : field p 0 2 = c.content.type
  chunkSz : field p 4 4 = c.chunkSz.toNat
  totalSz : field p 8 4 = chunkHdrSz + c.content.data.length
  data : (p.add chunkHdrSz).bytes c.content.data.length = c.content.data

theorem chunkAt_of_bytes {p : Ptr} {chunkHdrSz blkSz : Nat} {c : Chunk} {rest : List UInt8}
    (wf : c.WellFormed chunkHdrSz blkSz)
    (h : p.bytes (c.toBytes chunkHdrSz ++ rest).length = c.toBytes chunkHdrSz ++ rest) :
    ChunkAt p chunkHdrSz c ∧
      (p.add (chunkHdrSz + c.content.data.length)).bytes rest.length = rest := by
  have hlen : c.padding.length = chunkHdrSz - 12 := by
    have := wf.padding
    rw [chunkHeaderSize] at this
    omega
  have hhdr : 12 ≤ chunkHdrSz := by
    have := wf.padding
    rw [chunkHeaderSize] at this
    omega
  simp only [Chunk.toBytes, List.append_assoc] at h
  have htype := field_leBytes h c.content.type_lt
  have h2 := field_append h (length_leBytes ..)
  have h4 := field_append h2 (k := 2) (by simp)
  rw [Ptr.add_add] at h4
  have hsz := field_leBytes h4 (by have := c.chunkSz.toNat_lt; omega)
  have h8 := field_append h4 (length_leBytes ..)
  rw [Ptr.add_add] at h8
  have htotal := field_leBytes h8 (by have := wf.total_lt; omega)
  have h12 := field_append h8 (length_leBytes ..)
  rw [Ptr.add_add] at h12
  have hdata := field_append h12 hlen
  rw [Ptr.add_add, show 2 + 2 + 4 + 4 + (chunkHdrSz - 12) = chunkHdrSz by omega] at hdata
  rw [field_add] at hsz htotal
  refine ⟨⟨htype, hsz, htotal, ?_⟩, ?_⟩
  · rw [List.length_append, Ptr.bytes_add] at hdata
    exact (List.append_inj hdata (by simp)).1
  · have hrest := field_append hdata rfl
    rw [Ptr.add_add] at hrest
    exact hrest

/-! ### The loop -/

theorem eq_ofList_of_bytes {p : Ptr} {bs : List UInt8} (h : p.bytes bs.length = bs) {i : Nat}
    (hi : i < bs.length) : p i = Ptr.ofList bs i := by
  have hget := congrArg (·[i]?) h
  simp only [Ptr.bytes, List.getElem?_map, List.getElem?_range hi, Option.map_some] at hget
  rw [Ptr.ofList, List.getD_eq_getElem?_getD, ← hget, Option.getD_some]

/-- The data of a RAW chunk has no more than 32 bits of length. -/
theorem Chunk.WellFormed.raw_toNat {chunkHdrSz : Nat} {blkSz : UInt32} {c : Chunk}
    (wf : c.WellFormed chunkHdrSz blkSz.toNat) {data : List UInt8} (h : c.content = .raw data) :
    (blkSz * c.chunkSz).toNat = data.length := by
  have hlen := wf.raw data h
  have hlt := wf.total_lt
  rw [h] at hlt
  simp only [Content.data] at hlt
  rw [UInt32.toNat_mul, ← hlen]
  exact Nat.mod_eq_of_lt (by omega)

theorem toNat_blkcnt_mul_le (info : Partition) (size : UInt32) :
    (size / info.blksz).toNat * info.blksz.toNat ≤ size.toNat := by
  rw [UInt32.toNat_div]
  exact Nat.div_mul_le_self ..

/-- On the chunks of a well-formed image, the loop does what `flash` does. -/
theorem chunkLoop_eq_flash (info : Partition) (image : Ptr) (h : Header) {chunks : List Chunk}
    (hhdr : chunkHeaderSize ≤ h.chunkHdrSz)
    (wf : ∀ c ∈ chunks, c.WellFormed h.chunkHdrSz h.blkSz.toNat) {data : Nat}
    (hdata : (image.add data).bytes (chunks.flatMap (Chunk.toBytes h.chunkHdrSz)).length =
      chunks.flatMap (Chunk.toBytes h.chunkHdrSz)) (blk totalBlocks : UInt32) (disk : Disk) :
    (chunkLoop info image h chunks.length data blk totalBlocks disk).1 =
      flash info h.blkSz chunks blk disk := by
  induction chunks generalizing data blk totalBlocks disk with
  | nil => rfl
  | cons c chunks ih =>
    have hwf := wf c (List.mem_cons_self ..)
    rw [List.flatMap_cons] at hdata
    obtain ⟨hat, hrest⟩ := chunkAt_of_bytes hwf hdata
    rw [Ptr.add_add] at hrest
    have ih' := ih (fun d hd => wf d (List.mem_cons_of_mem _ hd)) hrest
    have htype : field image data 2 = c.content.type := by
      rw [← hat.type, field_add, Nat.add_zero]
    have hsz : UInt32.ofNat (field image (data + 4) 4) = c.chunkSz := by
      rw [← field_add, hat.chunkSz, UInt32.ofNat_toNat]
    have htotal : field image (data + 8) 4 = h.chunkHdrSz + c.content.data.length := by
      rw [← field_add, hat.totalSz]
    have hstart : (if h.chunkHdrSz > chunkHeaderSize then
        data + chunkHeaderSize + (h.chunkHdrSz - chunkHeaderSize) else data + chunkHeaderSize) =
        data + h.chunkHdrSz := by
      split_ifs <;> omega
    have hbytes := hat.data
    rw [Ptr.add_add] at hbytes
    simp only [List.length_cons, chunkLoop, htype, hsz, htotal, hstart]
    rw [flash]
    cases hc : c.content with
    | raw bytes =>
      have hlen := hwf.raw_toNat hc
      rw [hc] at ih' hbytes
      simp only [Content.data] at ih' hbytes
      have hmul : UInt32.ofNat (h.chunkHdrSz + bytes.length) =
          UInt32.ofNat h.chunkHdrSz + h.blkSz * c.chunkSz := by
        rw [UInt32.ofNat_add, ← hlen, UInt32.ofNat_toNat]
      have hwrite : blockWrite info disk blk (h.blkSz * c.chunkSz / info.blksz)
          (image.add (data + h.chunkHdrSz)) =
            blockWrite info disk blk (h.blkSz * c.chunkSz / info.blksz) (Ptr.ofList bytes) := by
        apply Ptr.write_congr
        intro i hi
        have := toNat_blkcnt_mul_le info (h.blkSz * c.chunkSz)
        exact eq_ofList_of_bytes hbytes (by omega)
      simp only [Content.type, Content.data, if_true, hmul, ne_eq, not_true, if_false, hwrite,
        hlen]
      split_ifs
      · rfl
      · rw [Nat.add_assoc]
        exact ih' ..
    | fill value =>
      rw [hc] at ih' hbytes
      have hfour : value.toList.length = 4 := by simp
      simp only [Content.data, hfour] at ih' hbytes
      have hne : ¬CHUNK_TYPE_FILL = CHUNK_TYPE_RAW := by decide
      have hadd : UInt32.ofNat (h.chunkHdrSz + 4) = UInt32.ofNat h.chunkHdrSz + 4 := by
        rw [UInt32.ofNat_add]
        rfl
      simp only [Content.type, Content.data, hfour, hne, if_true, if_false, hadd, ne_eq,
        not_true, hbytes]
      split_ifs
      · rfl
      · rw [Nat.add_assoc]
        exact ih' ..
    | dontCare =>
      rw [hc] at ih'
      have hne : ¬CHUNK_TYPE_DONT_CARE = CHUNK_TYPE_RAW := by decide
      have hne' : ¬CHUNK_TYPE_DONT_CARE = CHUNK_TYPE_FILL := by decide
      simp only [Content.type, hne, hne', if_true, if_false]
      exact ih' ..
    | crc32 value =>
      have hne : ¬CHUNK_TYPE_CRC32 = CHUNK_TYPE_RAW := by decide
      have hne' : ¬CHUNK_TYPE_CRC32 = CHUNK_TYPE_FILL := by decide
      have hne'' : ¬CHUNK_TYPE_CRC32 = CHUNK_TYPE_DONT_CARE := by decide
      have hbogus : UInt32.ofNat (h.chunkHdrSz + value.toList.length) ≠
          UInt32.ofNat h.chunkHdrSz := by
        intro heq
        rw [UInt32.ofNat_add, Vector.length_toList] at heq
        exact absurd (add_eq_left.mp heq) (by decide)
      simp only [Content.type, Content.data, hne, hne', hne'', if_true, if_false]
      exact congrArg Prod.fst (if_pos hbogus)

/-! ### The header -/

def Image.header (img : Image) : Header where
  fileHdrSz := img.fileHdrSz
  chunkHdrSz := img.chunkHdrSz
  blkSz := img.blkSz
  totalBlks := UInt32.ofNat img.totalBlks
  totalChunks := img.chunks.length

/-- The header of an image in memory, and the chunks behind it. -/
theorem readHeader_eq {img : Image} (wf : img.WellFormed) {p : Ptr} (loaded : img.LoadedAt p) :
    readHeader p = img.header ∧
      (p.add img.fileHdrSz).bytes
          (img.chunks.flatMap (Chunk.toBytes img.chunkHdrSz)).length =
        img.chunks.flatMap (Chunk.toBytes img.chunkHdrSz) := by
  have h0 := loaded
  rw [Image.LoadedAt, Image.toBytes] at h0
  have h4 := field_append h0 (length_leBytes ..)
  have h8 := field_append h4 (k := 4) (by simp)
  have hfile := field_leBytes h8 wf.fileHdrSz_lt
  have h10 := field_append h8 (length_leBytes ..)
  have hchunk := field_leBytes h10 wf.chunkHdrSz_lt
  have h12 := field_append h10 (length_leBytes ..)
  have hblk := field_leBytes h12 img.blkSz.toNat_lt
  have h16 := field_append h12 (length_leBytes ..)
  have hblks := field_leBytes h16 wf.totalBlks_lt
  have h20 := field_append h16 (length_leBytes ..)
  have hcount := field_leBytes h20 wf.totalChunks_lt
  have h24 := field_append h20 (length_leBytes ..)
  have h28 := field_append h24 (k := 4) (by simp)
  have hend := field_append h28 rfl
  simp only [Ptr.add_add, field_add, Nat.reduceAdd] at hfile hchunk hblk hblks hcount hend
  refine ⟨?_, hend⟩
  simp only [readHeader, Image.header, hfile, hchunk, hblk, hblks, hcount, UInt32.ofNat_toNat]

theorem and_not_eq_self_iff (x y : UInt32) : x &&& ~~~y = x ↔ x &&& y = 0 := by
  constructor
  · intro h
    rw [← h, UInt32.and_assoc, UInt32.not_and_self, UInt32.and_zero]
  · intro h
    calc x &&& ~~~y = (x &&& ~~~y) ||| (x &&& y) := by rw [h, UInt32.or_zero]
      _ = x &&& (~~~y ||| y) := UInt32.toBitVec_inj.mp BitVec.and_or_distrib_left.symm
      _ = x := by rw [UInt32.not_or_self, UInt32.and_neg_one]

/-- The check of the block size. -/
theorem blkSz_check (info : Partition) (blkSz : UInt32) :
    blkSz ≠ blkSz &&& ~~~(info.blksz - 1) ↔ ¬info.blksz.toNat ∣ blkSz.toNat := by
  obtain ⟨k, -, hk⟩ := info.blksz_pow
  have hone : (info.blksz - 1).toNat = 2 ^ k - 1 := by
    rw [UInt32.toNat_sub_of_le, hk]
    · rfl
    · rw [UInt32.le_iff_toNat_le, hk]
      exact Nat.one_le_two_pow
  rw [ne_eq, eq_comm, and_not_eq_self_iff, ← UInt32.toNat_inj, UInt32.toNat_and, hone,
    Nat.and_two_pow_sub_one_eq_mod, hk, Nat.dvd_iff_mod_eq_zero]
  rfl

/-- What is written for an image whose header has no bytes that the format does
not define. -/
theorem writeSparseImage_eq {img : Image} (wf : img.WellFormed) {p : Ptr}
    (loaded : img.LoadedAt p) {info : Partition}
    (hpad : info.blksz.toNat ∣ img.blkSz.toNat → img.chunks ≠ [] → img.padding = [])
    (disk : Disk) :
    (writeSparseImage info p disk).1 = if info.blksz.toNat ∣ img.blkSz.toNat then
      flash info img.blkSz img.chunks info.start disk else disk := by
  obtain ⟨hheader, hchunks⟩ := readHeader_eq wf loaded
  unfold writeSparseImage
  dsimp only
  rw [hheader]
  by_cases hdvd : info.blksz.toNat ∣ img.blkSz.toNat
  · rw [if_pos hdvd, if_neg (fun h => (blkSz_check info img.header.blkSz).mp h hdvd)]
    by_cases hempty : img.chunks = []
    · rw [Image.header, hempty]
      rfl
    · have hfile : img.header.fileHdrSz = sparseHeaderSize := by
        rw [Image.header, Image.fileHdrSz, hpad hdvd hempty]
        rfl
      rw [if_neg (show ¬img.header.fileHdrSz > sparseHeaderSize by omega)]
      exact chunkLoop_eq_flash info p img.header wf.chunkHdrSz_le wf.chunks hchunks info.start
        0 disk
  · rw [if_neg hdvd, if_pos ((blkSz_check info img.header.blkSz).mpr hdvd)]

end UBoot.Sparse
