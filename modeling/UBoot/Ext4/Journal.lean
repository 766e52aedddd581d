import UBoot.Verification.Bytes

/-!
# The journal of an ext4 volume

`fs/ext4/ext4_journal.c`: the blocks that an operation logs, `ext4fs_update_journal`,
which writes them as one transaction, and `ext4fs_check_journal_state`, which finds
and replays transactions. The volume is its bytes. `journalBlk` is what
`read_allocated_block` returns for the blocks of the journal file. Allocations
succeed, and the loop over the journal, which has no bound in the source, takes
fuel. Every write to the device is noted.
-/

namespace UBoot.Ext4

open Verification

/-- The parameters of the file system. -/
structure Fs where
  blksz : Nat
  size : Nat
  journalBlk : Nat → Nat

/-- The device, the superblock in memory, the revoke blocks found, and the writes. -/
structure Volume where
  disk : Ptr
  sb : Ptr
  revoked : List Ptr
  writes : List (Nat × List UInt8)

/-! ## Fields -/

/-- `be32_to_cpu` of a field. -/
def be32At (p : Ptr) (offset : Nat) : UInt32 := UInt32.ofNat (beValue ((p.add offset).bytes 4))

/-- `cpu_to_be32` into a field. -/
def setBe32 (p : Ptr) (offset : Nat) (value : UInt32) : Ptr :=
  p.write offset 4 (Ptr.ofList (beBytes 4 value.toNat))

/-- A field of the superblock, which is little-endian like the host. -/
def le32At (p : Ptr) (offset : Nat) : UInt32 := UInt32.ofNat (leValue ((p.add offset).bytes 4))

def setLe32 (p : Ptr) (offset : Nat) (value : UInt32) : Ptr :=
  p.write offset 4 (Ptr.ofList (leBytes 4 value.toNat))

/-- The header of a journal block, `struct journal_header_t`. -/
def hBlocktype (p : Ptr) : UInt32 := be32At p 4

def hSequence (p : Ptr) : UInt32 := be32At p 8

/-- The fields of `struct journal_superblock_t`. -/
def sFirst (jsb : Ptr) : UInt32 := be32At jsb 20

def sSequence (jsb : Ptr) : UInt32 := be32At jsb 24

def sStart (jsb : Ptr) : UInt32 := be32At jsb 28

def sFeatureCompat (jsb : Ptr) : UInt32 := be32At jsb 36

def setSequence (jsb : Ptr) (value : UInt32) : Ptr := setBe32 jsb 24 value

/-- `EXT3_FEATURE_INCOMPAT_RECOVER` in the superblock. -/
def needsRecovery (sb : Ptr) : Bool := le32At sb 96 &&& 4 ≠ 0

def superblockSize : Nat := 1024

section

variable (fs : Fs)

/-- `put_ext4` -/
def putExt4 (v : Volume) (off size : Nat) (buf : Ptr) : Volume :=
  if off + size > fs.size then v
  else { v with disk := v.disk.write off size buf, writes := v.writes ++ [(off, buf.bytes size)] }

/-- `ext4fs_devread` of a block. -/
def blockAt (v : Volume) (blknr : Nat) : Ptr := v.disk.add (blknr * fs.blksz)

def putBlock (v : Volume) (blknr : Nat) (buf : Ptr) : Volume :=
  putExt4 fs v (blknr * fs.blksz) fs.blksz buf

def journalSuperblock (v : Volume) : Ptr := blockAt fs v (fs.journalBlk 0)

/-! ## The log -/

/-- An entry of `journal_ptr`: a block number and the contents. -/
abbrev Entry := UInt32 × Ptr

def maxJournalEntries : Nat := 100

/-- The entries before the first free slot, whose number is -1. -/
def activeEntries (journal : List Entry) : List Entry :=
  (journal.take maxJournalEntries).takeWhile (·.1 ≠ 0xFFFFFFFF)

/-- `ext4fs_log_journal`; nothing when there is no slot left. -/
def logJournal (journal : List Entry) (blknr : UInt32) (buf : Ptr) : Option (List Entry) :=
  if (activeEntries journal).any (·.1 = blknr) then some journal
  else if journal.length < maxJournalEntries then some (journal ++ [(blknr, buf)])
  else none

/-- A sequence of calls of `ext4fs_log_journal`. -/
def logAll (journal : List Entry) : List Entry → Option (List Entry)
  | [] => some journal
  | (blknr, buf) :: calls => (logJournal journal blknr buf).bind fun journal => logAll journal calls

/-! ## Writing a transaction -/

def journalHeader (blocktype sequence : UInt32) : List UInt8 :=
  beBytes 4 0xC03B3998 ++ beBytes 4 blocktype.toNat ++ beBytes 4 sequence.toNat

/-- The tags of a descriptor block: all have `EXT3_JOURNAL_FLAG_SAME_UUID`, and the last
one is then replaced by one that has only `EXT3_JOURNAL_FLAG_LAST_TAG`. -/
def journalTags (entries : List Entry) : List (UInt32 × UInt32) :=
  (entries.map fun e => (e.1, 2)).dropLast ++ (entries.getLast?.map fun e => (e.1, 8)).toList

def tagBytes (tag : UInt32 × UInt32) : List UInt8 :=
  beBytes 4 tag.1.toNat ++ beBytes 4 tag.2.toNat

/-- `update_descriptor_block` -/
def updateDescriptorBlock (v : Volume) (entries : List Entry) (blknr : Nat) : Volume :=
  putBlock fs v blknr (Ptr.ofList (journalHeader 1 (sSequence (journalSuperblock fs v)) ++
    (journalTags entries).flatMap tagBytes))

/-- `update_commit_block` -/
def updateCommitBlock (v : Volume) (blknr : Nat) : Volume :=
  putBlock fs v blknr (Ptr.ofList (journalHeader 2 (sSequence (journalSuperblock fs v))))

/-- The contents of the entries, from the block `idx` of the journal on. -/
def putEntries (v : Volume) (idx : Nat) : List Entry → Volume
  | [] => v
  | e :: entries => putEntries (putBlock fs v (fs.journalBlk idx) e.2) (idx + 1) entries

/-- `ext4fs_update_journal`, from the `jrnl_blk_idx` that `ext4fs_init_journal` sets. -/
def updateJournal (v : Volume) (journal : List Entry) : Volume :=
  let entries := activeEntries journal
  let v := updateDescriptorBlock fs v entries (fs.journalBlk 1)
  let v := putEntries fs v 2 entries
  updateCommitBlock fs v (fs.journalBlk (2 + entries.length))

/-! ## Recovery -/

/-- `check_blknr_for_revoke` in one revoke block, from an offset on. -/
def revokeBlockHas (p : Ptr) (blknr : UInt32) (max : Nat) : Nat → Nat → Bool
  | 0, _ => false
  | fuel + 1, offset =>
    if offset < max then
      if be32At p offset = blknr then true else revokeBlockHas p blknr max fuel (offset + 4)
    else false

/-- The count of bytes in a revoke block, an `int`. -/
def rCount (p : Ptr) : Nat := if be32At p 12 < 0x80000000 then (be32At p 12).toNat else 0

/-- `check_blknr_for_revoke` -/
def checkBlknrForRevoke (revoked : List Ptr) (blknr sequence : UInt32) : Bool :=
  revoked.any fun p =>
    sequence < hSequence p && revokeBlockHas p blknr (rCount p) (rCount p) 16

/-- The loop of `recover_transaction` over the tags of the descriptor block `p`. -/
def recoverTags (p : Ptr) : Nat → Nat → Nat → Volume → Volume
  | 0, _, _, v => v
  | fuel + 1, ofs, i, v =>
    let next := ofs + 8
    if next > fs.blksz then v
    else
      let flags := be32At p (ofs + 4)
      let next := if flags &&& 2 = 0 then next + 16 else next
      let v :=
        if checkBlknrForRevoke v.revoked (be32At p ofs) (hSequence p) then v
        else putBlock fs v (be32At p ofs).toNat (blockAt fs v (fs.journalBlk (i + 1)))
      if flags &&& 8 = 0 then recoverTags p fuel next (i + 1) v else v

/-- `recover_transaction` -/
def recoverTransaction (v : Volume) (prevDescLogicalNo : Nat) : Volume :=
  recoverTags fs (blockAt fs v (fs.journalBlk prevDescLogicalNo)) fs.blksz 12 prevDescLogicalNo v

/-- The loop over the tags of a descriptor block that only counts its blocks. -/
def skipTags (p : Ptr) : Nat → Nat → Nat → Nat
  | 0, _, i => i
  | fuel + 1, ofs, i =>
    let next := ofs + 8
    if next > fs.blksz then i
    else
      let flags := be32At p (ofs + 4)
      let next := if flags &&& 2 = 0 then next + 16 else next
      if flags &&& 8 = 0 then skipTags p fuel next (i + 1) else i + 1

inductive Pass
  | scan
  | recover
  deriving DecidableEq

/-- The variables of the loop over the journal. -/
structure Scan where
  vol : Volume
  jsb : Ptr
  i : Nat
  running : Bool
  dbFound : Bool
  currDesc : Nat

inductive Round
  | next (s : Scan)
  | done (s : Scan)
  | fail

/-- One round of the loop over the journal. All its branches stop at a block with
another sequence number. -/
def scanRound (pass : Pass) (s : Scan) : Round :=
  let jdb := blockAt fs s.vol (fs.journalBlk s.i)
  if hSequence jdb ≠ sSequence s.jsb then .done s
  else if hBlocktype jdb = 1 then
    if s.running then .fail
    else .next { s with
      currDesc := s.i, running := true, i := skipTags fs jdb fs.blksz 12 s.i + 1, dbFound := true }
  else if hBlocktype jdb = 2 then
    let s' :=
      if s.running ∨ s.dbFound = false then
        { s with running := false, i := s.i + 1, jsb := setSequence s.jsb (sSequence s.jsb + 1) }
      else s
    let vol :=
      if pass = .recover ∧ s.dbFound then recoverTransaction fs s.vol s.currDesc else s.vol
    .next { s' with vol := vol, dbFound := false }
  else if hBlocktype jdb = 5 then
    let vol :=
      if pass = .scan then { s.vol with revoked := s.vol.revoked ++ [jdb] } else s.vol
    .next { s with vol := vol, i := s.i + 1 }
  else .next s

/-- The loop over the journal. -/
def scanLoop (pass : Pass) : Nat → Scan → Option (Option Scan)
  | 0, _ => none
  | fuel + 1, s =>
    match scanRound fs pass s with
    | .next s => scanLoop pass fuel s
    | .done s => some (some s)
    | .fail => some none

/-- The end of `ext4fs_check_journal_state`. -/
def finishPass (pass : Pass) (v : Volume) (jsb : Ptr) : Volume :=
  if pass = .recover then
    let jsb := setBe32 jsb 28 1
    let jsb := setSequence jsb (sSequence jsb + 1)
    let sb := v.disk.add superblockSize
    let sb := setLe32 sb 96 (le32At sb 96 ||| 4)
    let v := putExt4 fs v superblockSize superblockSize sb
    let v := { v with sb := v.disk.add superblockSize }
    { putBlock fs v (fs.journalBlk 0) jsb with revoked := [] }
  else v

/-- `ext4fs_check_journal_state`: nothing without enough fuel, else the volume or the
error. -/
def checkJournalState (pass : Pass) (fuel : Nat) (v : Volume) : Option (Option Volume) :=
  let jsb := journalSuperblock fs v
  if needsRecovery v.sb = false ∨ sStart jsb = 0 then some (some (finishPass fs pass v jsb))
  else
    let jsb := setBe32 jsb 36 (sFeatureCompat jsb ||| 1)
    (scanLoop fs pass fuel ⟨v, jsb, (sFirst jsb).toNat, false, false, 0⟩).map fun result =>
      result.map fun s => finishPass fs pass s.vol s.jsb

/-- What `ext4fs_init` starts from: the superblock is read and nothing is revoked. -/
def mount (v : Volume) : Volume := ⟨v.disk, v.disk.add superblockSize, [], []⟩

/-- The two passes of `ext4fs_init_journal`. -/
def checkJournal (fuel : Nat) (v : Volume) : Option (Option Volume) :=
  match checkJournalState fs .scan fuel v with
  | some (some v) => checkJournalState fs .recover fuel v
  | result => result

end

end UBoot.Ext4
