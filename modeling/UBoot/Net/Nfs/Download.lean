import UBoot.Net.Nfs.Basic
import UBoot.Verification.Memory
import UBoot.Verification.Run

/-!
# Downloading a file over a network that delays and duplicates

The world is the client and every request it has sent. The network may lose a
reply, deliver it late or more than once, and in any order: a step delivers
some answer to some earlier request. Each request has an id of its own, so the
reply with the last id answers the last request.

All handlers drop a reply with an earlier id, and the one of `STATE_READ_REQ`
goes on to treat the drop as an error and unmounts.
-/

namespace UBoot.Net.Nfs

open Verification

/-- The contents of the regular files, by handle. -/
abbrev Files := List UInt8 → Option (List UInt8)

/-- What an answer to a read says: the bytes that were asked for, none only at
the end of the file, and that a regular file is neither a directory nor a link. -/
structure ReadAnswer (files : Files) (fh : List UInt8) (offset readlen : UInt32) (r : Reply) :
    Prop where
  contents : r.rstatus = 0 → r.verifier = 0 → r.astatus = 0 → r.word 0 = 0 →
    ∃ bytes, files fh = some bytes ∧ (r.word 18).toNat ≤ readlen.toNat ∧
      offset.toNat + (r.word 18).toNat ≤ bytes.length ∧
      r.payload.take (r.word 18).toNat = (bytes.drop offset.toNat).take (r.word 18).toNat ∧
      ((r.word 18).toNat = 0 → bytes.length ≤ offset.toNat)
  regular : files fh ≠ none → r.rstatus = 0 → r.astatus = 0 →
    r.word 0 ≠ 21 ∧ r.word 0 ≠ 22

/-- The server answers a request. Only reads are constrained. -/
def Answers (files : Files) (req : Request) (r : Reply) : Prop :=
  r.id = req.id ∧
    match req.call with
    | .read fh offset readlen => ReadAnswer files fh offset readlen r
    | _ => True

structure World where
  client : Client
  sent : List Request

/-- A reply answers the request number `n`. -/
inductive Event where
  | start (path filename : List UInt8)
  | timeout
  | reply (n : Nat) (r : Reply)

/-- Replies and timeouts are only seen while the network loop runs. -/
def react (c : Client) : Event → Client × List Request
  | .start path filename => nfsStart c path filename
  | .timeout => if c.status = .running then nfsTimeout c else (c, [])
  | .reply _ r => if c.status = .running then nfsHandler c r else (c, [])

def World.step (w : World) (event : Event) : World :=
  ⟨(react w.client event).1, w.sent ++ (react w.client event).2⟩

/-- A delivered reply is an answer to a request that was sent. -/
def Delivered (files : Files) (w : World) : Event → Prop
  | .reply n r => ∃ req, w.sent[n]? = some req ∧ Answers files req r
  | _ => True

/-- The reply does not run into what the client gets wrong: it is not a late
one in `STATE_READ_REQ`, the ids have not gone round since its request, and a
failed read has an error number. -/
def Regular (w : World) : Event → Prop
  | .reply n r =>
    (r.id < w.client.rpcId → w.client.status = .running → w.client.state ≠ .readReq) ∧
    w.sent.length ≤ n + 4294967296 ∧
    (w.client.state = .readReq → r.id = w.client.rpcId → r.rstatus = 0 → r.astatus = 0 →
      r.verifier ≠ 0 ∨ r.word 0 ≠ 0 → 0 < (r.word 0).toNat ∧ (r.word 0).toNat ≤ 2147483648)
  | _ => True

/-- What a late reply must not touch. -/
structure Unaffected (c c' : Client) : Prop where
  mem : c'.mem = c.mem
  state : c'.state = c.state
  nfsOffset : c'.nfsOffset = c.nfsOffset
  dirfh : c'.dirfh = c.dirfh
  filefh : c'.filefh = c.filefh
  downloadState : c'.downloadState = c.downloadState
  status : c'.status = c.status

/-- A reply with an id below the last one leaves the transfer alone. -/
def LateHarmless (w : World) (event : Event) (w' : World) : Prop :=
  ∀ n r, event = .reply n r → r.id < w.client.rpcId → Unaffected w.client w'.client

/-- A successful download has stored the file. -/
def Complete (files : Files) (c : Client) : Prop :=
  c.downloadState = .success → ∃ bytes, files c.filefh = some bytes ∧
    Stored c.mem bytes bytes.length ∧ c.xferSize.toNat = bytes.length

/-! ### The outcomes of a reply -/

/-- The three outcomes of a reply that is handled like the others. -/
theorem dispatch_cases (c : Client) (r : Reply) (refused : Bool) (accepted : Client)
    (onError onReply : Client → Client × List Request) :
    (r.id < c.rpcId ∧ dispatch (acceptReply c r refused accepted) onError onReply = (c, [])) ∨
      (¬r.id < c.rpcId ∧
        dispatch (acceptReply c r refused accepted) onError onReply = onError c) ∨
      (r.id = c.rpcId ∧
        dispatch (acceptReply c r refused accepted) onError onReply = onReply accepted) := by
  unfold dispatch acceptReply checkId
  by_cases hlt : r.id < c.rpcId
  · have hgt : ¬r.id > c.rpcId := fun hgt => UInt32.lt_asymm hlt hgt
    simp [hgt, hlt]
  · by_cases hgt : r.id > c.rpcId
    · simp [hgt, hlt, NFS_RPC_ERR, NFS_RPC_DROP]
    · have heq : r.id = c.rpcId :=
        UInt32.le_antisymm (UInt32.not_lt.mp hgt) (UInt32.not_lt.mp hlt)
      cases refused <;> simp [heq, NFS_RPC_ERR, NFS_RPC_DROP]

/-- What a step before the file is read, or after it, leaves alone. -/
structure Keeps (c c' : Client) : Prop where
  rpcId : c'.rpcId = c.rpcId
  mem : c'.mem = c.mem
  downloadState : c'.downloadState = c.downloadState
  xferSize : c'.xferSize = c.xferSize

/-- What a reply does outside `STATE_READ_REQ`. A late one does nothing;
another one moves on to a state in which the file is not being read or is read
from the start, or it ends the unmounting. -/
inductive Handled (c : Client) (r : Reply) : Client × List Request → Prop where
  | late (hid : r.id < c.rpcId) : Handled c r (c, [])
  | moved (c' : Client) (hid : ¬r.id < c.rpcId) (keeps : Keeps c c')
      (before : c.state ≠ .umountReq)
      (fresh : c'.state = .readReq → c'.nfsOffset = 0 ∧ c'.nfsLen = NFS_READ_SIZE) :
      Handled c r (nfsSend c')
  | ended (c' : Client) (hid : ¬r.id < c.rpcId) (keeps : Keeps c c')
      (before : c.state = .umountReq) (after : c'.state = .umountReq)
      (filefh : c'.filefh = c.filefh) : Handled c r (c', [])

theorem handled_dispatch {c accepted : Client} {r : Reply} (refused : Bool)
    {onError onReply : Client → Client × List Request}
    (herror : ¬r.id < c.rpcId → Handled c r (onError c))
    (hreply : ¬r.id < c.rpcId → Handled c r (onReply accepted)) :
    Handled c r (dispatch (acceptReply c r refused accepted) onError onReply) := by
  obtain ⟨hid, h⟩ | ⟨hid, h⟩ | ⟨hid, h⟩ := dispatch_cases c r refused accepted onError onReply
  · rw [h]
    exact .late hid
  · rw [h]
    exact herror hid
  · rw [h]
    apply hreply
    rw [hid]
    exact UInt32.lt_irrefl _

theorem handled_nfsHandler (c : Client) (r : Reply) (hs : c.state ≠ .readReq) :
    Handled c r (nfsHandler c r) := by
  unfold nfsHandler
  cases hstate : c.state with
  | readReq => exact absurd hstate hs
  | prclookupProgMountReq =>
    exact handled_dispatch _
      (fun hid => .moved _ hid ⟨rfl, rfl, rfl, rfl⟩ (by simp [hstate]) (by simp))
      (fun hid => .moved _ hid ⟨rfl, rfl, rfl, rfl⟩ (by simp [hstate]) (by simp))
  | prclookupProgNfsReq =>
    exact handled_dispatch _
      (fun hid => .moved _ hid ⟨rfl, rfl, rfl, rfl⟩ (by simp [hstate]) (by simp))
      (fun hid => .moved _ hid ⟨rfl, rfl, rfl, rfl⟩ (by simp [hstate]) (by simp))
  | mountReq =>
    exact handled_dispatch _
      (fun hid => .moved _ hid ⟨rfl, rfl, rfl, rfl⟩ (by simp [hstate]) (by simp))
      (fun hid => .moved _ hid ⟨rfl, rfl, rfl, rfl⟩ (by simp [hstate]) (by simp))
  | umountReq =>
    exact handled_dispatch _
      (fun hid => .ended _ hid ⟨rfl, rfl, rfl, rfl⟩ hstate hstate rfl)
      (fun hid => .ended _ hid ⟨rfl, rfl, rfl, rfl⟩ hstate hstate rfl)
  | lookupReq =>
    exact handled_dispatch _
      (fun hid => .moved _ hid ⟨rfl, rfl, rfl, rfl⟩ (by simp [hstate]) (by simp))
      (fun hid => .moved _ hid ⟨rfl, rfl, rfl, rfl⟩ (by simp [hstate]) (fun _ => ⟨rfl, rfl⟩))
  | readlinkReq =>
    exact handled_dispatch _
      (fun hid => .moved _ hid ⟨rfl, rfl, rfl, rfl⟩ (by simp [hstate]) (by simp))
      (fun hid => .moved _ hid ⟨rfl, rfl, rfl, rfl⟩ (by simp [hstate]) (by simp))

/-- Outside `STATE_READ_REQ` a late reply does nothing at all. -/
theorem nfsHandler_late {c : Client} {r : Reply} (h : r.id < c.rpcId) (hs : c.state ≠ .readReq) :
    nfsHandler c r = (c, []) := by
  have handled := handled_nfsHandler c r hs
  generalize nfsHandler c r = result at handled
  cases handled with
  | late => rfl
  | moved _ hid => exact absurd h hid
  | ended _ hid => exact absurd h hid

theorem lateHarmless_step {w : World} {event : Event} (ok : Regular w event) :
    LateHarmless w event (w.step event) := by
  rintro n r rfl hlate
  have hclient : (w.step (.reply n r)).client = w.client := by
    by_cases hrun : w.client.status = .running
    · simp [World.step, react, hrun, nfsHandler_late hlate (ok.1 hlate hrun)]
    · simp [World.step, react, hrun]
  rw [hclient]
  exact ⟨rfl, rfl, rfl, rfl, rfl, rfl, rfl⟩

/-! ### Request numbers -/

/-- `NfsSend` sends one request, or none when it unmounts. -/
theorem nfsSend_cases (c : Client) :
    (c.state = .umountReq ∧ nfsSend c = (c, [])) ∨
      ∃ call, nfsSend c = rpcReq c call ∧
        (c.state = .readReq → call = .read c.filefh c.nfsOffset c.nfsLen) := by
  unfold nfsSend
  cases hs : c.state with
  | umountReq =>
    dsimp only
    unfold nfsUmountallReq
    split_ifs
    · exact .inl ⟨rfl, rfl⟩
    · exact .inr ⟨_, rfl, fun h => nomatch h⟩
  | readReq => exact .inr ⟨_, rfl, fun _ => rfl⟩
  | prclookupProgMountReq => exact .inr ⟨_, rfl, fun h => nomatch h⟩
  | prclookupProgNfsReq => exact .inr ⟨_, rfl, fun h => nomatch h⟩
  | mountReq => exact .inr ⟨_, rfl, fun h => nomatch h⟩
  | lookupReq => exact .inr ⟨_, rfl, fun h => nomatch h⟩
  | readlinkReq => exact .inr ⟨_, rfl, fun h => nomatch h⟩

/-! ### The invariant -/

/-- Right after the first `xferSize` bytes of the file the client reads on, and
the download succeeds only when all of it is there. -/
structure ClientOk (files : Files) (c : Client) : Prop where
  reading : c.state = .readReq → c.nfsLen = NFS_READ_SIZE ∧ c.xferSize = c.nfsOffset ∧
    (files c.filefh = none → c.nfsOffset = 0) ∧
    ∀ bytes, files c.filefh = some bytes →
      c.nfsOffset.toNat ≤ bytes.length ∧ Stored c.mem bytes c.nfsOffset.toNat
  idle : c.state ≠ .readReq → c.state ≠ .umountReq → c.xferSize = 0
  running : c.state ≠ .umountReq → c.downloadState ≠ .success
  complete : Complete files c

theorem ClientOk.rpcId {files : Files} {c : Client} (ok : ClientOk files c) (id : UInt32) :
    ClientOk files { c with rpcId := id } :=
  ⟨ok.reading, ok.idle, ok.running, ok.complete⟩

theorem ClientOk.nfsSend {files : Files} {c : Client} (ok : ClientOk files c) :
    ClientOk files (nfsSend c).1 := by
  obtain ⟨-, h⟩ | ⟨call, h, -⟩ := nfsSend_cases c
  · rw [h]
    exact ok
  · rw [h]
    exact ok.rpcId _

/-- A file is read from the start on. -/
theorem ClientOk.fresh {files : Files} {c : Client} (hx : c.xferSize = 0)
    (hd : c.downloadState ≠ .success)
    (hf : c.state = .readReq → c.nfsOffset = 0 ∧ c.nfsLen = NFS_READ_SIZE) : ClientOk files c where
  reading hs := by
    obtain ⟨hoff, hlen⟩ := hf hs
    refine ⟨hlen, hx.trans hoff.symm, fun _ => hoff, fun bytes _ => ?_⟩
    rw [hoff]
    exact ⟨Nat.zero_le _, stored_zero _ _⟩
  idle _ _ := hx
  running _ := hd
  complete h := absurd h hd

/-! ### Reading -/

theorem intOf_neg {w : UInt32} (hpos : 0 < w.toNat) (hle : w.toNat ≤ 2147483648) :
    intOf (0 - w) = -(w.toNat : Int) := by
  have hsub : (0 - w).toNat = 4294967296 - w.toNat := by
    rw [UInt32.toNat_sub]
    have : (0 : UInt32).toNat = 0 := rfl
    omega
  unfold intOf
  rw [hsub]
  split_ifs <;> omega

theorem intOf_small {w : UInt32} (h : w.toNat ≤ 1024) : intOf w = w.toNat := by
  unfold intOf
  split_ifs <;> omega

theorem ofInt_toNat (w : UInt32) : UInt32.ofInt w.toNat = w := by
  have := w.toNat_lt
  apply UInt32.toNat_inj.mp
  rw [UInt32.ofInt, UInt32.toNat_ofNat']
  omega

/-- The answer to a read that was not refused. -/
def Reply.accepted (r : Reply) : Prop :=
  r.rstatus = 0 ∧ r.verifier = 0 ∧ r.astatus = 0 ∧ r.word 0 = 0

/-- The outcomes of `nfs_read_reply` for a reply that is not late: an error
that leaves the client alone, or a block. -/
theorem nfsReadReply_cases {c : Client} {r : Reply} (hlate : ¬r.id < c.rpcId)
    (herr : r.id = c.rpcId → r.rstatus = 0 → r.astatus = 0 → r.verifier ≠ 0 ∨ r.word 0 ≠ 0 →
      0 < (r.word 0).toNat ∧ (r.word 0).toNat ≤ 2147483648) :
    (∃ rlen, nfsReadReply c r = (c, rlen) ∧ rlen < 0 ∧
      (rlen = -NFSERR_ISDIR ∨ rlen = -NFSERR_INVAL → r.id = c.rpcId ∧ r.rstatus = 0 ∧
        r.astatus = 0 ∧ (r.word 0 = 21 ∨ r.word 0 = 22))) ∨
    (r.id = c.rpcId ∧ r.accepted ∧
      nfsReadReply c r =
        (storeBlock c r.payload c.nfsOffset (r.word 18), intOf (r.word 18))) := by
  unfold nfsReadReply checkId
  by_cases hgt : r.id > c.rpcId
  · refine .inl ⟨-NFS_RPC_ERR, by simp [hgt], by decide, ?_⟩
    simp [NFS_RPC_ERR, NFSERR_ISDIR, NFSERR_INVAL]
  · have heq : r.id = c.rpcId :=
      UInt32.le_antisymm (UInt32.not_lt.mp hgt) (UInt32.not_lt.mp hlate)
    simp only [hgt, hlate, if_false]
    by_cases hok : r.accepted
    · obtain ⟨h1, h2, h3, h4⟩ := hok
      refine .inr ⟨heq, ⟨h1, h2, h3, h4⟩, ?_⟩
      simp [Reply.failed, h1, h2, h3, h4]
    · left
      have hfail : (r.failed || r.word 0 ≠ 0) = true := by
        simp only [Reply.accepted] at hok
        simp only [Reply.failed, Bool.or_eq_true, decide_eq_true_eq]
        tauto
      rw [if_pos hfail]
      by_cases h1 : r.rstatus = 0
      · by_cases h3 : r.astatus = 0
        · have hcause : r.verifier ≠ 0 ∨ r.word 0 ≠ 0 := by
            simp only [Reply.accepted] at hok
            tauto
          obtain ⟨hpos, hle⟩ := herr heq h1 h3 hcause
          refine ⟨-((r.word 0).toNat : Int), ?_, by omega, ?_⟩
          · rw [if_neg (not_not.mpr h1), if_neg (not_not.mpr h3), intOf_neg hpos hle]
          simp only [NFSERR_ISDIR, NFSERR_INVAL]
          intro h
          refine ⟨heq, h1, h3, h.imp (fun h => ?_) fun h => ?_⟩ <;>
          · apply UInt32.toNat_inj.mp
            have h21 : (21 : UInt32).toNat = 21 := rfl
            have h22 : (22 : UInt32).toNat = 22 := rfl
            omega
        · refine ⟨-9999, by simp [h1, h3], by decide, ?_⟩
          simp [NFSERR_ISDIR, NFSERR_INVAL]
      · refine ⟨-9999, by simp [h1], by decide, ?_⟩
        simp [NFSERR_ISDIR, NFSERR_INVAL]

/-- The file ends, or cannot be read on. -/
theorem ClientOk.umount {files : Files} {c : Client} (hc : Complete files c) :
    ClientOk files { c with state := .umountReq } where
  reading h := nomatch h
  idle _ h := absurd rfl h
  running h := absurd rfl h
  complete := hc

/-- A block of the file is stored behind what is there already. -/
theorem ClientOk.block {files : Files} {c : Client} {bytes src : List UInt8} {len : UInt32}
    (ok : ClientOk files c) (hs : c.state = .readReq) (hfile : files c.filefh = some bytes)
    (hsize : bytes.length < 4294967296) (hle : c.nfsOffset.toNat + len.toNat ≤ bytes.length)
    (hsrc : src.take len.toNat = (bytes.drop c.nfsOffset.toNat).take len.toNat) :
    Stored (storeBlock c src c.nfsOffset len).mem bytes (c.nfsOffset + len).toNat ∧
      (storeBlock c src c.nfsOffset len).xferSize = c.nfsOffset + len ∧
      (c.nfsOffset + len).toNat = c.nfsOffset.toNat + len.toNat := by
  obtain ⟨-, hxfer, -, hsome⟩ := ok.reading hs
  have hsum : (c.nfsOffset + len).toNat = c.nfsOffset.toNat + len.toNat := by
    rw [UInt32.toNat_add]
    omega
  refine ⟨?_, ?_, hsum⟩
  · rw [hsum]
    exact (hsome bytes hfile).2.block hle hsize hsrc
  · simp only [storeBlock, hxfer, UInt32.lt_iff_toNat_lt, hsum]
    split_ifs with hlt
    · rfl
    · apply UInt32.toNat_inj.mp
      rw [hsum]
      omega

/-- A reply to a read, not late, leads on to the next part of the file. -/
theorem ClientOk.read {files : Files} {c : Client} {r : Reply}
    (hfiles : ∀ fh bytes, files fh = some bytes → bytes.length < 4294967296)
    (ok : ClientOk files c) (hs : c.state = .readReq) (hlate : ¬r.id < c.rpcId)
    (answer : r.id = c.rpcId → ReadAnswer files c.filefh c.nfsOffset c.nfsLen r)
    (herr : r.id = c.rpcId → r.rstatus = 0 → r.astatus = 0 → r.verifier ≠ 0 ∨ r.word 0 ≠ 0 →
      0 < (r.word 0).toNat ∧ (r.word 0).toNat ≤ 2147483648) :
    ClientOk files (nfsHandler c r).1 := by
  obtain ⟨hlen, hxfer, hnone, -⟩ := ok.reading hs
  have hfail : c.downloadState ≠ .success := ok.running (by simp [hs])
  unfold nfsHandler
  rw [hs]
  obtain ⟨rlen, hreply, hneg, hlink⟩ | ⟨hid, ⟨h1, h2, h3, h4⟩, hreply⟩ :=
    nfsReadReply_cases hlate herr
  · simp only [hreply, show ¬rlen > 0 by omega, show ¬rlen = 0 by omega, if_false]
    split_ifs with hdir
    · -- Only what is not a regular file leads to a link, before any block of it.
      obtain ⟨hid, h1, h3, hword⟩ := hlink hdir
      have hno : files c.filefh = none := by
        by_contra hfile
        have := (answer hid).regular hfile h1 h3
        tauto
      exact (ClientOk.fresh (c := { c with state := .readlinkReq })
        (hxfer.trans (hnone hno)) hfail (fun h => nomatch h)).nfsSend
    · exact (ClientOk.umount ok.complete).nfsSend
  · obtain ⟨bytes, hfile, hread, hle, hsrc, hend⟩ := (answer hid).contents h1 h2 h3 h4
    obtain ⟨hstored, hsize, hsum⟩ := ok.block hs hfile (hfiles _ _ hfile) hle hsrc
    have hsmall : (r.word 18).toNat ≤ 1024 := by
      rw [hlen] at hread
      exact hread
    simp only [hreply, intOf_small hsmall]
    by_cases hzero : (r.word 18).toNat = 0
    · have hdone : bytes.length = (c.nfsOffset + r.word 18).toNat := by
        have := hend hzero
        omega
      have hcomplete : Complete files
          { storeBlock c r.payload c.nfsOffset (r.word 18) with downloadState := .success } :=
        fun _ => ⟨bytes, hfile, by rw [hdone]; exact hstored, by rw [hdone, ← hsize]⟩
      simp only [hzero, Nat.cast_zero, NFSERR_ISDIR, NFSERR_INVAL]
      exact (ClientOk.umount hcomplete).nfsSend
    · rw [if_pos (by omega)]
      have hnext : ClientOk files { storeBlock c r.payload c.nfsOffset (r.word 18) with
          nfsOffset := c.nfsOffset + UInt32.ofInt (r.word 18).toNat } := by
        rw [ofInt_toNat]
        refine ⟨fun _ => ⟨hlen, hsize, fun h => ?_, fun bytes' h => ?_⟩, fun h => absurd hs h,
          fun _ => hfail, fun h => absurd h hfail⟩
        · exact nomatch h.symm.trans hfile
        · obtain rfl : bytes = bytes' := Option.some.inj (hfile.symm.trans h)
          exact ⟨hsum ▸ hle, hstored⟩
      exact hnext.nfsSend

/-! ### Whole runs -/

/-- What a step does to the requests: it sends nothing and leaves a read that
is under way as it is, or it ends with `NfsSend`. -/
inductive Reacted (c : Client) : Client × List Request → Prop where
  | quiet (c' : Client) (rpcId : c'.rpcId = c.rpcId)
      (same : c'.state = .readReq → c.state = .readReq ∧ c'.filefh = c.filefh ∧
        c'.nfsOffset = c.nfsOffset ∧ c'.nfsLen = c.nfsLen) : Reacted c (c', [])
  | sends (c' : Client) (rpcId : c'.rpcId = c.rpcId) : Reacted c (nfsSend c')

theorem Reacted.refl (c : Client) : Reacted c (c, []) :=
  .quiet c rfl fun h => ⟨h, rfl, rfl, rfl⟩

theorem nfsReadReply_rpcId (c : Client) (r : Reply) : (nfsReadReply c r).1.rpcId = c.rpcId := by
  unfold nfsReadReply storeBlock
  split
  · rfl
  · split_ifs <;> rfl

theorem reacted_nfsHandler (c : Client) (r : Reply) : Reacted c (nfsHandler c r) := by
  by_cases hs : c.state = .readReq
  · have hid := nfsReadReply_rpcId c r
    unfold nfsHandler
    rw [hs]
    dsimp only
    split_ifs
    · exact .sends _ hid
    · exact .sends _ hid
    · exact .sends _ hid
    · exact .sends _ hid
  · have handled := handled_nfsHandler c r hs
    generalize nfsHandler c r = result at handled
    cases handled with
    | late => exact .refl c
    | moved c' _ keeps => exact .sends c' keeps.rpcId
    | ended c' _ keeps _ after => exact .quiet c' keeps.rpcId (by simp [after])

theorem reacted_react (c : Client) (event : Event) : Reacted c (react c event) := by
  cases event with
  | start path filename =>
    simp only [react, nfsStart]
    exact .sends _ rfl
  | timeout =>
    simp only [react, nfsTimeout]
    split_ifs
    · exact .quiet _ rfl fun h => ⟨h, rfl, rfl, rfl⟩
    · exact .sends _ rfl
    · exact .refl c
  | reply n r =>
    simp only [react]
    split_ifs
    · exact reacted_nfsHandler c r
    · exact .refl c

/-- Requests are numbered in turn, and the last one asks for what the client is
waiting for. -/
structure RequestsOk (base : UInt32) (w : World) : Prop where
  rpcId : w.client.rpcId = base + UInt32.ofNat w.sent.length
  ids : ∀ (n : Nat) (req : Request), w.sent[n]? = some req → req.id = base + UInt32.ofNat (n + 1)
  last : w.client.state = .readReq → ∃ before, w.sent =
    before ++ [⟨w.client.rpcId, .read w.client.filefh w.client.nfsOffset w.client.nfsLen⟩]

theorem RequestsOk.step {base : UInt32} {w : World} (ok : RequestsOk base w) (event : Event) :
    RequestsOk base (w.step event) := by
  have reacted := reacted_react w.client event
  unfold World.step
  generalize react w.client event = result at reacted
  cases reacted with
  | quiet c' hid same =>
    simp only [List.append_nil]
    refine ⟨hid.trans ok.rpcId, ok.ids, fun hs => ?_⟩
    obtain ⟨hs', hfh, hoff, hlen⟩ := same hs
    simp only [hid, hfh, hoff, hlen]
    exact ok.last hs'
  | sends c' hid =>
    obtain ⟨hs, hsend⟩ | ⟨call, hsend, hread⟩ := nfsSend_cases c'
    · rw [hsend]
      simp only [List.append_nil]
      exact ⟨hid.trans ok.rpcId, ok.ids, fun h => nomatch h.symm.trans hs⟩
    · have hnext : c'.rpcId + 1 = base + UInt32.ofNat (w.sent.length + 1) := by
        rw [hid, ok.rpcId, UInt32.ofNat_add, UInt32.add_assoc]
        rfl
      rw [hsend]
      refine ⟨by simpa [rpcReq] using hnext, fun n req hreq => ?_, fun hs => ?_⟩
      · obtain hlt | hge := Nat.lt_or_ge n w.sent.length
        · rw [List.getElem?_append_left hlt] at hreq
          exact ok.ids n req hreq
        · have hn : n = w.sent.length := by
            have := (List.getElem?_eq_some_iff.mp hreq).1
            simp [rpcReq] at this
            omega
          subst hn
          simp only [rpcReq, List.getElem?_concat_length, Option.some.injEq] at hreq
          rw [← hreq]
          exact hnext
      · refine ⟨w.sent, ?_⟩
        rw [hread hs]
        rfl

theorem ClientOk.start (files : Files) (c : Client) (path filename : List UInt8) :
    ClientOk files (nfsStart c path filename).1 :=
  (ClientOk.fresh (c := { c with
    downloadState := .fail, path := path, filename := filename, timeoutCount := 0,
    state := .prclookupProgMountReq, xferSize := 0, status := .running })
    rfl (by simp) (fun h => nomatch h)).nfsSend

theorem ClientOk.timeout {files : Files} {c : Client} (ok : ClientOk files c) :
    ClientOk files (nfsTimeout c).1 := by
  have counted : ClientOk files { c with timeoutCount := c.timeoutCount + 1 } :=
    ⟨ok.reading, ok.idle, ok.running, ok.complete⟩
  unfold nfsTimeout
  split_ifs
  · exact ⟨ok.reading, ok.idle, ok.running, ok.complete⟩
  · exact counted.nfsSend

/-- A reply outside `STATE_READ_REQ`. -/
theorem ClientOk.handled {files : Files} {c : Client} {r : Reply} {result : Client × List Request}
    (ok : ClientOk files c) (hs : c.state ≠ .readReq) (handled : Handled c r result) :
    ClientOk files result.1 := by
  cases handled with
  | late => exact ok
  | moved c' _ keeps before fresh =>
    refine (ClientOk.fresh ?_ ?_ fresh).nfsSend
    · rw [keeps.xferSize]
      exact ok.idle hs before
    · rw [keeps.downloadState]
      exact ok.running before
  | ended c' _ keeps _ after hfh =>
    refine ⟨fun h => (nomatch h.symm.trans after), fun _ h => absurd after h,
      fun h => absurd after h, fun h => ?_⟩
    rw [keeps.mem, keeps.xferSize, hfh]
    exact ok.complete (keeps.downloadState ▸ h)

structure Sound (files : Files) (base : UInt32) (w : World) : Prop where
  client : ClientOk files w.client
  requests : RequestsOk base w

/-- A reply with the last id answers the last request. -/
theorem Sound.answer {files : Files} {base : UInt32} {w : World} {n : Nat} {r : Reply}
    (ok : Sound files base w) (delivered : Delivered files w (.reply n r))
    (hwrap : w.sent.length ≤ n + 4294967296) (hs : w.client.state = .readReq)
    (hid : r.id = w.client.rpcId) :
    ReadAnswer files w.client.filefh w.client.nfsOffset w.client.nfsLen r := by
  obtain ⟨req, hreq, hansid, hans⟩ := delivered
  have hlt := (List.getElem?_eq_some_iff.mp hreq).1
  have hsame : UInt32.ofNat (n + 1) = UInt32.ofNat w.sent.length := by
    apply UInt32.add_right_inj base |>.mp
    rw [← ok.requests.ids n req hreq, ← hansid, hid, ok.requests.rpcId]
  have hn : n + 1 = w.sent.length := by
    have := congrArg UInt32.toNat hsame
    rw [UInt32.toNat_ofNat', UInt32.toNat_ofNat'] at this
    omega
  obtain ⟨before, hsent⟩ := ok.requests.last hs
  have hlast : n = before.length := by
    have := congrArg List.length hsent
    simp at this
    omega
  rw [hsent, hlast, List.getElem?_concat_length, Option.some.injEq] at hreq
  subst hreq
  exact hans

theorem Sound.step {files : Files} {base : UInt32} {w : World} {event : Event}
    (hfiles : ∀ fh bytes, files fh = some bytes → bytes.length < 4294967296)
    (ok : Sound files base w) (delivered : Delivered files w event) (regular : Regular w event) :
    Sound files base (w.step event) := by
  refine ⟨?_, ok.requests.step event⟩
  cases event with
  | start path filename => exact ClientOk.start files w.client path filename
  | timeout =>
    simp only [World.step, react]
    split_ifs
    · exact ok.client.timeout
    · exact ok.client
  | reply n r =>
    simp only [World.step, react]
    split_ifs with hrun
    · by_cases hs : w.client.state = .readReq
      · obtain ⟨hlate, hwrap, herr⟩ := regular
        exact ok.client.read hfiles hs (fun h => hlate h hrun hs)
          (ok.answer delivered hwrap hs) (herr hs)
      · exact ok.client.handled hs (handled_nfsHandler w.client r hs)
    · exact ok.client

/-- The world right after `NfsStart`, whatever the client did before. -/
def World.begin (c : Client) (path filename : List UInt8) : World :=
  World.step ⟨c, []⟩ (.start path filename)

theorem Sound.begin (files : Files) (c : Client) (path filename : List UInt8) :
    Sound files c.rpcId (World.begin c path filename) := by
  -- The first thing `NfsStart` does is to set the state.
  have idle : RequestsOk c.rpcId ⟨{ c with state := .umountReq }, []⟩ :=
    ⟨by simp, fun n req h => (nomatch h), fun hs => (nomatch hs)⟩
  exact ⟨ClientOk.start files c path filename, idle.step (.start path filename)⟩

/-- NFS files have a size of 32 bits. In every run in which replies are lost,
delayed, duplicated and reordered, but none of them is late while the file is
being read, a late reply is ignored and a download that succeeds has stored the
file. -/
theorem nfs_download_complete (files : Files)
    (hfiles : ∀ fh bytes, files fh = some bytes → bytes.length < 4294967296)
    (c : Client) (path filename : List UInt8) (events : List Event)
    (ok : Guarded World.step (fun w event => Delivered files w event ∧ Regular w event)
      (World.begin c path filename) events) :
    Complete files (run World.step (World.begin c path filename) events).client ∧
      ∀ first event rest, events = first ++ event :: rest →
        LateHarmless (run World.step (World.begin c path filename) first) event
          (run World.step (World.begin c path filename) (first ++ [event])) := by
  have keep : ∀ w event, Sound files c.rpcId w → Delivered files w event ∧ Regular w event →
      Sound files c.rpcId (w.step event) := fun w event hw hok => hw.step hfiles hok.1 hok.2
  refine ⟨(ok.invariant keep (Sound.begin files c path filename)).client.complete, ?_⟩
  rintro first event rest rfl
  obtain ⟨-, hevent, -⟩ := Guarded.append_iff.mp ok
  rw [run_append, run_cons, run_nil]
  exact lateHarmless_step hevent.2

/-- A client that has not sent anything. -/
def idleClient : Client where
  fsMounted := false
  rpcId := 0
  nfsOffset := 0
  nfsLen := 0
  dirfh := []
  filefh := []
  downloadState := .running
  srvMountPort := 0
  srvNfsPort := 0
  timeoutCount := 0
  state := .umountReq
  path := []
  filename := []
  mem := fun _ => 0
  xferSize := 0
  status := .running

/-- A server with a single file of three bytes. -/
def oneFile : Files := fun fh => if fh = List.replicate 32 0 then some [1, 2, 3] else none

/-- A reply without an error. -/
def fine (id : UInt32) (data : List UInt8) : Reply := ⟨id, 0, 0, 0, data⟩

theorem regular_fine {w : World} {n : Nat} {id : UInt32} {data : List UInt8}
    (hid : ¬id < w.client.rpcId) (hlen : w.sent.length ≤ n + 4294967296)
    (hword : (fine id data).word 0 = 0) : Regular w (.reply n (fine id data)) :=
  ⟨fun h => absurd h hid, hlen, fun _ _ _ _ h => (h.elim (absurd rfl) (absurd hword))⟩

theorem oneFile_length {fh bytes : List UInt8} (h : oneFile fh = some bytes) :
    bytes.length < 4294967296 := by
  unfold oneFile at h
  split_ifs at h
  simp [← Option.some.inj h]

/-- Ports are looked up, the directory is mounted and the file is found. -/
def found : List Event :=
  [.reply 0 (fine 1 (List.replicate 4 0)), .reply 1 (fine 2 (List.replicate 4 0)),
    .reply 2 (fine 3 (List.replicate 36 0)), .reply 3 (fine 4 (List.replicate 36 0))]

/-- The file is read in one block, and the request for it is sent twice. -/
def readOne : List Event :=
  [.timeout, .reply 5 (fine 6 (List.replicate 75 0 ++ [3, 1, 2, 3])),
    .reply 6 (fine 7 (List.replicate 76 0))]

theorem nfs_download_complete_three :
    Complete oneFile
      (run World.step (World.begin idleClient [47] [102]) (found ++ readOne)).client := by
  refine (nfs_download_complete oneFile (fun _ _ => oneFile_length) idleClient [47] [102]
    (found ++ readOne)
    ⟨⟨⟨_, rfl, rfl, trivial⟩, regular_fine (by decide) (by decide) (by decide)⟩,
      ⟨⟨_, rfl, rfl, trivial⟩, regular_fine (by decide) (by decide) (by decide)⟩,
      ⟨⟨_, rfl, rfl, trivial⟩, regular_fine (by decide) (by decide) (by decide)⟩,
      ⟨⟨_, rfl, rfl, trivial⟩, regular_fine (by decide) (by decide) (by decide)⟩,
      ⟨trivial, trivial⟩,
      ⟨⟨⟨6, .read (List.replicate 32 0) 0 1024⟩, by decide, rfl, ?_⟩,
        regular_fine (by decide) (by decide) (by decide)⟩,
      ⟨⟨⟨7, .read (List.replicate 32 0) 3 1024⟩, by decide, rfl, ?_⟩,
        regular_fine (by decide) (by decide) (by decide)⟩, trivial⟩).1
  · refine ⟨fun _ _ _ _ => ⟨[1, 2, 3], by decide, by decide, by decide, by decide, by decide⟩,
      fun _ _ _ => by decide⟩
  · refine ⟨fun _ _ _ _ => ⟨[1, 2, 3], by decide, by decide, by decide, by decide, by decide⟩,
      fun _ _ _ => by decide⟩

/-- The answer to the lookup arrives twice, and the second one ends the
transfer. -/
theorem read_ended_by_late_reply :
    ¬∀ (files : Files), (∀ fh bytes, files fh = some bytes → bytes.length < 4294967296) →
      ∀ (c : Client) (path filename : List UInt8) (events : List Event),
        Guarded World.step (Delivered files) (World.begin c path filename) events →
          Complete files (run World.step (World.begin c path filename) events).client ∧
            ∀ first event rest, events = first ++ event :: rest →
              LateHarmless (run World.step (World.begin c path filename) first) event
                (run World.step (World.begin c path filename) (first ++ [event])) := by
  intro h
  have hlate := (h oneFile (fun _ _ => oneFile_length) idleClient [47] [102]
    (found ++ [Event.reply 3 (fine 4 (List.replicate 36 0))])
    ⟨⟨_, rfl, rfl, trivial⟩, ⟨_, rfl, rfl, trivial⟩, ⟨_, rfl, rfl, trivial⟩,
      ⟨_, rfl, rfl, trivial⟩, ⟨_, rfl, rfl, trivial⟩, trivial⟩).2 found _ [] rfl
  have hstate := (hlate 3 (fine 4 (List.replicate 36 0)) rfl (by decide)).state
  exact absurd hstate (by decide)

end UBoot.Net.Nfs
