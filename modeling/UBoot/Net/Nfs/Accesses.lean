import UBoot.Net.Nfs.Basic
import UBoot.Verification.Exact
import UBoot.Verification.Run

/-!
# The memory that the NFS handlers touch

The handlers of `net/nfs.c` once more, with the packet, the `rpc_t` on the
stack and `nfs_path_buff`. There is no result where a copy does not fit into
its buffer or a byte is looked at that was not received. `nfs_path` stays at the
start of its buffer; the memory that a file is loaded to is not checked.
-/

namespace UBoot.Net.Nfs

open Verification

/-- `sizeof(struct rpc_t)` and `sizeof(rpc_pkt.u.reply)` -/
def RPC_SIZE : Nat := 2048
def REPLY_SIZE : Nat := 100

/-- `sizeof(nfs_path_buff)` -/
def PATH_SIZE : Nat := 2048

/-- A packet, and what is on the stack where `rpc_pkt` will be. -/
structure Packet where
  stack : Ptr
  bytes : List UInt8

/-- `rpc_pkt`; its first bytes come from the packet. -/
structure RpcPkt where
  mem : Ptr
  received : Nat

/-- The client with `nfs_path_buff`. -/
structure Machine where
  client : Client
  buff : Ptr

/-! ### Accesses -/

/-- `memcpy(&rpc_pkt, pkt, n)` -/
def copyReply (pkt : Packet) (n : Nat) : Option RpcPkt :=
  if n ≤ RPC_SIZE ∧ n ≤ pkt.bytes.length then
    some ⟨pkt.stack.write 0 n (Ptr.ofList pkt.bytes), n⟩
  else none

/-- Received bytes of `rpc_pkt`. -/
def RpcPkt.read (rpc : RpcPkt) (i n : Nat) : Option (List UInt8) :=
  if i + n ≤ rpc.received then some ((rpc.mem.add i).bytes n) else none

/-- A received word of `rpc_pkt`, in the order of the host. -/
def RpcPkt.word (rpc : RpcPkt) (k : Nat) : Option UInt32 :=
  (rpc.read (4 * k) 4).map fun bs => UInt32.ofNat (beValue bs)

/-- `strlen` of a string in `nfs_path_buff`. -/
def strlen (buff : Ptr) : Option Nat := (List.range PATH_SIZE).find? fun i => buff i = 0

/-- The string in `nfs_path_buff`, if there is one. -/
def pathString (buff : Ptr) : Option (List UInt8) := (strlen buff).map buff.bytes

/-- Bytes are copied to an offset in `nfs_path_buff`. -/
def writePath (buff : Ptr) (i : Nat) (bs : List UInt8) : Option Ptr :=
  if i + bs.length ≤ PATH_SIZE then some (buff.write i bs.length (Ptr.ofList bs)) else none

/-! ### Replies -/

/-- The fields of the header that are compared with 0, one after the other; the
first word of the data is one of them in four handlers. -/
def RpcPkt.refused (rpc : RpcPkt) (dataToo : Bool) : Option Bool :=
  (rpc.word 2).bind fun rstatus =>
  if rstatus ≠ 0 then some true else
  (rpc.word 3).bind fun verifier =>
  if verifier ≠ 0 then some true else
  (rpc.word 5).bind fun astatus =>
  if astatus ≠ 0 then some true else
  if dataToo then (rpc.word 6).map (· ≠ 0) else some false

/-- The shape of all handlers but one. -/
def Machine.acceptReply (m : Machine) (pkt : Packet) (dataToo : Bool)
    (accepted : RpcPkt → Option Machine) : Option (Machine × Int) :=
  (copyReply pkt pkt.bytes.length).bind fun rpc =>
  (rpc.word 0).bind fun id =>
  if id > m.client.rpcId then some (m, -NFS_RPC_ERR)
  else if id < m.client.rpcId then some (m, -NFS_RPC_DROP)
  else (rpc.refused dataToo).bind fun refused =>
  if refused then some (m, -1) else (accepted rpc).map fun m => (m, 0)

/-- `rpc_lookup_reply` -/
def Machine.rpcLookupReply (prog : Prog) (m : Machine) (pkt : Packet) : Option (Machine × Int) :=
  m.acceptReply pkt false fun rpc => (rpc.word 6).map fun port =>
    match prog with
    | .mount => { m with client := { m.client with srvMountPort := port } }
    | .nfs => { m with client := { m.client with srvNfsPort := port } }

/-- `nfs_mount_reply` -/
def Machine.nfsMountReply (m : Machine) (pkt : Packet) : Option (Machine × Int) :=
  m.acceptReply pkt true fun rpc => (rpc.read 28 NFS_FHSIZE).map fun fh =>
    { m with client := { m.client with fsMounted := true, dirfh := fh } }

/-- `nfs_umountall_reply` -/
def Machine.nfsUmountallReply (m : Machine) (pkt : Packet) : Option (Machine × Int) :=
  m.acceptReply pkt false fun _ =>
    some { m with client :=
      { m.client with fsMounted := false, dirfh := List.replicate NFS_FHSIZE 0 } }

/-- `nfs_lookup_reply` -/
def Machine.nfsLookupReply (m : Machine) (pkt : Packet) : Option (Machine × Int) :=
  m.acceptReply pkt true fun rpc => (rpc.read 28 NFS_FHSIZE).map fun fh =>
    { m with client := { m.client with filefh := fh } }

/-- What `nfs_readlink_reply` does to the path. -/
def followLink (buff : Ptr) (rpc : RpcPkt) : Option Ptr :=
  (rpc.word 7).bind fun rlen =>
  (rpc.read 32 1).bind fun first =>
  if first ≠ [47] then
    (strlen buff).bind fun len =>
    (writePath buff len [47, 0]).bind fun buff =>
    (strlen buff).bind fun pathlen =>
    (rpc.read 32 rlen.toNat).bind fun link =>
    (writePath buff pathlen link).bind fun buff =>
    writePath buff (pathlen + rlen.toNat) [0]
  else
    (rpc.read 32 rlen.toNat).bind fun link =>
    (writePath buff 0 link).bind fun buff =>
    writePath buff rlen.toNat [0]

/-- `nfs_readlink_reply` -/
def Machine.nfsReadlinkReply (m : Machine) (pkt : Packet) : Option (Machine × Int) :=
  m.acceptReply pkt true fun rpc =>
    (followLink m.buff rpc).bind fun buff => (pathString buff).map fun path =>
      ⟨{ m.client with path := path }, buff⟩

/-- `nfs_read_reply`. The size of the structure is copied from any packet. -/
def Machine.nfsReadReply (m : Machine) (pkt : Packet) : Option (Machine × Int) :=
  (copyReply pkt REPLY_SIZE).bind fun rpc =>
  (rpc.word 0).bind fun id =>
  if id > m.client.rpcId then some (m, -NFS_RPC_ERR)
  else if id < m.client.rpcId then some (m, -NFS_RPC_DROP)
  else (rpc.refused true).bind fun refused =>
  if refused then
    (rpc.word 2).bind fun rstatus =>
    if rstatus ≠ 0 then some (m, -9999)
    else (rpc.word 5).bind fun astatus =>
    if astatus ≠ 0 then some (m, -9999)
    else (rpc.word 6).map fun error => (m, intOf (0 - error))
  else (rpc.word 24).bind fun rlen =>
    if REPLY_SIZE + rlen.toNat ≤ pkt.bytes.length then
      let block := pkt.bytes.drop REPLY_SIZE
      some ({ m with client := storeBlock m.client block m.client.nfsOffset rlen }, intOf rlen)
    else none

/-! ### The client -/

/-- The loop of `basename`, from the end of the string back to a slash. -/
def lastSlash (buff : Ptr) : Nat → Option Nat
  | 0 => none
  | i + 1 => if buff i = 47 then some i else lastSlash buff i

/-- `basename` and `dirname` of `nfs_path`. Without a slash, a 0 would be written
in front of the path. -/
def Machine.splitPath (m : Machine) : Option Machine :=
  (strlen m.buff).bind fun len =>
  (lastSlash m.buff len).bind fun slash =>
  (writePath m.buff slash [0]).bind fun buff =>
  (pathString buff).map fun path =>
    ⟨{ m.client with
        filename := (m.buff.add (slash + 1)).bytes (len - (slash + 1)), path := path }, buff⟩

/-- What the other functions of the client do touches no packet and no path. -/
def Machine.dispatch (reply : Option (Machine × Int))
    (onError onReply : Client → Client × List Request) : Option Machine :=
  reply.map fun (m, reply) =>
    { m with client := (Nfs.dispatch (m.client, reply) onError onReply).1 }

/-- `NfsHandler` -/
def Machine.nfsHandler (m : Machine) (pkt : Packet) : Option Machine :=
  match m.client.state with
  | .prclookupProgMountReq =>
    dispatch (m.rpcLookupReply .mount pkt) (goTo .prclookupProgNfsReq) (goTo .prclookupProgNfsReq)
  | .prclookupProgNfsReq =>
    dispatch (m.rpcLookupReply .nfs pkt) (goTo .mountReq) (goTo .mountReq)
  | .mountReq => dispatch (m.nfsMountReply pkt) (goTo .umountReq) (goTo .lookupReq)
  | .umountReq =>
    dispatch (m.nfsUmountallReply pkt) (fun c => ({ c with status := .fail }, []))
      (fun c => ({ c with status := c.downloadState }, []))
  | .lookupReq =>
    dispatch (m.nfsLookupReply pkt) (goTo .umountReq)
      (fun c => goTo .readReq { c with nfsOffset := 0, nfsLen := NFS_READ_SIZE })
  | .readlinkReq =>
    (m.nfsReadlinkReply pkt).bind fun (m, reply) =>
      if reply = -NFS_RPC_DROP then some m
      else if reply = -NFS_RPC_ERR then
        some { m with client := (goTo .umountReq m.client).1 }
      else m.splitPath.map fun m => { m with client := (goTo .mountReq m.client).1 }
  | .readReq =>
    (m.nfsReadReply pkt).map fun (m, rlen) =>
      { m with client :=
        if rlen > 0 then
          (nfsSend { m.client with nfsOffset := m.client.nfsOffset + UInt32.ofInt rlen }).1
        else if rlen = -NFSERR_ISDIR ∨ rlen = -NFSERR_INVAL then (goTo .readlinkReq m.client).1
        else
          (goTo .umountReq
            (if rlen = 0 then { m.client with downloadState := .success } else m.client)).1 }

/-- A packet for our port, or a timeout. -/
inductive MachineEvent where
  | packet (pkt : Packet)
  | timeout

def Machine.react (m : Machine) : MachineEvent → Option Machine
  | .packet pkt => m.nfsHandler pkt
  | .timeout => some { m with client := (nfsTimeout m.client).1 }

/-! ### What a packet has to be like -/

/-- `nfs_path` is a string in `nfs_path_buff`. -/
def Machine.PathOk (m : Machine) : Prop := pathString m.buff = some m.client.path

/-- A word of a packet, in the order of the host. -/
def Packet.word (pkt : Packet) (k : Nat) : UInt32 :=
  UInt32.ofNat (beValue (slice pkt.bytes (4 * k) 4))

def Packet.reply (pkt : Packet) : Reply where
  id := pkt.word 0
  rstatus := pkt.word 2
  verifier := pkt.word 3
  astatus := pkt.word 5
  data := pkt.bytes.drop 24

/-- The packet has the fields that are looked at before the reply is accepted. -/
def HeaderFits (c : Client) (r : Reply) (len : Nat) (dataToo : Bool) (accepted : Prop) : Prop :=
  if r.id ≠ c.rpcId then 4 ≤ len
  else if r.rstatus ≠ 0 then 12 ≤ len
  else if r.verifier ≠ 0 then 16 ≤ len
  else if r.astatus ≠ 0 then 24 ≤ len
  else if dataToo then 28 ≤ len ∧ (r.word 0 = 0 → accepted)
  else 24 ≤ len ∧ accepted

/-- There is room for a link. An absolute link has to start with its slash. -/
def LinkFits (c : Client) (r : Reply) : Prop :=
  if (r.data.drop 8).head? ≠ some 47 then c.path.length + 1 + (r.word 1).toNat < PATH_SIZE
  else 1 ≤ (r.word 1).toNat ∧ (r.word 1).toNat < PATH_SIZE

/-- The packet is long enough for what it announces, and not too long. -/
def Fits (c : Client) (pkt : Packet) : Prop :=
  let r := pkt.reply
  let len := pkt.bytes.length
  match c.state with
  | .prclookupProgMountReq | .prclookupProgNfsReq =>
    len ≤ RPC_SIZE ∧ HeaderFits c r len false (28 ≤ len)
  | .mountReq | .lookupReq => len ≤ RPC_SIZE ∧ HeaderFits c r len true (60 ≤ len)
  | .umountReq => len ≤ RPC_SIZE ∧ HeaderFits c r len false True
  | .readlinkReq =>
    len ≤ RPC_SIZE ∧ HeaderFits c r len true
      (33 ≤ len ∧ 32 + (r.word 1).toNat ≤ len ∧ LinkFits c r)
  | .readReq =>
    REPLY_SIZE ≤ len ∧ (r.id = c.rpcId → r.failed = false → r.word 0 = 0 →
      REPLY_SIZE + (r.word 18).toNat ≤ len)

/-! ### Strings -/

theorem pathString_eq_some_iff {buff : Ptr} {path : List UInt8} :
    pathString buff = some path ↔
      path.length < PATH_SIZE ∧ 0 ∉ path ∧ buff.bytes (path.length + 1) = path ++ [0] := by
  rw [pathString, strlen, Option.map_eq_some_iff]
  constructor
  · rintro ⟨n, hfind, rfl⟩
    obtain ⟨hzero, hn, hbefore⟩ := List.find?_range_eq_some.mp hfind
    refine ⟨?_, ?_, ?_⟩
    · rw [buff.length_bytes]
      exact List.mem_range.mp hn
    · intro hmem
      obtain ⟨j, hj, hj0⟩ := List.mem_map.mp hmem
      have hne := hbefore j (List.mem_range.mp hj)
      simp [hj0] at hne
    · rw [buff.length_bytes, Ptr.bytes_succ, of_decide_eq_true hzero]
  · rintro ⟨hlen, hno, hbytes⟩
    rw [Ptr.bytes_succ] at hbytes
    obtain ⟨hpath, hend⟩ := List.append_inj hbytes (buff.length_bytes _)
    refine ⟨path.length, List.find?_range_eq_some.mpr ⟨?_, List.mem_range.mpr hlen, ?_⟩, hpath⟩
    · exact decide_eq_true (List.singleton_inj.mp hend)
    · intro j hj
      have hmem : buff j ∈ path := by
        rw [← hpath]
        exact List.mem_map_of_mem (List.mem_range.mpr hj)
      simp only [Bool.not_eq_true', decide_eq_false_iff_not]
      intro hj0
      exact hno (hj0 ▸ hmem)

theorem strlen_eq {buff : Ptr} {path : List UInt8} (h : pathString buff = some path) :
    strlen buff = some path.length := by
  rw [pathString, Option.map_eq_some_iff] at h
  obtain ⟨n, hn, rfl⟩ := h
  rw [hn, buff.length_bytes]

theorem bytes_eq {buff : Ptr} {path : List UInt8} (h : pathString buff = some path) :
    buff.bytes path.length = path := by
  rw [pathString, Option.map_eq_some_iff] at h
  obtain ⟨n, hn, rfl⟩ := h
  rw [buff.length_bytes]

theorem exists_append_stop (bs : List UInt8) :
    ∃ rest, bs ++ [0] = bs.takeWhile (· ≠ 0) ++ [0] ++ rest := by
  induction bs with
  | nil => exact ⟨[], rfl⟩
  | cons b bs ih =>
    by_cases hb : b = 0
    · exact ⟨bs ++ [0], by simp [hb]⟩
    · obtain ⟨rest, hrest⟩ := ih
      exact ⟨rest, by simpa [hb] using hrest⟩

/-- The first 0 ends the string. -/
theorem pathString_of_bytes {buff : Ptr} {bs : List UInt8} (hlen : bs.length < PATH_SIZE)
    (h : buff.bytes (bs.length + 1) = bs ++ [0]) :
    pathString buff = some (bs.takeWhile (· ≠ 0)) := by
  have hle : (bs.takeWhile (· ≠ 0)).length ≤ bs.length := (List.takeWhile_prefix _).length_le
  refine pathString_eq_some_iff.mpr ⟨Nat.lt_of_le_of_lt hle hlen, ?_, ?_⟩
  · intro hmem
    have hne := List.all_eq_true.mp List.all_takeWhile 0 hmem
    simp at hne
  · obtain ⟨rest, hrest⟩ := exists_append_stop bs
    rw [Ptr.bytes_of_le buff (Nat.succ_le_succ hle), h, hrest]
    exact List.take_left' (List.length_append ..)

/-- Bytes are written behind a part of the path. -/
theorem exact_writePath (buff : Ptr) (i : Nat) (bs : List UInt8) :
    Exact (writePath buff i bs) (i + bs.length ≤ PATH_SIZE) fun buff' =>
      buff'.bytes (i + bs.length) = buff.bytes i ++ bs := by
  refine .guard fun _ => ?_
  rw [Ptr.bytes_write_append, Ptr.bytes_ofList]

theorem lastSlash_eq_none {buff : Ptr} {n : Nat} (h : ∀ i < n, buff i ≠ 47) :
    lastSlash buff n = none := by
  induction n with
  | zero => rfl
  | succ n ih =>
    rw [lastSlash, if_neg (h n (Nat.lt_succ_self n)), ih fun i hi => h i (Nat.lt_succ_of_lt hi)]

theorem lastSlash_eq_some {buff : Ptr} {i n : Nat} (hi : i < n) (hslash : buff i = 47)
    (hafter : ∀ j < n, i < j → buff j ≠ 47) : lastSlash buff n = some i := by
  induction n with
  | zero => exact absurd hi (Nat.not_lt_zero i)
  | succ n ih =>
    rw [lastSlash]
    rcases Nat.lt_succ_iff_lt_or_eq.mp hi with hlt | rfl
    · rw [if_neg (hafter n (Nat.lt_succ_self n) hlt)]
      exact ih hlt fun j hj hij => hafter j (Nat.lt_succ_of_lt hj) hij
    · rw [if_pos hslash]

/-- A path with a slash is split at its last one. -/
theorem exists_split {path : List UInt8} (h : 47 ∈ path) :
    ∃ pre name, path = pre ++ 47 :: name ∧ 47 ∉ name := by
  obtain ⟨name, pre, hpath, hname⟩ := List.eq_append_cons_of_mem (List.mem_reverse.mpr h)
  refine ⟨pre.reverse, name.reverse, ?_, fun hmem => hname (List.mem_reverse.mp hmem)⟩
  rw [← List.reverse_reverse path, hpath]
  simp

theorem basename_split (pre : List UInt8) {name : List UInt8} (h : 47 ∉ name) :
    basename (pre ++ 47 :: name) = name ∧ dirname (pre ++ 47 :: name) = pre := by
  have hall : ∀ b ∈ name.reverse, decide (b ≠ 47) = true := by
    intro b hb
    refine decide_eq_true fun heq => h ?_
    rw [← heq]
    exact List.mem_reverse.mp hb
  have hreverse : (pre ++ 47 :: name).reverse = name.reverse ++ 47 :: pre.reverse := by simp
  constructor
  · rw [basename, hreverse, List.takeWhile_append_of_pos hall]
    simp
  · rw [dirname, hreverse, List.dropWhile_append_of_pos hall]
    simp

theorem exact_splitPath {m : Machine} (hm : m.PathOk) :
    Exact m.splitPath (47 ∈ m.client.path) fun m' =>
      m'.client = { m.client with
        filename := basename m.client.path, path := dirname m.client.path } ∧ m'.PathOk := by
  obtain ⟨hlen, hno, -⟩ := pathString_eq_some_iff.mp hm
  have hpath := bytes_eq hm
  rw [Machine.splitPath, strlen_eq hm, Option.bind_some]
  by_cases hslash : 47 ∈ m.client.path
  · obtain ⟨pre, name, hsplit, hname⟩ := exists_split hslash
    have hlen' : m.client.path.length = pre.length + 1 + name.length := by
      rw [hsplit, List.length_append, List.length_cons]
      omega
    rw [hlen'] at hpath hlen ⊢
    rw [hsplit] at hpath hno ⊢
    have hget (i : Nat) (hi : i < pre.length + 1 + name.length) :
        (pre ++ 47 :: name)[i]? = some (m.buff i) := by
      rw [← hpath]
      exact m.buff.getElem?_bytes hi
    have hlast : lastSlash m.buff (pre.length + 1 + name.length) = some pre.length := by
      refine lastSlash_eq_some (by omega) ?_ fun j hj hij heq => hname ?_
      · have h47 := hget pre.length (by omega)
        rw [List.getElem?_append_right (Nat.le_refl _), Nat.sub_self] at h47
        exact (Option.some.inj h47).symm
      · have hj47 := hget j hj
        obtain ⟨k, rfl⟩ := Nat.exists_eq_add_of_lt hij
        rw [List.getElem?_append_right (by omega), heq,
          show pre.length + k + 1 - pre.length = k + 1 by omega, List.getElem?_cons_succ] at hj47
        exact List.mem_of_getElem? hj47
    have hpre : m.buff.bytes pre.length = pre := by
      rw [Ptr.bytes_of_le m.buff (n := pre.length + 1 + name.length) (by omega), hpath,
        List.take_left]
    have hfile : (m.buff.add (pre.length + 1)).bytes
        (pre.length + 1 + name.length - (pre.length + 1)) = name := by
      rw [Nat.add_sub_cancel_left, Ptr.bytes_add_eq m.buff (Nat.le_refl _), hpath,
        List.append_cons, List.drop_left' (by simp), List.take_length]
    rw [hlast, Option.bind_some, hfile]
    refine Exact.congr (?_ : Exact _ (pre.length + 1 ≤ PATH_SIZE ∧ True) _) ?_
    · refine .bind (exact_writePath m.buff pre.length [0]) fun buff _ hbuff => ?_
      have hstring : pathString buff = some pre := by
        rw [hpre] at hbuff
        exact pathString_eq_some_iff.mpr
          ⟨by omega, fun h => hno (List.mem_append_left _ h), hbuff⟩
      obtain ⟨hbase, hdir⟩ := basename_split pre hname
      rw [hstring, hbase, hdir]
      exact .some ⟨rfl, hstring⟩
    · simp only [List.mem_append, List.mem_cons, true_or, or_true, and_true, iff_true]
      omega
  · rw [lastSlash_eq_none]
    · exact ⟨fun h => absurd h hslash, fun _ => rfl⟩
    · intro i hi heq
      refine hslash ?_
      rw [← hpath, ← heq]
      exact List.mem_map_of_mem (List.mem_range.mpr hi)

/-! ### Reading a reply -/

/-- The first `n` bytes of `rpc_pkt` are those of the packet. -/
structure CopyOf (pkt : Packet) (n : Nat) (rpc : RpcPkt) : Prop where
  received : rpc.received = n
  le : n ≤ pkt.bytes.length
  bytes : rpc.mem.bytes n = pkt.bytes.take n

theorem exact_copyReply (pkt : Packet) (n : Nat) :
    Exact (copyReply pkt n) (n ≤ RPC_SIZE ∧ n ≤ pkt.bytes.length) (CopyOf pkt n) := by
  refine .guard fun h => ⟨rfl, h.2, ?_⟩
  have hcopied := Ptr.bytes_write_append pkt.stack 0 n (Ptr.ofList pkt.bytes)
  rw [Nat.zero_add] at hcopied
  rw [hcopied, Ptr.bytes_of_le _ h.2, Ptr.bytes_ofList]
  rfl

theorem CopyOf.read {pkt : Packet} {n : Nat} {rpc : RpcPkt} (h : CopyOf pkt n rpc) (i k : Nat) :
    Exact (rpc.read i k) (i + k ≤ n) (· = slice pkt.bytes i k) := by
  rw [RpcPkt.read, h.received]
  refine .guard fun hle => ?_
  rw [Ptr.bytes_add_eq _ hle, h.bytes, slice, List.drop_take, List.take_take]
  congr 1
  omega

theorem CopyOf.word {pkt : Packet} {n : Nat} {rpc : RpcPkt} (h : CopyOf pkt n rpc) (k : Nat) :
    Exact (rpc.word k) (4 * k + 4 ≤ n) (· = pkt.word k) :=
  (h.read (4 * k) 4).map fun bs hbs => by rw [hbs, Packet.word]

theorem Packet.reply_word (pkt : Packet) (k : Nat) : pkt.reply.word k = pkt.word (6 + k) := by
  rw [Reply.word, Packet.word, slice, Packet.reply, List.drop_drop,
    show 24 + 4 * k = 4 * (6 + k) by omega]

/-- The fields that are compared with 0 were received. -/
def RefusedFits (r : Reply) (n : Nat) (dataToo : Bool) : Prop :=
  12 ≤ n ∧ if r.rstatus ≠ 0 then True else
    16 ≤ n ∧ if r.verifier ≠ 0 then True else
    24 ≤ n ∧ if r.astatus ≠ 0 then True else if dataToo then 28 ≤ n else True

theorem CopyOf.refused {pkt : Packet} {n : Nat} {rpc : RpcPkt} (h : CopyOf pkt n rpc)
    (dataToo : Bool) :
    Exact (rpc.refused dataToo) (RefusedFits pkt.reply n dataToo)
      (· = (pkt.reply.failed || (dataToo && pkt.reply.word 0 ≠ 0))) := by
  have hfailed : pkt.reply.failed = decide (pkt.word 2 ≠ 0 ∨ pkt.word 3 ≠ 0 ∨ pkt.word 5 ≠ 0) := rfl
  rw [hfailed, pkt.reply_word]
  refine .bind (h.word 2) fun rstatus _ h2 => ?_
  rw [h2]
  refine .ite (fun hne => .some (by simp [hne])) fun h2 => ?_
  refine .bind (h.word 3) fun verifier _ h3 => ?_
  rw [h3]
  refine .ite (fun hne => .some (by simp [hne])) fun h3 => ?_
  refine .bind (h.word 5) fun astatus _ h5 => ?_
  rw [h5]
  refine .ite (fun hne => .some (by simp [hne])) fun h5 => ?_
  refine .ite (fun hdata => ?_) fun hdata => .some (by simp [h2, h3, h5, hdata])
  exact (h.word 6).map fun data h6 => by simp [h2, h3, h5, hdata, h6]

/-- The handlers on memory and on values did the same. -/
structure Agrees (result : Client × Int) (out : Machine × Int) : Prop where
  client : out.1.client = result.1
  reply : out.2 = result.2
  pathOk : out.1.PathOk

theorem exact_acceptReply {m : Machine} (hm : m.PathOk) {pkt : Packet} (dataToo : Bool)
    {refused : Bool}
    (hrefused : (pkt.reply.failed || (dataToo && pkt.reply.word 0 ≠ 0)) = refused)
    {accepted : RpcPkt → Option Machine} {fits : Prop} {next : Client}
    (haccepted : ∀ rpc, CopyOf pkt pkt.bytes.length rpc →
      Exact (accepted rpc) fits fun m' => m'.client = next ∧ m'.PathOk) :
    Exact (m.acceptReply pkt dataToo accepted)
      (pkt.bytes.length ≤ RPC_SIZE ∧
        HeaderFits m.client pkt.reply pkt.bytes.length dataToo fits)
      (Agrees (acceptReply m.client pkt.reply refused next)) := by
  subst hrefused
  refine Exact.congr (?_ : Exact _
    ((pkt.bytes.length ≤ RPC_SIZE ∧ pkt.bytes.length ≤ pkt.bytes.length) ∧
      4 * 0 + 4 ≤ pkt.bytes.length ∧
      if pkt.reply.id > m.client.rpcId then True
      else if pkt.reply.id < m.client.rpcId then True
      else RefusedFits pkt.reply pkt.bytes.length dataToo ∧
        if pkt.reply.failed || (dataToo && pkt.reply.word 0 ≠ 0) then True else fits) _) ?_
  · refine .bind (exact_copyReply pkt _) fun rpc _ hcopy => .bind (hcopy.word 0) fun id _ hid => ?_
    rw [hid, show pkt.word 0 = pkt.reply.id from rfl, acceptReply, checkId]
    refine .ite (fun hgt => .some ?_) fun hgt => .ite (fun hlt => .some ?_) fun hlt =>
      .bind (hcopy.refused dataToo) fun refused _ hrefused => ?_
    · rw [if_pos hgt]
      exact ⟨rfl, rfl, hm⟩
    · rw [if_neg hgt, if_pos hlt]
      exact ⟨rfl, rfl, hm⟩
    · rw [hrefused, if_neg hgt, if_neg hlt]
      refine .ite (fun h => .some ?_) fun h => (haccepted rpc hcopy).map fun m' hm' => ?_
      · rw [if_pos h]
        exact ⟨rfl, rfl, hm⟩
      · rw [if_neg h]
        exact ⟨hm'.1, rfl, hm'.2⟩
  · have hfailed : pkt.reply.failed = decide
        (pkt.reply.rstatus ≠ 0 ∨ pkt.reply.verifier ≠ 0 ∨ pkt.reply.astatus ≠ 0) := rfl
    rw [HeaderFits, RefusedFits, hfailed]
    by_cases hid : pkt.reply.id = m.client.rpcId
    · rw [if_neg (not_not.mpr hid), if_neg (hid ▸ UInt32.lt_irrefl _),
        if_neg (hid ▸ UInt32.lt_irrefl _)]
      by_cases hrefused : pkt.reply.rstatus = 0 ∧ pkt.reply.verifier = 0 ∧ pkt.reply.astatus = 0
      · obtain ⟨h2, h3, h5⟩ := hrefused
        cases dataToo with
        | false =>
          simp only [h2, h3, h5]
          grind
        | true =>
          simp only [h2, h3, h5]
          grind
      · grind
    · have hone : pkt.reply.id > m.client.rpcId ∨ pkt.reply.id < m.client.rpcId := by grind
      rw [if_pos hid]
      rcases hone with hgt | hlt
      · rw [if_pos hgt]
        exact and_congr (and_iff_left (Nat.le_refl _)) (and_iff_left trivial)
      · rw [if_neg (UInt32.not_lt.mpr (UInt32.le_of_lt hlt)), if_pos hlt]
        exact and_congr (and_iff_left (Nat.le_refl _)) (and_iff_left trivial)

/-! ### Following a link -/

/-- A link and a 0 are written behind the first bytes of the buffer. -/
theorem exact_writeLink {buff : Ptr} {pre link : List UInt8} (hpre : buff.bytes pre.length = pre)
    {rlen : Nat} (hlink : link.length = rlen) :
    Exact ((writePath buff pre.length link).bind fun buff => writePath buff (pre.length + rlen) [0])
      (pre.length + rlen < PATH_SIZE)
      fun buff => pathString buff = some ((pre ++ link).takeWhile (· ≠ 0)) := by
  subst hlink
  refine Exact.congr (?_ : Exact _ (pre.length + link.length ≤ PATH_SIZE ∧
    pre.length + link.length + 1 ≤ PATH_SIZE) _) (by omega)
  refine .bind (exact_writePath buff pre.length link) fun buff' _ hlinked => ?_
  by_cases hroom : pre.length + link.length + 1 ≤ PATH_SIZE
  · refine (exact_writePath buff' (pre.length + link.length) [0]).mono fun buff'' hended => ?_
    rw [hlinked, hpre] at hended
    have hlen : (pre ++ link).length = pre.length + link.length := List.length_append
    refine pathString_of_bytes ?_ ?_
    · rw [hlen]
      exact hroom
    · rw [hlen]
      exact hended
  · exact ⟨fun h => absurd h hroom, fun _ => if_neg hroom⟩

/-- `nfs_readlink_reply` makes the path that `linkPath` describes. -/
theorem exact_followLink {buff : Ptr} {path : List UInt8} (hpath : pathString buff = some path)
    {pkt : Packet} {rpc : RpcPkt} (hcopy : CopyOf pkt pkt.bytes.length rpc) :
    Exact (followLink buff rpc)
      (33 ≤ pkt.bytes.length ∧ 32 + (pkt.reply.word 1).toNat ≤ pkt.bytes.length ∧
        if (pkt.reply.data.drop 8).head? ≠ some 47 then
          path.length + 1 + (pkt.reply.word 1).toNat < PATH_SIZE
        else (pkt.reply.word 1).toNat < PATH_SIZE)
      fun buff' => pathString buff' = some (linkPath path pkt.reply) := by
  have hdata : pkt.reply.data.drop 8 = pkt.bytes.drop 32 := List.drop_drop ..
  have hfirst : slice pkt.bytes 32 1 ≠ [47] ↔ (pkt.reply.data.drop 8).head? ≠ some 47 := by
    rw [hdata, slice]
    cases pkt.bytes.drop 32 with
    | nil => simp
    | cons b bs => simp
  have hlink (h : 32 + (pkt.reply.word 1).toNat ≤ pkt.bytes.length) :
      (slice pkt.bytes 32 (pkt.reply.word 1).toNat).length = (pkt.reply.word 1).toNat := by
    rw [slice, List.length_take, List.length_drop]
    omega
  refine Exact.congr (?_ : Exact _ (4 * 7 + 4 ≤ pkt.bytes.length ∧ 32 + 1 ≤ pkt.bytes.length ∧
    if slice pkt.bytes 32 1 ≠ [47] then path.length + [47, 0].length ≤ PATH_SIZE ∧
      32 + (pkt.reply.word 1).toNat ≤ pkt.bytes.length ∧
      (path ++ [47]).length + (pkt.reply.word 1).toNat < PATH_SIZE
    else 32 + (pkt.reply.word 1).toNat ≤ pkt.bytes.length ∧
      ([] : List UInt8).length + (pkt.reply.word 1).toNat < PATH_SIZE) _) ?_
  · refine .bind (hcopy.word 7) fun rlen _ hrlen => .bind (hcopy.read 32 1) fun first _ hf => ?_
    rw [hrlen, hf, ← pkt.reply_word 1]
    refine .ite (fun hrelative => ?_) fun habsolute => ?_
    · rw [strlen_eq hpath, Option.bind_some]
      refine .bind (exact_writePath buff path.length [47, 0]) fun buff' hroom hslash => ?_
      obtain ⟨-, hno, -⟩ := pathString_eq_some_iff.mp hpath
      rw [bytes_eq hpath] at hslash
      have hstring : pathString buff' = some (path ++ [47]) := by
        refine pathString_eq_some_iff.mpr ⟨?_, ?_, ?_⟩
        · rw [List.length_append]
          exact hroom
        · simp [hno]
        · rw [List.length_append, List.append_assoc]
          exact hslash
      rw [strlen_eq hstring, Option.bind_some]
      refine .bind (hcopy.read 32 _) fun link hreceived hlinked => ?_
      rw [hlinked, linkPath, hdata, if_pos (hdata ▸ hfirst.mp hrelative)]
      rw [List.append_cons path 47 (List.take _ _)]
      exact exact_writeLink (bytes_eq hstring) (hlink hreceived)
    · refine .bind (hcopy.read 32 _) fun link hreceived hlinked => ?_
      rw [hlinked, linkPath, hdata, if_neg (hdata ▸ mt hfirst.mpr habsolute)]
      have hwritten := @exact_writeLink buff [] _ rfl _ (hlink hreceived)
      simp only [List.length_nil, Nat.zero_add, List.nil_append] at hwritten ⊢
      exact hwritten
  · by_cases hrelative : slice pkt.bytes 32 1 ≠ [47]
    · rw [if_pos hrelative, if_pos (hfirst.mp hrelative), List.length_append]
      simp only [List.length_cons, List.length_nil]
      omega
    · rw [if_neg hrelative, if_neg (mt hfirst.mpr hrelative)]
      simp only [List.length_nil]
      omega

/-- The path of a link has a slash, except where an absolute link is empty. -/
theorem slash_mem_linkPath {path : List UInt8} (hno : 0 ∉ path) (r : Reply) :
    47 ∈ linkPath path r ↔ (r.data.drop 8).head? ≠ some 47 ∨ 1 ≤ (r.word 1).toNat := by
  rw [linkPath]
  by_cases hrelative : (r.data.drop 8).head? ≠ some 47
  · have hall : ∀ b ∈ path, decide (b ≠ 0) = true := by
      intro b hb
      exact decide_eq_true fun h => hno (h ▸ hb)
    rw [if_pos hrelative, List.takeWhile_append_of_pos hall]
    refine iff_of_true (List.mem_append_right _ ?_) (.inl hrelative)
    simp
  · rw [if_neg hrelative]
    cases hlink : r.data.drop 8 with
    | nil => simp [hlink] at hrelative
    | cons b rest =>
      obtain rfl : b = 47 := by simpa [hlink] using hrelative
      cases (r.word 1).toNat with
      | zero => simp
      | succ n => simp

/-! ### The handlers -/

theorem exact_rpcLookupReply (prog : Prog) {m : Machine} (hm : m.PathOk) (pkt : Packet) :
    Exact (m.rpcLookupReply prog pkt)
      (pkt.bytes.length ≤ RPC_SIZE ∧
        HeaderFits m.client pkt.reply pkt.bytes.length false (28 ≤ pkt.bytes.length))
      (Agrees (rpcLookupReply prog m.client pkt.reply)) := by
  refine exact_acceptReply hm false (Bool.or_false _) fun rpc hcopy =>
    (hcopy.word 6).map fun port hport => ?_
  rw [hport, pkt.reply_word]
  cases prog with
  | mount => exact ⟨rfl, hm⟩
  | nfs => exact ⟨rfl, hm⟩

theorem exact_nfsUmountallReply {m : Machine} (hm : m.PathOk) (pkt : Packet) :
    Exact (m.nfsUmountallReply pkt)
      (pkt.bytes.length ≤ RPC_SIZE ∧
        HeaderFits m.client pkt.reply pkt.bytes.length false True)
      (Agrees (nfsUmountallReply m.client pkt.reply)) :=
  exact_acceptReply hm false (Bool.or_false _) fun _ _ => .some ⟨rfl, hm⟩

theorem Packet.reply_handle (pkt : Packet) :
    (pkt.reply.data.drop 4).take NFS_FHSIZE = slice pkt.bytes 28 NFS_FHSIZE :=
  congrArg (List.take NFS_FHSIZE) List.drop_drop

theorem exact_nfsMountReply {m : Machine} (hm : m.PathOk) (pkt : Packet) :
    Exact (m.nfsMountReply pkt)
      (pkt.bytes.length ≤ RPC_SIZE ∧
        HeaderFits m.client pkt.reply pkt.bytes.length true (60 ≤ pkt.bytes.length))
      (Agrees (nfsMountReply m.client pkt.reply)) :=
  exact_acceptReply hm true rfl fun rpc hcopy => (hcopy.read 28 NFS_FHSIZE).map fun fh hfh => by
    rw [hfh, pkt.reply_handle]
    exact ⟨rfl, hm⟩

theorem exact_nfsLookupReply {m : Machine} (hm : m.PathOk) (pkt : Packet) :
    Exact (m.nfsLookupReply pkt)
      (pkt.bytes.length ≤ RPC_SIZE ∧
        HeaderFits m.client pkt.reply pkt.bytes.length true (60 ≤ pkt.bytes.length))
      (Agrees (nfsLookupReply m.client pkt.reply)) :=
  exact_acceptReply hm true rfl fun rpc hcopy => (hcopy.read 28 NFS_FHSIZE).map fun fh hfh => by
    rw [hfh, pkt.reply_handle]
    exact ⟨rfl, hm⟩

theorem exact_nfsReadlinkReply {m : Machine} (hm : m.PathOk) (pkt : Packet) :
    Exact (m.nfsReadlinkReply pkt)
      (pkt.bytes.length ≤ RPC_SIZE ∧ HeaderFits m.client pkt.reply pkt.bytes.length true
        ((33 ≤ pkt.bytes.length ∧ 32 + (pkt.reply.word 1).toNat ≤ pkt.bytes.length ∧
          if (pkt.reply.data.drop 8).head? ≠ some 47 then
            m.client.path.length + 1 + (pkt.reply.word 1).toNat < PATH_SIZE
          else (pkt.reply.word 1).toNat < PATH_SIZE) ∧ True))
      (Agrees (nfsReadlinkReply m.client pkt.reply)) :=
  exact_acceptReply hm true rfl fun rpc hcopy =>
    .bind (exact_followLink hm hcopy) fun buff _ hbuff => by
      rw [hbuff]
      exact .some ⟨rfl, hbuff⟩

theorem exact_nfsReadReply {m : Machine} (hm : m.PathOk) (pkt : Packet) :
    Exact (m.nfsReadReply pkt)
      (REPLY_SIZE ≤ pkt.bytes.length ∧ (pkt.reply.id = m.client.rpcId →
        pkt.reply.failed = false → pkt.reply.word 0 = 0 →
        REPLY_SIZE + (pkt.reply.word 18).toNat ≤ pkt.bytes.length))
      (Agrees (nfsReadReply m.client pkt.reply)) := by
  refine Exact.congr (?_ : Exact _
    ((REPLY_SIZE ≤ RPC_SIZE ∧ REPLY_SIZE ≤ pkt.bytes.length) ∧ 4 * 0 + 4 ≤ REPLY_SIZE ∧
      if pkt.reply.id > m.client.rpcId then True
      else if pkt.reply.id < m.client.rpcId then True
      else RefusedFits pkt.reply REPLY_SIZE true ∧
        if pkt.reply.failed || (true && pkt.reply.word 0 ≠ 0) then
          4 * 2 + 4 ≤ REPLY_SIZE ∧ if pkt.reply.rstatus ≠ 0 then True else
            4 * 5 + 4 ≤ REPLY_SIZE ∧ if pkt.reply.astatus ≠ 0 then True else
              4 * 6 + 4 ≤ REPLY_SIZE
        else 4 * 24 + 4 ≤ REPLY_SIZE ∧
          REPLY_SIZE + (pkt.reply.word 18).toNat ≤ pkt.bytes.length) _) ?_
  · refine .bind (exact_copyReply pkt _) fun rpc _ hcopy => .bind (hcopy.word 0) fun id _ hid => ?_
    rw [hid, show pkt.word 0 = pkt.reply.id from rfl, nfsReadReply, checkId]
    refine .ite (fun hgt => .some ?_) fun hgt => .ite (fun hlt => .some ?_) fun hlt =>
      .bind (hcopy.refused true) fun refused _ hrefused => ?_
    · rw [if_pos hgt]
      exact ⟨rfl, rfl, hm⟩
    · rw [if_neg hgt, if_pos hlt]
      exact ⟨rfl, rfl, hm⟩
    · rw [hrefused, if_neg hgt, if_neg hlt]
      refine .ite (fun h => ?_) fun h => .bind (hcopy.word 24) fun rlen _ hrlen => ?_
      · rw [Bool.true_and] at h
        simp only [if_pos h]
        refine .bind (hcopy.word 2) fun rstatus _ h2 => ?_
        rw [h2, show pkt.word 2 = pkt.reply.rstatus from rfl]
        refine .ite (fun hne => .some ?_) fun h2 => .bind (hcopy.word 5) fun astatus _ h5 => ?_
        · rw [if_pos hne]
          exact ⟨rfl, rfl, hm⟩
        · rw [h5, show pkt.word 5 = pkt.reply.astatus from rfl, if_neg h2]
          refine .ite (fun hne => .some ?_) fun h5 => (hcopy.word 6).map fun error h6 => ?_
          · rw [if_pos hne]
            exact ⟨rfl, rfl, hm⟩
          · rw [h6, if_neg h5, pkt.reply_word]
            exact ⟨rfl, rfl, hm⟩
      · rw [Bool.true_and] at h
        rw [if_neg h, hrlen, show pkt.word 24 = pkt.reply.word 18 from (pkt.reply_word 18).symm]
        refine .guard fun _ => ⟨?_, rfl, hm⟩
        rw [Reply.payload, Packet.reply, List.drop_drop]
        rfl
  · have hfailed : pkt.reply.failed = decide
        (pkt.reply.rstatus ≠ 0 ∨ pkt.reply.verifier ≠ 0 ∨ pkt.reply.astatus ≠ 0) := rfl
    rw [RefusedFits, hfailed, REPLY_SIZE, RPC_SIZE]
    by_cases hid : pkt.reply.id = m.client.rpcId
    · rw [if_neg (hid ▸ UInt32.lt_irrefl _), if_neg (hid ▸ UInt32.lt_irrefl _)]
      grind
    · grind

@[simp] theorem nfsSend_path (c : Client) : (nfsSend c).1.path = c.path := by
  cases hs : c.state <;> simp only [nfsSend, hs, rpcReq, nfsUmountallReq]
  split_ifs <;> rfl

@[simp] theorem goTo_path (state : State) (c : Client) : (goTo state c).1.path = c.path :=
  nfsSend_path _

/-- The handler on memory did what the handler on values does. -/
def Stepped (c : Client) (m : Machine) : Prop := m.client = c ∧ m.PathOk

theorem exact_dispatch {x : Option (Machine × Int)} {fits : Prop} {result : Client × Int}
    (hx : Exact x fits (Agrees result)) {onError onReply : Client → Client × List Request}
    (herror : ∀ c, (onError c).1.path = c.path) (hreply : ∀ c, (onReply c).1.path = c.path) :
    Exact (Machine.dispatch x onError onReply) fits
      (Stepped (dispatch result onError onReply).1) := by
  refine hx.map fun out hout => ?_
  have hresult : (out.1.client, out.2) = result := Prod.ext hout.client hout.reply
  have hpath : (dispatch result onError onReply).1.path = result.1.path := by
    rw [dispatch]
    split_ifs
    · rfl
    · exact herror _
    · exact hreply _
  refine ⟨congrArg (fun result => (dispatch result onError onReply).1) hresult, ?_⟩
  show pathString out.1.buff = some (dispatch (out.1.client, out.2) onError onReply).1.path
  rw [hresult, hpath, ← hout.client]
  exact hout.pathOk

/-- The reply is taken over. -/
def Accepted (c : Client) (r : Reply) : Prop :=
  r.id = c.rpcId ∧ r.failed = false ∧ r.word 0 = 0

theorem headerFits_and_iff {c : Client} {r : Reply} {len : Nat} {fits also fits' : Prop}
    (hrefused : ¬Accepted c r → also) (haccepted : Accepted c r → (fits ∧ also ↔ fits')) :
    HeaderFits c r len true fits ∧ also ↔ HeaderFits c r len true fits' := by
  have hfailed : r.failed = decide (r.rstatus ≠ 0 ∨ r.verifier ≠ 0 ∨ r.astatus ≠ 0) := rfl
  rw [Accepted, hfailed] at hrefused haccepted
  rw [HeaderFits, HeaderFits]
  grind

/-- A reply that is not taken over is reported as an error or dropped. -/
theorem nfsReadlinkReply_of_not_accepted {c : Client} {r : Reply} (h : ¬Accepted c r) :
    (nfsReadlinkReply c r).2 = -NFS_RPC_DROP ∨ (nfsReadlinkReply c r).2 = -NFS_RPC_ERR := by
  rw [nfsReadlinkReply, acceptReply, checkId]
  by_cases hgt : r.id > c.rpcId
  · rw [if_pos hgt]
    exact .inr rfl
  by_cases hlt : r.id < c.rpcId
  · rw [if_neg hgt, if_pos hlt]
    exact .inl rfl
  · rw [if_neg hgt, if_neg hlt]
    have hid : r.id = c.rpcId :=
      UInt32.le_antisymm (UInt32.not_lt.mp hgt) (UInt32.not_lt.mp hlt)
    have hrefused : (r.failed || r.word 0 ≠ 0) = true := by
      by_contra hnot
      rw [Bool.not_eq_true, Bool.or_eq_false_iff, decide_eq_false_iff_not, not_not] at hnot
      exact h ⟨hid, hnot.1, hnot.2⟩
    rw [if_pos hrefused]
    exact .inr rfl

theorem nfsReadlinkReply_of_accepted {c : Client} {r : Reply} (h : Accepted c r) :
    nfsReadlinkReply c r = ({ c with path := linkPath c.path r }, 0) := by
  obtain ⟨hid, hfailed, hdata⟩ := h
  rw [nfsReadlinkReply, acceptReply, checkId, hid, if_neg (UInt32.lt_irrefl _),
    if_neg (UInt32.lt_irrefl _)]
  simp [hfailed, hdata]

theorem exact_readlink {m : Machine} (hs : m.client.state = .readlinkReq) (hm : m.PathOk)
    (pkt : Packet) :
    Exact (m.nfsHandler pkt)
      (pkt.bytes.length ≤ RPC_SIZE ∧ HeaderFits m.client pkt.reply pkt.bytes.length true
        (33 ≤ pkt.bytes.length ∧ 32 + (pkt.reply.word 1).toNat ≤ pkt.bytes.length ∧
          LinkFits m.client pkt.reply))
      (Stepped (nfsHandler m.client pkt.reply).1) := by
  have hno := (pathString_eq_some_iff.mp hm).2.1
  simp only [Machine.nfsHandler, nfsHandler, hs]
  refine Exact.congr (?_ : Exact _
    ((pkt.bytes.length ≤ RPC_SIZE ∧ HeaderFits m.client pkt.reply pkt.bytes.length true
      ((33 ≤ pkt.bytes.length ∧ 32 + (pkt.reply.word 1).toNat ≤ pkt.bytes.length ∧
        if (pkt.reply.data.drop 8).head? ≠ some 47 then
          m.client.path.length + 1 + (pkt.reply.word 1).toNat < PATH_SIZE
        else (pkt.reply.word 1).toNat < PATH_SIZE) ∧ True)) ∧
      if (nfsReadlinkReply m.client pkt.reply).2 = -NFS_RPC_DROP then True
      else if (nfsReadlinkReply m.client pkt.reply).2 = -NFS_RPC_ERR then True
      else 47 ∈ (nfsReadlinkReply m.client pkt.reply).1.path) _) ?_
  · refine .bind (exact_nfsReadlinkReply hm pkt) fun out _ hout => ?_
    obtain ⟨hclient, hreply, hpath⟩ := hout
    simp only [hreply, dispatch]
    refine .ite (fun hdrop => ?_) fun hdrop => .ite (fun herr => ?_) fun herr => ?_
    · rw [if_pos hdrop]
      exact .some ⟨hclient, hpath⟩
    · rw [if_neg hdrop, if_pos herr, ← hclient]
      refine .some ⟨rfl, hpath.trans ?_⟩
      rw [goTo_path]
    · rw [if_neg hdrop, if_neg herr, ← hclient]
      refine (exact_splitPath hpath).map fun m' hm' => ?_
      obtain ⟨hclient', hpath'⟩ := hm'
      rw [← hclient']
      refine ⟨rfl, hpath'.trans ?_⟩
      rw [goTo_path]
  · have hslash := slash_mem_linkPath hno pkt.reply
    rw [and_assoc, LinkFits]
    refine and_congr_right fun _ => headerFits_and_iff (fun h => ?_) fun haccepted => ?_
    · rcases nfsReadlinkReply_of_not_accepted h with hreply | hreply
      · rw [if_pos hreply]
        trivial
      · rw [if_pos hreply, ite_self]
        trivial
    · have hdrop : ¬(0 : Int) = -NFS_RPC_DROP := by decide
      have herr : ¬(0 : Int) = -NFS_RPC_ERR := by decide
      simp only [nfsReadlinkReply_of_accepted haccepted, if_neg hdrop, if_neg herr, hslash]
      by_cases hrelative : (pkt.reply.data.drop 8).head? ≠ some 47
      · rw [if_pos hrelative, if_pos hrelative]
        rw [and_true]
        exact and_iff_left (.inl hrelative)
      · rw [if_neg hrelative, if_neg hrelative]
        rw [or_iff_right hrelative, and_true]
        omega

theorem exact_nfsHandler {m : Machine} (hm : m.PathOk) (pkt : Packet) :
    Exact (m.nfsHandler pkt) (Fits m.client pkt) (Stepped (nfsHandler m.client pkt.reply).1) := by
  cases hs : m.client.state with
  | prclookupProgMountReq =>
    simp only [Machine.nfsHandler, nfsHandler, Fits, hs]
    exact exact_dispatch (exact_rpcLookupReply .mount hm pkt) (goTo_path _) (goTo_path _)
  | prclookupProgNfsReq =>
    simp only [Machine.nfsHandler, nfsHandler, Fits, hs]
    exact exact_dispatch (exact_rpcLookupReply .nfs hm pkt) (goTo_path _) (goTo_path _)
  | mountReq =>
    simp only [Machine.nfsHandler, nfsHandler, Fits, hs]
    exact exact_dispatch (exact_nfsMountReply hm pkt) (goTo_path _) (goTo_path _)
  | umountReq =>
    simp only [Machine.nfsHandler, nfsHandler, Fits, hs]
    exact exact_dispatch (exact_nfsUmountallReply hm pkt) (fun _ => rfl) fun _ => rfl
  | lookupReq =>
    simp only [Machine.nfsHandler, nfsHandler, Fits, hs]
    exact exact_dispatch (exact_nfsLookupReply hm pkt) (goTo_path _) fun _ => goTo_path _ _
  | readlinkReq =>
    simp only [Fits, hs]
    exact exact_readlink hs hm pkt
  | readReq =>
    simp only [Machine.nfsHandler, nfsHandler, Fits, hs]
    refine (exact_nfsReadReply hm pkt).map fun out hout => ?_
    obtain ⟨hclient, hreply, hpath⟩ := hout
    rw [hclient, hreply]
    constructor
    · split_ifs <;> rfl
    · refine hpath.trans ?_
      rw [hclient]
      refine congrArg some ?_
      dsimp only
      split_ifs
      · rw [nfsSend_path]
      · rw [goTo_path]
      · rw [goTo_path]
      · rw [goTo_path]

/-! ### Runs -/

def EventFits (c : Client) : MachineEvent → Prop
  | .packet pkt => Fits c pkt
  | .timeout => True

/-- All accesses were inside, and `nfs_path` is a string again. -/
def Safe (m : Machine) (event : MachineEvent) : Prop :=
  ∃ m', m.react event = some m' ∧ m'.PathOk

theorem safe_iff {m : Machine} (hm : m.PathOk) (event : MachineEvent) :
    Safe m event ↔ EventFits m.client event := by
  cases event with
  | packet pkt =>
    exact ((exact_nfsHandler hm pkt).mono fun m' hm' => hm'.2).exists_iff
  | timeout =>
    refine iff_of_true ⟨_, rfl, hm.trans ?_⟩ trivial
    refine congrArg some ?_
    show m.client.path = (nfsTimeout m.client).1.path
    rw [nfsTimeout]
    split_ifs
    · rfl
    · rw [nfsSend_path]

/-- One event after the other; nothing is known after an access outside. -/
def stepMachine (m : Option Machine) (event : MachineEvent) : Option Machine :=
  m.bind fun m => m.react event

/-- Every event fits in the state that the events before it led to. -/
def FitsIn (m : Option Machine) (event : MachineEvent) : Prop :=
  ∀ m', m = some m' → EventFits m'.client event

/-- An event is handled inside of all buffers exactly if its packet fits, and so is
every run of events that fit. -/
theorem handled_inside_iff (m : Machine) (hm : m.PathOk) :
    (∀ event : MachineEvent, Safe m event ↔ EventFits m.client event) ∧
    ∀ events : List MachineEvent, Guarded stepMachine FitsIn (some m) events →
      ∃ m', run stepMachine (some m) events = some m' ∧ m'.PathOk := by
  refine ⟨fun event => safe_iff hm event, fun events hfits => ?_⟩
  refine Guarded.invariant (I := fun m => ∃ m', m = some m' ∧ m'.PathOk) ?_ hfits ⟨m, rfl, hm⟩
  rintro _ event ⟨m, rfl, hm⟩ hfits
  exact (safe_iff hm event).mpr (hfits m rfl)

/-- A client that has sent a first request, in a state. -/
def machineIn (state : State) : Machine where
  client :=
    { fsMounted := true, rpcId := 1, nfsOffset := 0, nfsLen := NFS_READ_SIZE, dirfh := [],
      filefh := [], downloadState := .fail, srvMountPort := 0, srvNfsPort := 0, timeoutCount := 0,
      state := state, path := ascii "/nfs", filename := [], mem := fun _ => 0, xferSize := 0,
      status := .running }
  buff := Ptr.ofList (ascii "/nfs" ++ [0])

theorem machineIn_pathOk (state : State) : (machineIn state).PathOk := by
  have hstring : pathString (Ptr.ofList (ascii "/nfs" ++ [0])) = some (ascii "/nfs") :=
    pathString_eq_some_iff.mpr ⟨by decide, by decide, by decide⟩
  exact hstring

/-- The answer with a link to `a`. -/
def linkToA : Packet := ⟨fun _ => 0, [0, 0, 0, 1] ++ List.replicate 27 0 ++ [1, 97]⟩

theorem linkToA_fits : Fits (machineIn .readlinkReq).client linkToA := by
  refine ⟨by decide, ?_⟩
  unfold HeaderFits LinkFits
  decide

theorem linkToA_handled_inside :
    Safe (machineIn .readlinkReq) (.packet linkToA) ∧
      ∃ m', run stepMachine (some (machineIn .readlinkReq)) [.packet linkToA] = some m' ∧
        m'.PathOk := by
  refine ⟨((handled_inside_iff _ (machineIn_pathOk _)).1 (.packet linkToA)).mpr linkToA_fits,
    (handled_inside_iff _ (machineIn_pathOk _)).2 _ ⟨fun m' hm' => ?_, trivial⟩⟩
  obtain rfl := Option.some.inj hm'
  exact linkToA_fits

/-- One byte is announced, and none follows. -/
def noBytes : Packet := ⟨fun _ => 0, [0, 0, 0, 1] ++ List.replicate 95 0 ++ [1]⟩

/-- The byte behind the packet is stored. -/
theorem announced_byte_outside :
    ¬∀ (m : Machine) (event : MachineEvent), m.PathOk → Safe m event := by
  intro claim
  have hfits := (safe_iff (machineIn_pathOk .readReq) (.packet noBytes)).mp
    (claim _ _ (machineIn_pathOk .readReq))
  exact absurd (hfits.2 (by decide) (by decide) (by decide)) (by decide)

end UBoot.Net.Nfs
