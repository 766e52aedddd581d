import UBoot.Verification.Bytes

/-!
# The NFS client

`net/nfs.c`, without direct writes to flash. A reply is given by the fields of
the RPC header that the client looks at and the bytes behind it. Memory is
addressed relative to `load_addr`, modulo `2 ^ 32`; `int` and `ulong` have 32
bits. Only packets for our port are seen, and only while the network loop is
running.
-/

namespace UBoot.Net.Nfs

open Verification

def NFS_RETRY_COUNT : Nat := 30
def NFS_RPC_ERR : Int := 1
def NFS_RPC_DROP : Int := 124
def NFS_FHSIZE : Nat := 32
def NFS_READ_SIZE : UInt32 := 1024
def NFSERR_ISDIR : Int := 21
def NFSERR_INVAL : Int := 22

/-- `NfsState` -/
inductive State where
  | prclookupProgMountReq
  | prclookupProgNfsReq
  | mountReq
  | umountReq
  | lookupReq
  | readReq
  | readlinkReq
  deriving DecidableEq, Repr

/-- The state of the network loop; `restart` is set by `NetStartAgain`. -/
inductive Status where
  | running
  | success
  | fail
  | restart
  deriving DecidableEq, Repr

/-- The programs the port mapper is asked for. -/
inductive Prog where
  | mount
  | nfs
  deriving DecidableEq, Repr

/-- What a request asks for. -/
inductive Call where
  | getport (prog : Prog)
  | mount (path : List UInt8)
  | umountall
  | lookup (dirfh name : List UInt8)
  | read (filefh : List UInt8) (offset readlen : UInt32)
  | readlink (filefh : List UInt8)
  deriving DecidableEq, Repr

structure Request where
  id : UInt32
  call : Call
  deriving DecidableEq, Repr

/-- A reply; `data` are the bytes from `u.reply.data` on. -/
structure Reply where
  id : UInt32
  rstatus : UInt32
  verifier : UInt32
  astatus : UInt32
  data : List UInt8
  deriving DecidableEq, Repr

/-- `ntohl(rpc_pkt.u.reply.data[k])` -/
def Reply.word (r : Reply) (k : Nat) : UInt32 :=
  UInt32.ofNat (beValue ((r.data.drop (4 * k)).take 4))

/-- The bytes behind the structure, which has 19 words of data. -/
def Reply.payload (r : Reply) : List UInt8 := r.data.drop 76

structure Client where
  fsMounted : Bool
  rpcId : UInt32
  nfsOffset : UInt32
  nfsLen : UInt32
  dirfh : List UInt8
  filefh : List UInt8
  downloadState : Status
  srvMountPort : UInt32
  srvNfsPort : UInt32
  timeoutCount : Nat
  state : State
  /-- `nfs_path` and `nfs_filename` -/
  path : List UInt8
  filename : List UInt8
  /-- Memory from `load_addr` on, and `NetBootFileXferSize` -/
  mem : UInt32 → UInt8
  xferSize : UInt32
  status : Status

/-- A word read as an `int`. -/
def intOf (w : UInt32) : Int :=
  if w.toNat < 2147483648 then w.toNat else w.toNat - 4294967296

/-- `store_block` -/
def storeBlock (c : Client) (src : List UInt8) (offset len : UInt32) : Client :=
  { c with
    mem := fun q => if q - offset < len then src.getD (q - offset).toNat 0 else c.mem q
    xferSize := if c.xferSize < offset + len then offset + len else c.xferSize }

/-- `basename` of a path with a slash in it. -/
def basename (path : List UInt8) : List UInt8 :=
  (path.reverse.takeWhile (· ≠ 47)).reverse

/-- `dirname` of a path with a slash in it. -/
def dirname (path : List UInt8) : List UInt8 :=
  ((path.reverse.dropWhile (· ≠ 47)).drop 1).reverse

/-! ### Requests -/

/-- `rpc_req` -/
def rpcReq (c : Client) (call : Call) : Client × List Request :=
  ({ c with rpcId := c.rpcId + 1 }, [⟨c.rpcId + 1, call⟩])

/-- `nfs_umountall_req`; nothing is sent when nothing is mounted. -/
def nfsUmountallReq (c : Client) : Client × List Request :=
  if c.srvMountPort = 0xffffffff ∨ !c.fsMounted then (c, []) else rpcReq c .umountall

/-- `NfsSend` -/
def nfsSend (c : Client) : Client × List Request :=
  match c.state with
  | .prclookupProgMountReq => rpcReq c (.getport .mount)
  | .prclookupProgNfsReq => rpcReq c (.getport .nfs)
  | .mountReq => rpcReq c (.mount c.path)
  | .umountReq => nfsUmountallReq c
  | .lookupReq => rpcReq c (.lookup c.dirfh c.filename)
  | .readReq => rpcReq c (.read c.filefh c.nfsOffset c.nfsLen)
  | .readlinkReq => rpcReq c (.readlink c.filefh)

/-! ### Replies -/

/-- The check of the RPC id in every handler: an error for an id that was not
used yet, a drop for an earlier one. -/
def checkId (c : Client) (r : Reply) : Option Int :=
  if r.id > c.rpcId then some (-NFS_RPC_ERR)
  else if r.id < c.rpcId then some (-NFS_RPC_DROP)
  else none

/-- The header reports a failure. -/
def Reply.failed (r : Reply) : Bool :=
  r.rstatus ≠ 0 ∨ r.verifier ≠ 0 ∨ r.astatus ≠ 0

/-- The shape of all handlers but one: check the id, then whether the request
was refused, then take over what was answered. -/
def acceptReply (c : Client) (r : Reply) (refused : Bool) (accepted : Client) : Client × Int :=
  match checkId c r with
  | some err => (c, err)
  | none => if refused then (c, -1) else (accepted, 0)

/-- `rpc_lookup_reply` -/
def rpcLookupReply (prog : Prog) (c : Client) (r : Reply) : Client × Int :=
  acceptReply c r r.failed
    (match prog with
      | .mount => { c with srvMountPort := r.word 0 }
      | .nfs => { c with srvNfsPort := r.word 0 })

/-- `nfs_mount_reply` -/
def nfsMountReply (c : Client) (r : Reply) : Client × Int :=
  acceptReply c r (r.failed || r.word 0 ≠ 0)
    { c with fsMounted := true, dirfh := (r.data.drop 4).take NFS_FHSIZE }

/-- `nfs_umountall_reply` -/
def nfsUmountallReply (c : Client) (r : Reply) : Client × Int :=
  acceptReply c r r.failed { c with fsMounted := false, dirfh := List.replicate NFS_FHSIZE 0 }

/-- `nfs_lookup_reply` -/
def nfsLookupReply (c : Client) (r : Reply) : Client × Int :=
  acceptReply c r (r.failed || r.word 0 ≠ 0)
    { c with filefh := (r.data.drop 4).take NFS_FHSIZE }

/-- The path a link leads to. A relative link is taken from the directory of
the path. -/
def linkPath (path : List UInt8) (r : Reply) : List UInt8 :=
  let link := (r.data.drop 8).take (r.word 1).toNat
  let path := if (r.data.drop 8).head? ≠ some 47 then path ++ 47 :: link else link
  path.takeWhile (· ≠ 0)

/-- `nfs_readlink_reply` -/
def nfsReadlinkReply (c : Client) (r : Reply) : Client × Int :=
  acceptReply c r (r.failed || r.word 0 ≠ 0) { c with path := linkPath c.path r }

/-- `nfs_read_reply`: the number of bytes stored, or a negative number. -/
def nfsReadReply (c : Client) (r : Reply) : Client × Int :=
  match checkId c r with
  | some err => (c, err)
  | none =>
    if r.failed || r.word 0 ≠ 0 then
      if r.rstatus ≠ 0 then (c, -9999)
      else if r.astatus ≠ 0 then (c, -9999)
      else (c, intOf (0 - r.word 0))
    else (storeBlock c r.payload c.nfsOffset (r.word 18), intOf (r.word 18))

/-! ### The client -/

/-- `NfsTimeout` -/
def nfsTimeout (c : Client) : Client × List Request :=
  if c.timeoutCount + 1 > NFS_RETRY_COUNT then
    ({ c with timeoutCount := c.timeoutCount + 1, status := .restart }, [])
  else nfsSend { c with timeoutCount := c.timeoutCount + 1 }

/-- The shape of all states but one: a dropped reply is ignored, then an error
and a success go different ways. -/
def dispatch (reply : Client × Int) (onError onReply : Client → Client × List Request) :
    Client × List Request :=
  if reply.2 = -NFS_RPC_DROP then (reply.1, [])
  else if reply.2 = -NFS_RPC_ERR then onError reply.1
  else onReply reply.1

/-- `NfsState = state; NfsSend();` -/
def goTo (state : State) (c : Client) : Client × List Request :=
  nfsSend { c with state := state }

/-- `NfsHandler`. The two port lookups take no notice of an error, and reading
has no case for a dropped reply. -/
def nfsHandler (c : Client) (r : Reply) : Client × List Request :=
  match c.state with
  | .prclookupProgMountReq =>
    dispatch (rpcLookupReply .mount c r) (goTo .prclookupProgNfsReq) (goTo .prclookupProgNfsReq)
  | .prclookupProgNfsReq => dispatch (rpcLookupReply .nfs c r) (goTo .mountReq) (goTo .mountReq)
  | .mountReq => dispatch (nfsMountReply c r) (goTo .umountReq) (goTo .lookupReq)
  | .umountReq =>
    dispatch (nfsUmountallReply c r) (fun c => ({ c with status := .fail }, []))
      (fun c => ({ c with status := c.downloadState }, []))
  | .lookupReq =>
    dispatch (nfsLookupReply c r) (goTo .umountReq)
      (fun c => goTo .readReq { c with nfsOffset := 0, nfsLen := NFS_READ_SIZE })
  | .readlinkReq =>
    dispatch (nfsReadlinkReply c r) (goTo .umountReq)
      (fun c => goTo .mountReq { c with filename := basename c.path, path := dirname c.path })
  | .readReq =>
    let (c, rlen) := nfsReadReply c r
    if rlen > 0 then nfsSend { c with nfsOffset := c.nfsOffset + UInt32.ofInt rlen }
    else if rlen = -NFSERR_ISDIR ∨ rlen = -NFSERR_INVAL then goTo .readlinkReq c
    else
      let c := if rlen = 0 then { c with downloadState := .success } else c
      goTo .umountReq c

/-- `NfsStart` with the path and the name of the file. `NetLoop` clears the
size and sets the state of the loop. -/
def nfsStart (c : Client) (path filename : List UInt8) : Client × List Request :=
  nfsSend { c with
    downloadState := .fail
    path := path
    filename := filename
    timeoutCount := 0
    state := .prclookupProgMountReq
    xferSize := 0
    status := .running }

end UBoot.Net.Nfs
