import InodeFs.InodeLayer

/-!
# `class fs_server`, and runs of requests

A request carries the readings of the clock that serving it makes.  `serveAll` serves requests one
after another, each with its own uninitialised memory; it has no answer when the process dies.
-/

namespace InodeFs

/-- `fs_protocol::xxstatus` -/
inductive Status where
  | ok
  | rpcerr
  | noent
  | ioerr
  deriving DecidableEq

namespace FsServer

/-- `id &= 0x7fffffff`, and the conversion to the `uint32_t` parameter that follows. -/
def maskId (id : UInt64) : UInt32 := (id &&& 0x7fffffff).toUInt32

/-- `fs_server::create` -/
def create (type : UInt32) (time : Nat → UInt32) : FsM (Status × UInt64) := do
  let id ← InodeLayer.allocInode type time
  pure (.ok, id.toUInt64)

/-- `buf.c_str()` -/
def cStr (buf : List UInt8) : Mem := fun i => buf.getD i 0

/-- `int size = buf.size()` -/
@[irreducible] def intSize (buf : List UInt8) : Int := Int.bmod buf.length (2 ^ 32)

/-- `fs_server::put` -/
def put (id : UInt64) (buf : List UInt8) : FsM Status := do
  InodeLayer.writeFile (maskId id) (cStr buf) (intSize buf)
  pure .ok

/-- `fs_server::get`; `assign` throws at a negative `size`, which no caller catches. -/
def get (id : UInt64) (now : UInt32) : FsM (Status × List UInt8) := do
  let r ← InodeLayer.readFile (maskId id) true true now
  match r with
  | none => pure (.ok, [])
  | some r =>
      if r.size = 0 then pure (.ok, [])
      else if r.size < 0 then Prog.abort
      else pure (.ok, (List.range r.size.toNat).map r.buf)

/-- `fs_server::getattr` -/
def getattr (id : UInt64) : FsM (Status × Attr) := do
  let a ← InodeLayer.getattr (maskId id) Attr.zero
  pure (.ok, a)

/-- `fs_server::remove` -/
def remove (id : UInt64) : FsM Status := do
  InodeLayer.removeFile (maskId id)
  pure .ok

end FsServer

/-! ## Runs -/

inductive Request where
  | create (type : UInt32) (time : Nat → UInt32)
  | put (id : UInt64) (buf : List UInt8)
  | get (id : UInt64) (now : UInt32)
  | getattr (id : UInt64)
  | remove (id : UInt64)

inductive Reply where
  | created (status : Status) (id : UInt64)
  | status (status : Status)
  | bytes (status : Status) (buf : List UInt8)
  | attr (status : Status) (a : Attr)
  deriving DecidableEq

def serve : Request → FsM Reply
  | .create type time => do
      let r ← FsServer.create type time
      pure (.created r.1 r.2)
  | .put id buf => do
      let r ← FsServer.put id buf
      pure (.status r)
  | .get id now => do
      let r ← FsServer.get id now
      pure (.bytes r.1 r.2)
  | .getattr id => do
      let r ← FsServer.getattr id
      pure (.attr r.1 r.2)
  | .remove id => do
      let r ← FsServer.remove id
      pure (.status r)

/-- The replies to the requests, and the disk after them. -/
def serveAll : List (Request × Junk) → Disk → Option (List Reply × Disk)
  | [], d => some ([], d)
  | (q, j) :: qs, d => do
      let r ← (serve q).run j d
      let rest ← serveAll qs r.2.2
      pure (r.1 :: rest.1, rest.2)

/-- `d` is the disk of a file system just made. -/
def Fresh (d : Disk) : Prop :=
  ∃ time j r, (InodeLayer.init time).run j Disk.init = some ((), r, d)

/-- `d` is the disk of a fresh file system after some requests. -/
def Reachable (d : Disk) : Prop :=
  ∃ d₀ qs rs, Fresh d₀ ∧ serveAll qs d₀ = some (rs, d)

end InodeFs
