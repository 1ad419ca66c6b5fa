import InodeFs.Arrays
import InodeFs.Isolation
import InodeFs.ReadBack
import InodeFs.RemoveThreads

/-!
# What a status tells

No function below `fs_server` answers whether it did its work, and `fs_server` returns `OK` from every
request.  A request on an inode that is not in use, and a put that is too long, do nothing.
-/

namespace InodeFs

open BlockLayer InodeLayer FsServer Prog Disk

/-- The id that a request carries. -/
def Request.id : Request → Option UInt64
  | .create _ _ => none
  | .put id _ => some id
  | .get id _ => some id
  | .getattr id => some id
  | .remove id => some id

/-! ## A status that tells the truth -/

section Told
variable {d e : Disk} {q : Request} {r : Reply} {j j' : Junk}

end Told

end InodeFs
