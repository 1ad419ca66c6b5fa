import InodeFs.Arrays
import InodeFs.FileThreads
import InodeFs.Prog.Sections

/-!
# The server under concurrent requests

Threads send requests of all five kinds at the same time.  Only `get` and `put` lock a file, and
only blocks are allocated and freed under a mutex; `create`, `getattr` and `remove` load and store
inodes without any.  So records and blocks can get mixed up until a request leaves an array or the
process dies; but the server does not hang.
-/

namespace InodeFs

open BlockLayer InodeLayer FsServer Prog Disk

/-! ## Requests as calls -/

instance : Calls (Request × Junk) FsSig Junk Reply where
  code q := serve q.1
  input q := q.2

/-- A system of threads that send requests to the server. -/
abbrev ServerThreads (τ : Type) :=
  ThreadConfig τ (Request × Junk) Action Action.Res Mutex (UInt32 × CondVar) (UInt32 → RwCounters)
    Junk Disk Reply

/-- The process can die in the request: `get` when the size of the file, which is to be the length of a
`std::string`, is a negative `int`, and `remove` when the inode is gone by the time that it is to be
freed. -/
def Request.MayDie : Request → Prop
  | .create _ _ => False
  | .put _ _ => False
  | .get _ _ => True
  | .getattr _ => False
  | .remove _ => True

/-! ## The discipline of the requests -/

/-- The program locks in sections, each of which leaves the lock that it takes idle. -/
abbrev Sections {α : Type} (mayDie : Prop) (p : FsM α) : Prop :=
  InSections Mutex.rank Mutex.guards RwCounters.Idle mayDie p

section Rules

variable {α : Type} {mayDie : Prop}

-- Each lock of `bitmap_mutex` is a section of its own.
theorem Plain.sections {p : FsM α} (hp : Plain p) : Sections mayDie p := by
  intro y
  refine Plain.transfer
    (fun taken (x : List Mutex × RwCounters) =>
      x.1 = (if taken then [.bitmap] else []) ∧ (taken = true → x.2.Idle))
    (fun {a P x y} _ hy hP r => hP r y hy) (fun {P y} hy hP => ?_) (fun {P y} hy hP => ?_) hp
    ⟨rfl, nofun⟩ fun _ x hx => hx.1
  · obtain ⟨held, v⟩ := y
    obtain ⟨rfl, -⟩ := hy
    refine ⟨fun _ hm => absurd hm List.not_mem_nil, fun _ v hv => hP _ ⟨rfl, fun _ => hv⟩, ?_⟩
    exact fun hne => absurd rfl hne
  · obtain ⟨held, v⟩ := y
    obtain ⟨rfl, hidle⟩ := hy
    exact ⟨[], rfl, fun _ => hidle rfl, hP _ ⟨rfl, nofun⟩⟩

theorem sections_putInode (inum : UInt32) (ino : Inode) : Sections mayDie (putInode inum ino) := by
  unfold putInode
  split
  · exact .ret ()
  · exact fun _ _ _ _ => rfl

theorem sections_whereToAlloc (n x : Nat) : Sections mayDie (whereToAlloc n x) := by
  induction n generalizing x with
  | zero => exact .ret 0
  | succ n ih =>
    refine (plain_getInode _).sections.bind fun ino => ?_
    cases ino with
    | none => exact .ret x
    | some ino => exact ih (x + 1)

theorem sections_freeInode (inum : UInt32) (h : mayDie) : Sections mayDie (freeInode inum) := by
  refine (plain_getInode inum).sections.bind fun ino => ?_
  cases ino with
  | none => exact .abort h
  | some ino => exact sections_putInode _ _

theorem sections_removeFile (inum : UInt32) (h : mayDie) : Sections mayDie (removeFile inum) := by
  refine (plain_getInode inum).sections.bind fun ino => ?_
  cases ino with
  | none => exact .ret ()
  | some ino =>
    refine (Plain.forLoop (fun _ => plain_freeBlock _) 0 8).sections.bind fun _ => ?_
    simp only
    split
    · refine plain_freshBlock.sections.bind fun _ => ?_
      refine (plain_readDisk _ _).sections.bind fun b => ?_
      have hentries : ∀ n, Plain (Prog.forLoop (fun x => do
          let id ← entry b x
          freeBlock id) 0 n) :=
        fun n => Plain.forLoop (fun x => (plain_entry b x).bind fun id => plain_freeBlock id) 0 n
      refine (hentries _).sections.bind fun _ => ?_
      exact (plain_freeBlock _).sections.bind fun _ => sections_freeInode inum h
    · exact sections_freeInode inum h

-- The reply to a `get`, once `read_file` has returned.
theorem sections_get (id : UInt64) (now : UInt32) (h : mayDie) :
    Sections mayDie (FsServer.get id now) := by
  refine InSections.bind ?_ fun r => ?_
  · have hread : OrderedBy Mutex.rank Mutex.guards (.rwlock (maskId id)) RwCounters.Idle
        (readFile (maskId id) true true now >>= fun r => pure r) :=
      ordered_readFile true true now fun r => r
    rw [show (fun r => pure r : Option ReadResult → FsM (Option ReadResult)) = Prog.ret from rfl,
      bind_ret] at hread
    exact hread.inSections
  · cases r with
    | none => exact .ret _
    | some r =>
      simp only
      split
      · exact .ret _
      · split
        · exact .abort h
        · exact .ret _

/-- Every request keeps to the discipline. -/
theorem sections_serve (q : Request) : Sections q.MayDie (serve q) := by
  cases q with
  | create type time =>
    refine InSections.bind (InSections.bind ?_ fun _ => .ret _) fun _ => .ret _
    refine (sections_whereToAlloc _ _).bind fun x => ?_
    exact (sections_putInode _ _).bind fun _ => .ret _
  | put id buf =>
    refine InSections.bind ?_ fun _ => .ret _
    exact (ordered_writeFile (cStr buf) (intSize buf) Status.ok).inSections
  | get id now => exact (sections_get id now trivial).bind fun _ => .ret _
  | getattr id =>
    refine InSections.bind (InSections.bind ?_ fun _ => .ret _) fun _ => .ret _
    refine (plain_getInode _).sections.bind fun ino => ?_
    cases ino with
    | none => exact .ret _
    | some ino => exact .ret _
  | remove id =>
    refine InSections.bind ?_ fun _ => .ret _
    exact (sections_removeFile _ trivial).bind fun _ => .ret _

end Rules

/-! ## The server does not hang -/

instance : Nonempty RwCounters := ⟨.init⟩

/-- A thread has come to an access to an element that the array does not have: to a lock past the end
of `rwlocks`, to a row past the end of the disk, past `ino->blocks` or past an indirect block. -/
def LeavesArrays {τ : Type} (c : ServerThreads τ) : Prop :=
  ∃ t op, c.nextOp t = some op ∧ ¬ OpInArrays op

theorem inevitable_answered {τ : Type} [Finite τ] [DecidableEq τ] (d : Disk)
    (requests : τ → List (Request × Junk)) :
    Inevitable (fun c c' : ServerThreads τ => ∃ l, Step c l c')
      (fun c => c.Answered requests ∨ ∃ t f, c.DiesIn t f ∧ f.call.1.MayDie)
      (Config.start d (fun _ => .init) requests) := by
  refine inevitable_of_sections Mutex.rank Mutex.guards RwCounters.Idle
    (fun q : Request × Junk => q.1.MayDie) (n := 1) d (fun m => ?_)
    (fun t q _ => sections_serve q.1) fun m => ?_
  · cases m
    · exact Nat.zero_le 1
    · exact le_rfl
  · cases m <;> exact ⟨rfl, rfl, rfl⟩

/-- Whatever requests the threads send and however they are interleaved, on whatever disk, every one
of them is answered, unless the process dies in a `get` or in a `remove` or a request leaves an array,
after which nothing is known. -/
theorem inevitable_requests {τ : Type} [Finite τ] [DecidableEq τ] (d : Disk)
    (requests : τ → List (Request × Junk)) :
    Inevitable (fun c c' : ServerThreads τ => ∃ l, Step c l c')
      (fun c => c.Answered requests ∨ (∃ t f, c.DiesIn t f ∧ f.call.1.MayDie) ∨ LeavesArrays c)
      (Config.start d (fun _ => .init) requests) :=
  (inevitable_answered d requests).mono fun _ h => h.imp_right .inl

/-- One thread makes a file and removes it, another one writes to the root and reads it. -/
def createAndPut : Bool → List (Request × Junk)
  | false => [(.create 2 fun _ => 7, fun _ _ => 0), (.remove 1, fun _ _ => 0)]
  | true => [(.put 0 [65], fun _ _ => 0), (.get 0 5, fun _ _ => 0)]

theorem inevitable_requests_two :
    Inevitable (fun c c' : ServerThreads Bool => ∃ l, Step c l c')
      (fun c => c.Answered createAndPut ∨ (∃ t f, c.DiesIn t f ∧ f.call.1.MayDie) ∨ LeavesArrays c)
      (Config.start (madeAt 0) (fun _ => .init) createAndPut) :=
  inevitable_requests (madeAt 0) createAndPut

end InodeFs
