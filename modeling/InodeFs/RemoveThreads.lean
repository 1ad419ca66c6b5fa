import InodeFs.FileThreads

/-!
# Threads that remove the file that others use

`remove_file` never locks `rwlocks[inum]`.  What it does is one step among the reads and writes of
the file as long as it is not in progress while another call has the lock.
-/

namespace InodeFs

open BlockLayer InodeLayer FsServer Prog Disk

/-- A call of `read_file`, of `write_file` or of `remove_file`. -/
inductive FileOp where
  | access (call : FileCall)
  | remove (inum : UInt32) (junk : Junk)

inductive OpResult where
  | accessed (r : FileResult)
  | removed

namespace FileOp

def inum : FileOp → UInt32
  | .access call => call.inum
  | .remove inum _ => inum

def removes : FileOp → Bool
  | .access _ => false
  | .remove _ _ => true

end FileOp

instance : Calls FileOp FsSig Junk OpResult where
  code
    | .access call => do
        let r ← Calls.code call
        pure (.accessed r)
    | .remove inum _ => do
        removeFile inum
        pure .removed
  input
    | .access call => Calls.input (S := FsSig) (α := FileResult) call
    | .remove _ junk => junk

abbrev OpThreads (τ : Type) :=
  ThreadConfig τ FileOp Action Action.Res Mutex (UInt32 × CondVar) (UInt32 → RwCounters) Junk Disk
    OpResult

abbrev OpLabel (τ : Type) := Label τ FileOp Action SyncOp

/-! ## The discipline of `remove_file` -/

section Rules

variable {α : Type} {inum : UInt32} {vars : UInt32 → RwCounters}

theorem allowsPlain_exclusiveOrDead : AllowsPlain exclusiveOrDead [.rwlock inum] vars where
  act := fun hne hP => ⟨hne, hP⟩
  lock := fun hP => by
    refine ⟨List.cons_ne_nil _ _, fun hm => ?_, hP⟩
    cases List.mem_singleton.mp hm
  unlock := fun hP => ⟨_, rfl, hP⟩
  ne := List.cons_ne_nil _ _

theorem Plain.exclusive {p : FsM α} {Q : α → List Mutex × (UInt32 → RwCounters) → Prop}
    (hp : Plain p) (hQ : ∀ a, Q a ([.rwlock inum], vars)) :
    Follows exclusiveOrDead p Q ([.rwlock inum], vars) := allowsPlain_exclusiveOrDead.plain hp hQ

theorem exclusive_freeInode {Q : Unit → List Mutex × (UInt32 → RwCounters) → Prop}
    (hQ : Q () ([.rwlock inum], vars)) :
    Follows exclusiveOrDead (freeInode inum) Q ([.rwlock inum], vars) := by
  unfold freeInode
  refine Follows.bind ((plain_getInode inum).exclusive fun ino => ?_)
  cases ino with
  | none => exact List.cons_ne_nil _ _
  | some ino => exact allowsPlain_exclusiveOrDead.putInode _ _ hQ

/-- Run alone, `remove_file` keeps to the rules of a call that has the lock. -/
theorem bareBy_removeFile (inum : UInt32) (a : α) :
    BareBy (.rwlock inum) (fun vars => (vars inum).Idle)
      (removeFile inum >>= fun _ => pure a : FsM α) := by
  intro vars hidle
  have hend : Follows (S := FsSig) exclusiveOrDead (freeInode inum >>= fun _ => pure a)
      (fun _ x => x.1 = [.rwlock inum] ∧ (x.2 inum).Idle) ([.rwlock inum], vars) :=
    Follows.bind (exclusive_freeInode ⟨rfl, hidle⟩)
  simp only [removeFile, bind_assoc]
  refine Follows.bind ((plain_getInode inum).exclusive fun ino => ?_)
  cases ino with
  | none => exact ⟨rfl, hidle⟩
  | some ino =>
    simp only [bind_assoc]
    refine Follows.bind ((Plain.forLoop (fun _ => plain_freeBlock _) 0 8).exclusive fun _ => ?_)
    split
    · simp only [bind_assoc]
      refine Follows.bind (plain_freshBlock.exclusive fun _ => ?_)
      refine Follows.bind ((plain_readDisk _ _).exclusive fun b => ?_)
      have hentries : ∀ n, Plain (Prog.forLoop (fun x => do
          let id ← entry b x
          freeBlock id) 0 n) :=
        fun n => Plain.forLoop (fun x => (plain_entry b x).bind fun id => plain_freeBlock id) 0 n
      refine Follows.bind ((hentries _).exclusive fun _ => ?_)
      exact Follows.bind ((plain_freeBlock _).exclusive fun _ => hend)
    · exact hend

theorem guardedBy_access (call : FileCall) :
    GuardedBy (.rwlock call.inum) (fun vars => (vars call.inum).Idle)
      (Calls.code (FileOp.access call) : FsM OpResult) :=
  (ordered_code call).guardedBy.map OpResult.accessed

end Rules

/-! ## Serial runs -/

-- `remove_file` ends, when it ends, with the inode free.
theorem not_inUse_of_removeFile {inum : UInt32} {d e : Disk} {j j' : Junk} {u : Unit}
    (h : (removeFile inum).run j d = some (u, j', e)) : ¬ e.InUse inum.toNat := by
  -- the last thing it does to an inode in use
  have hfree : ∀ d j, (freeInode inum).run j d = some (u, j', e) → ¬ e.InUse inum.toNat := by
    intro d j h
    by_cases hin : d.InUse inum.toNat
    · have hwp := (wp_freeInode (Q := fun _ e => ¬ e.InUse inum.toNat) hin).mpr fun hin' => by
        rw [InUse, inode_setInode_self _ _ hin.1] at hin'
        exact hin'.2 rfl
      exact wp_of_run hwp h
    · have hwp : wp (getInode inum) (fun ino _ => ino = none) d :=
        (wp_getInode ..).mpr (lookup_eq_none hin)
      obtain ⟨ino, j₁, d₁, hget, hrest⟩ := exists_of_run_bind h
      have hnone := wp_of_run hwp hget
      subst hnone
      cases hrest
  have hget : wp (getInode inum) (fun ino e => ino = d.lookup inum.toNat ∧ e = d) d :=
    (wp_getInode ..).mpr ⟨rfl, rfl⟩
  obtain ⟨ino, j₁, d₁, hrun, h⟩ := exists_of_run_bind h
  obtain ⟨rfl, rfl⟩ := wp_of_run hget hrun
  by_cases hin : d₁.InUse inum.toNat
  · rw [lookup_eq_some hin] at h
    obtain ⟨_, j₂, d₂, -, h⟩ := exists_of_run_bind h
    simp only at h
    split at h
    · obtain ⟨_, j₃, d₃, -, h⟩ := exists_of_run_bind h
      obtain ⟨_, j₄, d₄, -, h⟩ := exists_of_run_bind h
      obtain ⟨_, j₅, d₅, -, h⟩ := exists_of_run_bind h
      obtain ⟨_, j₆, d₆, -, h⟩ := exists_of_run_bind h
      exact hfree _ _ h
    · exact hfree _ _ h
  · rw [lookup_eq_none hin] at h
    cases h
    exact hin

theorem wp_code_absent {op : FileOp} {d : Disk} (h : ¬ d.InUse op.inum.toNat) :
    wp (Calls.code op : FsM OpResult) (fun _ e => e = d) d := by
  cases op with
  | access call =>
    cases call with
    | read inum bufOut size now junk =>
      simp only [Calls.code, readFile, wp_bind, wp_readerEnter]
      split
      · exact rfl
      · have hin : ¬ d.InUse inum.toNat := h
        rw [wp_bind, wp_getInode, lookup_eq_none hin]
        exact rfl
    | write inum buf size junk =>
      have hin : ¬ d.InUse inum.toNat := h
      simp only [Calls.code, wp_bind, wp_writeFile_refused (.inr (.inr hin)), pure_eq, wp_ret]
  | remove inum junk =>
    have hin : ¬ d.InUse inum.toNat := h
    simp only [Calls.code, wp_bind, wp_removeFile_refused hin, pure_eq, wp_ret]

-- After a serial run with a remove the file is free.
theorem not_inUse_of_serial {τ : Type} {inum : UInt32} {order : List (τ × FileOp)}
    {rs : List (τ × OpResult)} {d e : Disk} (hinum : ∀ x ∈ order, x.2.inum = inum)
    (h : serial order d = some (rs, e))
    (hremove : ¬ d.InUse inum.toNat ∨ ∃ x ∈ order, x.2.removes = true) : ¬ e.InUse inum.toNat := by
  induction order generalizing d rs with
  | nil =>
    cases h
    exact hremove.elim id fun ⟨x, hx, _⟩ => absurd hx List.not_mem_nil
  | cons x order ih =>
    obtain ⟨t, op⟩ := x
    have hop : op.inum = inum := hinum _ (List.mem_cons_self ..)
    simp only [serial, Option.bind_eq_bind, Option.bind_eq_some_iff] at h
    obtain ⟨⟨a, j, d₁⟩, hrun, rest, hrest, heq⟩ := h
    cases heq
    refine ih (fun x hx => hinum x (List.mem_cons_of_mem _ hx)) hrest ?_
    by_cases hin : d.InUse inum.toNat
    · -- the remove is this call, or one that follows
      obtain ⟨y, hy, hremoves⟩ := hremove.resolve_left (not_not.mpr hin)
      rcases List.mem_cons.mp hy with rfl | hy
      · cases op with
        | access call => cases hremoves
        | remove i junk =>
          obtain ⟨_, _, _, hrun', hret⟩ := exists_of_run_bind hrun
          cases hret
          exact .inl (hop ▸ not_inUse_of_removeFile hrun')
      · exact .inr ⟨y, hy, hremoves⟩
    · have hno : ¬ d.InUse op.inum.toNat := hop ▸ hin
      have heq := wp_of_run (wp_code_absent hno) hrun
      exact .inl (heq ▸ hin)

/-! ## Removes apart from the other calls -/

section Atomic
variable {τ : Type} [DecidableEq τ] {inum : UInt32} {d : Disk} {vars : UInt32 → RwCounters}
variable {calls : τ → List FileOp} {ls : List (OpLabel τ)} {c : OpThreads τ}

/-- The calls have returned what they return one after the other in some order from disk `d`, and
left the inode and the bitmap as they leave them then. -/
def Atomic (inum : UInt32) (d : Disk) (calls : τ → List FileOp) (c : OpThreads τ) : Prop :=
  ∃ order rs e, serial order d = some (rs, e) ∧
    (∀ t, entriesOf t order = calls t ∧ (c.thread t).done = entriesOf t rs) ∧
    c.store.inode inum.toNat = e.inode inum.toNat ∧ ∀ id < blockNum, c.store.bit id = e.bit id

theorem exists_entry {x : FileOp} {t : τ} {order : List (τ × FileOp)} :
    x ∈ entriesOf t order ↔ (t, x) ∈ order := by
  simp only [entriesOf, List.mem_filterMap]
  constructor
  · rintro ⟨⟨u, y⟩, hy, heq⟩
    split at heq
    · rename_i hu
      cases heq
      exact (show u = t from hu) ▸ hy
    · cases heq
  · intro hx
    exact ⟨_, hx, if_pos rfl⟩

-- However the calls are ordered, no file is left when one of them removes it.
theorem Atomic.not_inUse (h : Atomic inum d calls c)
    (hcalls : ∀ t, ∀ op ∈ calls t, op.inum = inum)
    (hremove : ∃ t, ∃ op ∈ calls t, op.removes = true) : ¬ c.store.InUse inum.toNat := by
  obtain ⟨order, rs, e, hserial, hthreads, hrec, -⟩ := h
  have hfree : ¬ e.InUse inum.toNat := by
    refine not_inUse_of_serial (fun x hx => ?_) hserial (.inr ?_)
    · obtain ⟨t, op⟩ := x
      exact hcalls t op ((hthreads t).1 ▸ exists_entry.mpr hx)
    · obtain ⟨t, op, hop, hremoves⟩ := hremove
      exact ⟨(t, op), exists_entry.mp ((hthreads t).1 ▸ hop), hremoves⟩
  rw [InUse, hrec]
  exact hfree

/-- A run in which removes are apart from the other calls is atomic, from any disk. -/
theorem atomic_of_apart (hcalls : ∀ t, ∀ op ∈ calls t, op.inum = inum)
    (hidle : (vars inum).Idle)
    (hrun : RunWhere (Apart (.rwlock inum) FileOp.removes) (Config.start d vars calls) ls c)
    (hfin : c.Finished) :
    Atomic inum d calls c ∧
      ((∃ t, ∃ op ∈ calls t, op.removes = true) → ¬ c.store.InUse inum.toNat) := by
  have hcode : ∀ t, ∀ op ∈ calls t, op.removes = false → GuardedBy (.rwlock inum)
      (fun vars => (vars inum).Idle) (Calls.code op : FsM OpResult) := by
    intro t op hop haccess
    cases op with
    | access call => exact hcalls t _ hop ▸ guardedBy_access call
    | remove i junk => cases haccess
  have hbare : ∀ t, ∀ op ∈ calls t, op.removes = true → BareBy (.rwlock inum)
      (fun vars => (vars inum).Idle) (Calls.code op : FsM OpResult) := by
    intro t op hop hremoves
    cases op with
    | access call => cases hremoves
    | remove i junk => exact hcalls t _ hop ▸ bareBy_removeFile i OpResult.removed
  obtain ⟨rs, e, hserial, -, hend⟩ := serialised_of_apart hcode hbare hidle hrun
  obtain ⟨hstore, hthreads⟩ := hend hfin
  have hatomic : Atomic inum d calls c :=
    ⟨_, rs, e, hserial, hthreads, by rw [hstore], fun id _ => by rw [hstore]⟩
  exact ⟨hatomic, hatomic.not_inUse hcalls⟩

end Atomic

/-! ## A write and a remove -/

/-- One thread writes a byte to the root, another removes the root. -/
def writeAndRemove : Bool → List FileOp
  | false => [.access (.write 0 (fun _ => 66) 1 fun _ _ => 0)]
  | true => [.remove 0 fun _ _ => 0]

/-- The two threads before their first steps, on a fresh disk. -/
def remover : OpThreads Bool := Config.start (madeAt 0) (fun _ => .init) writeAndRemove

theorem inum_writeAndRemove (t : Bool) : ∀ op ∈ writeAndRemove t, op.inum = 0 := by
  intro op hop
  cases t <;> (rw [List.mem_singleton.mp hop]; rfl)

theorem exists_removes : ∃ t, ∃ op ∈ writeAndRemove t, op.removes = true :=
  ⟨true, _, List.mem_singleton_self _, rfl⟩

/-- No remove is in progress. -/
def noRemove (c : OpThreads Bool) : Bool :=
  (c.thread false).frame.all (fun f => !f.call.removes) &&
    (c.thread true).frame.all (fun f => !f.call.removes)

/-- `Apart`, tested. -/
def keptApart (c : OpThreads Bool) (l : OpLabel Bool) : Bool :=
  match l.event with
  | .passed (.lock (.rwlock _)) => noRemove c
  | .begun => noRemove c && (c.monitor.owner (.rwlock 0)).isNone
  | _ => true

theorem apart_of_keptApart (c : OpThreads Bool) (l : OpLabel Bool) (h : keptApart c l = true) :
    Apart (.rwlock 0) FileOp.removes c l := by
  have hframes : noRemove c = true →
      ∀ u f, (c.thread u).frame = some f → f.call.removes = false := by
    intro hno u f hf
    rw [noRemove, Bool.and_eq_true] at hno
    cases u with
    | false => simpa only [hf, Option.all_some, Bool.not_eq_true'] using hno.1
    | true => simpa only [hf, Option.all_some, Bool.not_eq_true'] using hno.2
  obtain ⟨t, call, event⟩ := l
  constructor
  · rintro rfl
    exact hframes h
  · rintro rfl _
    rw [keptApart, Bool.and_eq_true, Option.isNone_iff_eq_none] at h
    exact ⟨h.2, hframes h.1⟩

theorem atomic_of_apart_two : ∃ ls c,
    RunWhere (Apart (.rwlock 0) FileOp.removes) remover ls c ∧ c.Finished ∧
      Atomic 0 (madeAt 0) writeAndRemove c ∧ ¬ c.store.InUse 0 := by
  have hfollow : (remover.follow keptApart (List.replicate 67 false ++
      List.replicate 49 true)).any (fun r => r.2.bothReturned) = true := by decide +kernel
  obtain ⟨⟨ls, c⟩, hls, hreturned⟩ := Option.any_eq_true .. |>.mp hfollow
  have hrun : RunWhere (Apart (.rwlock 0) FileOp.removes) remover ls c :=
    RunWhere.nil.follow apart_of_keptApart hls
  have hfin := Config.finished_of_bothReturned hreturned
  obtain ⟨hatomic, hfree⟩ := atomic_of_apart inum_writeAndRemove ⟨rfl, rfl, rfl⟩ hrun hfin
  exact ⟨ls, c, hrun, hfin, hatomic, hfree exists_removes⟩

/-- The remove runs between the write's load and its store of the inode. -/
theorem not_atomic_of_run : ¬ ∀ d, SafelyReachable d → ∀ inum : UInt32, d.InUse inum.toNat →
    ∀ calls : Bool → List FileOp, (∀ t, ∀ op ∈ calls t, op.inum = inum) →
    (∃ junk, calls true = [.remove inum junk]) → (∀ op ∈ calls false, op.removes = false) →
    ∀ ls c, Run (Config.start d (fun _ => .init) calls : OpThreads Bool) ls c → c.Finished →
      Atomic inum d calls c := by
  intro h
  have hfollow : (remover.follow (fun _ _ => true) (List.replicate 7 false ++
      List.replicate 49 true ++ List.replicate 60 false)).any (fun r => r.2.bothReturned &&
        decide (r.2.store.InUse 0)) = true := by decide +kernel
  obtain ⟨⟨ls, c⟩, hls, hc⟩ := Option.any_eq_true .. |>.mp hfollow
  obtain ⟨hreturned, hin⟩ := Bool.and_eq_true_iff.mp hc
  have hrun : Run remover ls c := (RunWhere.nil.follow (fun _ _ _ => trivial) hls).run
  have hatomic := h _ (fresh_madeAt 0).safelyReachable 0 ((fresh_madeAt 0).inUse_iff.mpr rfl)
    writeAndRemove inum_writeAndRemove ⟨_, rfl⟩ (fun op hop => List.mem_singleton.mp hop ▸ rfl)
    ls c hrun (Config.finished_of_bothReturned hreturned)
  exact hatomic.not_inUse inum_writeAndRemove exists_removes (of_decide_eq_true hin)

end InodeFs
