import InodeFs.InRange
import InodeFs.Indices

/-!
# Requests that stay inside the arrays

`rwlocks`, `disk::blocks`, `ino->blocks` and the entries of an indirect block have fixed lengths, and
what a request takes as an index comes from its id, from a file or from an inode.  `InArrays` asks for
all of them at once.  A safe request stays inside when the lock that it takes, if any, exists.
-/

namespace InodeFs

open BlockLayer InodeLayer FsServer Prog Disk

/-- The operation is on elements that the arrays have. -/
def OpInArrays (op : Op FsSig) : Prop := OpInRange op ∧ Unselected strayAt op

/-- Whatever uninitialised memory holds, serving the request on disk `d` stays inside the arrays. -/
def InArrays (d : Disk) (q : Request) : Prop := Within OpInArrays (serve q) d

/-- The locks that the requests of a run take exist. -/
def LocksExist (qs : List (Request × Junk)) : Prop := ∀ x ∈ qs, LockExists x.1

instance (qs : List (Request × Junk)) : Decidable (LocksExist qs) :=
  inferInstanceAs (Decidable (∀ x ∈ qs, LockExists x.1))

/-! ## `ino->blocks` and the indirect block -/

section Requests
variable {d : Disk} {inum : UInt32}

theorem inside_create (type : UInt32) (time : Nat → UInt32) : Inside (serve (.create type time)) := by
  have hscan : ∀ n x, Inside (whereToAlloc n x) := by
    intro n
    induction n with
    | zero => exact fun x => .ret _
    | succ n ih =>
      intro x
      refine (inside_getInode _).seq fun ino => ?_
      cases ino with
      | none => exact .ret _
      | some ino => exact ih (x + 1)
  refine Yields.seq (Yields.seq (Yields.seq (hscan _ _) fun x => ?_) fun _ => .ret _) fun _ => .ret _
  exact (inside_putInode _ _).seq fun _ => .ret _

theorem inside_getattr (id : UInt64) : Inside (serve (.getattr id)) := by
  refine Yields.seq (Yields.seq (Yields.seq (inside_getInode _) fun ino => ?_) fun _ => .ret _)
    fun _ => .ret _
  cases ino <;> exact .ret _

theorem staysInside_writeFile_refused {buf : Mem} {size : Int}
    (h : size < 0 ∨ size > blockSize * maxFile ∨ ¬ d.InUse inum.toNat) :
    StaysInside (writeFile inum buf size) d := by
  rw [writeFile]
  refine Within.bind (.of_yields (inside_writerEnter inum) d) ((wp_writerEnter _ _ _).mpr ?_)
  split
  · exact .of_yields (inside_writerExit inum) d
  · rename_i hsize
    rw [Bool.or_eq_true, decide_eq_true_eq, decide_eq_true_eq] at hsize
    have hno : ¬ d.InUse inum.toNat := by tauto
    refine Within.bind (.of_yields (inside_getInode inum) d) ((wp_getInode _ _ _).mpr ?_)
    rw [lookup_eq_none hno]
    exact .of_yields (inside_writerExit inum) d

theorem staysInside_put {id : UInt64} {buf : List UInt8}
    (h : Accepted buf → d.InUse (inumOf id) → d.size (inumOf id) ≤ 69632 ∧
      (4608 ≤ putSize buf → putSize buf < d.size (inumOf id) →
        chunks (putSize buf) + chunks (d.size (inumOf id) - putSize buf) ≤ 136)) :
    StaysInside (serve (.put id buf)) d := by
  refine Within.seq (Within.seq ?_ fun _ e => .ret _ e) fun _ e => .ret _ e
  by_cases hno : ¬ Accepted buf ∨ ¬ d.InUse (inumOf id)
  · refine staysInside_writeFile_refused ?_
    rcases hno with hacc | hin
    · exact (not_accepted hacc).imp_right .inl
    · exact .inr (.inr hin)
  · simp only [not_or, not_not] at hno
    obtain ⟨hacc, hin⟩ := hno
    obtain ⟨hold, hshrink⟩ := h hacc hin
    have hint := hacc.intSize_eq
    rw [hint]
    exact (staysInside_writeFile_iff hin hold hacc.putSize_le).mpr hshrink

theorem staysInside_get {id : UInt64} (h : d.InUse (inumOf id) → d.size (inumOf id) ≤ 69632)
    (now : UInt32) : StaysInside (serve (.get id now)) d := by
  refine Within.seq ((staysInside_readFile h true true now).seq fun r e => ?_) fun _ e => .ret _ e
  cases r with
  | none => exact .ret _ e
  | some r =>
    simp only
    split
    · exact .ret _ e
    · split
      · exact fun _ _ hx => absurd hx List.not_mem_nil
      · exact .ret _ e

theorem staysInside_remove {id : UInt64} (h : d.InUse (inumOf id) → d.size (inumOf id) < 69632) :
    StaysInside (serve (.remove id)) d := by
  refine Within.seq (Within.seq ?_ fun _ e => .ret _ e) fun _ e => .ret _ e
  by_cases hin : d.InUse (inumOf id)
  · have hsize := h hin
    exact (removeInBounds_iff hin hsize.le).mpr hsize.ne
  · have hno : ¬ d.InUse (maskId id).toNat := hin
    refine Within.bind (.of_yields (inside_getInode _) d) ((wp_getInode _ _ _).mpr ?_)
    rw [lookup_eq_none hno]
    exact .ret _ d

/-! ## All arrays -/

theorem inArrays_of_safe (hd : Sound d) {q : Request} (hsafe : SafeStep d q)
    (hlock : LockExists q) : InArrays d q := by
  refine (inRange_of_safe hd hsafe hlock).and ?_
  cases q with
  | create type time => exact .of_yields (inside_create type time) d
  | put id buf =>
    refine staysInside_put fun hacc hin => ⟨(hd.sizeOk _ hin).le, fun hlo hlt => ?_⟩
    -- the entries that the shrink loop loads are those of the old file
    rw [add_comm, (hsafe hacc hin).shrink (by omega) hlt]
    exact (hd.sizeOk _ hin).chunks_le
  | get id now => exact staysInside_get (fun hin => (hd.sizeOk _ hin).le) now
  | getattr id => exact .of_yields (inside_getattr id) d
  | remove id =>
    refine staysInside_remove fun hin => ?_
    have hle := (hd.sizeOk _ hin).le
    have hodd := (hsafe hin).partialChunk
    omega

end Requests

/-- The run lemma. -/
theorem SafeRun.inArrays {d : Disk} (hd : Sound d) {qs : List (Request × Junk)} (hqs : SafeRun qs d)
    (hlocks : LocksExist qs) : RunOf InArrays qs d := by
  refine RunOf.imp (I := Sound) (fun d x hx hd hsafe => inArrays_of_safe hd hsafe (hlocks x hx))
    (fun d q hd hsafe => ?_) hd hqs
  exact wp_mono (wp_serve hd q hsafe) fun _ _ hserved => hserved.sound hd hsafe

end InodeFs
