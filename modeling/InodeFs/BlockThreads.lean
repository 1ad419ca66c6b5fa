import InodeFs.Bitmap
import InodeFs.Prog.Contracts
import InodeFs.Runs

/-!
# Threads that allocate and free blocks

Each call of the allocator keeps `bitmap_mutex` from its first step to its last, so it is one step of
a serial run; what the blocks given and freed amount to is told there.
-/

namespace InodeFs

open BlockLayer Prog Disk

/-! ## Calls -/

/-- A call of `alloc_block` or of `free_block`, with the bytes it reads without having written
them. -/
inductive BlockCall where
  | alloc (junk : Junk)
  | free (id : UInt32) (junk : Junk)

/-- What a call has done: `alloc_block` answers an id, or `-1`. -/
inductive BlockResult where
  | given (id : UInt32)
  | freed (id : UInt32)

instance : Calls BlockCall FsSig Junk BlockResult where
  code
    | .alloc _ => do
        let id ← allocBlock
        pure (.given id)
    | .free id _ => do
        freeBlock id
        pure (.freed id)
  input
    | .alloc junk => junk
    | .free _ junk => junk

/-- A system of threads that make such calls. -/
abbrev BlockThreads (τ : Type) :=
  ThreadConfig τ BlockCall Action Action.Res Mutex (UInt32 × CondVar) (UInt32 → RwCounters) Junk Disk
    BlockResult

abbrev BlockLabel (τ : Type) := Label τ BlockCall Action SyncOp

/-! ## Accounts of what is held -/

section Accounts
variable {τ X : Type} {initial used : Finset X} {held : τ → Finset X}

/-- What is used is what was used initially and, apart from it, what somebody holds, nothing of it
twice. -/
structure Accounts (initial : Finset X) (held : τ → Finset X) (used : Finset X) : Prop where
  used_iff : ∀ x, x ∈ used ↔ x ∈ initial ∨ ∃ t, x ∈ held t
  fresh : ∀ t, ∀ x ∈ held t, x ∉ initial
  apart : ∀ t u x, x ∈ held t → x ∈ held u → t = u

namespace Accounts

theorem start (initial : Finset X) : Accounts initial (fun _ : τ => ∅) initial :=
  ⟨fun _ => ⟨.inl, fun h => h.resolve_right fun ⟨_, hx⟩ => absurd hx (Finset.notMem_empty _)⟩,
    fun _ _ hx => absurd hx (Finset.notMem_empty _), fun _ _ _ hx => absurd hx (Finset.notMem_empty _)⟩

variable [DecidableEq τ] [DecidableEq X]

theorem give (h : Accounts initial held used) {x : X} (hx : x ∉ used) (t : τ) :
    Accounts initial (Function.update held t (insert x (held t))) (insert x used) := by
  have hnobody : ∀ u, x ∉ held u := fun u hu => hx ((h.used_iff x).mpr (.inr ⟨u, hu⟩))
  have hmem : ∀ u y, y ∈ Function.update held t (insert x (held t)) u ↔
      (y = x ∧ u = t) ∨ y ∈ held u := by
    intro u y
    by_cases hu : u = t
    · subst hu
      rw [Function.update_self, Finset.mem_insert, and_iff_left rfl]
    · rw [Function.update_of_ne hu]
      exact ⟨.inr, fun h => h.resolve_left fun hc => hu hc.2⟩
  refine ⟨fun y => ?_, fun u y hy => ?_, fun u v y hu hv => ?_⟩
  · simp only [Finset.mem_insert, hmem, exists_or, h.used_iff y]
    constructor
    · rintro (rfl | hy | hy)
      · exact .inr (.inl ⟨t, rfl, rfl⟩)
      · exact .inl hy
      · exact .inr (.inr hy)
    · rintro (hy | ⟨_, rfl, -⟩ | hy)
      · exact .inr (.inl hy)
      · exact .inl rfl
      · exact .inr (.inr hy)
  · rcases (hmem u y).mp hy with ⟨rfl, -⟩ | hy
    · exact fun hin => hx ((h.used_iff y).mpr (.inl hin))
    · exact h.fresh u y hy
  · rcases (hmem u y).mp hu with ⟨rfl, rfl⟩ | hu'
    · rcases (hmem v y).mp hv with ⟨-, rfl⟩ | hv'
      · rfl
      · exact absurd hv' (hnobody v)
    · rcases (hmem v y).mp hv with ⟨rfl, -⟩ | hv'
      · exact absurd hu' (hnobody u)
      · exact h.apart u v y hu' hv'

theorem take (h : Accounts initial held used) {x : X} {t : τ} (hx : x ∈ held t) :
    Accounts initial (Function.update held t ((held t).erase x)) (used.erase x) := by
  have hmem : ∀ u y, y ∈ Function.update held t ((held t).erase x) u ↔ y ≠ x ∧ y ∈ held u := by
    intro u y
    by_cases hu : u = t
    · subst hu
      rw [Function.update_self, Finset.mem_erase]
    · rw [Function.update_of_ne hu]
      refine ⟨fun hy => ⟨?_, hy⟩, And.right⟩
      rintro rfl
      exact hu (h.apart u t y hy hx)
  refine ⟨fun y => ?_, fun u y hy => h.fresh u y ((hmem u y).mp hy).2,
    fun u v y hu hv => h.apart u v y ((hmem u y).mp hu).2 ((hmem v y).mp hv).2⟩
  simp only [Finset.mem_erase, hmem, h.used_iff y, exists_and_left, and_or_left]
  refine or_congr_left ⟨And.right, fun hy => ⟨?_, hy⟩⟩
  rintro rfl
  exact h.fresh t y hx hy

end Accounts
end Accounts

/-! ## What a thread holds -/

/-- What the blocks held are after a call. -/
def BlockResult.settle (blocks : Finset Nat) : BlockResult → Finset Nat
  | .given id => if id = 0xffffffff then blocks else insert id.toNat blocks
  | .freed id => blocks.erase id.toNat

/-- The blocks that a thread has been given and has not freed. -/
def heldBy (results : List BlockResult) : Finset Nat := results.foldl BlockResult.settle ∅

theorem heldBy_concat (results : List BlockResult) (r : BlockResult) :
    heldBy (results ++ [r]) = r.settle (heldBy results) := by
  rw [heldBy, List.foldl_append]
  rfl

/-- A thread gives a block up when it begins to free it. -/
def BlockCall.keeps (blocks : Finset Nat) : Option BlockCall → Finset Nat
  | some (.free id _) => blocks.erase id.toNat
  | _ => blocks

theorem BlockCall.keeps_subset (blocks : Finset Nat) (call : Option BlockCall) :
    BlockCall.keeps blocks call ⊆ blocks := by
  rcases call with _ | _ | ⟨id, _⟩
  · exact Finset.Subset.refl _
  · exact Finset.Subset.refl _
  · exact Finset.erase_subset ..

/-- The blocks that thread `t` holds. -/
def held {τ : Type} (c : BlockThreads τ) (t : τ) : Finset Nat :=
  BlockCall.keeps (heldBy (c.thread t).done) ((c.thread t).frame.map (·.call))

/-- `free_block` is for a block that its thread holds. -/
def blockContract : Contract BlockCall BlockResult where
  pre
    | .alloc _, _ => True
    | .free id _, results => id.toNat ∈ heldBy results
  post
    | .alloc _, r => ∃ id, r = .given id
    | .free id _, r => r = .freed id

/-- A thread begins to free blocks only that it holds. -/
abbrev OwnIds {τ : Type} : BlockThreads τ → BlockLabel τ → Prop := blockContract.Permits

/-- No two threads hold the same block; the disk is what the calls leave there one after the other, in
the order in which they lock `bitmap_mutex`, whenever nobody has it; and while no call is in progress,
the bits set are those set initially and those of the blocks held. -/
structure AllocatorSafe {τ : Type} [DecidableEq τ] (d : Disk) (ls : List (BlockLabel τ))
    (c : BlockThreads τ) : Prop where
  apart : ∀ t u x, x ∈ held c t → x ∈ held c u → t = u
  noneLost : ∃ rs e, serial (lockOrder .bitmap ls) d = some (rs, e) ∧
    (∀ t, (c.thread t).done <+: entriesOf t rs) ∧ (c.monitor.owner .bitmap = none → c.store = e)
  exact : (∀ t, (c.thread t).frame = none) →
    ∀ x, x ∈ c.store.used ↔ x ∈ d.used ∨ ∃ t, x ∈ held c t

section Safe
variable {τ : Type} [DecidableEq τ] {d : Disk} {rs : List (τ × BlockResult)} {e : Disk}

/-- What thread `t` holds in the serial run. -/
def heldIn (rs : List (τ × BlockResult)) (t : τ) : Finset Nat := heldBy (entriesOf t rs)

theorem heldIn_concat (rs : List (τ × BlockResult)) (t : τ) (r : BlockResult) :
    heldIn (rs ++ [(t, r)]) = Function.update (heldIn rs) t (r.settle (heldIn rs t)) := by
  funext u
  by_cases hu : u = t
  · subst hu
    rw [Function.update_self, heldIn, entriesOf_concat_self, heldBy_concat, heldIn]
  · rw [Function.update_of_ne hu, heldIn, entriesOf_concat_ne _ _ (Ne.symm hu), heldIn]

-- The accounts are kept by one call after the other.
theorem accounts_alloc (h : Accounts d.used (heldIn rs) e.used) (t : τ) :
    wp allocBlock (fun id e' => Accounts d.used (heldIn (rs ++ [(t, .given id)])) e'.used) e := by
  refine (wp_allocBlock _ e).mpr ⟨fun id hid _ => ?_, fun _ => ?_⟩
  · obtain ⟨⟨-, hlt⟩, hfree⟩ := mem_freeIn.mp hid
    have htoNat : (UInt32.ofNat id).toNat = id := toNat_ofNat (by omega)
    have hne : UInt32.ofNat id ≠ 0xffffffff := fun hc => by
      have h' := congrArg UInt32.toNat hc
      rw [htoNat] at h'
      exact absurd hlt (h' ▸ by decide)
    rw [heldIn_concat, BlockResult.settle, if_neg hne, htoNat, used_markUsed e id hlt hfree]
    exact h.give hfree t
  · rw [heldIn_concat, BlockResult.settle, if_pos rfl, Function.update_eq_self]
    exact h

theorem accounts_free (h : Accounts d.used (heldIn rs) e.used) {t : τ} {id : UInt32}
    (hid : id.toNat ∈ heldIn rs t) :
    wp (freeBlock id) (fun _ e' => Accounts d.used (heldIn (rs ++ [(t, .freed id)])) e'.used) e := by
  rw [wp_freeBlock, heldIn_concat, used_markFree]
  exact h.take hid

theorem accounts_call {t : τ} {call : BlockCall} {r : BlockResult} {i : Junk} {e' : Disk}
    (h : Accounts d.used (heldIn rs) e.used) (hpre : blockContract.pre call (entriesOf t rs))
    (hrun : run (Calls.code call : FsM BlockResult) (Calls.input call) e = some (r, i, e')) :
    Accounts d.used (heldIn (rs ++ [(t, r)])) e'.used := by
  cases call with
  | alloc junk =>
    obtain ⟨id, i', s, halloc, hret⟩ := exists_of_run_bind hrun
    obtain ⟨rfl, -, rfl⟩ := eq_of_run_ret hret
    have hacc := wp_of_run (accounts_alloc h t) halloc
    exact hacc
  | free id junk =>
    obtain ⟨_, i', s, hfree, hret⟩ := exists_of_run_bind hrun
    obtain ⟨rfl, -, rfl⟩ := eq_of_run_ret hret
    have hacc := wp_of_run (accounts_free h hpre) hfree
    exact hacc

-- Both functions keep `bitmap_mutex` to their ends.
theorem guardedBy_blockCode (call : BlockCall) :
    GuardedBy .bitmap (fun _ => True) (Calls.code call : FsM BlockResult) := by
  have hheld : [Mutex.bitmap] ≠ [] := List.cons_ne_nil _ _
  cases call with
  | alloc junk =>
    have hscan : ∀ n id v, Follows (S := FsSig) exclusive (allocScan n id)
        (fun _ x => x.1 = [] ∧ True) ([.bitmap], v) := by
      intro n
      induction n with
      | zero => exact fun id v => ⟨_, rfl, rfl, trivial⟩
      | succ n ih =>
        intro id v
        refine ⟨hheld, fun _ => ⟨hheld, fun b => ?_⟩⟩
        change Follows exclusive (if _ then _ else _) _ _
        split
        · exact ih (id + 1) v
        · exact ⟨hheld, fun _ => ⟨_, rfl, rfl, trivial⟩⟩
    exact GuardedBy.map BlockResult.given ⟨_, rfl, fun v _ => hscan _ _ v⟩
  | free id junk =>
    have hfree : GuardedBy .bitmap (fun _ => True) (freeBlock id) :=
      ⟨_, rfl, fun v _ => ⟨hheld, fun _ => ⟨hheld, fun _ => ⟨hheld, fun _ => ⟨_, rfl, rfl, trivial⟩⟩⟩⟩⟩
    exact hfree.map fun _ => BlockResult.freed id

theorem answers_blockCode (call : BlockCall) :
    Answers (blockContract.post call) (Calls.code call : FsM BlockResult) := by
  cases call with
  | alloc junk => exact Answers.bind fun id => ⟨id, rfl⟩
  | free id junk => exact Answers.bind fun _ => rfl

variable {c : BlockThreads τ} {calls : τ → List BlockCall} {order : List (τ × BlockCall)}

-- A call that is in the serial run already has not come to its end.
theorem held_subset {J : (UInt32 → RwCounters) → Prop}
    (h : Simulates .bitmap J (fun _ => false) calls order rs e c)
    (hP : ∀ t, blockContract.Honours (c.thread t)) (t : τ) : held c t ⊆ heldIn rs t := by
  rcases h.results hP t with hdone | ⟨f, r, hframe, hresults, hpost⟩
  · rw [held, hdone]
    exact BlockCall.keeps_subset ..
  · rw [held, hframe, heldIn, hresults, heldBy_concat, Option.map_some]
    cases hcall : f.call with
    | alloc junk =>
      rw [hcall] at hpost
      obtain ⟨id, rfl⟩ := hpost
      simp only [BlockCall.keeps, BlockResult.settle]
      split
      · exact Finset.Subset.refl _
      · exact Finset.subset_insert ..
    | free id junk =>
      rw [hcall] at hpost
      cases hpost
      exact Finset.Subset.refl _

/-- Concurrent allocation is safe, from any disk. -/
theorem allocatorSafe_of_ownIds {vars : UInt32 → RwCounters} {ls : List (BlockLabel τ)}
    (hrun : RunWhere OwnIds (Config.start d vars calls) ls c) : AllocatorSafe d ls c := by
  obtain ⟨rs, e, hserial, hacc, hsim, hP⟩ := preserved_of_permitted
    (I := fun rs e => Accounts d.used (heldIn rs) e.used) (fun _ call _ => guardedBy_blockCode call)
    answers_blockCode (Accounts.start _) (fun _ _ _ _ _ _ _ => accounts_call) trivial hrun
  have hsub := held_subset hsim hP
  refine ⟨fun t u x ht hu => hacc.apart t u x (hsub t ht) (hsub u hu),
    ⟨rs, e, hserial, fun t => (hsim.begun t).2, hsim.store_eq⟩, fun hnone x => ?_⟩
  obtain ⟨-, hstore, hall⟩ := hsim.returned hnone
  rw [hstore, hacc.used_iff x]
  refine or_congr_right (exists_congr fun t => ?_)
  rw [held, hnone t, (hall t).2]
  rfl

end Safe

/-- One thread allocates a block and frees it, another allocates one. -/
def allocAndFree : Bool → List BlockCall
  | false => [.alloc fun _ _ => 0, .free 123 fun _ _ => 0]
  | true => [.alloc fun _ _ => 0]

/-- Calls of `free_block` for held blocks, as a check. -/
def ownId (c : BlockThreads Bool) (l : BlockLabel Bool) : Bool :=
  match l.event, l.call with
  | .begun, .free id _ => decide (id.toNat ∈ heldBy (c.thread l.thread).done)
  | _, _ => true

theorem ownIds_of_ownId (c : BlockThreads Bool) (l : BlockLabel Bool) (h : ownId c l = true) :
    OwnIds c l := by
  obtain ⟨t, call, event⟩ := l
  rintro rfl
  cases call with
  | alloc junk => trivial
  | free id junk =>
    have hid : id.toNat ∈ heldBy (c.thread t).done := of_decide_eq_true h
    exact hid

/-- The second thread begins before the first one has its block, and scans the bitmap before that is
free again. -/
theorem allocatorSafe_of_ownIds_two : ∃ ls c,
    RunWhere OwnIds (Config.start (madeAt 0) (fun _ => .init) allocAndFree) ls c ∧ c.Finished ∧
      AllocatorSafe (madeAt 0) ls c := by
  have hfollow : ((Config.start (madeAt 0) (fun _ => .init) allocAndFree : BlockThreads Bool).follow
      ownId ([true] ++ List.replicate 8 false ++ List.replicate 8 true ++
        List.replicate 6 false)).any (fun r => r.2.bothReturned) = true := by decide +kernel
  obtain ⟨⟨ls, c⟩, hls, hreturned⟩ := Option.any_eq_true .. |>.mp hfollow
  have hrun : RunWhere OwnIds _ ls c := RunWhere.nil.follow ownIds_of_ownId hls
  exact ⟨ls, c, hrun, Config.finished_of_bothReturned hreturned, allocatorSafe_of_ownIds hrun⟩

end InodeFs
