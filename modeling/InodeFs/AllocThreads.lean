import InodeFs.Creation
import InodeFs.Prog.Ghost
import InodeFs.Prog.Threads

/-!
# Threads that create inodes

`alloc_inode` takes no lock: it looks for a free inode and stores a record there some steps later.
As long as nobody stores in the block of that inode in between, the threads get different inodes;
otherwise two of them may get the same one.
-/

namespace InodeFs

open BlockLayer InodeLayer FsServer Prog Disk

/-! ## Calls -/

/-- A call of `alloc_inode`, with its readings of the clock and its uninitialised memory. -/
structure AllocCall where
  type : UInt32
  time : Nat → UInt32
  junk : Junk

instance : Calls AllocCall FsSig Junk UInt32 where
  code call := allocInode call.type call.time
  input call := call.junk

/-- A system of threads that make such calls. -/
abbrev AllocThreads (τ : Type) :=
  ThreadConfig τ AllocCall Action Action.Res Mutex (UInt32 × CondVar) (UInt32 → RwCounters) Junk
    Disk UInt32

abbrev AllocLabel (τ : Type) := Label τ AllocCall Action SyncOp

/-- Whatever `p` reads, the next block it stores is `id`. -/
def StoresNext {α : Type} (id : UInt32) (p : FsM α) : Prop :=
  FirstOf (fun a => ∃ who id' buf, a = Action.write who id' buf)
    (fun a => ∃ who buf, a = Action.write who id buf) p

/-- If the step stores a block, no other thread has found a free inode in that block and not stored
its record yet. -/
def Uncontested {τ : Type} (c : AllocThreads τ) (l : AllocLabel τ) : Prop :=
  ∀ who id buf, l.event = .acted (.write who id buf) →
    ∀ u ≠ l.thread, ∀ f, (c.thread u).frame = some f → ¬ StoresNext id f.rest

/-- Each thread's call has returned an inode of its own that was free on `d` and is now in use, with
the type it asked for. -/
def CreatedApart {τ : Type} (d : Disk) (calls : τ → AllocCall) (c : AllocThreads τ) : Prop :=
  ∃ inum : τ → Nat, Function.Injective inum ∧ ∀ t,
    (c.thread t).done = [UInt32.ofNat (inum t)] ∧ inum t < inodeNum ∧ ¬ d.InUse (inum t) ∧
      c.store.InUse (inum t) ∧
      (c.store.inode (inum t)).type.toInt32.toUInt32 = (calls t).type

/-! ## What a call does -/

/-- How far a call is: it looks at inode `x` next, or has found `x` free, or has loaded the block of
`x`, or has stored it. -/
inductive Search where
  | scanning (x : Nat)
  | found (x : Nat)
  | loaded (x : Nat) (b : Block)
  | stored (x : Nat)

/-- The rules of a call that stores the record `ino`.  They say nothing of a call that has found all
inodes in use. -/
def allocates (ino : Inode) : Ghost FsSig Search where
  act
    | .uninit, P, s => ∀ m, P m s
    | .read id _, P, .scanning x => x < 1024 ∧ id.toNat = tableBlock x ∧ ∀ b,
        ((Inode.ofBlock b (x % ipb)).type = 0 → P b (.found x)) ∧
        ((Inode.ofBlock b (x % ipb)).type ≠ 0 → x + 1 < 1024 → P b (.scanning (x + 1)))
    | .read id _, P, .found x => id.toNat = tableBlock x ∧ ∀ b, P b (.loaded x b)
    | .write .putInode id buf, P, .loaded x b => id.toNat = tableBlock x ∧
        buf = ino.intoBlock (x % ipb) b ∧ P () (.stored x)
    | _, _, _ => False
  sync _ _ _ := False
  act_mono {a P Q s} hPQ h := by
    rcases a with ⟨id, b⟩ | ⟨_ | _ | _ | _, _, _⟩ | _ | _
    case read =>
      cases s with
      | scanning x =>
        exact ⟨h.1, h.2.1, fun b => ⟨fun hb => hPQ _ _ ((h.2.2 b).1 hb),
          fun hb hx => hPQ _ _ ((h.2.2 b).2 hb hx)⟩⟩
      | found x => exact ⟨h.1, fun b => hPQ _ _ (h.2 b)⟩
      | loaded x b => exact h
      | stored x => exact h
    case write.putInode =>
      cases s with
      | loaded x b => exact ⟨h.1, h.2.1, hPQ _ _ h.2.2⟩
      | scanning x => exact h
      | found x => exact h
      | stored x => exact h
    case uninit => exact fun m => hPQ _ _ (h m)
    all_goals exact h
  sync_mono _ h := h

/-- What a call returns. -/
abbrev Returns (r : UInt32) (s : Search) : Prop := ∃ x, s = .stored x ∧ r = UInt32.ofNat x

theorem allocates_putInode {ino : Inode} {x : Nat} (hx : x < 1024) :
    Follows (allocates ino) (putInode (UInt32.ofNat x) ino >>= fun _ => pure (UInt32.ofNat x))
      Returns (.found x) := by
  have hx' : (UInt32.ofNat x).toNat = x := toNat_ofNat (by omega)
  rw [putInode, hx', if_neg (Nat.not_le.mpr hx)]
  exact Follows.bind fun _ => ⟨toNat_iblock hx, fun b => ⟨toNat_iblock hx, rfl, x, rfl, rfl⟩⟩

theorem allocates_getInode {ino : Inode} {x : Nat} {Q : Option Inode → Search → Prop} (hx : x < 1024)
    (hfree : Q none (.found x)) (hused : ∀ ino, x + 1 < 1024 → Q (some ino) (.scanning (x + 1))) :
    Follows (allocates ino) (getInode (UInt32.ofNat x)) Q (.scanning x) := by
  have hx' : (UInt32.ofNat x).toNat = x := toNat_ofNat (by omega)
  rw [getInode, hx', if_neg (Nat.not_le.mpr hx)]
  refine fun _ => ⟨hx, toNat_iblock hx, fun b => ⟨fun hb => ?_, fun hb hnext => ?_⟩⟩
  · change Follows _ (if _ then _ else _) _ _
    rw [if_pos hb]
    exact hfree
  · change Follows _ (if _ then _ else _) _ _
    rw [if_neg hb]
    exact hused _ hnext

theorem allocates_allocInode (type : UInt32) (time : Nat → UInt32) :
    Follows (allocates (newInode type time)) (allocInode type time) Returns (.scanning 0) := by
  -- induction on the rounds left; the scan has come to inode `x`
  have scan : ∀ n x, x + n = 1024 → x < 1024 → Follows (allocates (newInode type time))
      (whereToAlloc n x) (fun x s => Follows (allocates (newInode type time))
        (putInode (UInt32.ofNat x) (newInode type time) >>= fun _ => pure (UInt32.ofNat x))
        Returns s) (.scanning x) := by
    intro n
    induction n with
    | zero => omega
    | succ n ih =>
      intro x hx hlt
      rw [whereToAlloc]
      refine Follows.bind (allocates_getInode hlt ?_ fun _ hnext => ?_)
      · exact allocates_putInode hlt
      · exact ih (x + 1) (by omega) hnext
  exact Follows.bind (scan inodeNum 0 rfl (by omega))

-- A call that has found an inode stores the block of that inode next.
theorem storesNext_of_found {ino : Inode} {p : FsM UInt32} {s : Search} {x : Nat} {id : UInt32}
    (hs : s = .found x ∨ ∃ b, s = .loaded x b) (hid : id.toNat = tableBlock x)
    (h : Follows (allocates ino) p Returns s) : StoresNext id p := by
  induction p generalizing s with
  | ret r =>
    obtain ⟨y, rfl, -⟩ := h
    rcases hs with hs | ⟨b, hs⟩ <;> cases hs
  | abort => exact h.elim
  | sync s k _ => exact h.elim
  | act a k ih =>
    refine ⟨?_, fun hno r => ?_⟩
    · rintro ⟨who, id', buf, rfl⟩
      rcases hs with rfl | ⟨b, rfl⟩
      · cases who <;> exact h.elim
      · cases who with
        | putInode => exact ⟨_, _, congrArg (fun i => Action.write _ i _)
            (UInt32.toNat_inj.mp (h.1.trans hid.symm))⟩
        | allocBlock | freeBlock | writeFile => exact h.elim
    · cases a with
      | write who id' buf => exact absurd ⟨who, id', buf, rfl⟩ hno
      | stray a i => rcases hs with rfl | ⟨b, rfl⟩ <;> exact h.elim
      | uninit => exact ih r hs (h r)
      | read id' buf =>
        rcases hs with rfl | ⟨b, rfl⟩
        · exact ih r (.inr ⟨r, rfl⟩) (h.2 r)
        · exact h.elim

/-! ## Where the threads are -/

/-- The record that a call stores. -/
def AllocCall.inode (call : AllocCall) : Inode := newInode call.type call.time

/-- What is true of the disk when a call that stores `ino` is that far. -/
def Search.Ok (ino : Inode) (d : Disk) : Search → Prop
  | .scanning x => ∀ y < x, d.InUse y
  | .found x => x < 1024 ∧ ¬ d.InUse x
  | .loaded x b => x < 1024 ∧ ¬ d.InUse x ∧ b = d.row (tableBlock x)
  | .stored x => x < 1024 ∧ d.inode x = ino

/-- The inode that the call has taken. -/
def Search.taken : Search → Option Nat
  | .stored x => some x
  | _ => none

/-- A thread that makes one call, and the inode it has taken. -/
inductive Creating (call : AllocCall) (d : Disk) :
    Thread AllocCall FsSig Junk UInt32 → Option Nat → Prop where
  | before : Creating call d ⟨[call], none, []⟩ none
  | inside {p i s} (hp : Follows (allocates call.inode) p Returns s) (hs : s.Ok call.inode d) :
      Creating call d ⟨[], some ⟨call, p, i⟩, []⟩ s.taken
  | after {x} (hx : x < 1024) (hrec : d.inode x = call.inode) :
      Creating call d ⟨[], none, [UInt32.ofNat x]⟩ (some x)

section Creating

variable {call : AllocCall} {d : Disk} {th : Thread AllocCall FsSig Junk UInt32} {o : Option Nat}
variable {x : Nat} {ino : Inode} {id : UInt32}

theorem inUse_of_inode_eq (hcall : call.inode.type ≠ 0) (hx : x < 1024)
    (hrec : d.inode x = call.inode) : d.InUse x := ⟨hx, by rwa [hrec]⟩

theorem toNat_lt_of_table (hx : x < 1024) (hid : id.toNat = tableBlock x) : id.toNat < 32768 := by
  have hbounds := tableBlock_bounds hx
  omega

-- Another thread makes a free inode into one in use.
theorem Creating.setInode (h : Creating call d th o) (hcall : call.inode.type ≠ 0)
    (hfree : ¬ d.InUse x) (hid : id.toNat = tableBlock x)
    (hno : ∀ f, th.frame = some f → ¬ StoresNext id f.rest) :
    Creating call (d.setInode x ino) th o := by
  have hinUse : ∀ {y}, y ≠ x → ((d.setInode x ino).InUse y ↔ d.InUse y) := fun hy =>
    inUse_setInode_ne d ino hy
  have hkept : ∀ {y}, y < 1024 → d.inode y = call.inode →
      (d.setInode x ino).inode y = call.inode := by
    intro y hy hrec
    have hne : y ≠ x := by
      rintro rfl
      exact hfree (inUse_of_inode_eq hcall hy hrec)
    rw [inode_setInode_ne _ _ hne, hrec]
  cases h with
  | before => exact .before
  | after hy hrec => exact .after hy (hkept hy hrec)
  | @inside p i s hp hs =>
    refine .inside hp ?_
    have hblock : ∀ {y}, (s = .found y ∨ ∃ b, s = .loaded y b) → tableBlock y ≠ tableBlock x :=
      fun hy heq => hno _ rfl (storesNext_of_found hy (hid.trans heq.symm) hp)
    cases s with
    | scanning y =>
      intro z hz
      have hne : z ≠ x := by
        rintro rfl
        exact hfree (hs z hz)
      exact (hinUse hne).mpr (hs z hz)
    | found y =>
      have hne : y ≠ x := fun heq => hblock (.inl rfl) (congrArg _ heq)
      exact ⟨hs.1, mt (hinUse hne).mp hs.2⟩
    | loaded y b =>
      have hne := hblock (.inr ⟨b, rfl⟩)
      refine ⟨hs.1, mt (hinUse fun heq => hne (congrArg _ heq)).mp hs.2.1, ?_⟩
      rw [row_setInode _ _ hne]
      exact hs.2.2
    | stored y => exact ⟨hs.1, hkept hs.1 hs.2⟩

-- A call loads the block of the inode that it has found.
theorem Creating.loaded {buf : Block} {k : Block → FsM UInt32} (i j : Junk)
    (hs : (Search.found x).Ok call.inode d)
    (hp : Follows (allocates call.inode) (.act (.read id buf) k) Returns (.found x)) :
    Creating call d ⟨[], some ⟨call, k (Action.exec (.read id buf) i d).1, j⟩, []⟩ none := by
  obtain ⟨hid, hk⟩ := hp
  rw [exec_read (toNat_lt_of_table hs.1 hid), hid]
  exact .inside (s := .loaded x _) (hk _) ⟨hs.1, hs.2, rfl⟩

-- What a call stores is its record, in the place of the inode that it has found.
theorem exec_write_of_loaded {b buf : Block} {k : Unit → FsM UInt32} (i : Junk)
    (hs : (Search.loaded x b).Ok ino d)
    (hp : Follows (allocates ino) (.act (.write .putInode id buf) k) Returns (.loaded x b)) :
    (Action.exec (.write .putInode id buf) i d).2.2 = d.setInode x ino := by
  obtain ⟨hid, rfl, -⟩ := hp
  obtain ⟨hx, -, rfl⟩ := hs
  rw [exec_write (toNat_lt_of_table hx hid), hid]
  rfl

end Creating

/-- The inodes in use are those of `d₀` and those that the threads have taken, each another one. -/
structure Creates {τ : Type} (d₀ : Disk) (calls : τ → AllocCall) (c : AllocThreads τ)
    (taken : τ → Option Nat) : Prop where
  thread : ∀ t, Creating (calls t) c.store (c.thread t) (taken t)
  apart : ∀ t u x, taken t = some x → taken u = some x → t = u
  free : ∀ t x, taken t = some x → ¬ d₀.InUse x
  inUse : ∀ x, c.store.InUse x ↔ d₀.InUse x ∨ ∃ t, taken t = some x

section Threads

variable {τ : Type} {d₀ : Disk} {calls : τ → AllocCall} {c c' : AllocThreads τ}
variable {taken : τ → Option Nat} {t : τ} {l : AllocLabel τ}

-- As long as a thread has taken no inode, there is a free one for it.
theorem Creates.exists_free [Fintype τ] (h : Creates d₀ calls c taken)
    (hfree : Fintype.card τ ≤ ((Finset.range inodeNum).filter (fun i => ¬ d₀.InUse i)).card)
    (ht : taken t = none) : ∃ x < 1024, ¬ c.store.InUse x := by
  classical
  by_contra hno
  -- otherwise the other threads would have taken all that were free
  have hsub : (Finset.range inodeNum).filter (fun i => ¬ d₀.InUse i) ⊆
      (Finset.univ.erase t).image fun u => (taken u).getD 0 := by
    intro x hx
    obtain ⟨hx, hx₀⟩ := Finset.mem_filter.mp hx
    have hin : c.store.InUse x := by
      by_contra hfree
      exact hno ⟨x, Finset.mem_range.mp hx, hfree⟩
    rcases (h.inUse x).mp hin with hin | ⟨u, hu⟩
    · exact absurd hin hx₀
    · refine Finset.mem_image.mpr ⟨u, Finset.mem_erase.mpr ⟨?_, Finset.mem_univ u⟩, by rw [hu]; rfl⟩
      rintro rfl
      cases ht.symm.trans hu
  have hcard := (Finset.card_le_card hsub).trans Finset.card_image_le
  rw [Finset.card_erase_of_mem (Finset.mem_univ t), Finset.card_univ] at hcard
  have hpos : 0 < Fintype.card τ := Fintype.card_pos_iff.mpr ⟨t⟩
  omega

-- A call looks at inode `x`: it takes the inode if it is free, or goes on to the next.
theorem Creates.scanned [Fintype τ] (h : Creates d₀ calls c taken)
    (hfree : Fintype.card τ ≤ ((Finset.range inodeNum).filter (fun i => ¬ d₀.InUse i)).card)
    (ho : taken t = none) {x : Nat} {id : UInt32} {buf : Block} {k : Block → FsM UInt32}
    (i j : Junk) (hs : ∀ y < x, c.store.InUse y)
    (hp : Follows (allocates (calls t).inode) (.act (.read id buf) k) Returns (.scanning x)) :
    Creating (calls t) c.store
      ⟨[], some ⟨calls t, k (Action.exec (.read id buf) i c.store).1, j⟩, []⟩ none := by
  obtain ⟨hx, hid, hk⟩ := hp
  rw [exec_read (toNat_lt_of_table hx hid), hid]
  by_cases hin : c.store.InUse x
  · -- the scan goes on, since it has not come to the end of the table
    have hnext : x + 1 < 1024 := by
      obtain ⟨y, hy, hyfree⟩ := h.exists_free hfree ho
      have hne : ¬ y < x := fun hlt => hyfree (hs y hlt)
      have hne' : y ≠ x := by
        rintro rfl
        exact hyfree hin
      omega
    refine .inside (s := .scanning (x + 1)) ((hk _).2 hin.2 hnext) fun y hy => ?_
    rcases Nat.lt_succ_iff_lt_or_eq.mp hy with hlt | rfl
    · exact hs y hlt
    · exact hin
  · refine .inside (s := .found x) ((hk _).1 ?_) ⟨hx, hin⟩
    by_contra htype
    exact hin ⟨hx, htype⟩

variable [DecidableEq τ]

theorem update_eq_some_iff {u : τ} {x y : Nat} : Function.update taken t (some x) u = some y ↔
    (u = t ∧ y = x) ∨ (u ≠ t ∧ taken u = some y) := by
  by_cases hu : u = t
  · subst hu
    rw [Function.update_self, Option.some_inj, eq_comm]
    simp
  · rw [Function.update_of_ne hu]
    simp [hu]

-- A step of thread `t` that leaves the disk alone.
theorem Creates.of_thread {th : Thread AllocCall FsSig Junk UInt32} (h : Creates d₀ calls c taken)
    (hstore : c'.store = c.store) (hthread : c'.thread = Function.update c.thread t th)
    (hth : Creating (calls t) c.store th (taken t)) : Creates d₀ calls c' taken := by
  refine ⟨fun u => ?_, h.apart, h.free, hstore ▸ h.inUse⟩
  rw [hstore, hthread]
  by_cases hu : u = t
  · subst hu
    rwa [Function.update_self]
  · rw [Function.update_of_ne hu]
    exact h.thread u

-- A step of thread `t` that stores its record.
theorem Creates.store {x : Nat} {id : UInt32} {th : Thread AllocCall FsSig Junk UInt32}
    (h : Creates d₀ calls c taken) (htypes : ∀ t, (calls t).inode.type ≠ 0)
    (hx : x < 1024) (hfree : ¬ c.store.InUse x) (ht : taken t = none) (hid : id.toNat = tableBlock x)
    (hno : ∀ u ≠ t, ∀ f, (c.thread u).frame = some f → ¬ StoresNext id f.rest)
    (hstore : c'.store = c.store.setInode x (calls t).inode)
    (hthread : c'.thread = Function.update c.thread t th)
    (hth : Creating (calls t) c'.store th (some x)) :
    Creates d₀ calls c' (Function.update taken t (some x)) := by
  have hnew : ∀ u, taken u ≠ some x := fun u hu => hfree ((h.inUse x).mpr (.inr ⟨u, hu⟩))
  have hrec : c'.store.inode x = (calls t).inode := hstore ▸ inode_setInode_self _ _ hx
  constructor
  · intro u
    by_cases hu : u = t
    · subst hu
      rwa [hthread, Function.update_self, Function.update_self]
    · rw [hthread, Function.update_of_ne hu, Function.update_of_ne hu, hstore]
      exact (h.thread u).setInode (htypes u) hfree hid (hno u hu)
  · intro u v y hu hv
    rcases update_eq_some_iff.mp hu with ⟨hut, hy⟩ | ⟨-, hu⟩ <;>
      rcases update_eq_some_iff.mp hv with ⟨hvt, hy'⟩ | ⟨-, hv⟩
    · rw [hut, hvt]
    · exact absurd hv (hy ▸ hnew v)
    · exact absurd hu (hy' ▸ hnew u)
    · exact h.apart u v y hu hv
  · intro u y hu
    rcases update_eq_some_iff.mp hu with ⟨-, rfl⟩ | ⟨-, hu⟩
    · exact fun hin => hfree ((h.inUse y).mpr (.inl hin))
    · exact h.free u y hu
  · intro y
    by_cases hy : y = x
    · subst hy
      refine iff_of_true (inUse_of_inode_eq (htypes t) hx hrec) (.inr ⟨t, ?_⟩)
      rw [Function.update_self]
    · have hin : c'.store.InUse y ↔ c.store.InUse y := by
        rw [hstore, inUse_setInode_ne _ _ hy]
      rw [hin, h.inUse y]
      refine or_congr_right (exists_congr fun u => ?_)
      rw [update_eq_some_iff]
      constructor
      · intro hu
        refine .inr ⟨?_, hu⟩
        rintro rfl
        cases ht.symm.trans hu
      · rintro (⟨-, hyx⟩ | ⟨-, hu⟩)
        · exact absurd hyx hy
        · exact hu

-- One operation of a call.
theorem Creates.act [Fintype τ] (h : Creates d₀ calls c taken)
    (htypes : ∀ t, (calls t).inode.type ≠ 0)
    (hfree : Fintype.card τ ≤ ((Finset.range inodeNum).filter (fun i => ¬ d₀.InUse i)).card)
    {a : Action} {k : Action.Res a → FsM UInt32} {i : Junk} {s : Search}
    (hok : Uncontested c ⟨t, calls t, .acted a⟩) (ho : taken t = s.taken)
    (hs : s.Ok (calls t).inode c.store)
    (hp : Follows (allocates (calls t).inode) (.act a k) Returns s)
    (hstore : c'.store = (Action.exec a i c.store).2.2)
    (hthread : c'.thread = Function.update c.thread t
      ⟨[], some ⟨calls t, k (Action.exec a i c.store).1, (Action.exec a i c.store).2.1⟩, []⟩) :
    ∃ taken', Creates d₀ calls c' taken' := by
  cases a with
  | stray a j => cases s <;> exact hp.elim
  | uninit =>
    refine ⟨taken, h.of_thread hstore hthread ?_⟩
    rw [ho]
    exact .inside (hp _) hs
  | read id buf =>
    cases s with
    | loaded x b => exact hp.elim
    | stored x => exact hp.elim
    | scanning x =>
      have hid := toNat_lt_of_table hp.1 hp.2.1
      rw [exec_read hid] at hstore
      refine ⟨taken, h.of_thread hstore hthread ?_⟩
      rw [ho]
      exact h.scanned hfree ho i _ hs hp
    | found x =>
      have hid := toNat_lt_of_table hs.1 hp.1
      rw [exec_read hid] at hstore
      refine ⟨taken, h.of_thread hstore hthread ?_⟩
      rw [ho]
      exact .loaded i _ hs hp
  | write who id buf =>
    cases who with
    | allocBlock | freeBlock | writeFile => cases s <;> exact hp.elim
    | putInode =>
      cases s with
      | scanning x => exact hp.elim
      | found x => exact hp.elim
      | stored x => exact hp.elim
      | loaded x b =>
        rw [exec_write_of_loaded i hs hp] at hstore
        refine ⟨_, h.store htypes hs.1 hs.2.1 ho hp.1 (hok _ id _ rfl) hstore hthread ?_⟩
        refine .inside (s := .stored x) hp.2.2 ⟨hs.1, ?_⟩
        exact hstore ▸ inode_setInode_self _ _ hs.1

-- The step lemma.
theorem Creates.step [Fintype τ] (h : Creates d₀ calls c taken)
    (htypes : ∀ t, (calls t).inode.type ≠ 0)
    (hfree : Fintype.card τ ≤ ((Finset.range inodeNum).filter (fun i => ¬ d₀.InUse i)).card)
    (hok : Uncontested c l) (hs : Step c l c') : ∃ taken', Creates d₀ calls c' taken' := by
  cases hs with
  | @begin t call todo done hth =>
    have ht := h.thread t
    rw [hth] at ht
    generalize ho : taken t = o at ht
    cases ht
    refine ⟨taken, h.of_thread rfl rfl ?_⟩
    rw [ho]
    exact .inside (s := .scanning 0) (allocates_allocInode _ _)
      fun y hy => absurd hy (Nat.not_lt_zero y)
  | @«return» t call a i todo done hth =>
    have ht := h.thread t
    rw [hth] at ht
    generalize ho : taken t = o at ht
    cases ht with
    | inside hp hs =>
      obtain ⟨x, rfl, rfl⟩ := hp
      refine ⟨taken, h.of_thread rfl rfl ?_⟩
      rw [ho]
      exact .after hs.1 hs.2
  | @pass t _ _ _ _ _ _ _ hth _ =>
    have ht := h.thread t
    rw [hth] at ht
    generalize taken t = o at ht
    cases ht with
    | inside hp _ => exact hp.elim
  | @stay t _ _ _ _ _ _ _ hth _ =>
    have ht := h.thread t
    rw [hth] at ht
    generalize taken t = o at ht
    cases ht with
    | inside hp _ => exact hp.elim
  | @act t call a k i todo done hth =>
    have ht := h.thread t
    rw [hth] at ht
    generalize ho : taken t = o at ht
    cases ht with
    | inside hp hs => exact h.act htypes hfree hok ho hs hp rfl rfl

/-- The run lemma. -/
theorem creates_of_uncontested [Fintype τ] {vars : UInt32 → RwCounters} {ls : List (AllocLabel τ)}
    (htypes : ∀ t, (calls t).inode.type ≠ 0)
    (hfree : Fintype.card τ ≤ ((Finset.range inodeNum).filter (fun i => ¬ d₀.InUse i)).card)
    (hrun : RunWhere Uncontested (Config.start d₀ vars fun t => [calls t]) ls c) :
    ∃ taken, Creates d₀ calls c taken := by
  induction hrun with
  | nil =>
    refine ⟨fun _ => none, fun _ => .before, nofun, nofun, fun x => ?_⟩
    exact ⟨.inl, fun hx => hx.resolve_right fun ⟨_, ht⟩ => by cases ht⟩
  | snoc _ hok hs ih =>
    obtain ⟨taken, h⟩ := ih
    exact h.step htypes hfree hok hs

theorem inode_type_ne_zero {type : UInt32} (h : FitsShort type) (hne : type ≠ 0)
    (time : Nat → UInt32) : (newInode type time).type ≠ 0 := by
  intro h0
  have hzero : type.toUInt16.toInt16 = 0 := h0
  rw [FitsShort, hzero] at h
  exact hne h.symm

/-- Concurrent creates make different inodes when nobody stores a block in which another has found
its free inode. -/
theorem createdApart_of_uncontested [Fintype τ] {vars : UInt32 → RwCounters}
    {ls : List (AllocLabel τ)} (htypes : ∀ t, (calls t).type ≠ 0 ∧ FitsShort (calls t).type)
    (hfree : Fintype.card τ ≤ ((Finset.range inodeNum).filter (fun i => ¬ d₀.InUse i)).card)
    (hrun : RunWhere Uncontested (Config.start d₀ vars fun t => [calls t]) ls c)
    (hfin : c.Finished) : CreatedApart d₀ calls c := by
  have htypes' : ∀ t, (calls t).inode.type ≠ 0 :=
    fun t => inode_type_ne_zero (htypes t).2 (htypes t).1 _
  obtain ⟨taken, h⟩ := creates_of_uncontested htypes' hfree hrun
  have hdone : ∀ t, ∃ x < 1024, (c.thread t).done = [UInt32.ofNat x] ∧ taken t = some x ∧
      c.store.inode x = (calls t).inode := by
    intro t
    have ht := h.thread t
    obtain ⟨htodo, hframe⟩ := hfin t
    generalize c.thread t = th at ht htodo hframe
    generalize taken t = o at ht
    cases ht with
    | before => cases htodo
    | inside _ _ => cases hframe
    | after hx hrec => exact ⟨_, hx, rfl, rfl, hrec⟩
  choose inum hlt hret htaken hrec using hdone
  refine ⟨inum, fun t u heq => h.apart t u (inum t) (htaken t) (heq ▸ htaken u), fun t => ?_⟩
  refine ⟨hret t, hlt t, h.free t _ (htaken t), (h.inUse _).mpr (.inr ⟨t, htaken t⟩), ?_⟩
  rw [hrec t]
  exact (htypes t).2

end Threads

/-! ## Two creates -/

/-- Two threads that create a directory and a file. -/
def twoCreates : Bool → AllocCall
  | false => ⟨1, fun _ => 0, fun _ _ => 0⟩
  | true => ⟨2, fun _ => 0, fun _ _ => 0⟩

/-- The two threads before their first steps, on a fresh disk. -/
def creators : AllocThreads Bool := Config.start (madeAt 0) (fun _ => .init) fun t => [twoCreates t]

theorem twoCreates_type (t : Bool) : (twoCreates t).type ≠ 0 ∧ FitsShort (twoCreates t).type := by
  cases t <;> exact ⟨by decide, rfl⟩

theorem two_le_card_free : Fintype.card Bool ≤
    ((Finset.range inodeNum).filter (fun i => ¬ (madeAt 0).InUse i)).card := by
  have hsub : ({1, 2} : Finset Nat) ⊆
      (Finset.range inodeNum).filter (fun i => ¬ (madeAt 0).InUse i) := by
    intro i hi
    have hpos : i = 1 ∨ i = 2 := by simpa using hi
    have hlt : i < 1024 := by omega
    refine Finset.mem_filter.mpr ⟨Finset.mem_range.mpr hlt, fun hin => ?_⟩
    have hzero := (fresh_madeAt 0).inUse_iff.mp hin
    omega
  have hcard := Finset.card_le_card hsub
  rwa [Finset.card_pair (by decide)] at hcard

/-- While a thread stores a block, the other one is in no call. -/
def otherIdle (c : AllocThreads Bool) (l : AllocLabel Bool) : Bool :=
  match l.event with
  | .acted (.write _ _ _) => (c.thread (!l.thread)).frame.isNone
  | _ => true

theorem uncontested_of_otherIdle (c : AllocThreads Bool) (l : AllocLabel Bool)
    (h : otherIdle c l = true) : Uncontested c l := by
  obtain ⟨t, call, event⟩ := l
  rintro who id buf rfl u hu f hf
  have hu' : u = !t := by
    cases u <;> cases t <;> first | rfl | exact absurd rfl hu
  subst hu'
  simp only [otherIdle, Option.isNone_iff_eq_none] at h
  cases hf.symm.trans h

/-- One create after the other. -/
theorem createdApart_of_uncontested_two : ∃ ls c, RunWhere Uncontested creators ls c ∧
    c.Finished ∧ CreatedApart (madeAt 0) twoCreates c := by
  have hfollow : (creators.follow otherIdle (List.replicate 9 false ++
      List.replicate 11 true)).any (fun r => r.2.bothReturned) = true := by decide +kernel
  obtain ⟨⟨ls, c⟩, hls, hreturned⟩ := Option.any_eq_true .. |>.mp hfollow
  have hrun : RunWhere Uncontested creators ls c :=
    RunWhere.nil.follow uncontested_of_otherIdle hls
  have hfin := Config.finished_of_bothReturned hreturned
  exact ⟨ls, c, hrun, hfin, createdApart_of_uncontested twoCreates_type two_le_card_free hrun hfin⟩

/-- Both threads find inode 1 free before either has stored its record. -/
theorem not_createdApart_of_run : ¬ ∀ d, SafelyReachable d → ∀ calls : Bool → AllocCall,
    (∀ t, (calls t).type ≠ 0) →
    Fintype.card Bool ≤ ((Finset.range inodeNum).filter (fun i => ¬ d.InUse i)).card →
    ∀ ls c, Run (Config.start d (fun _ => .init) fun t => [calls t] : AllocThreads Bool) ls c →
      c.Finished → CreatedApart d calls c := by
  intro h
  have hfollow : (creators.follow (fun _ _ => true) (List.replicate 5 false ++
      List.replicate 9 true ++ List.replicate 4 false)).any (fun r => r.2.bothReturned &&
        (r.2.thread false).done == (r.2.thread true).done) = true := by decide +kernel
  obtain ⟨⟨ls, c⟩, hls, hc⟩ := Option.any_eq_true .. |>.mp hfollow
  obtain ⟨hreturned, hsame⟩ := Bool.and_eq_true_iff.mp hc
  have hrun : Run creators ls c := (RunWhere.nil.follow (fun _ _ _ => trivial) hls).run
  obtain ⟨inum, hinj, hinum⟩ := h _ (fresh_madeAt 0).safelyReachable twoCreates
    (fun t => (twoCreates_type t).1) two_le_card_free ls c hrun
    (Config.finished_of_bothReturned hreturned)
  -- equal results are equal inode numbers
  have hdone := (hinum false).1.symm.trans ((beq_iff_eq.mp hsame).trans (hinum true).1)
  have heq := congrArg UInt32.toNat (List.singleton_inj.mp hdone)
  have hlt : inum false < 1024 := (hinum false).2.1
  have hlt' : inum true < 1024 := (hinum true).2.1
  rw [toNat_ofNat (by omega), toNat_ofNat (by omega)] at heq
  exact Bool.false_ne_true (hinj heq)

end InodeFs
