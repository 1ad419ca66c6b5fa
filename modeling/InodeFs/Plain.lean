import InodeFs.InodeTable
import InodeFs.Prog.Ghost

/-!
# What the bodies of the calls do

Between its entry of a lock and its exit, a call loads and stores blocks, and uses no lock but
`bitmap_mutex`, which it gives back: all of this is `Plain`, the stores of `put_inode` apart.
-/

namespace InodeFs

open BlockLayer InodeLayer Prog

/-- The rules, on whether the thread has locked `bitmap_mutex`. -/
def plain : Ghost FsSig Bool where
  act
    | .write .putInode _ _, _, _ => False
    | .write .allocBlock _ _, P, x => ∀ r, P r x
    | .write .freeBlock _ _, P, x => ∀ r, P r x
    | .write .writeFile _ _, P, x => ∀ r, P r x
    | .read _ _, P, x => ∀ r, P r x
    | .uninit, P, x => ∀ r, P r x
    | .stray _ _, P, x => ∀ r, P r x
  sync
    | .lock .bitmap, P, x => x = false ∧ P true
    | .unlock .bitmap, P, x => x = true ∧ P false
    | _, _, _ => False
  act_mono {a P Q x} hPQ h := by
    rcases a with _ | ⟨_ | _ | _ | _, _, _⟩ | _ | _
    case write.putInode => exact h
    all_goals exact fun r => hPQ _ _ (h r)
  sync_mono {s P Q x} hPQ h := by
    rcases s with (_ | _) | (_ | _) | _ | _ | _
    case lock.bitmap => exact ⟨h.1, hPQ _ h.2⟩
    case unlock.bitmap => exact ⟨h.1, hPQ _ h.2⟩
    all_goals exact h

/-- `p` keeps to the rules and gives `bitmap_mutex` back. -/
def Plain {α : Type} (p : FsM α) : Prop := Follows plain p (fun _ x => x = false) false

namespace Plain

variable {α β γ : Type} {p : FsM α}

/-- A plain program keeps to all rules that allow its operations; `ρ` relates the ghost states under
them to whether `bitmap_mutex` is locked. -/
theorem transfer {G : Ghost FsSig γ} (ρ : Bool → γ → Prop) {Q : α → γ → Prop} {y : γ}
    (hact : ∀ {a P x y}, (∀ id b, a ≠ .write .putInode id b) → ρ x y →
      (∀ r y', ρ x y' → P r y') → G.act a P y)
    (hlock : ∀ {P y}, ρ false y → (∀ y', ρ true y' → P y') → G.sync (.lock .bitmap) P y)
    (hunlock : ∀ {P y}, ρ true y → (∀ y', ρ false y' → P y') → G.sync (.unlock .bitmap) P y)
    (hp : Plain p) (hρ : ρ false y) (hQ : ∀ a y', ρ false y' → Q a y') : Follows G p Q y := by
  refine Follows.transfer (G := plain) ρ (fun {a P P' x y} hy hk h => ?_)
    (fun {s P P' x y} hy hk h => ?_) (fun _ h => h.elim) hρ ?_ hp
  · rcases a with _ | ⟨_ | _ | _ | _, _, _⟩ | _ | _
    case write.putInode => exact h.elim
    all_goals exact hact nofun hy fun r y' hy' => hk r x y' hy' (h r)
  · rcases s with (_ | _) | (_ | _) | _ | _ | _
    case lock.bitmap =>
      obtain ⟨rfl, hP⟩ := h
      exact hlock hy fun y' hy' => hk true y' hy' hP
    case unlock.bitmap =>
      obtain ⟨rfl, hP⟩ := h
      exact hunlock hy fun y' hy' => hk false y' hy' hP
    all_goals exact h.elim
  · rintro a x y' hy' rfl
    exact hQ a y' hy'

-- What follows starts with `bitmap_mutex` free again.
theorem seq {f : α → FsM β} {Q : β → Bool → Prop} (hp : Plain p)
    (hf : ∀ a, Follows plain (f a) Q false) : Follows plain (p >>= f) Q false :=
  Follows.bind (hp.mono fun a x hx => by
    subst hx
    exact hf a)

theorem bind {f : α → FsM β} (hp : Plain p) (hf : ∀ a, Plain (f a)) : Plain (p >>= f) := hp.seq hf

theorem ret (a : α) : Plain (Prog.ret a) := rfl

theorem whileLoop {cond : β → Bool} {body : β → FsM β} (hbody : ∀ b, Plain (body b)) (fuel : Nat)
    (b : β) : Plain (whileLoop cond body fuel b) :=
  Follows.whileLoop (I := fun _ x => x = false) (fun b x hx _ => by
    subst hx
    exact hbody b) fuel rfl

theorem forLoop {body : Nat → FsM Unit} (hbody : ∀ i, Plain (body i)) (i n : Nat) :
    Plain (forLoop body i n) :=
  Follows.forLoop (I := fun x => x = false) (fun i x hx => by
    subst hx
    exact hbody i) i n rfl

end Plain

-- Such a program returns when it is run alone.
theorem plain_returns {α : Type} {p : FsM α} {Q : α → Bool → Prop} {x : Bool}
    (h : Follows plain p Q x) (d : Disk) : wp p (fun a _ => ∃ y, Q a y) d := by
  refine h.returns (fun {a P x} hact r => ?_) (fun {s P x} hsync => ?_) (fun _ h => h) d
  · rcases a with _ | ⟨_ | _ | _ | _, _, _⟩ | _ | _
    case write.putInode => exact hact.elim
    all_goals exact ⟨x, hact r⟩
  · rcases s with (_ | _) | (_ | _) | _ | _ | _
    case lock.bitmap => exact ⟨_, hsync.2⟩
    case unlock.bitmap => exact ⟨_, hsync.2⟩
    all_goals exact hsync.elim

/-! ## The functions of the two layers -/

theorem plain_freshMem : Plain freshMem := fun _ => rfl

theorem plain_freshBlock : Plain freshBlock := plain_freshMem.bind fun _ => .ret _

theorem plain_readDisk (id : UInt32) (b : Block) : Plain (readDisk id b) := fun _ => rfl

theorem plain_writeFile (id : UInt32) (b : Block) : Plain (writeDisk .writeFile id b) := fun _ => rfl

theorem plain_strayAccess (a : ArrayName) (i : Nat) : Plain (strayAccess a i) := fun _ => rfl

theorem plain_entry (b : Block) (i : Nat) : Plain (entry b i) := by
  unfold entry
  split
  · exact .ret _
  · exact (plain_strayAccess _ _).bind fun _ => .ret _

theorem plain_storeEntry (b : Block) (i : Nat) (v : UInt32) : Plain (storeEntry b i v) := by
  unfold storeEntry
  split
  · exact .ret _
  · exact (plain_strayAccess _ _).bind fun _ => .ret _

theorem plain_loadSlot (ino : Inode) (i : Nat) : Plain (loadSlot ino i) := by
  unfold loadSlot
  split
  · exact .ret _
  · exact (plain_strayAccess _ _).bind fun _ => .ret _

theorem plain_storeSlot (ino : Inode) (i : Nat) (v : UInt32) : Plain (storeSlot ino i v) := by
  unfold storeSlot
  split
  · exact .ret _
  · exact (plain_strayAccess _ _).bind fun _ => .ret _

theorem plain_freeBlock (id : UInt32) : Plain (freeBlock id) :=
  ⟨rfl, fun _ _ _ => ⟨rfl, rfl⟩⟩

theorem plain_allocBlock : Plain allocBlock := by
  have hscan : ∀ n id, Follows plain (allocScan n id) (fun _ x => x = false) true := by
    intro n
    induction n with
    | zero => exact fun id => ⟨rfl, rfl⟩
    | succ n ih =>
      intro id
      refine fun _ b => ?_
      change Follows plain (if _ then _ else _) _ true
      split
      · exact ih (id + 1)
      · exact fun _ => ⟨rfl, rfl⟩
  exact ⟨rfl, hscan _ _⟩

theorem plain_getInode (inum : UInt32) : Plain (getInode inum) := by
  unfold getInode
  split
  · exact .ret _
  · refine plain_freshBlock.bind fun _ => (plain_readDisk _ _).bind fun b => ?_
    simp only
    split <;> exact .ret _

theorem plain_readStep (ino : Inode) (b : Block) (r : ReadState) : Plain (readStep ino b r) := by
  simp only [readStep]
  split
  · exact plain_freshBlock.bind fun _ => (plain_loadSlot _ _).bind fun _ =>
      (plain_readDisk _ _).bind fun _ => .ret _
  · exact plain_freshBlock.bind fun _ => (plain_entry _ _).bind fun _ =>
      (plain_readDisk _ _).bind fun _ => .ret _

theorem plain_chunkBuffer (buf : Mem) (w : WriteState) : Plain (chunkBuffer buf w) :=
  plain_freshBlock.bind fun _ => .ret _

theorem plain_writeDirect (buf : Mem) (w : WriteState) : Plain (writeDirect buf w) :=
  (plain_chunkBuffer buf w).bind fun _ => plain_allocBlock.bind fun _ =>
    (plain_storeSlot _ _ _).bind fun _ => (plain_writeFile _ _).bind fun _ => .ret _

theorem plain_writeAllocated (buf : Mem) (w : WriteState) : Plain (writeAllocated buf w) :=
  (plain_chunkBuffer buf w).bind fun _ => plain_allocBlock.bind fun _ =>
    (plain_writeFile _ _).bind fun _ => (plain_storeEntry _ _ _).bind fun _ => .ret _

theorem plain_writeReused (buf : Mem) (w : WriteState) : Plain (writeReused buf w) :=
  plain_freshBlock.bind fun _ => (plain_readDisk _ _).bind fun _ =>
    (plain_chunkBuffer buf w).bind fun _ => (plain_entry _ _).bind fun _ =>
      (plain_writeFile _ _).bind fun _ => (plain_storeEntry _ _ _).bind fun _ => .ret _

theorem plain_allocIndirect (w : WriteState) : Plain (allocIndirect w) := by
  unfold allocIndirect
  split
  · exact plain_allocBlock.bind fun _ => .ret _
  · exact .ret _

theorem plain_writeIndirect (buf : Mem) (size old : Int) (w : WriteState) :
    Plain (writeIndirect buf size old w) := by
  simp only [writeIndirect]
  split
  · split
    · exact (plain_allocIndirect _).bind fun _ => (plain_writeAllocated buf _).bind fun _ => .ret _
    · split
      · exact (plain_writeAllocated buf _).bind fun _ => .ret _
      · exact (plain_writeReused buf _).bind fun _ => .ret _
  · exact (plain_writeReused buf _).bind fun _ => .ret _

theorem plain_writeStep (buf : Mem) (size old : Int) (w : WriteState) :
    Plain (writeStep buf size old w) := by
  simp only [writeStep]
  split
  · exact (plain_writeDirect buf w).bind fun _ => .ret _
  · exact (plain_writeIndirect buf size old w).bind fun _ => .ret _

theorem plain_shrinkStep (b : Block) (v : Nat × Int) : Plain (shrinkStep b v) :=
  (plain_entry _ _).bind fun _ => (plain_freeBlock _).bind fun _ => .ret _

-- `writeBlocks` ends with an inode of the new size, whatever it finds on the disk.
theorem follows_writeBlocks (ino : Inode) (buf : Mem) (size : Int) :
    Follows plain (writeBlocks ino buf size)
      (fun ino' x => x = false ∧ ino'.size = UInt32.ofNat size.toNat) false := by
  set Q : Inode → Bool → Prop := fun ino' x => x = false ∧ ino'.size = UInt32.ofNat size.toNat
  have hfree : ∀ w : WriteState, Follows plain (if size ≤ 8 * blockSize then do
      freeBlock (w.ino.block 8)
      pure (w.ino.setSize (UInt32.ofNat size.toNat))
    else pure (w.ino.setSize (UInt32.ofNat size.toNat))) Q false := by
    intro w
    split
    · exact (plain_freeBlock _).seq fun _ => ⟨rfl, rfl⟩
    · exact ⟨rfl, rfl⟩
  have hstore : ∀ w : WriteState, Follows plain (if w.needToOverwriteIndirect = true then do
      writeBlock .writeFile (w.ino.block 8) w.finalIndirectBlock
      if size ≤ 8 * blockSize then do
        freeBlock (w.ino.block 8)
        pure (w.ino.setSize (UInt32.ofNat size.toNat))
      else pure (w.ino.setSize (UInt32.ofNat size.toNat))
    else if size ≤ 8 * blockSize then do
      freeBlock (w.ino.block 8)
      pure (w.ino.setSize (UInt32.ofNat size.toNat))
    else pure (w.ino.setSize (UInt32.ofNat size.toNat))) Q false := by
    intro w
    split
    · exact (plain_writeFile _ _).seq fun _ => hfree w
    · exact hfree w
  rw [writeBlocks]
  refine (Plain.forLoop (fun _ => plain_freeBlock _) 0 8).seq fun _ => ?_
  refine plain_freshBlock.seq fun final => ?_
  refine (Plain.whileLoop (fun w => plain_writeStep buf size _ w) _ _).seq fun w => ?_
  by_cases hshrink : (w.needToOverwriteIndirect && decide (size < asInt ino.size)) = true
  · simp only [if_pos hshrink]
    exact plain_freshBlock.seq fun _ => (plain_readDisk _ _).seq fun b =>
      (Plain.whileLoop (fun v => plain_shrinkStep b v) _ _).seq fun _ => hstore w
  · simp only [if_neg hshrink]
    exact hstore w

theorem plain_writeBlocks (ino : Inode) (buf : Mem) (size : Int) :
    Plain (writeBlocks ino buf size) :=
  (follows_writeBlocks ino buf size).mono fun _ _ h => h.1

/-! ## Under a lock -/

/-- A thread that has locked `held` may load and store blocks, and lock `bitmap_mutex` and give it
back. -/
structure AllowsPlain {ν : Type} (G : Ghost FsSig (List Mutex × ν)) (held : List Mutex) (v : ν) : Prop where
  act : ∀ {a P locked}, locked ≠ [] → (∀ r, P r (locked, v)) → G.act a P (locked, v)
  lock : ∀ {P}, P (.bitmap :: held, v) → G.sync (.lock .bitmap) P (held, v)
  unlock : ∀ {P}, P (held, v) → G.sync (.unlock .bitmap) P (.bitmap :: held, v)
  ne : held ≠ []

namespace AllowsPlain

variable {α ν : Type} {G : Ghost FsSig (List Mutex × ν)} {held : List Mutex} {v : ν}

-- A plain program changes neither the locked mutexes nor the variables.
theorem plain (h : AllowsPlain G held v) {p : FsM α} {Q : α → List Mutex × ν → Prop} (hp : Plain p)
    (hQ : ∀ a, Q a (held, v)) : Follows G p Q (held, v) := by
  refine Plain.transfer (fun taken y => y = (if taken then .bitmap :: held else held, v))
    (fun {a P x y} _ hy hP => ?_) (fun {P y} hy hP => ?_) (fun {P y} hy hP => ?_) hp rfl ?_
  · subst hy
    refine h.act ?_ fun r => hP r _ rfl
    cases x
    · exact h.ne
    · exact List.cons_ne_nil _ _
  · subst hy
    exact h.lock (hP _ rfl)
  · subst hy
    exact h.unlock (hP _ rfl)
  · rintro a y rfl
    exact hQ a

theorem putInode (h : AllowsPlain G held v) (inum : UInt32) (ino : Inode)
    {Q : Unit → List Mutex × ν → Prop} (hQ : Q () (held, v)) :
    Follows G (putInode inum ino) Q (held, v) := by
  unfold InodeLayer.putInode
  split
  · exact hQ
  · refine Follows.bind (h.plain plain_freshBlock fun _ => ?_)
    exact Follows.bind (h.plain (plain_readDisk _ _) fun _ => h.act h.ne fun _ => hQ)

end AllowsPlain

-- Whatever the disk holds, `write_file` comes to the store of an inode of the new size.
theorem wp_writeBlocks_size (ino : Inode) (buf : Mem) (size : Int) (d : Disk) :
    wp (writeBlocks ino buf size) (fun ino' _ => ino'.size = UInt32.ofNat size.toNat) d :=
  wp_mono (plain_returns (follows_writeBlocks ino buf size) d) fun _ _ ⟨_, h⟩ => h.2

end InodeFs
