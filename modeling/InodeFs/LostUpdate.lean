import InodeFs.FileThreads
import InodeFs.Isolation

/-!
# Updates of the inode table by threads

`put_inode` loads a block of nine records and stores it with one of them replaced, under the lock of
one file only.  As long as nobody else stores that block in between, each record carries the size
and the block ids that the last write stored; otherwise the update of another file may be lost.
-/

namespace InodeFs

open BlockLayer InodeLayer FsServer Prog Disk

/-- The size and the block ids of a record. -/
def Inode.layout (ino : Inode) : UInt32 × (Fin 9 → UInt32) := (ino.size, ino.blocks)

/-! ## What a call stores -/

/-- Where a call is: `entering` until its first action, then `inside`, with the block it has just
loaded. -/
inductive Stage where
  | before
  | entering
  | inside (loaded : Option (UInt32 × Block))
  | left

/-- The call has the mutex of its file, or waits for it in the loop of an entry method. -/
def Stage.Held : Stage → Prop
  | .before => False
  | .entering => True
  | .inside _ => True
  | .left => False

def Stage.forget : Stage → Stage
  | .inside _ => .inside none
  | stage => stage

/-- The rules of a call on file `inum`: it uses the mutex of its own file, and `put_inode` stores the
block it has just loaded with the record of that file replaced; if `layout` is given, that is the
layout of the records it loads, and of those it stores. -/
def storesOwn (inum : UInt32) (layout : Option (UInt32 × (Fin 9 → UInt32))) :
    Ghost FsSig Stage where
  act
    | .write .putInode id buf, P, stage => ∃ (b : Block) (ino : Inode), stage = .inside (some (id, b)) ∧
        id.toNat = tableBlock inum.toNat ∧ buf = ino.intoBlock (inum.toNat % ipb) b ∧
        (∀ l ∈ layout, ino.layout = l) ∧ P () (.inside none)
    | .write .allocBlock _ _, P, stage => stage.Held ∧ P () (.inside none)
    | .write .freeBlock _ _, P, stage => stage.Held ∧ P () (.inside none)
    | .write .writeFile _ _, P, stage => stage.Held ∧ P () (.inside none)
    | .read id _, P, stage => stage.Held ∧ ∀ b, (id.toNat = tableBlock inum.toNat →
        ∀ l ∈ layout, (Inode.ofBlock b (inum.toNat % ipb)).layout = l) → P b (.inside (some (id, b)))
    | .uninit, P, stage => stage.Held ∧ ∀ m, P m (.inside none)
    | .stray _ _, P, stage => stage.Held ∧ ∀ m, P m (.inside none)
  sync
    | .lock (.rwlock i), P, stage => i = inum ∧ stage = .before ∧ P .entering
    | .unlock (.rwlock i), P, stage => i = inum ∧ stage.Held ∧ P .left
    | .waitWhile m _ _, P, stage => m = .rwlock inum ∧ stage = .entering ∧ P .entering
    | .lock .bitmap, P, stage => stage.Held ∧ P stage.forget
    | .unlock .bitmap, P, stage => stage.Held ∧ P stage.forget
    | .update _, P, stage => stage.Held ∧ P stage.forget
    | .wake _, P, stage => stage.Held ∧ P stage.forget
  act_mono {a P Q x} hPQ h := by
    rcases a with _ | ⟨_ | _ | _ | _, _, _⟩ | _ | _
    case write.putInode =>
      obtain ⟨b, ino, hx, hid, hbuf, hlayout, hP⟩ := h
      exact ⟨b, ino, hx, hid, hbuf, hlayout, hPQ _ _ hP⟩
    case read => exact ⟨h.1, fun b hb => hPQ _ _ (h.2 b hb)⟩
    case uninit => exact ⟨h.1, fun m => hPQ _ _ (h.2 m)⟩
    case stray => exact ⟨h.1, fun m => hPQ _ _ (h.2 m)⟩
    all_goals exact ⟨h.1, hPQ _ _ h.2⟩
  sync_mono {s P Q x} hPQ h := by
    rcases s with (_ | _) | (_ | _) | _ | _ | _
    case lock.rwlock => exact ⟨h.1, h.2.1, hPQ _ h.2.2⟩
    case unlock.rwlock => exact ⟨h.1, h.2.1, hPQ _ h.2.2⟩
    case waitWhile => exact ⟨h.1, h.2.1, hPQ _ h.2.2⟩
    all_goals exact ⟨h.1, hPQ _ h.2⟩

section Rules

variable {α : Type} {inum : UInt32} {layout : Option (UInt32 × (Fin 9 → UInt32))} {stage : Stage}

theorem Stage.Held.forget (h : stage.Held) : stage.forget.Held := by
  cases stage <;> exact h

theorem Plain.storesOwn {p : FsM α} {Q : α → Stage → Prop} (hp : Plain p) (hstage : stage.Held)
    (hQ : ∀ a s, s.Held → Q a s) : Follows (storesOwn inum layout) p Q stage := by
  refine Plain.transfer (fun _ s => s.Held) (fun {a P x y} hne hy hP => ?_)
    (fun hy hP => ⟨hy, hP _ hy.forget⟩) (fun hy hP => ⟨hy, hP _ hy.forget⟩) hp hstage hQ
  -- what a read has loaded is forgotten at the next operation
  rcases a with _ | ⟨_ | _ | _ | _, id, b⟩ | _ | _
  case write.putInode => exact absurd rfl (hne id b)
  case read => exact ⟨hy, fun b _ => hP b _ trivial⟩
  case uninit => exact ⟨hy, fun m => hP m _ trivial⟩
  case stray => exact ⟨hy, fun m => hP m _ trivial⟩
  all_goals exact ⟨hy, hP () _ trivial⟩

-- The inode that `get_inode` returns has the layout of the record.
theorem storesOwn_getInode {Q : Option Inode → Stage → Prop} (hstage : stage.Held)
    (hQ : ∀ o s, s.Held → (∀ ino ∈ o, ∀ l ∈ layout, ino.layout = l) → Q o s) :
    Follows (storesOwn inum layout) (getInode inum) Q stage := by
  unfold getInode
  by_cases hi : inum.toNat ≥ inodeNum
  · rw [if_pos hi]
    exact hQ none stage hstage nofun
  · rw [if_neg hi]
    refine ⟨hstage, fun m => ⟨trivial, fun b hb => ?_⟩⟩
    have hlayout := hb (toNat_iblock (Nat.not_le.mp hi))
    change Follows (storesOwn inum layout) (if _ then _ else _) Q _
    split
    · exact hQ none _ trivial nofun
    · refine hQ _ _ trivial fun ino hino l hl => ?_
      cases hino
      exact hlayout l hl

theorem storesOwn_putInode {ino : Inode} {Q : Unit → Stage → Prop} (hi : inum.toNat < 1024)
    (hino : ∀ l ∈ layout, ino.layout = l) (hstage : stage.Held) (hQ : ∀ s, s.Held → Q () s) :
    Follows (storesOwn inum layout) (putInode inum ino) Q stage := by
  unfold putInode
  rw [if_neg (Nat.not_le.mpr hi)]
  exact ⟨hstage, fun _ => ⟨trivial, fun b _ =>
    ⟨b, ino, rfl, toNat_iblock hi, rfl, hino, hQ _ trivial⟩⟩⟩

theorem storesOwn_readerExit {Q : Unit → Stage → Prop} (hstage : stage.Held) (hQ : Q () .left) :
    Follows (storesOwn inum layout) (Rwlock.readerExit inum) Q stage :=
  ⟨hstage, hstage.forget, rfl, hstage.forget.forget, hQ⟩

theorem storesOwn_writerExit {Q : Unit → Stage → Prop} (hstage : stage.Held) (hQ : Q () .left) :
    Follows (storesOwn inum layout) (Rwlock.writerExit inum) Q stage :=
  ⟨hstage, hstage.forget, rfl, hstage.forget.forget, hQ⟩

-- `read_file` stores its record with the layout it has.
theorem storesOwn_readFile (hi : inum.toNat < 1024) (bufOut size : Bool) (now : UInt32) :
    Follows (storesOwn inum layout) (readFile inum bufOut size now) (fun _ s => s = .left) .before := by
  have hexit : ∀ {s : Stage} (r : Option ReadResult), s.Held →
      Follows (storesOwn inum layout) (Rwlock.readerExit inum >>= fun _ => pure r)
        (fun _ s => s = .left) s :=
    fun r hs => Follows.bind (storesOwn_readerExit hs rfl)
  simp only [readFile]
  refine Follows.bind ⟨rfl, rfl, rfl, rfl, trivial, ?_⟩
  change Follows (storesOwn inum layout) (if _ then _ else _) _ _
  split
  · exact hexit none trivial
  · refine Follows.bind (storesOwn_getInode trivial fun o s hs hlayout => ?_)
    cases o with
    | none => exact hexit none hs
    | some ino =>
      refine Follows.bind (storesOwn_putInode hi (hlayout ino rfl) hs fun s hs => ?_)
      refine Follows.bind (plain_freshMem.storesOwn hs fun _ s hs => ?_)
      refine Follows.bind (plain_freshBlock.storesOwn hs fun _ s hs => ?_)
      refine Follows.bind ((plain_readDisk _ _).storesOwn hs fun _ s hs => ?_)
      refine Follows.bind ((Plain.whileLoop (fun r => plain_readStep _ _ r) _ _).storesOwn hs
        fun r s hs => ?_)
      exact hexit _ hs

theorem storesOwn_writeFile (hi : inum.toNat < 1024) (buf : Mem) (size : Int) :
    Follows (storesOwn inum none) (writeFile inum buf size) (fun _ s => s = .left) .before := by
  simp only [writeFile]
  refine Follows.bind ⟨rfl, rfl, trivial, rfl, rfl, trivial, ?_⟩
  change Follows (storesOwn inum none) (if _ then _ else _) _ _
  split
  · exact storesOwn_writerExit trivial rfl
  · refine Follows.bind (storesOwn_getInode trivial fun o s hs _ => ?_)
    cases o with
    | none => exact storesOwn_writerExit hs rfl
    | some ino =>
      refine Follows.bind ((plain_writeBlocks _ _ _).storesOwn hs fun _ s hs => ?_)
      exact Follows.bind (storesOwn_putInode hi (fun l hl => absurd hl (Option.not_mem_none l)) hs
        fun s hs => storesOwn_writerExit hs rfl)

end Rules

/-! ## Where the threads are -/

/-- The layout that a call must not change: that of the record, for a read. -/
def FileCall.layout (d : Disk) : FileCall → Option (UInt32 × (Fin 9 → UInt32))
  | .read inum _ _ _ _ => some (d.inode inum.toNat).layout
  | .write _ _ _ _ => none

theorem storesOwn_code (d : Disk) {call : FileCall} (hi : call.inum.toNat < 1024) :
    Follows (storesOwn call.inum (call.layout d)) (Calls.code call : FsM FileResult)
      (fun _ s => s = .left) .before := by
  cases call with
  | read inum bufOut size now junk =>
    exact Follows.bind ((storesOwn_readFile hi bufOut size now).mono fun _ _ hs => hs)
  | write inum buf size junk =>
    exact Follows.bind ((storesOwn_writeFile hi buf size).mono fun _ _ hs => hs)

section Threads

variable {τ : Type} {files : Nat → Prop} {c c' : FileThreads τ} {t u : τ}
variable {call : FileCall} {p : FsM FileResult}

/-- How far thread `t` is in its call, whose rest is `p`. -/
inductive Position (c : FileThreads τ) (t : τ) (call : FileCall) (p : FsM FileResult) : Prop where
  | before (hmode : c.monitor.mode t = .awake)
      (hp : ∀ d, Follows (storesOwn call.inum (call.layout d)) p (fun _ s => s = .left) .before)
  | entering (hmode : c.monitor.mode t = .awake)
      (hlock : c.monitor.owner (.rwlock call.inum) = some t)
      (hp : ∀ d, Follows (storesOwn call.inum (call.layout d)) p (fun _ s => s = .left) .entering)
  | waiting (hmode : c.monitor.mode t ≠ .awake)
      (hwait : ∃ cv busy k, p = .sync (.waitWhile (.rwlock call.inum) cv busy) k)
      (hp : ∀ d, Follows (storesOwn call.inum (call.layout d)) p (fun _ s => s = .left) .entering)
  | inside {loaded} (hmode : c.monitor.mode t = .awake)
      (hlock : c.monitor.owner (.rwlock call.inum) = some t)
      (hp : Follows (storesOwn call.inum (call.layout c.store)) p (fun _ s => s = .left)
        (.inside loaded))
      (hloaded : ∀ id buf k b, p = .act (.write .putInode id buf) k → loaded = some (id, b) →
        b = c.store.row id.toNat)
  | left {a} (hmode : c.monitor.mode t = .awake) (hp : p = .ret a)

/-- The calls of thread `t` are on the given files, and it is somewhere in the one it has begun. -/
structure Tracked (files : Nat → Prop) (c : FileThreads τ) (t : τ) : Prop where
  todo : ∀ call ∈ (c.thread t).todo, call.inum.toNat < 1024 ∧ files call.inum.toNat
  idle : (c.thread t).frame = none → c.monitor.mode t = .awake
  frame : ∀ f, (c.thread t).frame = some f →
    (f.call.inum.toNat < 1024 ∧ files f.call.inum.toNat) ∧ Position c t f.call f.rest

/-- A step of another thread leaves alone what thread `u` relies on. -/
structure Spares (files : Nat → Prop) (c c' : FileThreads τ) (u : τ) : Prop where
  thread : c'.thread u = c.thread u
  mode : c'.monitor.mode u = .awake ↔ c.monitor.mode u = .awake
  owner : ∀ inum, c.monitor.owner (.rwlock inum) = some u →
    c'.monitor.owner (.rwlock inum) = some u
  layout : ∀ inum, files inum.toNat → c.monitor.owner (.rwlock inum) = some u →
    (c'.store.inode inum.toNat).layout = (c.store.inode inum.toNat).layout
  row : ∀ x id buf, files x → id.toNat = tableBlock x →
    c.pending u = some (.write .putInode id buf) → c'.store.row id.toNat = c.store.row id.toNat

-- The block that `put_inode` has loaded is the one it replaces.
theorem follows_putInode {id : UInt32} {buf : Block} {k : Unit → FsM FileResult} {inum : UInt32}
    {layout : Option (UInt32 × (Fin 9 → UInt32))} {Q : FileResult → Stage → Prop} {stage : Stage}
    (h : Follows (storesOwn inum layout) (.act (.write .putInode id buf) k) Q stage) :
    ∃ (b : Block) (ino : Inode), stage = .inside (some (id, b)) ∧ id.toNat = tableBlock inum.toNat ∧
      buf = ino.intoBlock (inum.toNat % ipb) b ∧ (∀ l ∈ layout, ino.layout = l) ∧
      Follows (storesOwn inum layout) (k ()) Q (.inside none) := h

theorem Tracked.spared (h : Tracked files c u) (hs : Spares files c c' u) : Tracked files c' u := by
  constructor
  · rw [hs.thread]
    exact h.todo
  · rw [hs.thread]
    exact fun hidle => hs.mode.mpr (h.idle hidle)
  · rw [hs.thread]
    rintro ⟨call, p, i⟩ hf
    obtain ⟨hcall, hpos⟩ := h.frame _ hf
    refine ⟨hcall, ?_⟩
    cases hpos with
    | before hmode hp => exact .before (hs.mode.mpr hmode) hp
    | entering hmode hlock hp => exact .entering (hs.mode.mpr hmode) (hs.owner _ hlock) hp
    | waiting hmode hwait hp => exact .waiting (mt hs.mode.mp hmode) hwait hp
    | left hmode hp => exact .left (hs.mode.mpr hmode) hp
    | inside hmode hlock hp hloaded =>
      have hlayout : call.layout c'.store = call.layout c.store := by
        have hinode := hs.layout _ hcall.2 hlock
        cases call with
        | read inum _ _ _ _ => exact congrArg some hinode
        | write _ _ _ _ => rfl
      refine .inside (hs.mode.mpr hmode) (hs.owner _ hlock) (by rwa [hlayout]) ?_
      rintro id buf k b rfl hb
      rw [hloaded id buf k b rfl hb]
      obtain ⟨-, -, -, hid, -⟩ := follows_putInode hp
      exact (hs.row _ id buf hcall.2 hid (Config.pending_eq hf)).symm

/-! ## The records and what was stored last -/

/-- The record that a step of `write_file` on inode `x` stores with `put_inode`. -/
def storedBy (x : Nat) (l : FileLabel τ) : Option Inode :=
  match l.call, l.event with
  | .write inum _ _ _, .acted (.write .putInode _ buf) =>
      if inum.toNat = x then some (Inode.ofBlock buf (x % ipb)) else none
  | _, _ => none

/-- The last such record of a run, or the one of the disk `d` it started from.  The calls on a file
store it while they hold its lock, so the last one is that of the last call to hold it. -/
def lastStored (x : Nat) (d : Disk) (ls : List (FileLabel τ)) : Inode :=
  ((ls.filterMap (storedBy x)).getLast?).getD (d.inode x)

/-- A step of the thread of `l` stores a block of the table that has a record of one of the files
in `put_inode` only, and while no other thread is in `put_inode` between its load and its store of
that block. -/
def Undisputed (files : Nat → Prop) (c : FileThreads τ) (l : FileLabel τ) : Prop :=
  ∀ who id buf x, l.event = .acted (.write who id buf) → files x → id.toNat = tableBlock x →
    who = .putInode ∧
    ∀ u ≠ l.thread, ∀ id' buf', c.pending u = some (.write .putInode id' buf') →
      id'.toNat ≠ id.toNat

theorem lastStored_concat (x : Nat) (d : Disk) (ls : List (FileLabel τ)) (l : FileLabel τ) :
    lastStored x d (ls ++ [l]) = (storedBy x l).getD (lastStored x d ls) := by
  rw [lastStored, List.filterMap_append, List.filterMap_cons, List.filterMap_nil]
  cases storedBy x l with
  | none => rw [List.append_nil, Option.getD_none, lastStored]
  | some ino => rw [List.getLast?_concat, Option.getD_some, Option.getD_some]

theorem storedBy_of_ne {x : Nat} {l : FileLabel τ}
    (h : ∀ id buf, l.event ≠ .acted (.write .putInode id buf)) : storedBy x l = none := by
  obtain ⟨t, call, event⟩ := l
  unfold storedBy
  split
  · rename_i hevent
    exact absurd hevent (h _ _)
  · rfl

/-- Every file has the layout that was stored last, and every thread is somewhere in its call. -/
structure Tracks (files : Nat → Prop) (d : Disk) (ls : List (FileLabel τ)) (c : FileThreads τ) :
    Prop where
  kept : ∀ x, files x → (c.store.inode x).layout = (lastStored x d ls).layout
  threads : ∀ t, Tracked files c t

theorem follows_act_held {a : Action} {k : a.Res → FsM FileResult} {inum : UInt32}
    {layout : Option (UInt32 × (Fin 9 → UInt32))} {Q : FileResult → Stage → Prop} {stage : Stage}
    (h : Follows (storesOwn inum layout) (.act a k) Q stage) : stage.Held := by
  rcases a with _ | ⟨_ | _ | _ | _, _, _⟩ | _ | _
  case write.putInode =>
    obtain ⟨b, ino, rfl, -⟩ := follows_putInode h
    trivial
  all_goals exact h.1

-- A thread that takes an action has the lock of its file.
theorem Position.acting {a : Action} {k : a.Res → FsM FileResult}
    (h : Position c t call (.act a k)) :
    c.monitor.mode t = .awake ∧ c.monitor.owner (.rwlock call.inum) = some t ∧
      ∃ stage, Follows (storesOwn call.inum (call.layout c.store)) (.act a k)
          (fun _ s => s = .left) stage ∧
        ∀ id buf b, a = .write .putInode id buf → stage = .inside (some (id, b)) →
          b = c.store.row id.toNat := by
  cases h with
  | before _ hp => exact (follows_act_held (hp c.store)).elim
  | entering hmode hlock hp => exact ⟨hmode, hlock, .entering, hp c.store, nofun⟩
  | waiting _ hwait _ =>
    obtain ⟨_, _, _, hp⟩ := hwait
    cases hp
  | inside hmode hlock hp hloaded =>
    refine ⟨hmode, hlock, _, hp, ?_⟩
    rintro id buf b rfl hstage
    exact hloaded id buf k b rfl (Stage.inside.inj hstage)
  | left _ hp => cases hp

theorem exec_store_of_ne {a : Action} (h : ∀ who id buf, a ≠ .write who id buf) (j : Junk)
    (d : Disk) : (Action.exec a j d).2.2 = d := by
  cases a with
  | write who id buf => exact absurd rfl (h who id buf)
  | read id buf =>
    simp only [Action.exec]
    split
    · rfl
    · split <;> rfl
  | uninit => rfl
  | stray _ _ => rfl

-- A write changes its own block only.
theorem row_exec {a : Action} {r : Nat} (h : ∀ who id buf, a = .write who id buf → id.toNat ≠ r)
    (j : Junk) (d : Disk) : (Action.exec a j d).2.2.row r = d.row r := by
  by_cases hw : ∃ who id buf, a = .write who id buf
  · obtain ⟨who, id, buf, rfl⟩ := hw
    simp only [Action.exec]
    split
    · rfl
    · exact row_setRow_ne d buf (h who id buf rfl).symm
  · rw [exec_store_of_ne fun who id buf heq => hw ⟨who, id, buf, heq⟩]

-- What an action does to the records: nothing, or it replaces the one of the call's file.
theorem Position.store {a : Action} {k : a.Res → FsM FileResult} (hi : call.inum.toNat < 1024)
    (h : Position c t call (.act a k)) (hok : Undisputed files c ⟨t, call, .acted a⟩) (j : Junk) :
    ((∀ id buf, a ≠ .write .putInode id buf) ∧
      ∀ x, files x → (Action.exec a j c.store).2.2.row (tableBlock x) =
        c.store.row (tableBlock x)) ∨
    ∃ id buf ino, a = .write .putInode id buf ∧ id.toNat = tableBlock call.inum.toNat ∧
      Inode.ofBlock buf (call.inum.toNat % ipb) = ino ∧ (∀ l ∈ call.layout c.store, ino.layout = l) ∧
      (Action.exec a j c.store).2.2 = c.store.setInode call.inum.toNat ino := by
  obtain ⟨-, -, stage, hp, hloaded⟩ := h.acting
  by_cases hput : ∃ id buf, a = .write .putInode id buf
  · obtain ⟨id, buf, rfl⟩ := hput
    obtain ⟨b, ino, hstage, hid, rfl, hlayout, -⟩ := follows_putInode hp
    have hb := tableBlock_bounds hi
    refine .inr ⟨id, _, ino, rfl, hid, Inode.ofBlock_intoBlock _ _ _ (slot_lt _), hlayout, ?_⟩
    rw [hloaded id _ b rfl hstage]
    simp only [Action.exec, blockNum, if_neg (show ¬ id.toNat > 32768 by omega)]
    rw [hid]
    rfl
  · refine .inl ⟨fun id buf heq => hput ⟨id, buf, heq⟩, fun x hx => row_exec ?_ j c.store⟩
    rintro who id buf rfl hid
    obtain ⟨rfl, -⟩ := hok who id buf x rfl hx hid
    exact hput ⟨id, buf, rfl⟩

theorem Position.unlock {inum : UInt32} {k : FsM FileResult}
    (h : Position c t call (.sync (.unlock (.rwlock inum)) k)) :
    c.monitor.owner (.rwlock inum) = some t := by
  cases h with
  | before _ hp => exact (hp c.store).2.1.elim
  | entering _ hlock hp => exact (hp c.store).1 ▸ hlock
  | waiting _ hwait _ =>
    obtain ⟨_, _, _, heq⟩ := hwait
    cases heq
  | inside _ hlock hp _ => exact hp.1 ▸ hlock
  | left _ hp => cases hp

theorem Position.park {inum : UInt32} {cv : UInt32 × CondVar}
    {busy : (UInt32 → RwCounters) → Bool} {k : FsM FileResult}
    (h : Position c t call (.sync (.waitWhile (.rwlock inum) cv busy) k))
    (hmode : c.monitor.mode t = .awake) : c.monitor.owner (.rwlock inum) = some t := by
  cases h with
  | before _ hp => cases (hp c.store).2.1
  | entering _ hlock hp =>
    obtain ⟨heq, -, -⟩ := hp c.store
    exact heq ▸ hlock
  | waiting hmode' _ _ => exact absurd hmode hmode'
  | inside _ _ hp _ => cases hp.2.1
  | left _ hp => cases hp

-- The record that a read loads has the layout it must keep.
theorem FileCall.layout_of_mem {d : Disk} {l : UInt32 × (Fin 9 → UInt32)}
    (h : l ∈ call.layout d) : (d.inode call.inum.toNat).layout = l := by
  cases call with
  | read inum _ _ _ _ => exact Option.some.inj h
  | write _ _ _ _ => cases h

-- The thread is inside after its action.
theorem Position.act {a : Action} {k : a.Res → FsM FileResult} {j : Junk}
    (hi : call.inum.toNat < 1024) (h : Position c t call (.act a k))
    (hmon : c'.monitor = c.monitor) (hstore : c'.store = (Action.exec a j c.store).2.2)
    (hlayout : call.layout c'.store = call.layout c.store) :
    Position c' t call (k (Action.exec a j c.store).1) := by
  obtain ⟨hmode, hlock, stage, hp, -⟩ := h.acting
  rw [← hmon] at hmode hlock
  have hinside : ∀ r, Follows (storesOwn call.inum (call.layout c.store)) (k r)
      (fun _ s => s = .left) (.inside none) → Position c' t call (k r) :=
    fun r hk => .inside hmode hlock (by rwa [hlayout]) fun _ _ _ _ _ hb => by cases hb
  cases a with
  | write who id buf =>
    cases who with
    | putInode =>
      obtain ⟨-, -, -, -, -, -, hk⟩ := follows_putInode hp
      exact hinside _ hk
    | allocBlock => exact hinside _ hp.2
    | freeBlock => exact hinside _ hp.2
    | writeFile => exact hinside _ hp.2
  | uninit => exact hinside _ (hp.2 _)
  | stray _ _ => exact hinside _ (hp.2 _)
  | read id buf =>
    have hstore' : c'.store = c.store := by
      rw [hstore]
      exact exec_store_of_ne (fun _ _ _ heq => by cases heq) j c.store
    have hb : id.toNat = tableBlock call.inum.toNat →
        (Action.exec (.read id buf) j c.store).1 = c.store.row id.toNat := by
      intro hid
      have hbounds := tableBlock_bounds hi
      simp only [Action.exec, blockNum, if_neg (show ¬ id.toNat > 32768 by omega),
        if_pos (show id.toNat < 32768 by omega)]
    have hk : Follows (storesOwn call.inum (call.layout c.store))
        (k (Action.exec (.read id buf) j c.store).1) (fun _ s => s = .left)
        (.inside (some (id, (Action.exec (.read id buf) j c.store).1))) := by
      refine hp.2 _ fun hid l hl => ?_
      rw [hb hid, hid]
      exact FileCall.layout_of_mem hl
    refine .inside hmode hlock (by rwa [hlayout]) fun id' buf' k' b hrest hloaded => ?_
    rw [hrest] at hk
    obtain ⟨-, -, -, hid, -⟩ := follows_putInode hk
    cases hloaded
    rw [hstore', hb hid]

variable {d₀ : Disk} {ls : List (FileLabel τ)} {l : FileLabel τ}
variable {todo : List FileCall} {done : List FileResult} {i : Junk}

theorem Tracked.of_position (hth : c.thread t = ⟨todo, some ⟨call, p, i⟩, done⟩)
    (htodo : ∀ call' ∈ call :: todo, call'.inum.toNat < 1024 ∧ files call'.inum.toNat)
    (hpos : Position c t call p) : Tracked files c t := by
  constructor
  · rw [hth]
    exact fun call' hcall' => htodo call' (List.mem_cons_of_mem _ hcall')
  · rw [hth]
    exact nofun
  · rw [hth]
    rintro f hf
    cases hf
    exact ⟨htodo call (List.mem_cons_self ..), hpos⟩

-- The call in progress and those to come, and how far the thread is.
theorem Tracked.position (h : Tracked files c t)
    (hth : c.thread t = ⟨todo, some ⟨call, p, i⟩, done⟩) :
    (∀ call' ∈ call :: todo, call'.inum.toNat < 1024 ∧ files call'.inum.toNat) ∧
      Position c t call p := by
  obtain ⟨hcall, hpos⟩ := h.frame ⟨call, p, i⟩ (by rw [hth])
  refine ⟨fun call' hcall' => ?_, hpos⟩
  rcases List.mem_cons.mp hcall' with rfl | hcall'
  · exact hcall
  · exact h.todo call' (by rwa [hth])

-- A step that stores no record keeps what was stored last.
theorem Tracks.kept_concat (h : Tracks files d₀ ls c)
    (hl : ∀ id buf, l.event ≠ .acted (.write .putInode id buf))
    (hrow : ∀ x, files x → c'.store.row (tableBlock x) = c.store.row (tableBlock x)) (x : Nat)
    (hx : files x) : (c'.store.inode x).layout = (lastStored x d₀ (ls ++ [l])).layout := by
  rw [lastStored_concat, storedBy_of_ne hl, Option.getD_none, inode_congr (hrow x hx), h.kept x hx]

-- The store of the record of the call's file.
theorem Tracks.kept_put (h : Tracks files d₀ ls c) {id : UInt32} {buf : Block} {ino : Inode}
    (hinode : ∀ x, c'.store.inode x = if x = call.inum.toNat then ino else c.store.inode x)
    (hino : Inode.ofBlock buf (call.inum.toNat % ipb) = ino)
    (hlayout : ∀ l ∈ call.layout c.store, ino.layout = l) (x : Nat) (hx : files x) :
    (c'.store.inode x).layout =
      (lastStored x d₀ (ls ++ [⟨t, call, .acted (.write .putInode id buf)⟩])).layout := by
  rw [lastStored_concat, hinode]
  cases call with
  | write inum data size junk =>
    change (if x = inum.toNat then ino else c.store.inode x).layout =
      ((if inum.toNat = x then some (Inode.ofBlock buf (x % ipb)) else none).getD _).layout
    by_cases hxi : x = inum.toNat
    · subst hxi
      rw [if_pos rfl, if_pos rfl, Option.getD_some, ← hino]
      rfl
    · rw [if_neg hxi, if_neg (Ne.symm hxi), Option.getD_none, h.kept x hx]
  | read inum bufOut size now junk =>
    change (if x = inum.toNat then ino else c.store.inode x).layout = (lastStored x d₀ ls).layout
    rw [← h.kept x hx]
    by_cases hxi : x = inum.toNat
    · subst hxi
      rw [if_pos rfl]
      exact hlayout _ rfl
    · rw [if_neg hxi]

variable [DecidableEq τ]

-- A step of thread `t` that changes neither the disk nor the locks.
theorem Tracks.setThread (h : Tracks files d₀ ls c)
    (hl : ∀ id buf, l.event ≠ .acted (.write .putInode id buf))
    {th : Thread FileCall FsSig Junk FileResult} (ht : Tracked files (c.setThread t th) t) :
    Tracks files d₀ (ls ++ [l]) (c.setThread t th) := by
  refine ⟨fun x hx => h.kept_concat hl (fun _ _ => rfl) x hx, fun u => ?_⟩
  by_cases hu : u = t
  · exact hu ▸ ht
  · exact (h.threads u).spared ⟨Config.thread_setThread_ne _ _ hu, Iff.rfl, fun _ h => h,
      fun _ _ _ => rfl, fun _ _ _ _ _ _ => rfl⟩

theorem Tracks.begin (h : Tracks files d₀ ls c) (hth : c.thread t = ⟨call :: todo, none, done⟩) :
    Tracks files d₀ (ls ++ [⟨t, call, .begun⟩])
      (c.setThread t ⟨todo, some ⟨call, Calls.code call, Calls.input call⟩, done⟩) := by
  have htodo := (h.threads t).todo
  have hmode := (h.threads t).idle (by rw [hth])
  rw [hth] at htodo
  refine h.setThread (l := ⟨t, call, .begun⟩) (fun _ _ => nofun)
    (.of_position (Config.thread_setThread_self ..) htodo ?_)
  exact .before hmode fun d => storesOwn_code d (htodo call (List.mem_cons_self ..)).1

theorem Tracks.return (h : Tracks files d₀ ls c) {a : FileResult}
    (hth : c.thread t = ⟨todo, some ⟨call, .ret a, i⟩, done⟩) :
    Tracks files d₀ (ls ++ [⟨t, call, .returned⟩]) (c.setThread t ⟨todo, none, done ++ [a]⟩) := by
  obtain ⟨htodo, hpos⟩ := (h.threads t).position hth
  have hmode : c.monitor.mode t = .awake := by
    cases hpos with
    | before hmode _ => exact hmode
    | entering hmode _ _ => exact hmode
    | waiting _ hwait _ =>
      obtain ⟨_, _, _, hp⟩ := hwait
      cases hp
    | inside hmode _ _ _ => exact hmode
    | left hmode _ => exact hmode
  refine h.setThread (l := ⟨t, call, .returned⟩) (fun _ _ => nofun) ⟨?_, fun _ => hmode, ?_⟩
  · rw [Config.thread_setThread_self]
    exact fun call' hcall' => htodo call' (List.mem_cons_of_mem _ hcall')
  · rw [Config.thread_setThread_self]
    exact nofun

-- An action changes the layout of the file of its call only, and that of no read.
theorem Tracks.act (h : Tracks files d₀ ls c) {a : Action} {k : a.Res → FsM FileResult}
    (hth : c.thread t = ⟨todo, some ⟨call, .act a k, i⟩, done⟩)
    (hok : Undisputed files c ⟨t, call, .acted a⟩) :
    Tracks files d₀ (ls ++ [⟨t, call, .acted a⟩])
      ({ c with store := (Action.exec a i c.store).2.2 }.setThread t
        ⟨todo, some ⟨call, k (Action.exec a i c.store).1, (Action.exec a i c.store).2.1⟩, done⟩) := by
  obtain ⟨htodo, hpos⟩ := (h.threads t).position hth
  obtain ⟨hmode, hlock, -⟩ := hpos.acting
  obtain ⟨hi, hfile⟩ := htodo call (List.mem_cons_self ..)
  set c' : FileThreads τ := { c with store := (Action.exec a i c.store).2.2 }.setThread t
    ⟨todo, some ⟨call, k (Action.exec a i c.store).1, (Action.exec a i c.store).2.1⟩, done⟩
  have hthis : call.layout c'.store = call.layout c.store → Tracked files c' t := fun hlayout =>
    .of_position (Config.thread_setThread_self ..) htodo (hpos.act hi rfl rfl hlayout)
  rcases hpos.store hi hok i with ⟨hne, hrow⟩ | ⟨id, buf, ino, rfl, hid, hino, hlayout, hstore⟩
  · refine ⟨fun x hx => h.kept_concat (fun id buf heq => hne id buf (Event.acted.inj heq)) hrow x hx,
      fun u => ?_⟩
    by_cases hu : u = t
    · subst hu
      refine hthis ?_
      cases call with
      | read inum _ _ _ _ =>
        exact congrArg (fun ino => some (Inode.layout ino)) (inode_congr (hrow _ hfile))
      | write _ _ _ _ => rfl
    · exact (h.threads u).spared ⟨Config.thread_setThread_ne _ _ hu, Iff.rfl, fun _ h => h,
        fun inum hx _ => congrArg Inode.layout (inode_congr (hrow _ hx)),
        fun x id buf hx hid _ => by rw [hid]; exact hrow x hx⟩
  · have hinode : ∀ x, c'.store.inode x = if x = call.inum.toNat then ino else c.store.inode x :=
      fun x => (congrArg (fun d => d.inode x) hstore).trans (inode_setInode _ _ hi)
    refine ⟨fun x hx => ?_, fun u => ?_⟩
    · exact h.kept_put hinode hino hlayout x hx
    · by_cases hu : u = t
      · subst hu
        refine hthis ?_
        cases call with
        | read inum _ _ _ _ =>
          have hself := (hinode inum.toNat).trans (if_pos rfl)
          change some (c'.store.inode inum.toNat).layout = _
          rw [hself]
          exact congrArg some (hlayout _ rfl)
        | write _ _ _ _ => rfl
      · refine (h.threads u).spared ⟨Config.thread_setThread_ne _ _ hu, Iff.rfl, fun _ h => h,
          fun inum hx hown => ?_, fun x id' buf' hx hid' hpending => ?_⟩
        · have hne : inum.toNat ≠ call.inum.toNat := fun heq => by
            rw [UInt32.toNat_inj.mp heq, hlock] at hown
            exact hu (Option.some.inj hown).symm
          rw [hinode, if_neg hne]
        · have hother := (hok _ id buf _ rfl hfile hid).2 u hu id' buf' hpending
          refine (congrArg (fun d => d.row id'.toNat) hstore).trans (row_setInode _ _ ?_)
          exact hid ▸ hother

theorem follows_left {inum : UInt32} {layout : Option (UInt32 × (Fin 9 → UInt32))}
    {Q : FileResult → Stage → Prop} (h : Follows (storesOwn inum layout) p Q .left) :
    ∃ a, p = .ret a := by
  cases p with
  | ret a => exact ⟨a, rfl⟩
  | abort => exact h.elim
  | act a k => exact (follows_act_held h).elim
  | sync s k =>
    rcases s with (_ | _) | (_ | _) | _ | _ | _
    case lock.rwlock => cases h.2.1
    case unlock.rwlock => exact h.2.1.elim
    case waitWhile => cases h.2.1
    all_goals exact h.1.elim

-- A thread that has passed an operation on the locks.
theorem Position.pass {s : SyncOp} {k : FsM FileResult}
    {mon : Monitor τ Mutex (UInt32 × CondVar) (UInt32 → RwCounters)}
    (h : Position c t call (.sync s k)) (hs : c.monitor.Passes t s mon) (hmon : c'.monitor = mon)
    (hstore : c'.store = c.store) : Position c' t call k := by
  have hmode' : c.monitor.mode t = .awake → c'.monitor.mode t = .awake :=
    fun hmode => hmon ▸ (hs.awake_iff t).mpr hmode
  have hlock' : c.monitor.owner (.rwlock call.inum) = some t → s ≠ .unlock (.rwlock call.inum) →
      c'.monitor.owner (.rwlock call.inum) = some t := by
    intro hlock hne
    rw [hmon]
    rcases hs.owner (.rwlock call.inum) with heq | ⟨-, hfree, -⟩ | heq
    · rw [heq, hlock]
    · cases hfree.symm.trans hlock
    · exact absurd heq hne
  cases h with
  | before hmode hp =>
    rcases s with (_ | _) | (_ | _) | _ | _ | _
    case lock.rwlock i =>
      obtain ⟨rfl, -, -⟩ := hp c.store
      cases hs with
      | lock _ =>
        refine .entering (hmode' hmode) ?_ fun d => (hp d).2.2
        rw [hmon]
        exact Monitor.owner_setOwner_self ..
    case unlock.rwlock => exact (hp c.store).2.1.elim
    case waitWhile => cases (hp c.store).2.1
    all_goals exact (hp c.store).1.elim
  | entering hmode hlock hp =>
    rcases s with (_ | _) | (_ | _) | _ | _ | _
    case lock.rwlock => cases (hp c.store).2.1
    case unlock.rwlock =>
      obtain ⟨a, hk⟩ := follows_left (hp c.store).2.2
      exact .left (hmode' hmode) hk
    case waitWhile => exact .entering (hmode' hmode) (hlock' hlock nofun) fun d => (hp d).2.2
    all_goals exact .entering (hmode' hmode) (hlock' hlock nofun) fun d => (hp d).2
  | waiting hmode hwait _ =>
    obtain ⟨cv, busy, k', heq⟩ := hwait
    cases heq
    cases hs with
    | loopEnd hmode' _ => exact absurd hmode' hmode
  | inside hmode hlock hp _ =>
    have hinside : ∀ p, Follows (storesOwn call.inum (call.layout c.store)) p (fun _ s => s = .left)
        (.inside none) → s ≠ .unlock (.rwlock call.inum) → Position c' t call p :=
      fun p hp hne => .inside (hmode' hmode) (hlock' hlock hne) (hstore ▸ hp)
        fun _ _ _ _ _ hb => by cases hb
    rcases s with (_ | _) | (_ | _) | _ | _ | _
    case lock.rwlock => cases hp.2.1
    case unlock.rwlock =>
      obtain ⟨a, hk⟩ := follows_left hp.2.2
      exact .left (hmode' hmode) hk
    case waitWhile => cases hp.2.1
    all_goals exact hinside k hp.2 nofun
  | left _ hp => cases hp

-- A thread that moves inside its waiting loop.
theorem Position.stay {s : SyncOp} {k : FsM FileResult}
    {mon : Monitor τ Mutex (UInt32 × CondVar) (UInt32 → RwCounters)}
    (h : Position c t call (.sync s k)) (hs : c.monitor.Stays t s mon) (hmon : c'.monitor = mon) :
    Position c' t call (.sync s k) := by
  obtain ⟨m, cv, busy, rfl⟩ : ∃ m cv busy, s = .waitWhile m cv busy := by
    cases hs <;> exact ⟨_, _, _, rfl⟩
  cases h with
  | before _ hp => cases (hp c.store).2.1
  | entering hmode hlock hp =>
    obtain ⟨rfl, -, -⟩ := hp c.store
    cases hs with
    | park _ _ =>
      refine .waiting ?_ ⟨cv, busy, k, rfl⟩ hp
      rw [hmon, Monitor.mode_setMode_self]
      exact nofun
    | spurious hparked => cases hmode.symm.trans hparked
    | retake hwoken _ => cases hmode.symm.trans hwoken
  | waiting hmode _ hp =>
    obtain ⟨rfl, -, -⟩ := hp c.store
    cases hs with
    | park hawake _ => exact absurd hawake hmode
    | spurious _ =>
      refine .waiting ?_ ⟨cv, busy, k, rfl⟩ hp
      rw [hmon, Monitor.mode_setMode_self]
      exact nofun
    | retake _ _ =>
      refine .entering ?_ ?_ hp
      · rw [hmon, Monitor.mode_setMode_self]
      · rw [hmon, Monitor.owner_setMode]
        exact Monitor.owner_setOwner_self ..
  | inside _ _ hp _ => cases hp.2.1
  | left _ hp => cases hp

theorem Tracks.pass (h : Tracks files d₀ ls c) {s : SyncOp} {k : FsM FileResult}
    {mon : Monitor τ Mutex (UInt32 × CondVar) (UInt32 → RwCounters)}
    (hth : c.thread t = ⟨todo, some ⟨call, .sync s k, i⟩, done⟩) (hs : c.monitor.Passes t s mon) :
    Tracks files d₀ (ls ++ [⟨t, call, .passed s⟩])
      ({ c with monitor := mon }.setThread t ⟨todo, some ⟨call, k, i⟩, done⟩) := by
  obtain ⟨htodo, hpos⟩ := (h.threads t).position hth
  refine ⟨fun x hx => h.kept_concat (l := ⟨t, call, .passed s⟩) (fun _ _ => nofun)
    (fun _ _ => rfl) x hx, fun u => ?_⟩
  by_cases hu : u = t
  · subst hu
    exact .of_position (Config.thread_setThread_self ..) htodo (hpos.pass hs rfl rfl)
  · refine (h.threads u).spared ⟨Config.thread_setThread_ne _ _ hu, hs.awake_iff u,
      fun inum hown => ?_, fun _ _ _ => rfl, fun _ _ _ _ _ _ => rfl⟩
    rcases hs.owner (.rwlock inum) with heq | ⟨-, hfree, -⟩ | rfl
    · exact heq.trans hown
    · cases hfree.symm.trans hown
    · exact absurd (Option.some.inj (hown.symm.trans hpos.unlock)) hu

theorem Tracks.stay (h : Tracks files d₀ ls c) {s : SyncOp} {k : FsM FileResult}
    {mon : Monitor τ Mutex (UInt32 × CondVar) (UInt32 → RwCounters)}
    (hth : c.thread t = ⟨todo, some ⟨call, .sync s k, i⟩, done⟩) (hs : c.monitor.Stays t s mon) :
    Tracks files d₀ (ls ++ [⟨t, call, .stayed s⟩]) { c with monitor := mon } := by
  obtain ⟨htodo, hpos⟩ := (h.threads t).position hth
  refine ⟨fun x hx => h.kept_concat (l := ⟨t, call, .stayed s⟩) (fun _ _ => nofun)
    (fun _ _ => rfl) x hx, fun u => ?_⟩
  by_cases hu : u = t
  · subst hu
    exact .of_position hth htodo (hpos.stay hs rfl)
  · refine (h.threads u).spared ⟨rfl, iff_of_eq (congrArg (· = _) (hs.mode hu)),
      fun inum hown => ?_, fun _ _ _ => rfl, fun _ _ _ _ _ _ => rfl⟩
    rcases hs.owner (.rwlock inum) with heq | ⟨cv, busy, rfl, ⟨hmode, -⟩ | ⟨hfree, -⟩⟩
    · exact heq.trans hown
    · exact absurd (Option.some.inj (hown.symm.trans (hpos.park hmode))) hu
    · cases hfree.symm.trans hown

-- The step lemma.
theorem Tracks.step (h : Tracks files d₀ ls c) (hok : Undisputed files c l) (hs : Step c l c') :
    Tracks files d₀ (ls ++ [l]) c' := by
  cases hs with
  | begin hth => exact h.begin hth
  | act hth => exact h.act hth hok
  | pass hth hpass => exact h.pass hth hpass
  | stay hth hstay => exact h.stay hth hstay
  | «return» hth => exact h.return hth

/-- The run lemma. -/
theorem tracks_of_undisputed {vars : UInt32 → RwCounters} {calls : τ → List FileCall}
    (hcalls : ∀ t, ∀ call ∈ calls t, call.inum.toNat < 1024 ∧ files call.inum.toNat)
    (hrun : RunWhere (Undisputed files) (Config.start d₀ vars calls) ls c) :
    Tracks files d₀ ls c := by
  induction hrun with
  | nil =>
    exact ⟨fun _ _ => rfl, fun t => ⟨hcalls t, fun _ => rfl, nofun⟩⟩
  | snoc _ hok hs ih => exact ih.step hok hs

/-- The record of inode `x` carries the size and the block ids that the last write stored. -/
def UpdateKept (x : Nat) (d₀ : Disk) (ls : List (FileLabel τ)) (d : Disk) : Prop :=
  (d.inode x).layout = (lastStored x d₀ ls).layout

/-- No update of two files is lost in a run whose stores of their blocks are undisputed. -/
theorem updateKept_of_undisputed {a b : Nat} {vars : UInt32 → RwCounters}
    {calls : τ → List FileCall} (ha : a < 1024) (hb : b < 1024)
    (hcalls : ∀ t, ∀ call ∈ calls t, call.inum.toNat = a ∨ call.inum.toNat = b)
    (hrun : RunWhere (Undisputed fun x => x = a ∨ x = b) (Config.start d₀ vars calls) ls c) :
    UpdateKept a d₀ ls c.store ∧ UpdateKept b d₀ ls c.store := by
  have htracks := tracks_of_undisputed (fun t call hcall => ⟨?_, hcalls t call hcall⟩) hrun
  · exact ⟨htracks.kept a (.inl rfl), htracks.kept b (.inr rfl)⟩
  · rcases hcalls t call hcall with h | h <;> rw [h] <;> assumption

end Threads

/-! ## Two files in one block -/

/-- One thread reads file 0, the other writes file 1, whose record is in the same block. -/
def readAndWrite : Bool → List FileCall
  | false => [.read 0 true true 5 fun _ _ => 0]
  | true => [.write 1 (fun _ => 66) 1 fun _ _ => 0]

/-- The two threads before their first steps, on a disk with the inodes 0 and 1. -/
def twoFiles : FileThreads Bool :=
  Config.start ((madeAt 0).setInode 1 (newInode 1 fun _ => 0)) (fun _ => .init) readAndWrite

/-- `Undisputed` for two threads, for all blocks of the table. -/
def undisputed (c : FileThreads Bool) (l : FileLabel Bool) : Bool :=
  match l.event with
  | .acted (.write .putInode id _) =>
      match c.pending (!l.thread) with
      | some (.write .putInode id' _) => id' != id
      | _ => true
  | .acted (.write _ id _) => decide (id.toNat < 9) || decide (122 < id.toNat)
  | _ => true

theorem undisputed_of_eq_true (files : Nat → Prop) (hfiles : ∀ x, files x → x < 1024)
    (c : FileThreads Bool) (l : FileLabel Bool) (h : undisputed c l = true) :
    Undisputed files c l := by
  obtain ⟨t, call, event⟩ := l
  rintro who id buf x rfl hx hid
  have hbounds := tableBlock_bounds (hfiles x hx)
  cases who with
  | putInode =>
    refine ⟨rfl, fun u hu id' buf' hpending heq => ?_⟩
    have hu' : u = !t := by
      cases u <;> cases t <;> first | rfl | exact absurd rfl hu
    subst hu'
    simp only [undisputed, hpending, bne_iff_ne] at h
    exact h (UInt32.toNat_inj.mp heq)
  | allocBlock | freeBlock | writeFile =>
    simp only [undisputed, Bool.or_eq_true, decide_eq_true_eq] at h
    omega

theorem readAndWrite_inum (t : Bool) (call : FileCall) (h : call ∈ readAndWrite t) :
    call.inum.toNat = 0 ∨ call.inum.toNat = 1 := by
  cases t
  · rw [List.mem_singleton.mp h]
    exact .inl rfl
  · rw [List.mem_singleton.mp h]
    exact .inr rfl

/-- The write comes after the read. -/
theorem updateKept_of_undisputed_twoFiles : ∃ ls c,
    RunWhere (Undisputed fun x => x = 0 ∨ x = 1) twoFiles ls c ∧ c.Finished ∧
      UpdateKept 0 twoFiles.store ls c.store ∧ UpdateKept 1 twoFiles.store ls c.store := by
  have hfollow : (twoFiles.follow undisputed (List.replicate 16 false ++
      List.replicate 67 true)).any (fun r => r.2.bothReturned) = true := by decide +kernel
  obtain ⟨⟨ls, c⟩, hls, hreturned⟩ := Option.any_eq_true .. |>.mp hfollow
  have hrun : RunWhere _ twoFiles ls c :=
    RunWhere.nil.follow (undisputed_of_eq_true (fun x => x = 0 ∨ x = 1) (by omega)) hls
  exact ⟨ls, c, hrun, Config.finished_of_bothReturned hreturned,
    updateKept_of_undisputed (by omega) (by omega) readAndWrite_inum hrun⟩

/-- The whole write falls between the load and the store of the read's `put_inode`. -/
theorem not_updateKept_of_run :
    ¬ ∀ d, SafelyReachable d → ∀ a b, a < 1024 → b < 1024 → a ≠ b → d.InUse a → d.InUse b →
      ∀ (calls : Bool → List FileCall),
        (∀ t, ∀ call ∈ calls t, call.inum.toNat = a ∨ call.inum.toNat = b) →
        ∀ ls c, Run (Config.start d (fun _ => .init) calls : FileThreads Bool) ls c → c.Finished →
          UpdateKept a d ls c.store ∧ UpdateKept b d ls c.store := by
  intro h
  have hfollow : (twoFiles.follow (fun _ _ => true) (List.replicate 8 false ++
      List.replicate 67 true ++ List.replicate 8 false)).any (fun r => r.2.bothReturned &&
        ((r.2.store.inode 1).size != (lastStored 1 twoFiles.store r.1).size)) = true := by
    decide +kernel
  obtain ⟨⟨ls, c⟩, hls, hlost⟩ := Option.any_eq_true .. |>.mp hfollow
  obtain ⟨hreturned, hsize⟩ := Bool.and_eq_true_iff.mp hlost
  have hrun : Run twoFiles ls c := (RunWhere.nil.follow (fun _ _ _ => trivial) hls).run
  have hd := safelyReachable_create
  have hinUse : ((madeAt 0).setInode 1 (newInode 1 fun _ => 0)).InUse 0 ∧
      ((madeAt 0).setInode 1 (newInode 1 fun _ => 0)).InUse 1 := by decide +kernel
  have hkept := (h _ hd 0 1 (by omega) (by omega) Nat.zero_ne_one hinUse.1 hinUse.2 readAndWrite
    readAndWrite_inum ls c hrun (Config.finished_of_bothReturned hreturned)).2
  exact bne_iff_ne.mp hsize (congrArg Prod.fst hkept)

end InodeFs
