import InodeFs.Runs

/-!
# Files do not share blocks

In a safe run no block has two owners, so a put or a remove leaves every other file as it was.  A
slot that a shrink leaves behind breaks both: the next put frees and takes a block that another file
got in the meantime.
-/

namespace InodeFs

open BlockLayer InodeLayer FsServer Prog Disk

/-! ## Exclusive ownership -/

/-- The ids that inode `i` holds: its direct ids, and those in and of its indirect block. -/
def heldBlocks (d : Disk) (i : Nat) : List Nat :=
  let ino := d.inode i
  let n := chunks (d.size i)
  (List.range (min 8 n)).map (fun k => (ino.block k).toNat) ++
    if 8 < n then
      (ino.block 8).toNat ::
        (List.range (n - 8)).map fun k => ((d.row (ino.block 8).toNat).word k).toNat
    else []

/-- The held ids are distinct within each inode and across inodes, name data blocks, and are marked
in the bitmap. -/
structure ExclusiveOwnership (d : Disk) : Prop where
  nodup : ∀ i, d.InUse i → (heldBlocks d i).Nodup
  region : ∀ i, d.InUse i → ∀ id ∈ heldBlocks d i, 123 ≤ id ∧ id < blockNum
  marked : ∀ i, d.InUse i → ∀ id ∈ heldBlocks d i, d.bit id = true
  disjoint : ∀ i j, d.InUse i → d.InUse j → i ≠ j → ∀ id ∈ heldBlocks d i, id ∉ heldBlocks d j

theorem heldBlocks_eq (d : Disk) (i : Nat) :
    heldBlocks d i = (List.range (pointers (d.size i))).map (d.ptr i) := by
  simp only [heldBlocks]
  by_cases hn : 8 < chunks (d.size i)
  · have hsplit : List.range (pointers (d.size i)) =
        List.range 8 ++ 8 :: (List.range (chunks (d.size i) - 8)).map (9 + ·) := by
      rw [pointers_eq_of_lt hn, show chunks (d.size i) + 1 = 9 + (chunks (d.size i) - 8) by omega,
        List.range_add, List.range_succ, List.append_assoc]
      rfl
    rw [if_pos hn, hsplit, List.map_append, List.map_cons, List.map_map,
      show min 8 (chunks (d.size i)) = 8 by omega]
    refine congrArg₂ _ ?_ ?_
    · refine List.map_congr_left fun k hk => ?_
      have := List.mem_range.mp hk
      rw [ptr_direct (by omega)]
    · rw [ptr_direct le_rfl]
      refine congrArg _ (List.map_congr_left fun k _ => ?_)
      rw [Function.comp_apply, ptr_entry (by omega), Nat.add_sub_cancel_left]
  · rw [if_neg hn, List.append_nil, pointers_eq_of_le (by omega),
      show min 8 (chunks (d.size i)) = chunks (d.size i) by omega]
    refine List.map_congr_left fun k hk => ?_
    have := List.mem_range.mp hk
    rw [ptr_direct (by omega)]

theorem mem_heldBlocks {d : Disk} {i id : Nat} :
    id ∈ heldBlocks d i ↔ ∃ p < pointers (d.size i), d.ptr i p = id := by
  rw [heldBlocks_eq, List.mem_map]
  simp only [List.mem_range]

theorem Sound.exclusive {d : Disk} (h : Sound d) : ExclusiveOwnership d where
  nodup := fun i hi => by
    rw [heldBlocks_eq]
    refine List.nodup_range.map_on fun p hp q hq he => ?_
    exact (h.owner i i hi hi p (List.mem_range.mp hp) q (List.mem_range.mp hq) he).2
  region := fun i hi id hid => by
    obtain ⟨p, hp, rfl⟩ := mem_heldBlocks.mp hid
    exact h.region i hi p hp
  marked := fun i hi id hid => by
    obtain ⟨p, hp, rfl⟩ := mem_heldBlocks.mp hid
    exact (mem_used.mp (h.used i hi p hp)).2
  disjoint := fun i j hi hj hij id hid hid' => by
    obtain ⟨p, hp, rfl⟩ := mem_heldBlocks.mp hid
    obtain ⟨q, hq, he⟩ := mem_heldBlocks.mp hid'
    exact hij (h.owner i j hi hj p hp q hq he.symm).1

/-- Every disk that a safe run reaches has one owner for each held block. -/
theorem exclusive_of_safe {d : Disk} (h : SafelyReachable d) : ExclusiveOwnership d :=
  h.sound.exclusive

theorem exclusive_of_safe_put : ∃ d, d.size 0 = 5000 ∧ ExclusiveOwnership d := by
  obtain ⟨e, he, -, hsize⟩ := exists_root_of_size (n := 5000) ⟨by decide, by omega⟩
  exact ⟨e, hsize, exclusive_of_safe he⟩

/-- Uninitialised memory that reads as zeros. -/
def zeros : Junk := fun _ _ => 0

/-- File 0 shrinks to nothing but keeps the id of its first block; file 1 gets that block. -/
def staleRun : List (Request × Junk) :=
  [(.put 0 [65], zeros), (.put 0 [], zeros), (.create 1 fun _ => 0, zeros), (.put 1 [66], zeros)]

/-- Two files hold block 123 when file 0 is written once more. -/
theorem not_exclusive_of_roomy : ¬ ∀ d, RoomilyReachable d → ExclusiveOwnership d := by
  intro h
  obtain ⟨d, hd, hp⟩ := exists_roomilyReachable (staleRun ++ [(.put 0 [65], zeros)])
    (fun d => decide (d.InUse 0 ∧ d.InUse 1 ∧ 123 ∈ heldBlocks d 0 ∧ 123 ∈ heldBlocks d 1))
    (by decide +kernel) (by decide +kernel)
  rw [decide_eq_true_eq] at hp
  obtain ⟨h0, h1, hheld, hheld'⟩ := hp
  exact (h d hd).disjoint 0 1 h0 h1 Nat.zero_ne_one 123 hheld hheld'

-- The disk with the root and one more file, both empty.
theorem safelyReachable_create :
    SafelyReachable ((madeAt 0).setInode 1 (newInode 1 fun _ => 0)) := by
  have hfresh := fresh_madeAt 0
  refine hfresh.safelyReachable.create (by omega) (fun h => ?_) (fun j hj => ?_) 1 _
  · exact absurd (hfresh.inUse_iff.mp h) (by omega)
  · exact hfresh.inUse_iff.mpr (by omega)

/-! ## No interference -/

/-- The reply to a `get`. -/
def getReply (d : Disk) (id : UInt64) (now : UInt32) (j : Junk) : Option Reply :=
  ((serve (.get id now)).run j d).map fun r => r.1

/-- Serving `q` leaves the record of inode `b` and what `get` returns for it as they were. -/
def Undisturbed (d : Disk) (q : Request) (b : Nat) : Prop :=
  ∀ j r j' e, (serve q).run j d = some (r, j', e) →
    e.inode b = d.inode b ∧
    ∀ id, inumOf id = b → ∀ now j, getReply e id now j = getReply d id now j

/-- `q` is a put to inode `a` or a remove of it. -/
def Request.Alters (a : Nat) : Request → Prop
  | .put id _ => inumOf id = a
  | .remove id => inumOf id = a
  | _ => False

theorem getReply_of_sound {d : Disk} (hd : Sound d) {id : UInt64} (hin : d.InUse (inumOf id))
    (now : UInt32) (j : Junk) :
    getReply d id now j = some (.bytes .ok (d.contents (inumOf id))) := by
  obtain ⟨r, j', e, hrun, hserved⟩ := serve_run hd (q := .get id now) trivial j
  cases hserved with
  | get _ => rw [getReply, hrun, Option.map_some]
  | getAbsent h => exact absurd hin h

-- The other files are intact when a request alters one.
theorem Served.intact {d e : Disk} {q : Request} {r : Reply} {a b : Nat} (h : Served d q r e)
    (hd : Sound d) (hsafe : SafeStep d q) (hq : q.Alters a) (hab : a ≠ b) (hb : d.InUse b) :
    d.Intact e b := by
  cases h with
  | put hacc hin he =>
    subst hq
    exact (hsafe hacc hin).intact hd hin he hab.symm hb
  | removed hin he =>
    subst hq
    exact hd.intact_of_freed hin he hab.symm hb
  | putRefused _ => exact ⟨rfl, fun _ _ => rfl⟩
  | removeAbsent _ => exact ⟨rfl, fun _ _ => rfl⟩
  | created _ _ _ => exact hq.elim
  | createdFull _ => exact hq.elim
  | get _ => exact hq.elim
  | getAbsent _ => exact hq.elim
  | getattr _ => exact hq.elim
  | getattrAbsent _ => exact hq.elim

/-- In a safe run a put or a remove leaves every other file as it was. -/
theorem undisturbed_of_safe {d : Disk} {q : Request} {a b : Nat} (hd : SafelyReachable d)
    (hsafe : SafeStep d q) (hq : q.Alters a) (hab : a ≠ b) (hb : d.InUse b) :
    Undisturbed d q b := by
  intro j r j' e hrun
  obtain ⟨r', j'', e', hrun', hserved⟩ := serve_run hd.sound hsafe j
  rw [hrun] at hrun'
  simp only [Option.some.injEq, Prod.mk.injEq] at hrun'
  obtain ⟨rfl, -, rfl⟩ := hrun'
  have hint := hserved.intact hd.sound hsafe hq hab hb
  refine ⟨hint.inode, fun id hid now j => ?_⟩
  subst hid
  rw [getReply_of_sound hd.sound hb,
    getReply_of_sound (hserved.sound hd.sound hsafe) (hint.inUse.mpr hb), hint.contents]

theorem undisturbed_of_safe_put :
    Undisturbed ((madeAt 0).setInode 1 (newInode 1 fun _ => 0)) (.put 1 [66]) 0 := by
  have hd := safelyReachable_create
  have hput : PutSafe ((madeAt 0).setInode 1 (newInode 1 fun _ => 0)) 1 (putSize [66]) := by
    rw [putSize_eq_length (by decide)]
    refine putSafe_of_new hd.sound (inode_setInode_self _ _ (by omega)) ⟨by decide, by decide⟩ ?_
    rw [used_setInode, (fresh_madeAt 0).card_free]
    decide
  refine undisturbed_of_safe hd (fun _ _ => hput) rfl Nat.one_ne_zero ?_
  rw [inUse_setInode_ne _ _ Nat.zero_ne_one]
  exact (fresh_madeAt 0).inUse_iff.mpr rfl

/-- The next put to file 0 overwrites the block of file 1. -/
theorem not_undisturbed_of_roomy :
    ¬ ∀ d, RoomilyReachable d → ∀ q a b, a ≠ b → d.InUse a → d.InUse b → q.Alters a →
      RoomyStep d q → Undisturbed d q b := by
  intro h
  obtain ⟨d, hd, hp⟩ := exists_roomilyReachable staleRun
    (fun d => decide (d.InUse 0 ∧ d.InUse 1 ∧ roomyTail d (.put 0 [65]) = true ∧
      getReply d 1 0 zeros = some (.bytes .ok [66])) &&
      ((serve (.put 0 [65])).run zeros d).any fun r =>
        decide (getReply r.2.2 1 0 zeros = some (.bytes .ok [65])))
    (by decide +kernel) (by decide +kernel)
  rw [Bool.and_eq_true, decide_eq_true_eq, Option.any_eq_true] at hp
  obtain ⟨⟨h0, h1, hroomy, hbefore⟩, ⟨r, j', e⟩, hrun, hafter⟩ := hp
  have hget := (h d hd (.put 0 [65]) 0 1 Nat.zero_ne_one h0 h1 rfl (RoomyStep.of_tail hroomy) _ r
    j' e hrun).2 1 rfl 0 zeros
  rw [hbefore, of_decide_eq_true hafter] at hget
  exact absurd hget (by decide)

end InodeFs
