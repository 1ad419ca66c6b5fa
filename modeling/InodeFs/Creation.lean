import InodeFs.Isolation

/-!
# Creating inodes

`alloc_inode` takes the least free inode.  When there is none, its scan leaves `where_to_alloc` at 0
and the root directory is overwritten.
-/

namespace InodeFs

open BlockLayer InodeLayer FsServer Prog Disk

/-- The reply to a `getattr`. -/
def attrReply (d : Disk) (id : UInt64) (j : Junk) : Option Reply :=
  ((serve (.getattr id)).run j d).map fun r => r.1

/-- From `d` to `e`, a free inode has become the file of type `type` that `id` names, an empty one,
and nothing else has changed. -/
structure Created (d e : Disk) (type : UInt32) (id : UInt64) : Prop where
  lt : inumOf id < inodeNum
  free : ¬ d.InUse (inumOf id)
  attr : ∀ j, ∃ a, attrReply e id j = some (.attr .ok a) ∧ a.type = type ∧ a.size = 0
  empty : ∀ now j, getReply e id now j = some (.bytes .ok [])
  inode : ∀ i < inodeNum, i ≠ inumOf id → e.inode i = d.inode i
  bitmap : ∀ r, 1 ≤ r → r ≤ 8 → e.row r = d.row r
  data : ∀ r, 123 ≤ r → r < blockNum → e.row r = d.row r

/-- A create reports a status other than `ok` and changes nothing, or takes a free inode. -/
def CreateOk (d : Disk) (type : UInt32) (time : Nat → UInt32) : Prop :=
  ∀ j r j' e, (serve (.create type time)).run j d = some (r, j', e) →
    ∃ status id, r = .created status id ∧
      (status ≠ .ok ∧ e = d ∨ status = .ok ∧ Created d e type id)

/-- A type comes back from a `short` as it was. -/
def FitsShort (type : UInt32) : Prop := type.toUInt16.toInt16.toInt32.toUInt32 = type

-- The types up to 32767 do.
theorem fitsShort_of_le {type : UInt32} (h : type.toNat ≤ 32767) : FitsShort type := by
  have hnat : type.toBitVec.toNat ≤ 32767 := h
  apply UInt32.toBitVec_inj.mp
  change (type.toBitVec.setWidth 16).signExtend 32 = type.toBitVec
  apply BitVec.eq_of_toNat_eq
  rw [BitVec.signExtend_eq_setWidth_of_msb_false]
  · simp only [BitVec.toNat_setWidth]
    omega
  · rw [BitVec.msb_eq_decide, BitVec.toNat_setWidth, decide_eq_false_iff_not]
    omega

section
variable {d : Disk} {type : UInt32} {time : Nat → UInt32} {i : Nat}

theorem inUse_newInode (hlo : 1 ≤ type.toNat) (hhi : type.toNat ≤ 32767) (hi : i < 1024) :
    (d.setInode i (newInode type time)).InUse i := by
  refine ⟨hi, ?_⟩
  rw [inode_setInode_self _ _ hi]
  intro h0
  have hback := fitsShort_of_le hhi
  rw [FitsShort, show type.toUInt16.toInt16 = 0 from h0] at hback
  rw [← hback] at hlo
  exact absurd hlo (by decide)

-- An inode just made is an empty file of its type.
theorem created_setInode (hlo : 1 ≤ type.toNat) (hhi : type.toNat ≤ 32767) (hi : i < 1024)
    (hfree : ¬ d.InUse i) :
    Created d (d.setInode i (newInode type time)) type (UInt32.ofNat i).toUInt64 := by
  set e := d.setInode i (newInode type time) with he
  have hid := inumOf_created hi
  have hrec : e.inode i = newInode type time := inode_setInode_self d _ hi
  have hin : e.InUse (inumOf (UInt32.ofNat i).toUInt64) := by
    rw [hid]
    exact inUse_newInode hlo hhi hi
  have hsize : e.size (inumOf (UInt32.ofNat i).toUInt64) = 0 := by rw [hid, Disk.size, hrec]; rfl
  constructor
  · rw [hid]
    exact hi
  · rw [hid]
    exact hfree
  · intro j
    obtain ⟨r, j', f, hrun, hserved⟩ := wp_run (wp_getattr (d := e) (UInt32.ofNat i).toUInt64) j
    cases hserved with
    | getattr _ =>
      refine ⟨_, by rw [attrReply, hrun, Option.map_some], ?_, ?_⟩
      · rw [hid, Disk.attr, hrec]
        exact fitsShort_of_le hhi
      · rw [hid, Disk.attr, hrec]
        rfl
    | getattrAbsent h => exact absurd hin h
  · intro now j
    have hwp := wp_get (d := e) (UInt32.ofNat i).toUInt64 now fun _ => by
      rw [hsize]
      exact ⟨by omega, fun p hp => absurd hp (Nat.not_lt_zero p)⟩
    obtain ⟨r, j', f, hrun, hserved⟩ := wp_run hwp j
    cases hserved with
    | get _ =>
      rw [getReply, hrun, Option.map_some, Disk.contents, hsize]
      rfl
    | getAbsent h => exact absurd hin h
  · intro k _ hk
    rw [hid] at hk
    exact inode_setInode_ne d _ hk
  · intro r _ hr
    exact row_setInode d _ (by have := tableBlock_bounds hi; omega)
  · intro r hr _
    exact row_setInode_data d _ hi hr

-- On a full table the root, or what took its place, is overwritten.
theorem not_createOk_of_full (hfull : ∀ i < 1024, d.InUse i) : ¬ CreateOk d type time := by
  intro h
  obtain ⟨r, j', e, hrun, hserved⟩ := wp_run (wp_create (d := d) type time) fun _ _ => 0
  obtain ⟨status, id, hr, hok⟩ := h _ r j' e hrun
  cases hserved with
  | created hi hfree _ => exact hfree (hfull _ hi)
  | createdFull _ =>
    simp only [Reply.created.injEq] at hr
    obtain ⟨rfl, rfl⟩ := hr
    rcases hok with ⟨hne, -⟩ | ⟨-, hmade⟩
    · exact hne rfl
    · exact hmade.free (hfull _ hmade.lt)

/-- A create does what it should if and only if some inode is free. -/
theorem createOk_iff_free (hlo : 1 ≤ type.toNat) (hhi : type.toNat ≤ 32767) :
    CreateOk d type time ↔ ∃ i < inodeNum, ¬ d.InUse i := by
  constructor
  · intro h
    by_contra hno
    refine not_createOk_of_full (fun i hi => ?_) h
    by_contra hfree
    exact hno ⟨i, hi, hfree⟩
  · rintro ⟨k, hk, hkfree⟩ j r j' e hrun
    have hserved := wp_of_run (wp_create type time) hrun
    cases hserved with
    | created hi hfree _ =>
      exact ⟨.ok, _, rfl, .inr ⟨rfl, created_setInode hlo hhi hi hfree⟩⟩
    | createdFull hfull => exact absurd (hfull k hk) hkfree

end

/-- Inode 1 of a new file system is free. -/
theorem createOk_iff_free_fresh : CreateOk (madeAt 0) 2 fun _ => 0 := by
  have hfree : ¬ (madeAt 0).InUse 1 := fun h =>
    absurd ((fresh_madeAt 0).inUse_iff.mp h) Nat.one_ne_zero
  exact (createOk_iff_free (by decide) (by decide)).mpr ⟨1, by decide, hfree⟩

-- After `n` creates the inodes from 0 to `n` are in use.
theorem exists_created (n : Nat) (hn : n ≤ 1023) :
    ∃ d, SafelyReachable d ∧ ∀ i, d.InUse i ↔ i ≤ n := by
  induction n with
  | zero =>
    have hfresh := fresh_madeAt 0
    refine ⟨madeAt 0, hfresh.safelyReachable, fun i => ?_⟩
    rw [hfresh.inUse_iff, Nat.le_zero]
  | succ n ih =>
    obtain ⟨d, hd, hin⟩ := ih (by omega)
    refine ⟨_, hd.create (show n + 1 < 1024 by omega) (by rw [hin]; omega)
      (fun j hj => (hin j).mpr (by omega)) 1 fun _ => 0, ?_⟩
    exact inUse_setInode_next hin (by omega) (show (1 : UInt32).toUInt16.toInt16 ≠ 0 by decide)

/-- The create after 1023 others overwrites the root. -/
theorem not_createOk_of_reachable :
    ¬ ∀ d, Reachable d → ∀ (type : UInt32) (time : Nat → UInt32), 1 ≤ type.toNat →
      type.toNat ≤ 32767 → CreateOk d type time := by
  intro h
  obtain ⟨d, hd, hin⟩ := exists_created 1023 le_rfl
  exact not_createOk_of_full (fun i hi => (hin i).mpr (by omega))
    (h d hd.reachable 1 (fun _ => 0) (by decide) (by decide))

end InodeFs
