import InodeFs.Isolation
import InodeFs.Plain

/-!
# A put that cannot be stored

`write_file` refuses a missing inode and a size out of range before it touches anything.  It does not
look at the answers of `alloc_block`: out of space, it stores the new size all the same.
-/

namespace InodeFs

open BlockLayer InodeLayer FsServer Prog Lowest Disk

/-- The bitmap, the inode table and every block that a file of `d` holds are in `e` as in `d`. -/
structure Unchanged (d e : Disk) : Prop where
  bitmap : ∀ r, 1 ≤ r → r ≤ 8 → e.row r = d.row r
  table : ∀ r, 9 ≤ r → r ≤ 122 → e.row r = d.row r
  held : ∀ i, d.InUse i → ∀ id ∈ heldBlocks d i, e.row id = d.row id

theorem Unchanged.refl (d : Disk) : Unchanged d d :=
  ⟨fun _ _ _ => rfl, fun _ _ _ => rfl, fun _ _ _ _ => rfl⟩

/-- A put of `len` bytes to inode `i` cannot be carried out: there is no such inode, the length is
over the limit, or the free blocks and those of the file are too few.  A slot that holds the `-1` of an
earlier put counts as a block of the file, so a put to such a file may run out of space and not be
among these. -/
def CannotStore (d : Disk) (i len : Nat) : Prop :=
  ¬ d.InUse i ∨ blockSize * maxFile < len ∨
    (freeIn d.used).card + pointers (d.size i) < pointers len

/-- The put leaves the disk unchanged. -/
def PutUnchanged (d : Disk) (id : UInt64) (buf : List UInt8) : Prop :=
  ∀ j r j' e, (serve (.put id buf)).run j d = some (r, j', e) → Unchanged d e

/-- The checks of `write_file` fail. -/
def Refused (d : Disk) (id : UInt64) (buf : List UInt8) : Prop :=
  ¬ d.InUse (inumOf id) ∨ ¬ Accepted buf

-- A refused put does nothing.
theorem Refused.unchanged {d : Disk} {id : UInt64} {buf : List UInt8} (h : Refused d id buf) :
    PutUnchanged d id buf := by
  intro j r j' e hrun
  obtain ⟨-, rfl⟩ := wp_of_run (wp_put_refused h.symm) hrun
  exact Unchanged.refl _

-- A put that passes the checks stores the new size, space or no space.
theorem wp_put_size {d : Disk} {id : UInt64} {buf : List UInt8} (hin : d.InUse (inumOf id))
    (hacc : Accepted buf) :
    wp (serve (.put id buf)) (fun _ e => e.size (inumOf id) = putSize buf) d := by
  simp only [serve, FsServer.put, wp_bind, pure_eq, wp_ret]
  rw [wp_writeFile_accepted hin hacc]
  refine wp_mono (wp_writeBlocks_size _ _ _ d) fun ino e hino => ?_
  have hi : (maskId id).toNat < 1024 := hin.1
  rw [Disk.size, inumOf, inode_setInode_self _ _ hi, hino]
  exact UInt32.toNat_ofNat_of_lt' (hacc.putSize_le.trans_lt (by decide))

-- A put that passes the checks and changes the size changes the table.
theorem not_putUnchanged {d : Disk} {id : UInt64} {buf : List UInt8} (hin : d.InUse (inumOf id))
    (hacc : Accepted buf) (hsize : d.size (inumOf id) ≠ putSize buf) : ¬ PutUnchanged d id buf := by
  intro h
  obtain ⟨r, j', e, hrun, hnew⟩ := wp_run (wp_put_size hin hacc) fun _ _ => 0
  have hb := tableBlock_bounds hin.1
  have hrow := (h _ r j' e hrun).table _ hb.1 hb.2
  apply hsize
  rw [← hnew, Disk.size, Disk.size, inode_congr hrow]

/-- A refused put leaves the disk unchanged.  A put that cannot be stored does so only if it is
refused, or if its length is 2^32 or more and is cut down to the size the file has. -/
theorem putUnchanged_iff_refused (d : Disk) (id : UInt64) (buf : List UInt8) :
    (Refused d id buf → PutUnchanged d id buf) ∧
    (CannotStore d (inumOf id) buf.length → PutUnchanged d id buf →
      Refused d id buf ∨ 4294967296 ≤ buf.length ∧ d.size (inumOf id) = putSize buf) := by
  refine ⟨Refused.unchanged, fun hcannot hsame => ?_⟩
  by_contra hno
  rw [not_or, Refused, not_or, not_not, not_not] at hno
  obtain ⟨⟨hin, hacc⟩, hbig⟩ := hno
  have hsize : d.size (inumOf id) = putSize buf := by
    by_contra hne
    exact not_putUnchanged hin hacc hne hsame
  have hlen : buf.length < 4294967296 := by
    by_contra hge
    exact hbig ⟨by omega, hsize⟩
  have hput := putSize_of_accepted hacc hlen
  rcases hcannot with h | h | h
  · exact h hin
  · have hle := hacc.putSize_le
    simp only [blockSize, maxFile, nDirect, nIndirect] at h
    omega
  · rw [hsize, hput] at h
    omega

theorem putUnchanged_iff_refused_missing : PutUnchanged (madeAt 0) 5 [1] := by
  refine (putUnchanged_iff_refused (madeAt 0) 5 [1]).1 (.inl fun hin => ?_)
  exact absurd ((fresh_madeAt 0).inUse_iff.mp hin) (by decide)

/-! ## A full disk -/

-- A put to a file that was never written takes as many blocks as the new file has.
theorem card_free_put_new {d e : Disk} {i s : Nat} {buf : Mem} {type : UInt32}
    {time : Nat → UInt32} (hrec : d.inode i = newInode type time)
    (hput : PutSafe d i s) (hs : 8 < chunks s) (he : Stored d (d.inode i) buf s e) :
    (freeIn e.used).card = (freeIn d.used).card - pointers s := by
  have hzero : ∀ k, (d.inode i).block k = 0 := fun k => by
    rw [hrec, Inode.block]
    split <;> rfl
  have hold : chunks (d.inode i).size.toNat = 0 := by
    rw [hrec]
    exact (by decide : chunks 0 = 0)
  have halloc : allocsBefore (d.inode i) (pointers s) = pointers s :=
    allocsBefore_of_le (.inr (by omega))
  have hfits := hput.fits
  rw [halloc] at hfits
  -- no slot names a data block, so nothing is freed
  have havail : d.available (d.inode i) = freeIn d.used := by
    ext id
    rw [mem_available, mem_freeIn, mem_released]
    refine and_congr_right fun hreg => not_congr ⟨And.left, fun h => ⟨h, fun k _ => ?_⟩⟩
    rw [hzero]
    exact fun h0 => absurd (h0 ▸ hreg.1) (by decide)
  have hused : e.used = d.taken (d.inode i) (pointers s) := by
    ext id
    rw [he.used, halloc]
    refine and_iff_left ?_
    rintro (⟨hle, -⟩ | ⟨-, p, hp, hp', -⟩)
    · omega
    · omega
  rw [hused, freeIn_taken, card_remaining hfits, havail]

-- After `n` files of the greatest size, `32645 - 137 * n` blocks are free.
theorem exists_nearlyFull (n : Nat) (hn : n ≤ 238) : ∃ d, SafelyReachable d ∧
    (∀ i, d.InUse i ↔ i ≤ n) ∧ d.size 0 = 0 ∧ (freeIn d.used).card = 32645 - 137 * n := by
  induction n with
  | zero =>
    have hfresh := fresh_madeAt 0
    refine ⟨madeAt 0, hfresh.safelyReachable, fun i => ?_, hfresh.size_zero, hfresh.card_free⟩
    rw [hfresh.inUse_iff, Nat.le_zero]
  | succ n ih =>
    obtain ⟨d, hd, hin, hzero, hfree⟩ := ih (by omega)
    have hcreate := hd.create (show n + 1 < 1024 by omega) (by rw [hin]; omega)
      (fun j hj => (hin j).mpr (by omega)) 1 fun _ => 0
    set c := d.setInode (n + 1) (newInode 1 fun _ => 0) with hc
    have hrec : c.inode (n + 1) = newInode 1 fun _ => 0 := inode_setInode_self _ _ (by omega)
    have hcin : ∀ i, c.InUse i ↔ i ≤ n + 1 :=
      inUse_setInode_next hin (by omega) (show (1 : UInt32).toUInt16.toInt16 ≠ 0 by decide)
    have hlen : (List.replicate 69632 (1 : UInt8)).length = 69632 := List.length_replicate
    have hnum := inumOf_ofNat (show n + 1 < 1024 by omega)
    have hput : PutSafe c (n + 1) 69632 := by
      refine putSafe_of_new hcreate.sound hrec ⟨by decide, by omega⟩ ?_
      rw [used_setInode, hfree, show pointers 69632 = 137 by decide]
      omega
    have hsize := putSize_eq_length hlen.le
    obtain ⟨r, e, hserved, he⟩ := ReachableBy.serve (fun _ _ hq => hq) hcreate
      (q := .put (UInt64.ofNat (n + 1)) (List.replicate 69632 1)) fun _ _ => by
        rw [hnum, hsize, hlen]
        exact hput
    cases hserved with
    | put hacc hcin' hst =>
      rw [hnum, hsize, hlen] at hst he
      rw [hnum] at hcin'
      refine ⟨_, he, fun i => ?_, ?_, ?_⟩
      · rw [hst.inUse_iff hcin', hcin]
      · rw [Disk.size, hst.inode_ne (by omega) (by omega), hc, inode_setInode_ne _ _ (by omega)]
        exact hzero
      · rw [used_setInode, card_free_put_new hrec hput (by decide) hst,
          used_setInode, hfree, show pointers 69632 = 137 by decide]
        omega
    | putRefused hno =>
      rcases hno with hno | hno
      · exact absurd (accepted_of_le hlen.le) hno
      · exact absurd (hnum.symm ▸ (hcin (n + 1)).mpr le_rfl) hno

/-- With 39 blocks free, a put of 69632 bytes to the root is not refused. -/
theorem not_putUnchanged_of_cannotStore :
    ¬ ∀ d, Reachable d → ∀ id : UInt64, id < 1024 → ∀ buf,
      CannotStore d (inumOf id) buf.length → PutUnchanged d id buf := by
  intro h
  obtain ⟨d, hd, hin, hzero, hfree⟩ := exists_nearlyFull 238 le_rfl
  have hlen : (List.replicate 69632 (1 : UInt8)).length = 69632 := List.length_replicate
  have hroot : inumOf 0 = 0 := rfl
  refine not_putUnchanged ?_ (accepted_of_le hlen.le) ?_
    (h d hd.reachable 0 (by decide) _ (.inr (.inr ?_)))
  · rw [hroot, hin]
    omega
  · rw [hroot, hzero, putSize_eq_length hlen.le, hlen]
    omega
  · rw [hroot, hzero, hfree, hlen, show pointers 69632 = 137 by decide,
      show pointers 0 = 0 by decide]
    omega

end InodeFs
