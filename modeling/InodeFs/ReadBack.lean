import InodeFs.Runs

/-!
# Reading back what was written

`write_file` followed by `read_file` returns the bytes written, when the write lays the file out as
the reader expects it.
-/

namespace InodeFs

open InodeLayer FsServer Prog Disk

/-- `write_file` of `b`, then `read_file`. -/
def writeThenRead (inum : UInt32) (b : List UInt8) (now : UInt32) : FsM (Option ReadResult) := do
  writeFile inum (cStr b) b.length
  readFile inum true true now

/-- Whatever the clock reads and uninitialised memory holds, `read_file` returns `b` and its size. -/
def ReadsBack (d : Disk) (inum : UInt32) (b : List UInt8) : Prop :=
  ∀ now j, ∃ r j' e, (writeThenRead inum b now).run j d = some (some r, j', e) ∧
    r.size = b.length ∧ (List.range b.length).map r.buf = b

theorem map_cStr (b : List UInt8) : (List.range b.length).map (cStr b) = b := by
  apply List.ext_getElem
  · rw [List.length_map, List.length_range]
  · intro k hk hk'
    rw [List.getElem_map, List.getElem_range, cStr, List.getD_eq_getElem _ _ hk']

theorem wp_writeThenRead {d : Disk} {inum : UInt32} {b : List UInt8} (now : UInt32)
    (hin : d.InUse inum.toNat) (hok : WriteOk d (d.inode inum.toNat) b.length) :
    wp (writeThenRead inum b now) (fun r _ => ∃ r', r = some r' ∧ r'.size = b.length ∧
      (List.range b.length).map r'.buf = b) d := by
  set i := inum.toNat with hi
  rw [writeThenRead, wp_bind]
  refine wp_writeFile hin hok fun e he => ?_
  rw [← hi] at he ⊢
  set f := e.setInode i (d.written (d.inode i) b.length) with hf
  have hsize : f.size i = b.length := hok.size hin.1 e
  have hregion : ∀ p < pointers (f.size i), 123 ≤ f.ptr i p ∧ f.ptr i p < 32768 := by
    intro p hp
    rw [hsize] at hp
    rw [he.ptr hok hin.1 hp]
    exact hok.newPtr_region hp
  refine wp_readFile ((he.inUse_iff hin).mpr hin) (hsize ▸ hok.sizeOk.le) hregion
    fun r hr hbytes => ⟨r, rfl, hsize ▸ hr, ?_⟩
  have hmap : (List.range b.length).map r.buf = (List.range b.length).map (cStr b) := by
    refine List.map_congr_left fun k hk => ?_
    have hk' := List.mem_range.mp hk
    rw [hbytes k (by rw [← hi, hsize]; exact hk')]
    exact he.fileByte hok hin.1 hk'
  rw [hmap, map_cStr]

/-- After a safe run, a put that is laid out as the reader expects is read back. -/
theorem readsBack_of_safe {d : Disk} {inum : UInt32} {b : List UInt8} (hd : SafelyReachable d)
    (hin : d.InUse inum.toNat) (hfree : 137 ≤ (freeIn d.used).card)
    (hput : PutLaysOut d inum.toNat b.length) : ReadsBack d inum b := by
  intro now j
  have hptr : pointers b.length ≤ 137 := pointers_le hput.sizeOk.chunks_le
  have hok := hput.writeOk hd.sound hin (fits_of_free (by omega))
  obtain ⟨r, j', e, hrun, r', rfl, hsize, hbytes⟩ := wp_run (wp_writeThenRead now hin hok) j
  exact ⟨r', j', e, hrun, hsize, hbytes⟩

theorem readsBack_of_safe_root : ReadsBack (madeAt 0) 0 (List.replicate 5000 1) := by
  have hfresh := fresh_madeAt 0
  have hsize : (madeAt 0).size (0 : UInt32).toNat = 0 := hfresh.size_zero
  refine readsBack_of_safe hfresh.safelyReachable (hfresh.inUse_iff.mpr rfl)
    (by rw [hfresh.card_free]; omega) ⟨?_, ?_, ?_⟩
  · rw [List.length_replicate]
    exact ⟨by decide, by omega⟩
  · rw [hsize]
    exact fun h => absurd h (by omega)
  · rw [hsize]
    exact fun _ h => absurd h (Nat.not_lt_zero _)

/-- The last four bytes of a put of 4100 bytes are not read back: their chunk is in the block that the
reader takes for the indirect block, and they say 9 there, which is the first block of the table.  The
bytes that the put leaves uninitialised come after them and play no part. -/
theorem not_readsBack_of_reachable :
    ¬ ∀ d, Reachable d → ∀ (inum : UInt32) (b : List UInt8), d.InUse inum.toNat →
      b.length ≤ blockSize * maxFile → 137 ≤ (freeIn d.used).card → ReadsBack d inum b := by
  intro h
  have hfresh := fresh_madeAt 0
  have hlen : (List.replicate 4096 (0 : UInt8) ++ [9, 0, 0, 0]).length = 4100 := by
    rw [List.length_append, List.length_replicate]
    rfl
  obtain ⟨r, j', e, hrun, -, hbytes⟩ := h (madeAt 0) hfresh.reachable 0
    (List.replicate 4096 0 ++ [9, 0, 0, 0]) (hfresh.inUse_iff.mpr rfl) (by rw [hlen]; decide)
    (by rw [hfresh.card_free]; omega) 0 fun _ _ => 0
  -- evaluated: the first byte of the root's record, which is of type 1
  have heval : ((writeThenRead 0 (List.replicate 4096 0 ++ [9, 0, 0, 0]) 0).run (fun _ _ => 0)
      (madeAt 0)).bind (fun r => r.1.map fun r => r.buf 4096) = some 1 := by decide +kernel
  rw [hrun, Option.bind_some, Option.map_some, Option.some.injEq] at heval
  have hlast := congrArg (fun l => l.getD 4096 0) hbytes
  have hput : (List.replicate 4096 (0 : UInt8) ++ [9, 0, 0, 0]).getD 4096 0 = 9 := by
    rw [List.getD_append_right _ _ _ _ (by rw [List.length_replicate]), List.length_replicate]
    rfl
  rw [hlen] at hlast
  simp only [hput, List.getD_eq_getElem?_getD, List.getElem?_map, List.getElem?_range, Nat.reduceLT,
    Option.map_some, Option.getD_some] at hlast
  rw [heval] at hlast
  exact absurd hlast (by decide)

end InodeFs
