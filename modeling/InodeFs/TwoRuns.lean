import InodeFs.Isolation

/-!
# Two runs side by side

Two safe runs of the same requests, with other bytes in the puts and in uninitialised memory, keep
the same bitmap, the same inode table and the same pointers; with the same bytes in the puts, they
give the same replies.
-/

namespace InodeFs

open BlockLayer InodeLayer FsServer Prog Disk

/-! ## The relation between the disks -/

/-- The two disks have the same bitmap, inode table and pointers. -/
structure SameMeta (d e : Disk) : Prop where
  used : d.used = e.used
  table : ∀ r, 9 ≤ r → r ≤ 122 → d.row r = e.row r
  ptr : ∀ i, d.InUse i → ∀ p < pointers (d.size i), d.ptr i p = e.ptr i p

namespace SameMeta

variable {d e : Disk} {i : Nat}

theorem refl (d : Disk) : SameMeta d d := ⟨rfl, fun _ _ _ => rfl, fun _ _ _ _ => rfl⟩

theorem inode (h : SameMeta d e) (hi : i < 1024) : d.inode i = e.inode i := by
  have hb := tableBlock_bounds hi
  exact inode_congr (h.table _ hb.1 hb.2)

theorem inUse (h : SameMeta d e) : d.InUse i ↔ e.InUse i :=
  and_congr_right fun hi => by rw [h.inode hi]

theorem size (h : SameMeta d e) (hi : i < 1024) : d.size i = e.size i := by
  rw [Disk.size, Disk.size, h.inode hi]

theorem newPtr (h : SameMeta d e) (hin : d.InUse i) (p : Nat) :
    d.newPtr (d.inode i) p = e.newPtr (d.inode i) p := by
  have hrel : d.released (d.inode i) = e.released (d.inode i) := by
    rw [Disk.released, Disk.released, h.used]
  by_cases hk : Kept (d.inode i) p
  · rw [newPtr_of_kept hk, newPtr_of_kept hk]
    have hptr := h.ptr i hin p hk.lt
    rwa [Disk.ptr, Disk.ptr, ← h.inode hin.1] at hptr
  · rw [newPtr_of_not_kept hk, newPtr_of_not_kept hk, fresh, fresh, available, available, hrel]

theorem written (h : SameMeta d e) (hin : d.InUse i) (s : Nat) :
    d.written (d.inode i) s = e.written (d.inode i) s := by
  simp only [Disk.written, Disk.inoAt, h.newPtr hin]

theorem taken (h : SameMeta d e) (ino : Inode) (k : Nat) : d.taken ino k = e.taken ino k := by
  have hfresh : d.fresh ino = e.fresh ino := by
    funext j
    simp only [fresh, available, released, h.used]
  rw [Disk.taken, Disk.taken, Disk.released, Disk.released, h.used, hfresh]

theorem dropped (h : SameMeta d e) (hin : d.InUse i) (s id : Nat) :
    d.Dropped (d.inode i) s id ↔ e.Dropped (d.inode i) s id := by
  refine or_congr Iff.rfl (and_congr_right fun hn => exists_congr fun p => ?_)
  refine and_congr_right fun hp => and_congr_right fun hp' => ?_
  have hlt : p < pointers (d.size i) := by
    have h8 : 8 < chunks (d.size i) := by change 8 < chunks (d.inode i).size.toNat; omega
    rw [pointers_eq_of_lt h8]
    exact Nat.lt_succ_of_le hp'
  have hptr := h.ptr i hin p hlt
  rw [Disk.ptr, Disk.ptr, ← h.inode hin.1] at hptr
  rw [hptr]

theorem removeFrees (h : SameMeta d e) (hin : d.InUse i) (id : Nat) :
    d.RemoveFrees i id ↔ e.RemoveFrees i id := by
  rw [RemoveFrees, RemoveFrees, ← h.inode hin.1, ← h.size hin.1]
  refine or_congr Iff.rfl (exists_congr fun p => and_congr_right fun _ => and_congr_right fun hp => ?_)
  rw [h.ptr i hin p hp]

-- The same record in the same place of the same table.
theorem row_setInode (h : SameMeta d e) {d' e' : Disk} (hd : ∀ r, 9 ≤ r → r ≤ 122 → d'.row r = d.row r)
    (he : ∀ r, 9 ≤ r → r ≤ 122 → e'.row r = e.row r) (ino : Inode) {r : Nat} (hr : 9 ≤ r)
    (hr' : r ≤ 122) : (d'.setInode i ino).row r = (e'.setInode i ino).row r := by
  rw [setInode, setInode, row_setRow, row_setRow]
  by_cases hb : r = tableBlock i
  · subst hb
    rw [hd _ hr hr', he _ hr hr', h.table _ hr hr']
  · rw [if_neg fun hc => hb hc.1, if_neg fun hc => hb hc.1, hd r hr hr', he r hr hr', h.table r hr hr']

-- The pointers of the files that a step leaves intact are still the same.
theorem ptr_of_intact (h : SameMeta d e) {d' e' : Disk} (hin : d.InUse i) (hd : d.Intact d' i)
    (he : e.Intact e' i) {p : Nat} (hp : p < pointers (d'.size i)) : d'.ptr i p = e'.ptr i p := by
  rw [hd.size] at hp
  rw [hd.ptr hp, he.ptr (h.size hin.1 ▸ hp), h.ptr i hin p hp]

theorem put (h : SameMeta d e) (hd : Sound d) (he : Sound e) (hin : d.InUse i) {s : Nat}
    {buf buf' : Mem} {d' e' : Disk} (hput : PutSafe d i s) (hput' : PutSafe e i s)
    (hd' : Stored d (d.inode i) buf s d') (he' : Stored e (e.inode i) buf' s e') :
    SameMeta (d'.setInode i (d.written (d.inode i) s)) (e'.setInode i (e.written (e.inode i) s)) := by
  have hine := h.inUse.mp hin
  have hok := hput.writeOk hd hin
  have hok' := hput'.writeOk he hine
  have hrec := h.inode hin.1
  have hwritten : e.written (e.inode i) s = d.written (d.inode i) s := by
    rw [← hrec, h.written hin]
  constructor
  · rw [used_setInode, used_setInode]
    ext id
    rw [hd'.used, he'.used, ← hrec, h.taken, h.dropped hin]
  · rw [hwritten]
    exact fun r hr hr' => h.row_setInode hd'.table he'.table _ hr hr'
  · intro j hj p hp
    by_cases hji : j = i
    · subst hji
      rw [hok.size hin.1] at hp
      rw [hd'.ptr hok hin.1 hp, he'.ptr hok' hin.1 hp, ← hrec, h.newPtr hin]
    · have hjd := (hd'.inUse_iff hin).mp hj
      exact h.ptr_of_intact hjd (hput.intact hd hin hd' hji hjd)
        (hput'.intact he hine he' hji (h.inUse.mp hjd)) hp

theorem remove (h : SameMeta d e) (hd : Sound d) (he : Sound e) (hin : d.InUse i) {d' e' : Disk}
    (hd' : d.Freed (d.RemoveFrees i) d') (he' : e.Freed (e.RemoveFrees i) e') :
    SameMeta (d'.setInode i (d.inode i).setTypeFree) (e'.setInode i (e.inode i).setTypeFree) := by
  have hine := h.inUse.mp hin
  constructor
  · rw [used_setInode, used_setInode]
    ext id
    rw [hd'.used, he'.used, h.removeFrees hin, h.used]
  · rw [← h.inode hin.1]
    exact fun r hr hr' => h.row_setInode (fun r hr _ => hd'.rows r hr) (fun r hr _ => he'.rows r hr)
      _ hr hr'
  · intro j hj p hp
    have hji : j ≠ i := fun heq => not_inUse_setTypeFree hin.1 _ (heq ▸ hj)
    have hjd : d.InUse j := by
      rw [InUse, inode_setInode_ne _ _ hji, hd'.inode hj.1] at hj
      exact hj
    exact h.ptr_of_intact hjd (hd.intact_of_freed hin hd' hji hjd)
      (he.intact_of_freed hine he' hji (h.inUse.mp hjd)) hp

theorem create (h : SameMeta d e) (hd : Sound d) (he : Sound e) (hi : i < 1024) (type : UInt32)
    (time : Nat → UInt32) :
    SameMeta (d.setInode i (newInode type time)) (e.setInode i (newInode type time)) := by
  constructor
  · rw [used_setInode, used_setInode, h.used]
  · exact fun r hr hr' => h.row_setInode (fun _ _ _ => rfl) (fun _ _ _ => rfl) _ hr hr'
  · intro j hj p hp
    by_cases hji : j = i
    · subst hji
      have hzero : (newInode type time).size.toNat = 0 := rfl
      rw [Disk.size, inode_setInode_self _ _ hi, hzero] at hp
      exact absurd hp (Nat.not_lt_zero p)
    · have hjd := (inUse_setInode_ne _ _ hji).mp hj
      exact h.ptr_of_intact hjd (intact_setInode hd hi _ hji hjd)
        (intact_setInode he hi _ hji (h.inUse.mp hjd)) hp

theorem read (h : SameMeta d e) (hd : Sound d) (he : Sound e) (hin : d.InUse i) (now : UInt32) :
    SameMeta (d.setInode i ((d.inode i).setAtime now)) (e.setInode i ((e.inode i).setAtime now)) := by
  have hine := h.inUse.mp hin
  constructor
  · rw [used_setInode, used_setInode, h.used]
  · rw [← h.inode hin.1]
    exact fun r hr hr' => h.row_setInode (fun _ _ _ => rfl) (fun _ _ _ => rfl) _ hr hr'
  · intro j hj p hp
    by_cases hji : j = i
    · subst hji
      rw [size_setAtime hin.1] at hp
      rw [hd.ptr_setAtime hin now hp, he.ptr_setAtime hine now (h.size hin.1 ▸ hp), h.ptr j hin p hp]
    · have hjd := (inUse_setInode_ne _ _ hji).mp hj
      exact h.ptr_of_intact hjd (intact_setInode hd hin.1 _ hji hjd)
        (intact_setInode he hin.1 _ hji (h.inUse.mp hjd)) hp

end SameMeta

/-! ## One request on each side -/

/-- The same request, but for the bytes of a put. -/
inductive Alike : Request → Request → Prop where
  | refl (q : Request) : Alike q q
  | put {id : UInt64} {buf buf' : List UInt8} (h : buf.length = buf'.length) :
      Alike (.put id buf) (.put id buf')

namespace SameMeta

variable {d e : Disk} {i : Nat}

theorem holds (h : SameMeta d e) (id : Nat) : d.Holds i id ↔ e.Holds i id := by
  refine ⟨fun ⟨hin, p, hp, heq⟩ => ?_, fun ⟨hin, p, hp, heq⟩ => ?_⟩
  · refine ⟨h.inUse.mp hin, p, h.size hin.1 ▸ hp, ?_⟩
    rw [← h.ptr i hin p hp, heq]
  · rw [← h.size hin.1] at hp
    refine ⟨h.inUse.mpr hin, p, hp, ?_⟩
    rw [h.ptr i (h.inUse.mpr hin) p hp, heq]

theorem putSafe (h : SameMeta d e) (hi : i < 1024) {s : Nat} (hput : PutSafe d i s) :
    PutSafe e i s := by
  have hsize := h.size hi
  have hrec := h.inode hi
  constructor
  · constructor
    · exact hput.sizeOk
    · rw [← hsize]
      exact hput.grow
    · rw [← hsize]
      exact hput.shrink
  · rw [← hsize, ← hrec]
    exact fun k hk hp h8 j hj hheld => hput.stale k hk hp h8 j hj ((h.holds _).mpr hheld)
  · have hfits := hput.fits
    rwa [hrec, available, released, h.used, ← released, ← available] at hfits

theorem removeSafe (h : SameMeta d e) (hi : i < 1024) (hremove : RemoveSafe d i) :
    RemoveSafe e i := by
  constructor
  · rw [← h.size hi, ← h.inode hi]
    exact fun k hk hp j hj hheld => hremove.stale k hk hp j hj ((h.holds _).mpr hheld)
  · rw [← h.size hi]
    exact hremove.partialChunk

end SameMeta

theorem accepted_congr {buf buf' : List UInt8} (h : buf.length = buf'.length) :
    (Accepted buf ↔ Accepted buf') ∧ putSize buf = putSize buf' := by
  have hint : intSize buf = intSize buf' := by
    unfold intSize
    rw [h]
  rw [Accepted, Accepted, putSize, putSize, hint]
  exact ⟨Iff.rfl, rfl⟩

-- A request that is safe on one disk is safe on the other.
theorem SameMeta.safeStep {d e : Disk} {q q' : Request} (h : SameMeta d e) (halike : Alike q q')
    (hsafe : SafeStep d q) : SafeStep e q' := by
  have hput : ∀ {id buf buf'}, SafeStep d (.put id buf) → buf.length = buf'.length →
      SafeStep e (.put id buf') := by
    intro id buf buf' hsafe hlen hacc hin
    obtain ⟨hacc', hsize⟩ := accepted_congr hlen
    exact hsize ▸ h.putSafe hin.1 (hsafe (hacc'.mpr hacc) (h.inUse.mpr hin))
  cases halike with
  | put hlen => exact hput hsafe hlen
  | refl q =>
    cases q with
    | put id buf => exact hput hsafe rfl
    | remove id => exact fun hin => h.removeSafe hin.1 (hsafe (h.inUse.mpr hin))
    | create _ _ => trivial
    | get _ _ => trivial
    | getattr _ => trivial

-- The step lemma.
theorem SameMeta.served {d e d' e' : Disk} {q q' : Request} {r r' : Reply} (h : SameMeta d e)
    (hd : Sound d) (he : Sound e) (hsafe : SafeStep d q) (hsafe' : SafeStep e q')
    (halike : Alike q q') (hserved : Served d q r d') (hserved' : Served e q' r' e') :
    SameMeta d' e' := by
  have hput : ∀ {id buf buf'}, q = .put id buf → q' = .put id buf' → buf.length = buf'.length →
      SameMeta d' e' := by
    rintro id buf buf' rfl rfl hlen
    obtain ⟨hacc, hsize⟩ := accepted_congr hlen
    cases hserved with
    | put hacc₁ hin hst =>
      cases hserved' with
      | put hacc₂ hin₂ hst₂ =>
        rw [← hsize] at hst₂ ⊢
        exact h.put hd he hin (hsafe hacc₁ hin) (hsize ▸ hsafe' hacc₂ hin₂) hst hst₂
      | putRefused hno =>
        exact (hno.elim (fun h₁ => h₁ (hacc.mp hacc₁)) fun h₁ => h₁ (h.inUse.mp hin)).elim
    | putRefused hno =>
      cases hserved' with
      | put hacc₂ hin₂ _ =>
        exact (hno.elim (fun h₁ => h₁ (hacc.mpr hacc₂)) fun h₁ => h₁ (h.inUse.mpr hin₂)).elim
      | putRefused _ => exact h
  cases halike with
  | put hlen => exact hput rfl rfl hlen
  | refl q =>
    cases hserved with
    | put _ _ _ => exact hput rfl rfl rfl
    | putRefused _ => exact hput rfl rfl rfl
    | created hi hfree hlow =>
      cases hserved' with
      | created hi' hfree' hlow' =>
        have heq := eq_of_least_free hfree hlow (mt h.inUse.mp hfree')
          fun k hk => h.inUse.mpr (hlow' k hk)
        subst heq
        exact h.create hd he hi _ _
      | createdFull hfull => exact absurd (h.inUse.mpr (hfull _ hi)) hfree
    | createdFull hfull =>
      cases hserved' with
      | created hi' hfree' _ => exact absurd (h.inUse.mp (hfull _ hi')) hfree'
      | createdFull _ => exact h.create hd he (by omega) _ _
    | get hin =>
      cases hserved' with
      | get _ => exact h.read hd he hin _
      | getAbsent hno => exact absurd (h.inUse.mp hin) hno
    | getAbsent hno =>
      cases hserved' with
      | get hin => exact absurd (h.inUse.mpr hin) hno
      | getAbsent _ => exact h
    | getattr _ => cases hserved' <;> exact h
    | getattrAbsent _ => cases hserved' <;> exact h
    | removed hin hf =>
      cases hserved' with
      | removed _ hf' => exact h.remove hd he hin hf hf'
      | removeAbsent hno => exact absurd (h.inUse.mp hin) hno
    | removeAbsent hno =>
      cases hserved' with
      | removed hin _ => exact absurd (h.inUse.mpr hin) hno
      | removeAbsent _ => exact h

/-- The two disks have the same files as well. -/
structure SameFiles (d e : Disk) : Prop extends SameMeta d e where
  bytes : ∀ i, d.InUse i → ∀ k < d.size i, d.fileByte i k = e.fileByte i k

namespace SameFiles

variable {d e d' e' : Disk} {i : Nat}

theorem refl (d : Disk) : SameFiles d d := ⟨SameMeta.refl d, fun _ _ _ _ => rfl⟩

theorem contents (h : SameFiles d e) (hin : d.InUse i) : d.contents i = e.contents i := by
  rw [Disk.contents, Disk.contents, ← h.size hin.1]
  exact List.map_congr_left fun k hk => h.bytes i hin k (List.mem_range.mp hk)

theorem attr (h : SameFiles d e) (hi : i < 1024) : d.attr i = e.attr i := by
  rw [Disk.attr, Disk.attr, h.inode hi]

-- The bytes of the files that a step leaves intact are still the same.
theorem bytes_of_intact (h : SameFiles d e) (hin : d.InUse i) (hd : d.Intact d' i)
    (he : e.Intact e' i) {k : Nat} (hk : k < d'.size i) : d'.fileByte i k = e'.fileByte i k := by
  rw [hd.size] at hk
  rw [hd.fileByte hk, he.fileByte (h.size hin.1 ▸ hk), h.bytes i hin k hk]

-- The new file is empty, and the others are intact.
theorem bytes_create (h : SameFiles d e) (hd : Sound d) (he : Sound e) (hi : i < 1024)
    (type : UInt32) (time : Nat → UInt32) {j k : Nat}
    (hj : (d.setInode i (newInode type time)).InUse j)
    (hk : k < (d.setInode i (newInode type time)).size j) :
    (d.setInode i (newInode type time)).fileByte j k =
      (e.setInode i (newInode type time)).fileByte j k := by
  by_cases hji : j = i
  · subst hji
    have hzero : (newInode type time).size.toNat = 0 := rfl
    rw [Disk.size, inode_setInode_self _ _ hi, hzero] at hk
    exact absurd hk (Nat.not_lt_zero k)
  · have hjd := (inUse_setInode_ne _ _ hji).mp hj
    exact h.bytes_of_intact hjd (intact_setInode hd hi _ hji hjd)
      (intact_setInode he hi _ hji (h.inUse.mp hjd)) hk

-- The file written holds what was put.
theorem bytes_put (h : SameFiles d e) (hd : Sound d) (he : Sound e) (hin : d.InUse i) {s : Nat}
    {buf : Mem} (hput : PutSafe d i s) (hput' : PutSafe e i s)
    (hst : Stored d (d.inode i) buf s d') (hst' : Stored e (e.inode i) buf s e') {j k : Nat}
    (hj : (d'.setInode i (d.written (d.inode i) s)).InUse j)
    (hk : k < (d'.setInode i (d.written (d.inode i) s)).size j) :
    (d'.setInode i (d.written (d.inode i) s)).fileByte j k =
      (e'.setInode i (e.written (e.inode i) s)).fileByte j k := by
  have hin' := h.inUse.mp hin
  by_cases hji : j = i
  · subst hji
    have hok := hput.writeOk hd hin
    rw [hok.size hin.1] at hk
    rw [hst.fileByte hok hin.1 hk, hst'.fileByte (hput'.writeOk he hin') hin'.1 hk]
  · have hjd := (hst.inUse_iff hin).mp hj
    exact h.bytes_of_intact hjd (hput.intact hd hin hst hji hjd)
      (hput'.intact he hin' hst' hji (h.inUse.mp hjd)) hk

-- The file read is as it was.
theorem bytes_read (h : SameFiles d e) (hd : Sound d) (he : Sound e) (hin : d.InUse i) (now : UInt32)
    {j k : Nat} (hj : (d.setInode i ((d.inode i).setAtime now)).InUse j)
    (hk : k < (d.setInode i ((d.inode i).setAtime now)).size j) :
    (d.setInode i ((d.inode i).setAtime now)).fileByte j k =
      (e.setInode i ((e.inode i).setAtime now)).fileByte j k := by
  have hin' := h.inUse.mp hin
  by_cases hji : j = i
  · subst hji
    rw [size_setAtime hin.1] at hk
    rw [hd.fileByte_setAtime hin now hk, he.fileByte_setAtime hin' now (h.size hin.1 ▸ hk),
      h.bytes _ hin k hk]
  · have hjd := (inUse_setInode_ne _ _ hji).mp hj
    exact h.bytes_of_intact hjd (intact_setInode hd hin.1 _ hji hjd)
      (intact_setInode he hin.1 _ hji (h.inUse.mp hjd)) hk

-- The file removed is gone.
theorem bytes_remove (h : SameFiles d e) (hd : Sound d) (he : Sound e) (hin : d.InUse i)
    (hf : d.Freed (d.RemoveFrees i) d') (hf' : e.Freed (e.RemoveFrees i) e') {j k : Nat}
    (hj : (d'.setInode i (d.inode i).setTypeFree).InUse j)
    (hk : k < (d'.setInode i (d.inode i).setTypeFree).size j) :
    (d'.setInode i (d.inode i).setTypeFree).fileByte j k =
      (e'.setInode i (e.inode i).setTypeFree).fileByte j k := by
  have hji : j ≠ i := fun heq => not_inUse_setTypeFree hin.1 _ (heq ▸ hj)
  have hjd : d.InUse j := by
    rw [InUse, inode_setInode_ne _ _ hji, hf.inode hj.1] at hj
    exact hj
  exact h.bytes_of_intact hjd (hd.intact_of_freed hin hf hji hjd)
    (he.intact_of_freed (h.inUse.mp hin) hf' hji (h.inUse.mp hjd)) hk

-- The step lemma: the replies are the same too.
theorem served {q : Request} {r r' : Reply} (h : SameFiles d e) (hd : Sound d) (he : Sound e)
    (hsafe : SafeStep d q) (hsafe' : SafeStep e q) (hserved : Served d q r d')
    (hserved' : Served e q r' e') : r = r' ∧ SameFiles d' e' := by
  have hmeta := h.toSameMeta.served hd he hsafe hsafe' (.refl q) hserved hserved'
  cases hserved with
  | created hi hfree hlow =>
    cases hserved' with
    | created hi' hfree' hlow' =>
      have heq := eq_of_least_free hfree hlow (mt h.inUse.mp hfree')
        fun k hk => h.inUse.mpr (hlow' k hk)
      subst heq
      exact ⟨rfl, hmeta, fun j hj k hk => h.bytes_create hd he hi _ _ hj hk⟩
    | createdFull hfull => exact absurd (h.inUse.mpr (hfull _ hi)) hfree
  | createdFull hfull =>
    cases hserved' with
    | created hi' hfree' _ => exact absurd (h.inUse.mp (hfull _ hi')) hfree'
    | createdFull _ =>
      exact ⟨rfl, hmeta, fun j hj k hk => h.bytes_create hd he (by omega) _ _ hj hk⟩
  | put hacc hin hst =>
    cases hserved' with
    | put _ hin' hst' =>
      refine ⟨rfl, hmeta, fun j hj k hk => ?_⟩
      exact h.bytes_put hd he hin (hsafe hacc hin) (hsafe' hacc hin') hst hst' hj hk
    | putRefused hno =>
      exact (hno.elim (fun h₁ => h₁ hacc) fun h₁ => h₁ (h.inUse.mp hin)).elim
  | putRefused hno =>
    cases hserved' with
    | put hacc hin _ => exact (hno.elim (fun h₁ => h₁ hacc) fun h₁ => h₁ (h.inUse.mpr hin)).elim
    | putRefused _ => exact ⟨rfl, h⟩
  | get hin =>
    cases hserved' with
    | get _ =>
      exact ⟨by rw [h.contents hin], hmeta, fun j hj k hk => h.bytes_read hd he hin _ hj hk⟩
    | getAbsent hno => exact absurd (h.inUse.mp hin) hno
  | getAbsent hno =>
    cases hserved' with
    | get hin => exact absurd (h.inUse.mpr hin) hno
    | getAbsent _ => exact ⟨rfl, h⟩
  | getattr hin =>
    cases hserved' with
    | getattr _ => exact ⟨by rw [h.attr hin.1], h⟩
    | getattrAbsent hno => exact absurd (h.inUse.mp hin) hno
  | getattrAbsent hno =>
    cases hserved' with
    | getattr hin => exact absurd (h.inUse.mpr hin) hno
    | getattrAbsent _ => exact ⟨rfl, h⟩
  | removed hin hf =>
    cases hserved' with
    | removed _ hf' =>
      exact ⟨rfl, hmeta, fun j hj k hk => h.bytes_remove hd he hin hf hf' hj hk⟩
    | removeAbsent hno => exact absurd (h.inUse.mp hin) hno
  | removeAbsent hno =>
    cases hserved' with
    | removed hin _ => exact absurd (h.inUse.mpr hin) hno
    | removeAbsent _ => exact ⟨rfl, h⟩

end SameFiles

/-! ## Two runs -/

theorem RunOf.take {ok : Disk → Request → Prop} {qs : List (Request × Junk)} {d : Disk}
    (h : RunOf ok qs d) (n : Nat) : RunOf ok (qs.take n) d := by
  induction qs generalizing d n with
  | nil =>
    rw [List.take_nil]
    trivial
  | cons qj qs ih =>
    cases n with
    | zero => trivial
    | succ n => exact ⟨h.1, fun r j' e hrun => ih (h.2 r j' e hrun) n⟩

/-- The run lemma, for a relation `R` of the disks, `A` of the requests and `P` of the replies. -/
theorem related_runs {R : Disk → Disk → Prop} {A : Request → Request → Prop}
    {P : Reply → Reply → Prop}
    (hsafe : ∀ {d e q q'}, R d e → A q q' → SafeStep d q → SafeStep e q')
    (hstep : ∀ {d e q q' r r' d' e'}, R d e → Sound d → Sound e → A q q' → SafeStep d q →
      Served d q r d' → Served e q' r' e' → P r r' ∧ R d' e')
    {qs qs' : List (Request × Junk)} (hqs : List.Forall₂ (fun a b => A a.1 b.1) qs qs')
    {d e : Disk} (hR : R d e) (hd : Sound d) (he : Sound e) (hrun : SafeRun qs d) :
    ∃ rs d' rs' e', serveAll qs d = some (rs, d') ∧ serveAll qs' e = some (rs', e') ∧
      List.Forall₂ P rs rs' ∧ R d' e' := by
  induction hqs generalizing d e with
  | nil => exact ⟨[], d, [], e, rfl, rfl, .nil, hR⟩
  | @cons qj qj' qs qs' hq hqs ih =>
    obtain ⟨q, j⟩ := qj
    obtain ⟨q', j'⟩ := qj'
    have hq' := hsafe hR hq hrun.1
    obtain ⟨r, _, d₁, hr, hserved⟩ := serve_run hd hrun.1 j
    obtain ⟨r', _, e₁, hr', hserved'⟩ := serve_run he hq' j'
    obtain ⟨hP, hR₁⟩ := hstep hR hd he hq hrun.1 hserved hserved'
    obtain ⟨rs, d', rs', e', hrest, hrest', hrs, hR'⟩ :=
      ih hR₁ (hserved.sound hd hrun.1) (hserved'.sound he hq') (hrun.2 r _ d₁ hr)
    refine ⟨r :: rs, d', r' :: rs', e', ?_, ?_, .cons hP hrs, hR'⟩
    · simp only [serveAll, hr, hrest, Option.bind_eq_bind, Option.bind_some]
      rfl
    · simp only [serveAll, hr', hrest', Option.bind_eq_bind, Option.bind_some]
      rfl

/-- The bitmap and the inode table: blocks 1 to 122. -/
def metadata (d : Disk) : Fin 122 → Block := fun k => d.row (k + 1)

theorem SameMeta.metadata {d e : Disk} (h : SameMeta d e) : metadata d = metadata e := by
  funext k
  by_cases hk : (k : Nat) < 8
  · exact row_eq_of_used_eq h.used (by omega) (by omega)
  · exact h.table _ (by omega) (by omega)

/-! ### Other bytes in the puts -/

/-- The metadata is the same after each request of the two runs. -/
def SameMetadata (d : Disk) (qs qs' : List (Request × Junk)) : Prop :=
  ∀ n, (serveAll (qs.take n) d).map (fun r => metadata r.2) =
    (serveAll (qs'.take n) d).map fun r => metadata r.2

/-- Two runs that differ in the bytes of the puts only. -/
def DifferInBytes : List (Request × Junk) → List (Request × Junk) → Prop :=
  List.Forall₂ fun a b => Alike a.1 b.1 ∧ a.2 = b.2

/-- The contents of files do not steer the metadata of a safe run. -/
theorem sameMetadata_of_safe {d : Disk} {qs qs' : List (Request × Junk)} (hd : Fresh d)
    (hqs : DifferInBytes qs qs') (hrun : SafeRun qs d) : SameMetadata d qs qs' := by
  intro n
  have halike := List.forall₂_take n (hqs.imp fun _ _ h => h.1)
  obtain ⟨rs, e, rs', e', hrs, hrs', -, he⟩ :=
    related_runs (R := SameMeta) (A := Alike) (P := fun _ _ => True)
      (fun h hq hsafe => h.safeStep hq hsafe)
      (fun h hd he hq hsafe hserved hserved' =>
        ⟨trivial, h.served hd he hsafe (h.safeStep hq hsafe) hq hserved hserved'⟩)
      halike (SameMeta.refl d) hd.sound hd.sound (hrun.take n)
  rw [hrs, hrs', Option.map_some, Option.map_some, he.metadata]

theorem sameMetadata_of_safe_put :
    SameMetadata (madeAt 0) [(.put 0 [65], zeros)] [(.put 0 [66], zeros)] :=
  sameMetadata_of_safe (fresh_madeAt 0) (.cons ⟨.put rfl, rfl⟩ .nil)
    ⟨(fresh_madeAt 0).safeStep_put ⟨by decide, by decide⟩, fun _ _ _ _ => trivial⟩

/-- File 1 gets block 123; the last four bytes of file 0 stand where the id of its indirect block
should, so its remove reads ids to free from them. -/
def steeredRun (b : UInt8) : List (Request × Junk) :=
  [(.create 1 fun _ => 0, zeros), (.put 1 [66], zeros),
    (.put 0 (List.replicate 4096 0 ++ [b, 0, 0, 0]), zeros), (.remove 0, zeros)]

/-- The bytes of file 0 choose whether the block of file 1 is freed. -/
theorem not_sameMetadata_of_bytes :
    ¬ ∀ d qs qs', Fresh d → DifferInBytes qs qs' → SameMetadata d qs qs' := by
  intro h
  have hdiffer : DifferInBytes (steeredRun 123) (steeredRun 0) :=
    .cons ⟨.refl _, rfl⟩ (.cons ⟨.refl _, rfl⟩
      (.cons ⟨.put (by simp only [List.length_append, List.length_cons]), rfl⟩
        (.cons ⟨.refl _, rfl⟩ .nil)))
  have hsame := h (madeAt 0) _ _ (fresh_madeAt 0) hdiffer 4
  have hbit := congrArg (Option.map fun m => bitOf ((m 0).byte 15) 3) hsame
  rw [Option.map_map, Option.map_map] at hbit
  exact absurd hbit (by decide +kernel)

/-! ### Other bytes in uninitialised memory -/

/-- The replies to `get` and `getattr`. -/
def observed : List Reply → List Reply :=
  List.filter fun r => match r with
    | .bytes _ _ => true
    | .attr _ _ => true
    | _ => false

/-- The observed replies and the metadata are the same after each request of the two runs. -/
def SameObservations (d : Disk) (qs qs' : List (Request × Junk)) : Prop :=
  ∀ n, (serveAll (qs.take n) d).map (fun r => (observed r.1, metadata r.2)) =
    (serveAll (qs'.take n) d).map fun r => (observed r.1, metadata r.2)

/-- Two runs of the same requests. -/
def DifferInJunk : List (Request × Junk) → List (Request × Junk) → Prop :=
  List.Forall₂ fun a b => a.1 = b.1

/-- What a safe run answers does not depend on uninitialised memory. -/
theorem sameObservations_of_safe {d : Disk} {qs qs' : List (Request × Junk)} (hd : Fresh d)
    (hqs : DifferInJunk qs qs') (hrun : SafeRun qs d) : SameObservations d qs qs' := by
  intro n
  obtain ⟨rs, e, rs', e', hrs, hrs', hr, he⟩ :=
    related_runs (R := SameFiles) (A := Eq) (P := Eq)
      (fun h hq hsafe => h.toSameMeta.safeStep (hq ▸ .refl _) hsafe)
      (fun h hd he hq hsafe hserved hserved' => by
        subst hq
        exact h.served hd he hsafe (h.toSameMeta.safeStep (.refl _) hsafe) hserved hserved')
      (List.forall₂_take n hqs) (SameFiles.refl d) hd.sound hd.sound (hrun.take n)
  rw [List.forall₂_eq_eq_eq] at hr
  rw [hrs, hrs', Option.map_some, Option.map_some, he.metadata, hr]

theorem sameObservations_of_safe_put :
    SameObservations (madeAt 0) [(.put 0 [65], zeros), (.get 0 0, zeros)]
      [(.put 0 [65], fun _ _ => 1), (.get 0 0, fun _ _ => 1)] :=
  sameObservations_of_safe (fresh_madeAt 0) (.cons rfl (.cons rfl .nil))
    ⟨(fresh_madeAt 0).safeStep_put ⟨by decide, by decide⟩, fun _ _ _ _ =>
      ⟨trivial, fun _ _ _ _ => trivial⟩⟩

/-- The id is that of an inode of the table. -/
def Request.IdBelow : Request → Prop
  | .create _ _ => True
  | .put id _ => id.toNat < inodeNum
  | .get id _ => id.toNat < inodeNum
  | .getattr id => id.toNat < inodeNum
  | .remove id => id.toNat < inodeNum

/-- The last byte of the file stands in a block whose other bytes are those of a local buffer, and
`get` takes four bytes of that block for an id. -/
def junkRun (m : UInt8) : List (Request × Junk) :=
  [(.put 0 (List.replicate 4097 1), fun _ _ => m), (.get 0 0, fun _ _ => 2)]

/-- The bytes of a local buffer choose what `get` returns. -/
theorem not_sameObservations_of_roomy :
    ¬ ∀ d qs qs', Fresh d → DifferInJunk qs qs' → (∀ a ∈ qs, a.1.IdBelow) →
      RunOf RoomyStep qs d → RunOf RoomyStep qs' d → SameObservations d qs qs' := by
  intro h
  have hids : ∀ a ∈ junkRun 0, a.1.IdBelow := by
    simp only [junkRun, List.mem_cons, List.not_mem_nil, or_false, forall_eq_or_imp, forall_eq]
    exact ⟨show (0 : UInt64).toNat < 1024 by decide, show (0 : UInt64).toNat < 1024 by decide⟩
  have hsame := h (madeAt 0) (junkRun 0) (junkRun 1) (fresh_madeAt 0)
    (.cons rfl (.cons rfl .nil)) hids (roomyRun_of_tails (by decide +kernel))
    (roomyRun_of_tails (by decide +kernel)) 2
  have hlast := congrArg (Option.map fun r => r.1.map fun
    | .bytes _ buf => buf.getLast?
    | _ => none) hsame
  rw [Option.map_map, Option.map_map] at hlast
  exact absurd hlast (by decide +kernel)

end InodeFs
