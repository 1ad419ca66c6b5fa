import InodeFs.FsServer
import InodeFs.Ownership
import InodeFs.ReadFile

/-!
# Safe runs

`Served` is what serving a request does to a disk whose files are kept apart, and `SafeRun` asks of
every put and remove of a run that it be safe when it is served.  Every disk that a safe run reaches
is `Sound`.
-/

namespace InodeFs

open BlockLayer InodeLayer FsServer Prog Disk

/-- The inode that a 64-bit id selects. -/
def inumOf (id : UInt64) : Nat := (maskId id).toNat

theorem inumOf_ofNat {i : Nat} (hi : i < 1024) : inumOf (UInt64.ofNat i) = i := by
  have hi64 : (UInt64.ofNat i).toNat = i :=
    UInt64.toNat_ofNat_of_lt' (by simp only [UInt64.size]; omega)
  have hmask : (0x7fffffff : UInt64).toNat = 2 ^ 31 - 1 := by decide
  rw [inumOf, maskId, UInt64.toNat_toUInt32, UInt64.toNat_and, hi64, hmask,
    Nat.and_two_pow_sub_one_eq_mod]
  omega

-- The id that `create` returns for inode `i`.
theorem inumOf_created {i : Nat} (hi : i < 1024) : inumOf (UInt32.ofNat i).toUInt64 = i := by
  have heq : (UInt32.ofNat i).toUInt64 = UInt64.ofNat i := by
    apply UInt64.toNat_inj.mp
    rw [UInt32.toNat_toUInt64, toNat_ofNat (by omega),
      UInt64.toNat_ofNat_of_lt' (by simp only [UInt64.size]; omega)]
  rw [heq, inumOf_ofNat hi]

/-- The id of a put or of a get selects a lock of the table. -/
def LockExists : Request → Prop
  | .put id _ => inumOf id < inodeNum
  | .get id _ => inumOf id < inodeNum
  | _ => True

instance (q : Request) : Decidable (LockExists q) := by
  cases q <;> unfold LockExists <;> infer_instance

/-- `write_file` accepts the size. -/
def Accepted (buf : List UInt8) : Prop :=
  0 ≤ intSize buf ∧ intSize buf ≤ blockSize * maxFile

instance (buf : List UInt8) : Decidable (Accepted buf) := inferInstanceAs (Decidable (_ ∧ _))

/-- The size that `write_file` is given. -/
def putSize (buf : List UInt8) : Nat := (intSize buf).toNat

theorem Accepted.intSize_eq {buf : List UInt8} (h : Accepted buf) :
    intSize buf = (putSize buf : Int) := (Int.toNat_of_nonneg h.1).symm

theorem Accepted.putSize_le {buf : List UInt8} (h : Accepted buf) : putSize buf ≤ 69632 := by
  have hle := h.2
  simp only [blockSize, maxFile, nDirect, nIndirect] at hle
  unfold putSize
  generalize intSize buf = n at *
  omega

theorem not_accepted {buf : List UInt8} (h : ¬ Accepted buf) :
    intSize buf < 0 ∨ intSize buf > blockSize * maxFile := by
  unfold Accepted at h
  generalize intSize buf = n at *
  omega

theorem intSize_eq_length {buf : List UInt8} (h : buf.length ≤ 69632) :
    intSize buf = buf.length := by
  unfold intSize
  exact Int.bmod_eq_of_le (by norm_num) (by norm_num; omega)

theorem putSize_eq_length {buf : List UInt8} (h : buf.length ≤ 69632) :
    putSize buf = buf.length := by
  rw [putSize, intSize_eq_length h, Int.toNat_natCast]

-- An accepted length below 2^32 is the size that is stored.
theorem putSize_of_accepted {buf : List UInt8} (hacc : Accepted buf)
    (hlen : buf.length < 4294967296) : putSize buf = buf.length := by
  have h0 := hacc.1
  have hint : intSize buf = Int.bmod buf.length 4294967296 := by
    unfold intSize
    norm_num
  rw [putSize, hint]
  rw [hint] at h0
  -- a length of 2^31 or more is a negative `int`
  rw [Int.bmod_def, Int.emod_eq_of_lt (by omega) (by omega)] at h0 ⊢
  split at h0 <;> omega

theorem accepted_of_le {buf : List UInt8} (h : buf.length ≤ 69632) : Accepted buf := by
  rw [Accepted, intSize_eq_length h]
  exact size_bounds h

/-- The reply to `getattr` of an inode in use. -/
def Disk.attr (d : Disk) (i : Nat) : Attr where
  type := (d.inode i).type.toInt32.toUInt32
  atime := (d.inode i).atime
  mtime := (d.inode i).mtime
  ctime := (d.inode i).ctime
  size := (d.inode i).size

/-- What serving a request does. -/
inductive Served (d : Disk) : Request → Reply → Disk → Prop where
  | created {type time i} (hi : i < 1024) (hfree : ¬ d.InUse i) (hlow : ∀ j < i, d.InUse j) :
      Served d (.create type time) (.created .ok (UInt32.ofNat i).toUInt64)
        (d.setInode i (newInode type time))
  | createdFull {type time} (hfull : ∀ i < 1024, d.InUse i) :
      Served d (.create type time) (.created .ok (0 : UInt32).toUInt64)
        (d.setInode 0 (newInode type time))
  | put {id buf e} (hacc : Accepted buf) (hin : d.InUse (inumOf id))
      (he : Stored d (d.inode (inumOf id)) (cStr buf) (putSize buf) e) :
      Served d (.put id buf) (.status .ok)
        (e.setInode (inumOf id) (d.written (d.inode (inumOf id)) (putSize buf)))
  | putRefused {id buf} (h : ¬ Accepted buf ∨ ¬ d.InUse (inumOf id)) :
      Served d (.put id buf) (.status .ok) d
  | get {id now} (hin : d.InUse (inumOf id)) :
      Served d (.get id now) (.bytes .ok (d.contents (inumOf id)))
        (d.setInode (inumOf id) ((d.inode (inumOf id)).setAtime now))
  | getAbsent {id now} (h : ¬ d.InUse (inumOf id)) :
      Served d (.get id now) (.bytes .ok []) d
  | getattr {id} (hin : d.InUse (inumOf id)) :
      Served d (.getattr id) (.attr .ok (d.attr (inumOf id))) d
  | getattrAbsent {id} (h : ¬ d.InUse (inumOf id)) :
      Served d (.getattr id) (.attr .ok Attr.zero) d
  | removed {id e} (hin : d.InUse (inumOf id)) (he : d.Freed (d.RemoveFrees (inumOf id)) e) :
      Served d (.remove id) (.status .ok)
        (e.setInode (inumOf id) (d.inode (inumOf id)).setTypeFree)
  | removeAbsent {id} (h : ¬ d.InUse (inumOf id)) :
      Served d (.remove id) (.status .ok) d

/-- A request that frees and reuses the blocks of its own file only. -/
def SafeStep (d : Disk) : Request → Prop
  | .put id buf => Accepted buf → d.InUse (inumOf id) → PutSafe d (inumOf id) (putSize buf)
  | .remove id => d.InUse (inumOf id) → RemoveSafe d (inumOf id)
  | _ => True

/-! ## One request -/

section
variable {d : Disk}

theorem wp_create (type : UInt32) (time : Nat → UInt32) :
    wp (serve (.create type time)) (Served d (.create type time)) d := by
  simp only [serve, FsServer.create, wp_bind, wp_allocInode, pure_eq, wp_ret]
  constructor
  · intro i hi hfree hlow
    exact .created hi hfree hlow
  · intro hfull
    exact .createdFull hfull

-- A put that fails the checks of `write_file` does nothing.
theorem wp_put_refused {id : UInt64} {buf : List UInt8}
    (h : ¬ Accepted buf ∨ ¬ d.InUse (inumOf id)) :
    wp (serve (.put id buf)) (fun r e => r = .status .ok ∧ e = d) d := by
  have hrefused : intSize buf < 0 ∨ intSize buf > blockSize * maxFile ∨
      ¬ d.InUse (maskId id).toNat := by
    rcases h with hacc | hin
    · exact (not_accepted hacc).imp_right .inl
    · exact .inr (.inr hin)
  simp only [serve, FsServer.put, wp_bind, wp_writeFile_refused hrefused]
  exact ⟨rfl, rfl⟩

theorem wp_put (hd : Sound d) (id : UInt64) (buf : List UInt8)
    (hsafe : SafeStep d (.put id buf)) :
    wp (serve (.put id buf)) (Served d (.put id buf)) d := by
  by_cases hno : ¬ Accepted buf ∨ ¬ d.InUse (inumOf id)
  · refine wp_mono (wp_put_refused hno) ?_
    rintro r e ⟨rfl, rfl⟩
    exact .putRefused hno
  · simp only [not_or, not_not] at hno
    obtain ⟨hacc, hin⟩ := hno
    have hput := hsafe hacc hin
    simp only [serve, FsServer.put, wp_bind, pure_eq, wp_ret]
    rw [hacc.intSize_eq]
    refine wp_writeFile hin (hput.writeOk hd hin) ?_
    intro e he
    exact .put hacc hin he

theorem wp_readFile_absent {inum now : UInt32} {Q : Option ReadResult → Disk → Prop}
    (h : ¬ d.InUse inum.toNat) : wp (readFile inum true true now) Q d ↔ Q none d := by
  simp only [readFile, wp_bind, wp_readerEnter, wp_readerExit, wp_getInode,
    Disk.lookup_eq_none h, Bool.not_true, Bool.or_self, Bool.false_eq_true, if_false, pure_eq,
    wp_ret]

theorem wp_get (id : UInt64) (now : UInt32)
    (hfile : d.InUse (inumOf id) → d.size (inumOf id) ≤ 69632 ∧
      ∀ p < pointers (d.size (inumOf id)), 123 ≤ d.ptr (inumOf id) p ∧ d.ptr (inumOf id) p < 32768) :
    wp (serve (.get id now)) (Served d (.get id now)) d := by
  simp only [serve, FsServer.get, wp_bind]
  by_cases hin : d.InUse (inumOf id)
  · refine wp_readFile hin (hfile hin).1 (hfile hin).2 fun r hr hbytes => ?_
    have hcontents : (List.range r.size.toNat).map r.buf = d.contents (inumOf id) := by
      rw [hr, Int.toNat_natCast, Disk.contents]
      exact List.map_congr_left fun k hk => hbytes k (List.mem_range.mp hk)
    by_cases h0 : r.size = 0
    · rw [h0, Int.toNat_zero, List.range_zero, List.map_nil] at hcontents
      simp only [h0, if_true, pure_eq, wp_ret]
      rw [hcontents]
      exact .get hin
    · have hneg : ¬ r.size < 0 := by rw [hr]; omega
      simp only [h0, hneg, if_false, pure_eq, wp_ret, hcontents]
      exact .get hin
  · rw [wp_readFile_absent hin]
    exact .getAbsent hin

theorem wp_getattr (id : UInt64) : wp (serve (.getattr id)) (Served d (.getattr id)) d := by
  simp only [serve, FsServer.getattr, InodeLayer.getattr, wp_bind, wp_getInode]
  by_cases hin : d.InUse (maskId id).toNat
  · rw [Disk.lookup_eq_some hin]
    exact .getattr hin
  · rw [Disk.lookup_eq_none hin]
    exact .getattrAbsent hin

theorem wp_remove (hd : Sound d) (id : UInt64) (hsafe : SafeStep d (.remove id)) :
    wp (serve (.remove id)) (Served d (.remove id)) d := by
  simp only [serve, FsServer.remove, wp_bind, pure_eq, wp_ret]
  by_cases hin : d.InUse (inumOf id)
  · exact wp_removeFile hin (hd.sizeOk _ hin).le (hd.ascending _ hin) (hd.region _ hin)
      (hsafe hin).partialChunk fun e he => .removed hin he
  · rw [wp_removeFile_refused hin]
    exact .removeAbsent hin

/-- What a safe request does to a disk whose files are kept apart. -/
theorem wp_serve (hd : Sound d) (q : Request) (hsafe : SafeStep d q) :
    wp (serve q) (Served d q) d := by
  cases q with
  | create type time => exact wp_create type time
  | put id buf => exact wp_put hd id buf hsafe
  | get id now => exact wp_get id now fun hin => ⟨(hd.sizeOk _ hin).le, hd.region _ hin⟩
  | getattr id => exact wp_getattr id
  | remove id => exact wp_remove hd id hsafe

/-- The step lemma. -/
theorem Served.sound {e : Disk} {q : Request} {r : Reply} (h : Served d q r e) (hd : Sound d)
    (hsafe : SafeStep d q) : Sound e := by
  cases h with
  | created hi _ _ => exact hd.create hi _ _
  | createdFull _ => exact hd.create (by omega) _ _
  | put hacc hin he => exact (hsafe hacc hin).sound hd hin he
  | putRefused _ => exact hd
  | get hin => exact hd.read hin _
  | getAbsent _ => exact hd
  | getattr _ => exact hd
  | getattrAbsent _ => exact hd
  | removed hin he => exact (hsafe hin).sound hd hin he
  | removeAbsent _ => exact hd

end

/-! ## Runs -/

/-- Every request of the run meets the condition `ok` when it is served. -/
def RunOf (ok : Disk → Request → Prop) : List (Request × Junk) → Disk → Prop
  | [], _ => True
  | (q, j) :: qs, d => ok d q ∧ ∀ r j' e, (serve q).run j d = some (r, j', e) → RunOf ok qs e

/-- `d` is the disk of a fresh file system after such a run. -/
def ReachableBy (ok : Disk → Request → Prop) (d : Disk) : Prop :=
  ∃ d₀ qs rs, Fresh d₀ ∧ RunOf ok qs d₀ ∧ serveAll qs d₀ = some (rs, d)

/-- Every request of the run is safe. -/
def SafeRun : List (Request × Junk) → Disk → Prop := RunOf SafeStep

/-- `d` is the disk of a fresh file system after a safe run. -/
def SafelyReachable : Disk → Prop := ReachableBy SafeStep

theorem serve_run {d : Disk} (hd : Sound d) {q : Request} (hsafe : SafeStep d q) (j : Junk) :
    ∃ r j' e, (serve q).run j d = some (r, j', e) ∧ Served d q r e :=
  wp_run (wp_serve hd q hsafe) j

/-- The run lemma, for an invariant of the requests of safe runs. -/
theorem RunOf.invariant {ok : Disk → Request → Prop} {I : Disk → Prop}
    (hok : ∀ d q, ok d q → SafeStep d q)
    (hstep : ∀ d q r e, Sound d → ok d q → Served d q r e → I d → I e) :
    ∀ {qs d}, Sound d → RunOf ok qs d → I d →
      ∃ rs e, serveAll qs d = some (rs, e) ∧ Sound e ∧ I e := by
  intro qs
  induction qs with
  | nil => exact fun {d} hd _ hI => ⟨[], d, rfl, hd, hI⟩
  | cons qj qs ih =>
    obtain ⟨q, j⟩ := qj
    intro d hd hrun hI
    have hsafe := hok d q hrun.1
    obtain ⟨r, j', e, hr, hserved⟩ := serve_run hd hsafe j
    obtain ⟨rs, f, hrest, hf⟩ := ih (hserved.sound hd hsafe) (hrun.2 r j' e hr)
      (hstep d q r e hd hrun.1 hserved hI)
    refine ⟨r :: rs, f, ?_, hf⟩
    simp only [serveAll, hr, hrest, Option.bind_eq_bind, Option.bind_some]
    rfl

/-- The rule for another condition, when the one that is met keeps an invariant. -/
theorem RunOf.imp {ok ok' : Disk → Request → Prop} {I : Disk → Prop} {qs : List (Request × Junk)}
    (hok : ∀ d, ∀ x ∈ qs, I d → ok d x.1 → ok' d x.1)
    (hstep : ∀ d q, I d → ok d q → wp (serve q) (fun _ e => I e) d) {d : Disk} (hI : I d)
    (h : RunOf ok qs d) : RunOf ok' qs d := by
  induction qs generalizing d with
  | nil => trivial
  | cons qj qs ih =>
    obtain ⟨q, j⟩ := qj
    refine ⟨hok d (q, j) (List.mem_cons_self ..) hI h.1, fun r j' e hrun => ?_⟩
    have hI' := wp_of_run (hstep d q hI h.1) hrun
    exact ih (fun d x hx => hok d x (List.mem_cons_of_mem _ hx)) hI' (h.2 r j' e hrun)

/-! ## The fresh disk -/

theorem not_inUse_init (i : Nat) : ¬ Disk.init.InUse i := by
  rintro ⟨-, h⟩
  apply h
  have hrec : Disk.init.inode i = Inode.ofBlock (fun _ => 0) (i % ipb) := by
    rw [Disk.inode, row_init]
  rw [hrec, Inode.ofBlock]
  have hbyte : ∀ k, Block.byte (fun _ => 0) k = 0 := fun k => by
    unfold Block.byte
    split <;> rfl
  simp only [wordOf16, hbyte]
  rfl

theorem Sound.init : Sound Disk.init where
  sizeOk := fun i hi => absurd hi (not_inUse_init i)
  ascending := fun i hi => absurd hi (not_inUse_init i)
  region := fun i hi => absurd hi (not_inUse_init i)
  used := fun i hi => absurd hi (not_inUse_init i)
  owner := fun i _ hi => absurd hi (not_inUse_init i)

-- Making the file system stores the root directory and nothing else.
theorem wp_init (time : Nat → UInt32) (Q : Unit → Disk → Prop) :
    wp (InodeLayer.init time) Q Disk.init ↔
      Q () (Disk.init.setInode 0 (newInode tDir time)) := by
  simp only [InodeLayer.init, wp_bind, wp_allocInode]
  constructor
  · intro h
    exact h.1 0 (by omega) (not_inUse_init 0) fun j hj => absurd hj (Nat.not_lt_zero j)
  · intro h
    refine ⟨fun i hi _ hlow => ?_, fun hfull => absurd (hfull 0 (by omega)) (not_inUse_init 0)⟩
    have h0 : i = 0 := by
      by_contra hne
      exact not_inUse_init 0 (hlow 0 (by omega))
    subst h0
    exact h

theorem Fresh.eq {d : Disk} (h : Fresh d) :
    ∃ time, d = Disk.init.setInode 0 (newInode tDir time) := by
  obtain ⟨time, j, j', hrun⟩ := h
  have hinit := (wp_init time fun _ e => e = Disk.init.setInode 0 (newInode tDir time)).mpr rfl
  have heq := wp_of_run hinit hrun
  exact ⟨time, heq⟩

theorem Fresh.sound {d : Disk} (h : Fresh d) : Sound d := by
  obtain ⟨time, rfl⟩ := h.eq
  exact Sound.init.create (by omega) _ _

/-- The disk of a file system made when the clock reads `now`. -/
def madeAt (now : UInt32) : Disk := Disk.init.setInode 0 (newInode tDir fun _ => now)

theorem init_run (now : UInt32) :
    ∃ j', (InodeLayer.init fun _ => now).run (fun _ _ => 0) Disk.init = some ((), j', madeAt now) := by
  have hwp := (wp_init (fun _ => now) fun _ e => e = madeAt now).mpr rfl
  obtain ⟨_, j', e, hrun, he⟩ := wp_run hwp fun _ _ => 0
  rw [he] at hrun
  exact ⟨j', hrun⟩

theorem fresh_madeAt (now : UInt32) : Fresh (madeAt now) := by
  obtain ⟨j', hrun⟩ := init_run now
  exact ⟨fun _ => now, _, j', hrun⟩

theorem Fresh.used {d : Disk} (h : Fresh d) : d.used = ∅ := by
  obtain ⟨time, rfl⟩ := h.eq
  rw [used_setInode]
  apply Finset.eq_empty_of_forall_notMem
  intro id hid
  have hbit := (mem_used.mp hid).2
  have hbyte : Disk.init.bitmapByte id = 0 := by
    rw [bitmapByte, row_init, Block.byte]
    split <;> rfl
  rw [bit, hbyte, bitOf_zero] at hbit
  exact Bool.false_ne_true hbit

theorem Fresh.card_free {d : Disk} (h : Fresh d) : (freeIn d.used).card = 32645 := by
  rw [h.used, freeIn, Finset.sdiff_empty, Nat.card_Ico]

theorem Fresh.inUse_iff {d : Disk} (h : Fresh d) {i : Nat} : d.InUse i ↔ i = 0 := by
  obtain ⟨time, rfl⟩ := h.eq
  constructor
  · intro hin
    by_contra hi
    exact not_inUse_init i ((inUse_setInode_ne _ _ hi).mp hin)
  · rintro rfl
    rw [InUse, inode_setInode_self _ _ (by omega)]
    have htype : tDir.toUInt16.toInt16 ≠ 0 := by decide
    exact ⟨by omega, htype⟩

theorem Fresh.size_zero {d : Disk} (h : Fresh d) : d.size 0 = 0 := by
  obtain ⟨time, rfl⟩ := h.eq
  rw [Disk.size, inode_setInode_self _ _ (by omega)]
  rfl

theorem Fresh.reachable {d : Disk} (h : Fresh d) : Reachable d := ⟨d, [], [], h, rfl⟩

theorem Fresh.safelyReachable {d : Disk} (h : Fresh d) : SafelyReachable d :=
  ⟨d, [], [], h, trivial, rfl⟩

theorem ReachableBy.invariant {ok : Disk → Request → Prop} {I : Disk → Prop}
    (hok : ∀ d q, ok d q → SafeStep d q) (h₀ : ∀ d, Fresh d → I d)
    (hstep : ∀ d q r e, Sound d → ok d q → Served d q r e → I d → I e) {d : Disk}
    (h : ReachableBy ok d) : Sound d ∧ I d := by
  obtain ⟨d₀, qs, rs, hfresh, hsafe, hrun⟩ := h
  obtain ⟨rs', e, he, hs⟩ := hsafe.invariant hok hstep hfresh.sound (h₀ d₀ hfresh)
  rw [hrun] at he
  simp only [Option.some.injEq, Prod.mk.injEq] at he
  exact he.2 ▸ hs

/-- Every disk that a safe run reaches keeps its files apart. -/
theorem SafelyReachable.sound {d : Disk} (h : SafelyReachable d) : Sound d :=
  (ReachableBy.invariant (I := fun _ => True) (fun _ _ hq => hq) (fun _ _ => trivial)
    (fun _ _ _ _ _ _ _ _ => trivial) h).1

theorem ReachableBy.reachable {ok : Disk → Request → Prop} {d : Disk} (h : ReachableBy ok d) :
    Reachable d := by
  obtain ⟨d₀, qs, rs, hfresh, -, hrun⟩ := h
  exact ⟨d₀, qs, rs, hfresh, hrun⟩

/-! ## One more request -/

theorem serveAll_concat {qs : List (Request × Junk)} {d e f : Disk} {rs : List Reply} {q : Request}
    {r : Reply} {j j' : Junk} (hqs : serveAll qs d = some (rs, e))
    (hq : (serve q).run j e = some (r, j', f)) :
    serveAll (qs ++ [(q, j)]) d = some (rs ++ [r], f) := by
  induction qs generalizing d rs with
  | nil =>
    simp only [serveAll, Option.some.injEq, Prod.mk.injEq] at hqs
    obtain ⟨rfl, rfl⟩ := hqs
    simp only [List.nil_append, serveAll, hq, Option.bind_eq_bind, Option.bind_some]
    rfl
  | cons qj qs ih =>
    obtain ⟨q', j₁⟩ := qj
    simp only [serveAll, Option.bind_eq_bind, Option.bind_eq_some_iff] at hqs
    obtain ⟨r', hr', rest, hrest, heq⟩ := hqs
    simp only [Option.pure_def, Option.some.injEq, Prod.mk.injEq] at heq
    obtain ⟨rfl, rfl⟩ := heq
    simp only [List.cons_append, serveAll, hr', ih hrest, Option.bind_eq_bind, Option.bind_some]
    rfl

theorem RunOf.concat {ok : Disk → Request → Prop} {qs : List (Request × Junk)} {d e : Disk}
    {rs : List Reply} {q : Request} {j : Junk} (h : RunOf ok qs d)
    (hqs : serveAll qs d = some (rs, e)) (hq : ok e q) : RunOf ok (qs ++ [(q, j)]) d := by
  induction qs generalizing d rs with
  | nil =>
    simp only [serveAll, Option.some.injEq, Prod.mk.injEq] at hqs
    obtain ⟨-, rfl⟩ := hqs
    exact ⟨hq, fun _ _ _ _ => trivial⟩
  | cons qj qs ih =>
    obtain ⟨q', j₁⟩ := qj
    simp only [serveAll, Option.bind_eq_bind, Option.bind_eq_some_iff] at hqs
    obtain ⟨r', hr', rest, hrest, heq⟩ := hqs
    simp only [Option.pure_def, Option.some.injEq, Prod.mk.injEq] at heq
    obtain ⟨rfl, rfl⟩ := heq
    refine ⟨h.1, fun r j' f hrun => ?_⟩
    rw [hr', Option.some.injEq] at hrun
    subst hrun
    exact ih (h.2 _ _ _ hr') hrest

-- A request of the run's kind leads from a reachable disk to another.
theorem ReachableBy.serve {ok : Disk → Request → Prop} (hok : ∀ d q, ok d q → SafeStep d q)
    {d : Disk} (h : ReachableBy ok d) {q : Request} (hq : ok d q) :
    ∃ r e, Served d q r e ∧ ReachableBy ok e := by
  have hsound := (h.invariant (I := fun _ => True) hok (fun _ _ => trivial)
    fun _ _ _ _ _ _ _ _ => trivial).1
  obtain ⟨r, j', e, hrun, hserved⟩ := serve_run hsound (hok d q hq) fun _ _ => 0
  obtain ⟨d₀, qs, rs, hfresh, hsafe, hqs⟩ := h
  exact ⟨r, e, hserved, d₀, _, _, hfresh, hsafe.concat hqs hq, serveAll_concat hqs hrun⟩

-- A create takes the least free inode.
theorem SafelyReachable.create {d : Disk} (h : SafelyReachable d) {i : Nat} (hi : i < 1024)
    (hfree : ¬ d.InUse i) (hlow : ∀ j < i, d.InUse j) (type : UInt32) (time : Nat → UInt32) :
    SafelyReachable (d.setInode i (newInode type time)) := by
  obtain ⟨r, e, hserved, he⟩ := ReachableBy.serve (fun _ _ hq => hq) h
    (q := .create type time) trivial
  cases hserved with
  | created _ hfree' hlow' => exact eq_of_least_free hfree hlow hfree' hlow' ▸ he
  | createdFull hfull => exact absurd (hfull i hi) hfree

-- A put to a file that was never written is safe when it fits.
theorem putSafe_of_new {d : Disk} (hd : Sound d) {i s : Nat} {type : UInt32}
    {time : Nat → UInt32} (hrec : d.inode i = newInode type time) (hs : SizeOk s)
    (hfree : pointers s ≤ (freeIn d.used).card) : PutSafe d i s := by
  have hsize : d.size i = 0 := by rw [Disk.size, hrec]; rfl
  constructor
  · constructor
    · exact hs
    · rw [hsize]
      exact fun h => absurd h (by omega)
    · rw [hsize]
      exact fun _ h => absurd h (Nat.not_lt_zero s)
  · rintro k hk - - j - ⟨hjin, p, hp, he⟩
    have h0 : ((d.inode i).block k).toNat = 0 := by
      rw [hrec, Inode.block, dif_pos hk]
      rfl
    have := (hd.region j hjin p hp).1
    omega
  · exact fits_of_free hfree

theorem Fresh.putSafe {d : Disk} (h : Fresh d) {s : Nat} (hs : SizeOk s) : PutSafe d 0 s := by
  obtain ⟨time, rfl⟩ := h.eq
  refine putSafe_of_new h.sound (inode_setInode_self _ _ (by omega)) hs ?_
  rw [h.card_free]
  exact (pointers_le hs.chunks_le).trans (by omega)

theorem Fresh.safeStep_put {d : Disk} (h : Fresh d) {buf : List UInt8} (hs : SizeOk buf.length) :
    SafeStep d (.put 0 buf) := by
  intro _ _
  rw [putSize_eq_length hs.le]
  exact h.putSafe hs

theorem Fresh.put_root {ok : Disk → Request → Prop} (hok : ∀ d q, ok d q → SafeStep d q)
    {d : Disk} (h : Fresh d) {buf : List UInt8} (hs : SizeOk buf.length)
    (hq : ok d (.put 0 buf)) : ∃ e, ReachableBy ok e ∧ e.InUse 0 ∧ e.size 0 = buf.length := by
  have hput := h.putSafe hs
  have hlen := putSize_eq_length hs.le
  obtain ⟨r, e, hserved, he⟩ := ReachableBy.serve hok ⟨d, [], [], h, trivial, rfl⟩ hq
  refine ⟨e, he, ?_⟩
  cases hserved with
  | put hacc hin hst =>
    refine ⟨(hst.inUse_iff hin).mpr hin, ?_⟩
    rw [hlen]
    exact (hput.writeOk h.sound hin).size (by omega) _
  | putRefused hno =>
    rcases hno with hno | hno
    · exact absurd (accepted_of_le hs.le) hno
    · exact absurd (h.inUse_iff.mpr rfl) hno

-- A run to a root of any size that a put accepts.
theorem exists_root_of_size {n : Nat} (hs : SizeOk n) :
    ∃ d, SafelyReachable d ∧ d.InUse 0 ∧ d.size 0 = n := by
  have hfresh := fresh_madeAt 0
  have hlen : (List.replicate n (1 : UInt8)).length = n := List.length_replicate
  have hs' : SizeOk (List.replicate n (1 : UInt8)).length := hlen.symm ▸ hs
  obtain ⟨d, hd, hin, hsize⟩ := hfresh.put_root (fun _ _ hq => hq) hs' (hfresh.safeStep_put hs')
  exact ⟨d, hd, hin, hsize.trans hlen⟩

/-! ## Runs that never run out -/

/-- There is a free inode for a create, and there are free blocks for a put: as many as the file
needs, if it kept none of its own. -/
def Roomy (d : Disk) : Request → Prop
  | .create _ _ => ∃ i < 1024, ¬ d.InUse i
  | .put _ buf => pointers (putSize buf) ≤ (freeIn d.used).card
  | _ => True

/-- A request with a put of an accepted size only, that does not run out. -/
def RoomyStep (d : Disk) (q : Request) : Prop :=
  Roomy d q ∧ ∀ id buf, q = .put id buf → buf.length ≤ blockSize * maxFile

/-- `d` is the disk of a fresh file system after a run of such requests. -/
def RoomilyReachable : Disk → Prop := ReachableBy RoomyStep

/-- `Roomy`, tested on the last inode and on the blocks from 20000 on. -/
def roomyTail (d : Disk) : Request → Bool
  | .create _ _ => !decide (d.InUse 1023)
  | .put _ buf => decide (buf.length ≤ 69632) &&
      (List.range (pointers (putSize buf))).all fun k => !d.bit (20000 + k)
  | _ => true

def roomyTails : List (Request × Junk) → Disk → Bool
  | [], _ => true
  | (q, j) :: qs, d =>
      roomyTail d q && ((serve q).run j d).all fun r => roomyTails qs r.2.2

theorem RoomyStep.of_tail {d : Disk} {q : Request} (h : roomyTail d q = true) :
    RoomyStep d q := by
  cases q with
  | create type time =>
    refine ⟨⟨1023, by omega, ?_⟩, fun _ _ hq => Request.noConfusion hq⟩
    simpa only [roomyTail, Bool.not_eq_true', decide_eq_false_iff_not] using h
  | put id buf =>
    rw [roomyTail, Bool.and_eq_true, decide_eq_true_eq, List.all_eq_true] at h
    obtain ⟨hlen, hbits⟩ := h
    have hptr : pointers (putSize buf) ≤ 137 := by
      rw [putSize_eq_length hlen]
      exact pointers_le (chunks_le_iff.mpr (by omega))
    have hsub : (Finset.range (pointers (putSize buf))).image (20000 + ·) ⊆ freeIn d.used := by
      intro id hid
      obtain ⟨k, hk, rfl⟩ := Finset.mem_image.mp hid
      rw [Finset.mem_range] at hk
      refine mem_freeIn.mpr ⟨by omega, fun hused => ?_⟩
      have hbit := hbits k (List.mem_range.mpr hk)
      rw [(mem_used.mp hused).2] at hbit
      exact Bool.false_ne_true hbit
    constructor
    · have hcard := Finset.card_le_card hsub
      rwa [Finset.card_image_of_injective _ (fun a b h => Nat.add_left_cancel h),
        Finset.card_range] at hcard
    · rintro _ _ ⟨⟩
      simpa only [blockSize, maxFile, nDirect, nIndirect] using hlen
  | get id now => exact ⟨trivial, fun _ _ hq => Request.noConfusion hq⟩
  | getattr id => exact ⟨trivial, fun _ _ hq => Request.noConfusion hq⟩
  | remove id => exact ⟨trivial, fun _ _ hq => Request.noConfusion hq⟩

theorem roomyRun_of_tails {qs : List (Request × Junk)} {d : Disk} (h : roomyTails qs d = true) :
    RunOf RoomyStep qs d := by
  induction qs generalizing d with
  | nil => trivial
  | cons qj qs ih =>
    obtain ⟨q, j⟩ := qj
    rw [roomyTails, Bool.and_eq_true] at h
    refine ⟨RoomyStep.of_tail h.1, fun r j' e hrun => ih ?_⟩
    simpa only [hrun, Option.all_some] using h.2

-- A disk with property `p`, found by serving requests.
theorem exists_roomilyReachable (qs : List (Request × Junk)) (p : Disk → Bool)
    (hroomy : roomyTails qs (madeAt 0) = true)
    (hp : (serveAll qs (madeAt 0)).any (fun r => p r.2) = true) :
    ∃ d, RoomilyReachable d ∧ p d = true := by
  rw [Option.any_eq_true] at hp
  obtain ⟨⟨rs, d⟩, hrun, hp⟩ := hp
  exact ⟨d, ⟨madeAt 0, qs, rs, fresh_madeAt 0, roomyRun_of_tails hroomy, hrun⟩, hp⟩

end InodeFs
