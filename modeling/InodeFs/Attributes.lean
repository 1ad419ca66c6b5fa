import InodeFs.Creation

/-!
# What `getattr` reports, next to the history of the file

A `History` holds what the requests since the creation of a file say about its attributes, and a
`Log` the histories of all files.  On the disks of safe runs every attribute is that of the history,
except `mtime`, which no request after the creation stores.
-/

namespace InodeFs

open BlockLayer InodeLayer FsServer Prog Disk

/-! ## The histories of the files -/

/-- A file since its creation. -/
structure History where
  type : UInt32
  -- the readings of the clock at the creation
  atime : UInt32
  ctime : UInt32
  mtime : UInt32
  /-- The length of the last accepted put, and the clock then. -/
  lastPut : Option (Nat × UInt32)
  lastGet : Option UInt32

def History.created (type : UInt32) (time : Nat → UInt32) : History :=
  ⟨type, time 0, time 1, time 2, none, none⟩

/-- The attributes that the history calls for. -/
def History.attr (h : History) : Attr where
  type := h.type
  atime := h.lastGet.getD h.atime
  mtime := (h.lastPut.map Prod.snd).getD h.mtime
  ctime := h.ctime
  size := UInt32.ofNat ((h.lastPut.map Prod.fst).getD 0)

/-- The history of each inode that was created and not removed. -/
abbrev Log := Nat → Option History

namespace Log

/-- The log of a file system just made. -/
def root (time : Nat → UInt32) : Log :=
  Function.update (fun _ => none) 0 (some (.created tDir time))

/-- A request that was served at clock reading `clock`, and its reply.  A put of more than
`MAXFILE` blocks is not accepted. -/
def record (log : Log) (clock : UInt32) : Request → Reply → Log
  | .create type time, .created _ id =>
      Function.update log (inumOf id) (some (.created type time))
  | .put id buf, _ =>
      if buf.length ≤ blockSize * maxFile then
        Function.update log (inumOf id)
          ((log (inumOf id)).map fun h => { h with lastPut := some (buf.length, clock) })
      else log
  | .get id now, _ =>
      Function.update log (inumOf id)
        ((log (inumOf id)).map fun h => { h with lastGet := some now })
  | .remove id, _ => Function.update log (inumOf id) none
  | _, _ => log

end Log

/-- A run from the making of the file system on leads to disk `d` with log `log`; each of its requests
meets the condition `ok` when it is served. -/
inductive LoggedBy (ok : Disk → Request → Prop) : Disk → Log → Prop where
  | made {time j j' d} (hrun : (InodeLayer.init time).run j Disk.init = some ((), j', d)) :
      LoggedBy ok d (.root time)
  | served {d log q j r j' e} (h : LoggedBy ok d log) (hok : ok d q) (clock : UInt32)
      (hrun : (serve q).run j d = some (r, j', e)) : LoggedBy ok e (log.record clock q r)

theorem LoggedBy.mono {ok ok' : Disk → Request → Prop} (hok : ∀ d q, ok d q → ok' d q) {d : Disk}
    {log : Log} (h : LoggedBy ok d log) : LoggedBy ok' d log := by
  induction h with
  | made hrun => exact .made hrun
  | served _ hq clock hrun ih => exact .served ih (hok _ _ hq) clock hrun

/-- Every `getattr` of the file reports what its history calls for. -/
def ReportsHistory (d : Disk) (log : Log) (id : UInt64) : Prop :=
  ∃ h, log (inumOf id) = some h ∧ ∀ j, attrReply d id j = some (.attr .ok h.attr)

/-! ## The attributes that are kept -/

/-- A request that is safe, finds what it needs, and whose type or length the code's conversions
leave as it is. -/
def Recorded (d : Disk) : Request → Prop
  | .create type _ => FitsShort type ∧ ∃ i < inodeNum, ¬ d.InUse i
  | .put id buf => SafeStep d (.put id buf) ∧ (Accepted buf → buf.length ≤ blockSize * maxFile)
  | .remove id => SafeStep d (.remove id)
  | _ => True

theorem Recorded.safeStep {d : Disk} {q : Request} (h : Recorded d q) : SafeStep d q := by
  cases q with
  | create type time => trivial
  | put id buf => exact h.1
  | get id now => trivial
  | getattr id => trivial
  | remove id => exact h

/-- The record of inode `i` has the attributes of history `h`, and the `mtime` of its creation. -/
structure Keeps (ino : Inode) (h : History) : Prop where
  type : ino.type.toInt32.toUInt32 = h.type
  atime : ino.atime = h.attr.atime
  mtime : ino.mtime = h.mtime
  ctime : ino.ctime = h.ctime
  size : ino.size = h.attr.size

/-- Every inode in use has a history that it keeps. -/
def Logged (d : Disk) (log : Log) : Prop :=
  ∀ i, d.InUse i → ∃ h, log i = some h ∧ Keeps (d.inode i) h

theorem keeps_newInode {type : UInt32} (htype : FitsShort type) (time : Nat → UInt32) :
    Keeps (newInode type time) (.created type time) := ⟨htype, rfl, rfl, rfl, rfl⟩

section Step
variable {d e : Disk} {log : Log} {i : Nat}

-- A request that leaves the records of all other inodes alone, and what it does to its own.
theorem Logged.update {h' : Option History} (h : Logged d log)
    (hothers : ∀ j ≠ i, e.InUse j → d.InUse j ∧ e.inode j = d.inode j)
    (hown : e.InUse i → ∃ k, h' = some k ∧ Keeps (e.inode i) k) :
    Logged e (Function.update log i h') := by
  intro j hj
  by_cases hji : j = i
  · subst hji
    rw [Function.update_self]
    exact hown hj
  · obtain ⟨hin, hrec⟩ := hothers j hji hj
    rw [Function.update_of_ne hji, hrec]
    exact h j hin

-- Only the record of inode `i` is stored.
theorem Logged.setInode {h' : Option History} {ino : Inode} (h : Logged d log)
    (hi : i < 1024) (hrows : ∀ r, 9 ≤ r → r ≤ 122 → e.row r = d.row r)
    (hown : ino.type ≠ 0 → ∃ k, h' = some k ∧ Keeps ino k) :
    Logged (e.setInode i ino) (Function.update log i h') := by
  refine h.update (fun j hji hj => ?_) fun hin => ?_
  · have hb := tableBlock_bounds hj.1
    have hrec : (e.setInode i ino).inode j = d.inode j := by
      rw [inode_setInode_ne _ _ hji]
      exact inode_congr (hrows _ hb.1 hb.2)
    exact ⟨⟨hj.1, hrec ▸ hj.2⟩, hrec⟩
  · rw [inode_setInode_self _ _ hi]
    rw [InUse, inode_setInode_self _ _ hi] at hin
    exact hown hin.2

-- What the log says of a file that does not exist is no matter.
theorem Logged.absent {h' : Option History} (h : Logged d log) (hfree : ¬ d.InUse i) :
    Logged d (Function.update log i h') :=
  h.update (fun _ _ hj => ⟨hj, rfl⟩) fun hin => absurd hin hfree

-- The step lemma.
theorem Logged.served {q : Request} {r : Reply} (h : Logged d log) (hok : Recorded d q)
    (clock : UInt32) (hs : Served d q r e) : Logged e (log.record clock q r) := by
  cases hs with
  | created hi hfree hlow =>
    rw [Log.record, inumOf_created hi]
    exact h.setInode hi (fun _ _ _ => rfl) fun _ => ⟨_, rfl, keeps_newInode hok.1 _⟩
  | createdFull hfull =>
    obtain ⟨i, hi, hfree⟩ := hok.2
    exact absurd (hfull i hi) hfree
  -- the put stores the size, but not the time
  | @put id buf f hacc hin hst =>
    have hlen := hok.2 hacc
    obtain ⟨k, hk, hkeeps⟩ := h _ hin
    rw [Log.record, if_pos hlen, hk]
    refine h.setInode hin.1 hst.table fun _ => ⟨_, rfl, ?_⟩
    refine ⟨hkeeps.type, hkeeps.atime, hkeeps.mtime, hkeeps.ctime, ?_⟩
    rw [putSize_eq_length (by simpa only [blockSize, maxFile, nDirect, nIndirect] using hlen)]
    rfl
  | putRefused hno =>
    rw [Log.record]
    split
    · rename_i hlen
      -- the length is right, so there is no such file
      exact h.absent (hno.resolve_left (not_not.mpr (accepted_of_le
        (by simpa only [blockSize, maxFile, nDirect, nIndirect] using hlen))))
    · exact h
  | get hin =>
    obtain ⟨k, hk, hkeeps⟩ := h _ hin
    rw [Log.record, hk]
    refine h.setInode hin.1 (fun _ _ _ => rfl) fun _ => ⟨_, rfl, ?_⟩
    exact ⟨hkeeps.type, rfl, hkeeps.mtime, hkeeps.ctime, hkeeps.size⟩
  | getAbsent hno => exact h.absent hno
  | getattr _ => exact h
  | getattrAbsent _ => exact h
  | removed hin he =>
    exact h.setInode hin.1 (fun r hr _ => he.rows r hr) fun htype => absurd rfl htype
  | removeAbsent hno => exact h.absent hno

end Step

theorem FitsShort.tDir : FitsShort tDir := rfl

/-- The run lemma. -/
theorem LoggedBy.logged {d : Disk} {log : Log} (h : LoggedBy Recorded d log) :
    Sound d ∧ Logged d log := by
  induction h with
  | @made time j j' d hrun =>
    have hwp := (wp_init time fun _ e => e = Disk.init.setInode 0 (newInode tDir time)).mpr rfl
    obtain rfl := wp_of_run hwp hrun
    have hinit : Logged Disk.init fun _ => none := fun i hi => absurd hi (not_inUse_init i)
    exact ⟨Sound.init.create (by omega) _ _, hinit.setInode (by omega) (fun _ _ _ => rfl)
      fun _ => ⟨_, rfl, keeps_newInode FitsShort.tDir time⟩⟩
  | served _ hok clock hrun ih =>
    obtain ⟨hd, hlog⟩ := ih
    have hs := wp_of_run (wp_serve hd _ hok.safeStep) hrun
    exact ⟨hs.sound hd hok.safeStep, hlog.served hok clock hs⟩

theorem attrReply_of_inUse {d : Disk} {id : UInt64} (hin : d.InUse (inumOf id)) (j : Junk) :
    attrReply d id j = some (.attr .ok (d.attr (inumOf id))) := by
  obtain ⟨r, j', e, hrun, hs⟩ := wp_run (wp_getattr (d := d) id) j
  rw [attrReply, hrun, Option.map_some]
  cases hs with
  | getattr _ => rfl
  | getattrAbsent hno => exact absurd hin hno

/-! ## The modification time -/

/-- There was no accepted put since the creation, or the clock at the last one was still the same. -/
def History.MtimeStands (h : History) : Prop := ∀ put, h.lastPut = some put → put.2 = h.mtime

theorem History.mtimeStands_iff (h : History) : h.MtimeStands ↔ h.attr.mtime = h.mtime := by
  unfold MtimeStands History.attr
  cases hput : h.lastPut with
  | none => exact ⟨fun _ => rfl, fun _ _ => nofun⟩
  -- the history calls for the clock at the last put
  | some put =>
    refine ⟨fun hstands => hstands put rfl, fun heq put' hput' => ?_⟩
    cases hput'
    exact heq

theorem LoggedBy.reports_iff {d : Disk} {log : Log} (h : LoggedBy Recorded d log) {id : UInt64}
    (hin : d.InUse (inumOf id)) {k : History} (hk : log (inumOf id) = some k) :
    (∀ j, attrReply d id j = some (.attr .ok k.attr)) ↔ k.MtimeStands := by
  obtain ⟨k', hk', hkeeps⟩ := h.logged.2 _ hin
  obtain rfl : k' = k := Option.some.inj (hk'.symm.trans hk)
  rw [History.mtimeStands_iff]
  constructor
  · -- the reported `mtime` is that of the creation
    intro hreports
    have hattr := (hreports fun _ _ => 0).symm.trans (attrReply_of_inUse hin _)
    simp only [Option.some.injEq, Reply.attr.injEq, true_and] at hattr
    rw [hattr]
    exact hkeeps.mtime
  · intro hmtime j
    rw [attrReply_of_inUse hin]
    congr 2
    change Attr.mk _ _ _ _ _ = Attr.mk _ _ _ _ _
    rw [Attr.mk.injEq]
    exact ⟨hkeeps.type, hkeeps.atime, hkeeps.mtime.trans hmtime.symm, hkeeps.ctime, hkeeps.size⟩

/-- `getattr` tells the history of a file if and only if no put has come at a later time. -/
theorem reportsHistory_iff {d : Disk} {log : Log} (h : LoggedBy Recorded d log) {id : UInt64}
    (hin : d.InUse (inumOf id)) :
    ReportsHistory d log id ↔ ∀ k, log (inumOf id) = some k → k.MtimeStands := by
  obtain ⟨k, hk, -⟩ := h.logged.2 _ hin
  constructor
  · rintro ⟨k', hk', hreports⟩ k'' hk''
    obtain rfl : k'' = k' := Option.some.inj (hk''.symm.trans hk')
    exact (h.reports_iff hin hk').mp hreports
  · exact fun hstands => ⟨k, hk, (h.reports_iff hin hk).mpr (hstands k hk)⟩

/-! ## One put to the root -/

/-- The log of a file system made at clock reading 0, after a put of one byte to the root. -/
def onePut (clock : UInt32) : Log :=
  (Log.root fun _ => 0).record clock (.put 0 [65]) (.status .ok)

theorem exists_onePut (clock : UInt32) : ∃ d,
    LoggedBy (fun d q => Recorded d q ∧ RoomyStep d q) d (onePut clock) ∧
      d.InUse (inumOf 0) := by
  have hfresh := fresh_madeAt 0
  obtain ⟨j', hinit⟩ := init_run 0
  have hsize : SizeOk [(65 : UInt8)].length := ⟨by decide, by decide⟩
  have hsafe : SafeStep (madeAt 0) (.put 0 [65]) := hfresh.safeStep_put hsize
  obtain ⟨r, j'', e, hrun, hs⟩ := serve_run hfresh.sound hsafe fun _ _ => 0
  have hrec : Recorded (madeAt 0) (.put 0 [65]) := ⟨hsafe, fun _ => by decide⟩
  have hroomy : RoomyStep (madeAt 0) (.put 0 [65]) := by
    refine ⟨?_, fun id buf hq => ?_⟩
    · have hptr : pointers (putSize [65]) = 1 := by rw [putSize_eq_length (by decide)]; rfl
      change pointers (putSize [65]) ≤ (freeIn (madeAt 0).used).card
      rw [hptr, hfresh.card_free]
      omega
    · cases hq
      decide
  have hin : (madeAt 0).InUse (inumOf 0) := hfresh.inUse_iff.mpr rfl
  have hlogged : LoggedBy (fun d q => Recorded d q ∧ RoomyStep d q) e
      ((Log.root fun _ => 0).record clock (.put 0 [65]) r) :=
    .served (.made hinit) ⟨hrec, hroomy⟩ clock hrun
  cases hs with
  | @put _ _ f _ _ _ =>
    refine ⟨_, hlogged, hin.1, ?_⟩
    change ((f.setInode 0 _).inode 0).type ≠ 0
    rw [inode_setInode_self _ _ (by omega)]
    exact hin.2
  | putRefused hno =>
    rcases hno with hno | hno
    · exact absurd (accepted_of_le (by decide)) hno
    · exact absurd hin hno

/-- A put that comes before the clock has moved. -/
theorem reportsHistory_iff_onePut : ∃ d, LoggedBy Recorded d (onePut 0) ∧ d.InUse (inumOf 0) ∧
    ReportsHistory d (onePut 0) 0 := by
  obtain ⟨d, hlogged, hin⟩ := exists_onePut 0
  have hrec := hlogged.mono fun _ _ h => h.1
  refine ⟨d, hrec, hin, (reportsHistory_iff hrec hin).mpr fun k hk put hput => ?_⟩
  cases hk
  cases hput
  rfl

/-- After a put at time 7 `getattr` still reports time 0. -/
theorem not_reportsHistory_of_run : ¬ ∀ d log, LoggedBy RoomyStep d log →
    ∀ id, d.InUse (inumOf id) → ReportsHistory d log id := by
  intro h
  obtain ⟨d, hlogged, hin⟩ := exists_onePut 7
  obtain ⟨k, hk, hreports⟩ := h d _ (hlogged.mono fun _ _ h => h.2) 0 hin
  have hstands := ((hlogged.mono fun _ _ h => h.1).reports_iff hin hk).mp hreports
  cases hk
  exact absurd (hstands _ rfl) (by decide)

end InodeFs
