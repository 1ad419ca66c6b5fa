import InodeFs.Arrays
import InodeFs.Prog.Machine

/-!
# The file system as a store of files

A `FileStore` holds files under numbers, each with its attributes and its bytes: no blocks, no bitmap,
no table.  It keeps what the server does with a file and not with a block: a put sets no time, a create
with no number left replaces file 0, and one of a type whose `short` is 0 makes no file.  `Disk.files`
is what a disk stores.  In a safe run the server's replies are those of the store.
-/

namespace InodeFs

open BlockLayer InodeLayer FsServer Prog Disk

/-- A file.  `type` is what a `short` keeps of the type that `create` was given; an inode of type 0
is free, so no file has it. -/
@[ext] structure File where
  type : Int16
  type_ne : type ≠ 0
  atime : UInt32
  mtime : UInt32
  ctime : UInt32
  bytes : List UInt8

/-- The files under their inode numbers. -/
abbrev FileStore := Nat → Option File

namespace File

/-- A file just created; none when the `short` is 0. -/
def created (type : UInt32) (time : Nat → UInt32) : Option File :=
  if h : type.toUInt16.toInt16 = 0 then none
  else some ⟨type.toUInt16.toInt16, h, time 0, time 2, time 1, []⟩

def attr (f : File) : Attr where
  type := f.type.toInt32.toUInt32
  atime := f.atime
  mtime := f.mtime
  ctime := f.ctime
  size := UInt32.ofNat f.bytes.length

/-- A put stores no time. -/
def put (f : File) (buf : List UInt8) : File := { f with bytes := buf.take (putSize buf) }

def get (f : File) (now : UInt32) : File := { f with atime := now }

end File

/-- What a request asks of the one file that its id selects. -/
inductive FileRequest where
  | put (buf : List UInt8)
  | get (now : UInt32)
  | getattr
  | remove

namespace FileRequest

/-- The reply for a file, or for none, and what is there afterwards. -/
def step : Option File → FileRequest → Reply × Option File
  | f, .put buf => (.status .ok, if Accepted buf then f.map fun f => f.put buf else f)
  | f, .get now => (.bytes .ok ((f.map File.bytes).getD []), f.map fun f => f.get now)
  | f, .getattr => (.attr .ok ((f.map File.attr).getD Attr.zero), f)
  | _, .remove => (.status .ok, none)

/-- The request for the file of `id`. -/
def on (id : UInt64) : FileRequest → Request
  | .put buf => .put id buf
  | .get now => .get id now
  | .getattr => .getattr id
  | .remove => .remove id

end FileRequest

namespace FileStore

/-- The requests for one file each. -/
def objects : Objects Nat (UInt64 × FileRequest) Reply (Option File) where
  key x := inumOf x.1
  step f x := FileRequest.step f x.2

/-- The place of a new file: the least number without one, or 0. -/
def place (s : FileStore) : Nat := ((List.range inodeNum).find? fun i => (s i).isNone).getD 0

/-- The store answers a request. -/
def step (s : FileStore) : Request → Reply × FileStore
  | .create type time =>
      (.created .ok (UInt32.ofNat s.place).toUInt64,
        Function.update s s.place (File.created type time))
  | .put id buf => objects.machine.step s (id, .put buf)
  | .get id now => objects.machine.step s (id, .get now)
  | .getattr id => objects.machine.step s (id, .getattr)
  | .remove id => objects.machine.step s (id, .remove)

def machine : Machine Request Reply FileStore := ⟨step⟩

theorem step_on (s : FileStore) (id : UInt64) (op : FileRequest) :
    step s (op.on id) = objects.machine.step s (id, op) := by
  cases op <;> rfl

theorem step_eq {s : FileStore} {id : UInt64} {op : FileRequest} {r : Reply} {f : Option File}
    (h : FileRequest.step (s (inumOf id)) op = (r, f)) :
    objects.machine.step s (id, op) = (r, Function.update s (inumOf id) f) := by
  simp only [Objects.machine, objects, h]

-- A request that leaves its file as it is changes nothing.
theorem step_eq_self {s : FileStore} {id : UInt64} {op : FileRequest} {r : Reply}
    (h : FileRequest.step (s (inumOf id)) op = (r, s (inumOf id))) :
    objects.machine.step s (id, op) = (r, s) := by
  rw [step_eq h, Function.update_eq_self]

-- Requests for one file each are served by the objects.
theorem run_on (xs : List (UInt64 × FileRequest)) (s : FileStore) :
    machine.run (xs.map fun x => x.2.on x.1) s = objects.machine.run xs s := by
  induction xs generalizing s with
  | nil => rfl
  | cons x xs ih =>
    have hstep : machine.step s (x.2.on x.1) = objects.machine.step s x := step_on s x.1 x.2
    rw [List.map_cons, Machine.run_cons, Machine.run_cons, hstep, ih]

theorem place_eq {s : FileStore} {i : Nat} (hi : i < inodeNum) (hfree : s i = none)
    (hlow : ∀ j < i, s j ≠ none) : s.place = i := by
  have hfind : (List.range inodeNum).find? (fun i => (s i).isNone) = some i := by
    rw [List.find?_range_eq_some]
    refine ⟨by rw [hfree]; rfl, List.mem_range.mpr hi, fun j hj => ?_⟩
    rw [Bool.not_eq_true', Option.isNone_eq_false_iff, Option.isSome_iff_ne_none]
    exact hlow j hj
  rw [place, hfind, Option.getD_some]

theorem place_full {s : FileStore} (hfull : ∀ i < inodeNum, s i ≠ none) : s.place = 0 := by
  have hfind : (List.range inodeNum).find? (fun i => (s i).isNone) = none := by
    rw [List.find?_range_eq_none]
    intro i hi
    rw [Bool.not_eq_true', Option.isNone_eq_false_iff, Option.isSome_iff_ne_none]
    exact hfull i hi
  rw [place, hfind, Option.getD_none]

end FileStore

/-! ## The store of a disk -/

namespace Disk

/-- The file that inode `i` stores. -/
def file (d : Disk) (i : Nat) (h : d.InUse i) : File where
  type := (d.inode i).type
  type_ne := h.2
  atime := (d.inode i).atime
  mtime := (d.inode i).mtime
  ctime := (d.inode i).ctime
  bytes := d.contents i

/-- The files of the disk. -/
def files (d : Disk) : FileStore := fun i => if h : d.InUse i then some (d.file i h) else none

section Files
variable {d e : Disk} {i : Nat}

theorem files_of_inUse (h : d.InUse i) : d.files i = some (d.file i h) := dif_pos h

theorem files_eq_none (h : ¬ d.InUse i) : d.files i = none := dif_neg h

theorem files_eq_none_iff : d.files i = none ↔ ¬ d.InUse i := by
  refine ⟨fun h hin => ?_, files_eq_none⟩
  rw [files_of_inUse hin] at h
  exact absurd h (Option.some_ne_none _)

theorem length_contents : (d.contents i).length = d.size i := by
  rw [contents, List.length_map, List.length_range]

theorem attr_file (h : d.InUse i) : (d.file i h).attr = d.attr i := by
  simp only [File.attr, file, length_contents, Disk.attr, Attr.mk.injEq, true_and]
  exact UInt32.ofNat_toNat

theorem Intact.files (h : d.Intact e i) : e.files i = d.files i := by
  by_cases hin : d.InUse i
  · rw [files_of_inUse hin, files_of_inUse (h.inUse.mpr hin)]
    simp only [file, h.inode, h.contents]
  · rw [files_eq_none hin, files_eq_none fun hc => hin (h.inUse.mp hc)]

-- A step that concerns file `i` only.
theorem files_eq_update {f : Option File}
    (hothers : ∀ j ≠ i, e.files j = d.files j) (hown : e.files i = f) :
    e.files = Function.update d.files i f := by
  funext j
  by_cases hj : j = i
  · subst hj
    rw [hown, Function.update_self]
  · rw [hothers j hj, Function.update_of_ne hj]

-- Every file but `i` that is in use is intact, and no other inode is in use.
theorem files_eq_of_intact {j : Nat} (hin : e.InUse j ↔ d.InUse j)
    (hint : d.InUse j → d.Intact e j) : e.files j = d.files j := by
  by_cases hd : d.InUse j
  · exact (hint hd).files
  · rw [files_eq_none hd, files_eq_none fun he => hd (hin.mp he)]

theorem files_setInode_ne (hd : Sound d) (hi : i < 1024) (ino : Inode) {j : Nat} (hj : j ≠ i) :
    (d.setInode i ino).files j = d.files j :=
  files_eq_of_intact (inUse_setInode_ne d ino hj) fun hjin => intact_setInode hd hi ino hj hjin

end Files

end Disk

/-! ## What a put stores -/

theorem Accepted.putSize_le_length {buf : List UInt8} (h : Accepted buf) :
    putSize buf ≤ buf.length := by
  have h0 := h.1
  have hint : intSize buf = Int.bmod buf.length 4294967296 := by
    unfold intSize
    norm_num
  rw [putSize, hint]
  rw [hint, Int.bmod_def] at h0
  rw [Int.bmod_def]
  split at h0 <;> omega

theorem map_cStr_take {buf : List UInt8} {n : Nat} (h : n ≤ buf.length) :
    (List.range n).map (cStr buf) = buf.take n := by
  refine List.ext_getElem ?_ fun k hk hk' => ?_
  · rw [List.length_map, List.length_range, List.length_take, Nat.min_eq_left h]
  · rw [List.length_map, List.length_range] at hk
    rw [List.getElem_map, List.getElem_range, cStr, List.getD_eq_getElem _ _ (by omega),
      List.getElem_take]

/-! ## One request -/

section Step
variable {d e : Disk}

theorem files_create {i : Nat} (hd : Sound d) (hi : i < 1024) (type : UInt32)
    (time : Nat → UInt32) :
    (d.setInode i (newInode type time)).files =
      Function.update d.files i (File.created type time) := by
  refine files_eq_update (fun j hj => files_setInode_ne hd hi _ hj) ?_
  have hrec := inode_setInode_self d (newInode type time) hi
  by_cases htype : type.toUInt16.toInt16 = 0
  · rw [File.created, dif_pos htype, files_eq_none]
    rw [InUse, hrec]
    exact fun h => h.2 htype
  · have hin : (d.setInode i (newInode type time)).InUse i := by
      rw [InUse, hrec]
      exact ⟨hi, htype⟩
    have hsize : (d.setInode i (newInode type time)).size i = 0 := by
      rw [Disk.size, hrec]
      rfl
    rw [File.created, dif_neg htype, files_of_inUse hin]
    simp only [file, hrec, contents, hsize, List.range_zero, List.map_nil]
    rfl

theorem files_put {i : Nat} {buf : List UInt8} (hd : Sound d) (hacc : Accepted buf)
    (hin : d.InUse i) (hput : PutSafe d i (putSize buf))
    (he : Stored d (d.inode i) (cStr buf) (putSize buf) e) :
    (e.setInode i (d.written (d.inode i) (putSize buf))).files =
      Function.update d.files i ((d.files i).map fun f => f.put buf) := by
  have hok := hput.writeOk hd hin
  refine files_eq_update (fun j hj => ?_) ?_
  · exact files_eq_of_intact (he.inUse_iff hin) fun hjin => hput.intact hd hin he hj hjin
  · have hcontents : (e.setInode i (d.written (d.inode i) (putSize buf))).contents i =
        buf.take (putSize buf) := by
      rw [contents, hok.size hin.1 e, ← map_cStr_take hacc.putSize_le_length]
      refine List.map_congr_left fun k hk => ?_
      exact he.fileByte hok hin.1 (List.mem_range.mp hk)
    rw [files_of_inUse hin, files_of_inUse ((he.inUse_iff hin).mpr hin), Option.map_some]
    simp only [file, inode_setInode_self _ _ hin.1, hcontents]
    rfl

theorem files_get {i : Nat} (hd : Sound d) (hin : d.InUse i) (now : UInt32) :
    (d.setInode i ((d.inode i).setAtime now)).files =
      Function.update d.files i ((d.files i).map fun f => f.get now) := by
  refine files_eq_update (fun j hj => files_setInode_ne hd hin.1 _ hj) ?_
  have hrec := inode_setInode_self d ((d.inode i).setAtime now) hin.1
  have hin' : (d.setInode i ((d.inode i).setAtime now)).InUse i := by
    rw [InUse, hrec]
    exact hin
  have hcontents : (d.setInode i ((d.inode i).setAtime now)).contents i = d.contents i := by
    rw [contents, size_setAtime hin.1, contents]
    exact List.map_congr_left fun k hk => hd.fileByte_setAtime hin now (List.mem_range.mp hk)
  rw [files_of_inUse hin, files_of_inUse hin', Option.map_some]
  simp only [file, hrec, hcontents]
  rfl

theorem files_remove {i : Nat} (hd : Sound d) (hin : d.InUse i)
    (he : d.Freed (d.RemoveFrees i) e) :
    (e.setInode i (d.inode i).setTypeFree).files = Function.update d.files i none := by
  refine files_eq_update (fun j hj => ?_) (files_eq_none (not_inUse_setTypeFree hin.1 _))
  refine files_eq_of_intact ?_ fun hjin => hd.intact_of_freed hin he hj hjin
  rw [inUse_setInode_ne _ _ hj]
  exact and_congr_right fun hj' => by rw [he.inode hj']

-- Requests that leave the files as they are.

theorem step_put_refused {id : UInt64} {buf : List UInt8}
    (h : ¬ Accepted buf ∨ ¬ d.InUse (inumOf id)) :
    FileStore.step d.files (.put id buf) = (.status .ok, d.files) := by
  have hsame : (if Accepted buf then (d.files (inumOf id)).map fun f => f.put buf
      else d.files (inumOf id)) = d.files (inumOf id) := by
    rcases h with hacc | hin
    · rw [if_neg hacc]
    · rw [files_eq_none hin, Option.map_none, ite_self]
  exact FileStore.step_eq_self (by rw [FileRequest.step, hsame])

theorem step_get_absent {id : UInt64} {now : UInt32} (h : ¬ d.InUse (inumOf id)) :
    FileStore.step d.files (.get id now) = (.bytes .ok [], d.files) :=
  FileStore.step_eq_self (by rw [FileRequest.step, files_eq_none h]; rfl)

theorem step_getattr {id : UInt64} (h : d.InUse (inumOf id)) :
    FileStore.step d.files (.getattr id) = (.attr .ok (d.attr (inumOf id)), d.files) := by
  refine FileStore.step_eq_self ?_
  rw [FileRequest.step, files_of_inUse h, Option.map_some, attr_file h, Option.getD_some]

theorem step_getattr_absent {id : UInt64} (h : ¬ d.InUse (inumOf id)) :
    FileStore.step d.files (.getattr id) = (.attr .ok Attr.zero, d.files) :=
  FileStore.step_eq_self (by rw [FileRequest.step, files_eq_none h]; rfl)

theorem step_remove_absent {id : UInt64} (h : ¬ d.InUse (inumOf id)) :
    FileStore.step d.files (.remove id) = (.status .ok, d.files) :=
  FileStore.step_eq_self (by rw [FileRequest.step, files_eq_none h])

-- Requests that change one of them.

theorem step_create {i : Nat} (hi : i < 1024) (hfree : ¬ d.InUse i) (hlow : ∀ j < i, d.InUse j)
    (type : UInt32) (time : Nat → UInt32) :
    FileStore.step d.files (.create type time) = (.created .ok (UInt32.ofNat i).toUInt64,
      Function.update d.files i (File.created type time)) := by
  have hplace := FileStore.place_eq hi (files_eq_none hfree)
    fun j hj hc => files_eq_none_iff.mp hc (hlow j hj)
  rw [FileStore.step, hplace]

theorem step_put {id : UInt64} {buf : List UInt8} (hacc : Accepted buf) :
    FileStore.step d.files (.put id buf) = (.status .ok, Function.update d.files (inumOf id)
      ((d.files (inumOf id)).map fun f => f.put buf)) :=
  FileStore.step_eq (by rw [FileRequest.step, if_pos hacc])

theorem step_get {id : UInt64} {now : UInt32} (hin : d.InUse (inumOf id)) :
    FileStore.step d.files (.get id now) = (.bytes .ok (d.contents (inumOf id)),
      Function.update d.files (inumOf id) ((d.files (inumOf id)).map fun f => f.get now)) :=
  FileStore.step_eq (by rw [FileRequest.step, files_of_inUse hin]; rfl)

theorem step_remove {id : UInt64} :
    FileStore.step d.files (.remove id) =
      (.status .ok, Function.update d.files (inumOf id) none) :=
  FileStore.step_eq rfl

/-- A safe request is answered as the store answers it, and changes the files as it does. -/
theorem Served.files {q : Request} {r : Reply} (h : Served d q r e) (hd : Sound d)
    (hsafe : SafeStep d q) : FileStore.step d.files q = (r, e.files) := by
  cases h with
  | created hi hfree hlow => rw [step_create hi hfree hlow, files_create hd hi]
  | createdFull hfull =>
    have hplace := FileStore.place_full
      fun j hj hc => files_eq_none_iff.mp hc (hfull j hj)
    rw [FileStore.step, hplace, files_create hd (by omega)]
    rfl
  | put hacc hin he => rw [step_put hacc, files_put hd hacc hin (hsafe hacc hin) he]
  | putRefused hno => exact step_put_refused hno
  | get hin => rw [step_get hin, files_get hd hin]
  | getAbsent hno => exact step_get_absent hno
  | getattr hin => exact step_getattr hin
  | getattrAbsent hno => exact step_getattr_absent hno
  | removed hin he => rw [step_remove, files_remove hd hin he]
  | removeAbsent hno => exact step_remove_absent hno

end Step

/-! ## Runs -/

/-- The server; each request comes with the uninitialised memory of serving it. -/
def server : Device (Request × Junk) Reply Disk where
  serve d p := ((serve p.1).run p.2 d).map fun r => (r.1, r.2.2)

theorem serve_server {d e : Disk} {q : Request} {r : Reply} {j j' : Junk}
    (h : (serve q).run j d = some (r, j', e)) : server.serve d (q, j) = some (r, e) := by
  simp only [server, h, Option.map_some]

theorem serveAll_eq_run (qs : List (Request × Junk)) (d : Disk) :
    serveAll qs d = server.run qs d := by
  induction qs generalizing d with
  | nil => rfl
  | cons qj qs ih =>
    obtain ⟨q, j⟩ := qj
    simp only [serveAll, Device.run, server, ih]
    cases (serve q).run j d <;> rfl

theorem along_of_runOf {ok : Disk → Request → Prop} {qs : List (Request × Junk)} {d : Disk}
    (h : RunOf ok qs d) : server.Along (fun d p => ok d p.1) qs d := by
  induction qs generalizing d with
  | nil => trivial
  | cons qj qs ih =>
    obtain ⟨q, j⟩ := qj
    refine ⟨h.1, fun r e hserve => ?_⟩
    simp only [server, Option.map_eq_some_iff, Prod.mk.injEq] at hserve
    obtain ⟨⟨r', j', e'⟩, hrun, rfl, rfl⟩ := hserve
    exact ih (h.2 _ _ _ hrun)

theorem server_refines :
    server.Refines FileStore.machine Disk.files Prod.fst Sound fun d p => SafeStep d p.1 := by
  rintro d ⟨q, j⟩ hd hsafe
  obtain ⟨r, j', e, hrun, hserved⟩ := serve_run hd hsafe j
  have hstep : FileStore.machine.step d.files q = (r, e.files) := hserved.files hd hsafe
  refine ⟨e, ?_, ?_, hserved.sound hd hsafe⟩
  · rw [serve_server hrun, hstep]
  · rw [hstep]

/-- The store of a file system just made: the root directory. -/
def FileStore.root (time : Nat → UInt32) : FileStore :=
  Function.update (fun _ => none) 0 (File.created tDir time)

theorem files_setInode_init (time : Nat → UInt32) :
    (Disk.init.setInode 0 (newInode tDir time)).files = FileStore.root time := by
  have hempty : Disk.init.files = fun _ => none :=
    funext fun i => files_eq_none (not_inUse_init i)
  rw [files_create Sound.init (by omega), hempty, FileStore.root]

theorem Sound.serveAll_eq {d : Disk} (hd : Sound d) {qs : List (Request × Junk)}
    (hqs : SafeRun qs d) :
    ∃ e, serveAll qs d = some ((FileStore.machine.run (qs.map Prod.fst) d.files).1, e) ∧
      e.files = (FileStore.machine.run (qs.map Prod.fst) d.files).2 := by
  obtain ⟨e, hrun, hfiles, -⟩ := server_refines.run_eq hd (along_of_runOf hqs)
  exact ⟨e, serveAll_eq_run qs d ▸ hrun, hfiles⟩

end InodeFs
