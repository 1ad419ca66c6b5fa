import InodeFs.Space

/-!
# Requests for different files

In a safe run each file is served as if the others were not there.
-/

namespace InodeFs

open InodeLayer FsServer Prog Disk

/-- What is asked of the files, as the server gets it. -/
def onFiles (xs : List ((UInt64 × FileRequest) × Junk)) : List (Request × Junk) :=
  xs.map fun x => (x.1.2.on x.1.1, x.2)

theorem run_onFiles (xs : List ((UInt64 × FileRequest) × Junk)) (s : FileStore) :
    FileStore.machine.run ((onFiles xs).map Prod.fst) s =
      FileStore.objects.machine.run (xs.map Prod.fst) s := by
  rw [← FileStore.run_on, onFiles, List.map_map, List.map_map]
  rfl

/-- In a safe run without a create, whose puts and gets find their locks, the server stays inside its
arrays and each file is served alone: the replies to what is asked of it, and what it is at the end,
depend neither on the other files nor on what is asked of them. -/
theorem servedAlone_of_safe {d : Disk} (hd : SafelyReachable d)
    {xs : List ((UInt64 × FileRequest) × Junk)} (hxs : SafeRun (onFiles xs) d)
    (hlocks : LocksExist (onFiles xs)) :
    RunOf InArrays (onFiles xs) d ∧
      ∃ rs e, serveAll (onFiles xs) d = some (rs, e) ∧
        ∀ i, FileStore.objects.repliesFor i (xs.map Prod.fst) rs =
            (FileStore.objects.object.run (FileStore.objects.requestsFor i (xs.map Prod.fst))
              (d.files i)).1 ∧
          e.files i =
            (FileStore.objects.object.run (FileStore.objects.requestsFor i (xs.map Prod.fst))
              (d.files i)).2 := by
  obtain ⟨e, hrun, he⟩ := hd.sound.serveAll_eq hxs
  rw [run_onFiles] at hrun he
  refine ⟨hxs.inArrays hd.sound hlocks, _, e, hrun, fun i => ?_⟩
  obtain ⟨hreplies, hfile⟩ := Objects.run_object (O := FileStore.objects) i (xs.map Prod.fst) d.files
  exact ⟨hreplies, he ▸ hfile⟩

/-- The disk with the root and one more file, both empty. -/
def twoEmpty : Disk := (madeAt 0).setInode 1 (newInode 1 fun _ => 0)

theorem files_twoEmpty : twoEmpty.files =
    Function.update (FileStore.root fun _ => 0) 1 (File.created 1 fun _ => 0) := by
  rw [twoEmpty, files_create (fresh_madeAt 0).sound (by omega), madeAt, files_setInode_init]

theorem clean_twoEmpty : twoEmpty.Clean := by
  have hfresh := fresh_madeAt 0
  have hserved : Served (madeAt 0) (.create 1 fun _ => 0) (.created .ok (UInt32.ofNat 1).toUInt64)
      twoEmpty :=
    .created (by omega) (fun h => absurd (hfresh.inUse_iff.mp h) Nat.one_ne_zero)
      fun j hj => hfresh.inUse_iff.mpr (by omega)
  have hfree : (madeAt 0).files.Admits (.create 1 fun _ => 0) :=
    ⟨1, by decide, files_eq_none fun h => absurd (hfresh.inUse_iff.mp h) Nat.one_ne_zero⟩
  exact hfresh.clean.served hfree hserved

theorem servedAlone_of_safe_twoEmpty : ∃ rs e,
    serveAll (onFiles [((1, .put [66]), zeros), ((0, .put [65]), zeros), ((1, .get 7), zeros)])
        twoEmpty = some (rs, e) ∧
      FileStore.objects.repliesFor 1 [(1, .put [66]), (0, .put [65]), (1, .get 7)] rs =
        [.status .ok, .bytes .ok [66]] := by
  have hsafe : SafeRun (onFiles [((1, .put [66]), zeros), ((0, .put [65]), zeros),
      ((1, .get 7), zeros)]) twoEmpty := by
    refine clean_twoEmpty.safeRun ?_
    rw [files_twoEmpty]
    decide +kernel
  obtain ⟨-, rs, e, hrun, hfiles⟩ :=
    servedAlone_of_safe safelyReachable_create hsafe (by decide)
  refine ⟨rs, e, hrun, (hfiles 1).1.trans ?_⟩
  have hfile : twoEmpty.files 1 = File.created 1 fun _ => 0 := by
    rw [files_twoEmpty, Function.update_self]
  rw [show (madeAt 0).setInode 1 (newInode 1 fun _ => 0) = twoEmpty from rfl, hfile]
  decide +kernel

end InodeFs
