import Mergerfs.Fs.Movefile

/-!
# A move that fails

`fs::movefile` has nine ways to fail. Up to the call of `fs::open` it has nothing to
give back, and after that of `fs::mkstemp` every failure goes through `cleanup:`,
which closes both descriptors and removes the temporary file. Between the two, when
`fs::mkstemp` itself fails, the function returns with the descriptor of the source
still open.
-/

namespace Mergerfs

open Errno

/-- Every name, every file there was and every descriptor is what it was. -/
structure Restored (v v' : Files) : Prop where
  entry : v'.entry = v.entry
  inode : ∀ i, (v.inode i).isSome → v'.inode i = v.inode i
  file : v'.file = v.file

theorem Restored.refl (v : Files) : Restored v v := ⟨rfl, fun _ _ => rfl, rfl⟩

section Undo

variable {tmp src : Slot} {ino fdin fdout : ℕ} {append : Bool} {data : Content}
  {v v₁ w : Files}

/-- Closing both descriptors leaves those that were open before: `v` is before the
source was opened and `v₁` before the temporary file was made. -/
theorem Prepared.file_close_close (h : Prepared tmp ino fdout append data v₁ w)
    (hopen : v.openAt src fdin = some v₁) :
    ((w.close fdin).close fdout).file = v.file := by
  obtain ⟨hfdin, _, _, i, _, hfile⟩ := Vfs.Files.openAt_eq_some hopen
  have hne : fdout ≠ fdin := by
    rintro rfl
    have hunused := h.unused
    rw [hfile, Function.update_self] at hunused
    cases hunused
  have hfdout : v.file fdout = none := by
    have hunused := h.unused
    rwa [hfile, Function.update_of_ne hne] at hunused
  rw [Vfs.Files.file_close, Vfs.Files.file_close, h.file, hfile]
  funext fd
  by_cases hout : fd = fdout
  · rw [hout, Function.update_self, hfdout]
  · by_cases hin : fd = fdin
    · rw [hin, Function.update_of_ne hne.symm, Function.update_self, hfdin]
    · rw [Function.update_of_ne hout, Function.update_of_ne hin,
        Function.update_of_ne hout, Function.update_of_ne hin]

theorem Prepared.inode_of_isSome (h : Prepared tmp ino fdout append data v₁ w)
    (hopen : v.openAt src fdin = some v₁) {i : ℕ} (hi : (v.inode i).isSome) :
    w.inode i = v.inode i := by
  obtain ⟨_, _, hinode, _⟩ := Vfs.Files.openAt_eq_some hopen
  have hne : i ≠ ino := by
    rintro rfl
    rw [← hinode, h.fresh] at hi
    cases hi
  rw [h.inode_of_ne i hne, hinode]

/-- Closing both descriptors and removing the temporary file undoes everything. -/
theorem Prepared.restored (h : Prepared tmp ino fdout append data v₁ w)
    (hopen : v.openAt src fdin = some v₁) :
    Restored v (((w.close fdin).close fdout).unlink tmp) := by
  obtain ⟨_, hentry, _⟩ := Vfs.Files.openAt_eq_some hopen
  refine ⟨?_, fun i hi => h.inode_of_isSome hopen hi, h.file_close_close hopen⟩
  -- the name was free, and is free again
  rw [Vfs.Files.entry_unlink, Vfs.Files.entry_close, Vfs.Files.entry_close, h.entry,
    Function.update_idem, ← hentry]
  exact Function.update_eq_self_iff.mpr h.free.symm

theorem Prepared.restored_cleanup (h : Prepared tmp ino fdout append data v₁ w)
    (hopen : v.openAt src fdin = some v₁) {ans : MoveAnswers}
    (hclean : ans.unlinkTemp = .ok ()) :
    Restored v (cleanup ans tmp fdin fdout w) := by
  rw [cleanup, hclean]
  exact h.restored hopen

end Undo

section Failure

variable (m : Mounts) (basepaths : List Path) (fusepath : FusePath)
  (additionalSize : UInt64) (ans : MoveAnswers) (v : Files) (origfd : ℕ)

def FailsAtMkstemp : Prop :=
  ∃ src dst fdin v₁,
    route m basepaths fusepath additionalSize ans v origfd = some (src, dst) ∧
    openSource ans (m.slot fusepath src) v = some (fdin, v₁) ∧
    mkstemp m fusepath ans dst v₁ = none

/-- A move that fails leaves `origfd`, every name, every file and the set of open
descriptors as they were, exactly if it is not `fs::mkstemp` it fails at. -/
theorem movefile_restores_iff (hclean : ans.unlinkTemp = .ok ()) {v' : Files}
    {origfd' : ℕ}
    (h : movefile m basepaths fusepath additionalSize ans v origfd =
      some (-1, v', origfd')) :
    (origfd' = origfd ∧ Restored v v') ↔
      ¬ FailsAtMkstemp m basepaths fusepath additionalSize ans v origfd := by
  rcases movefile_steps h with ⟨_, rfl, rfl, hnone⟩ |
    ⟨src, dst, fdin, v₁, hroute, hsource, hrest⟩
  · refine iff_of_true ⟨rfl, .refl _⟩ ?_
    rintro ⟨src, dst, fdin, v₁, hroute, hsource, _⟩
    rw [hnone src dst hroute] at hsource
    cases hsource
  · have hopen := openSource_eq_some hsource
    rcases hrest with ⟨_, rfl, rfl, htemp⟩ | ⟨tmp, fdout, v₂, htemp, hover⟩
    · -- the descriptor of the source is still there
      refine iff_of_false ?_
        (not_not.mpr ⟨src, dst, fdin, v', hroute, hsource, htemp⟩)
      rintro ⟨_, hrest⟩
      obtain ⟨hfree, _, _, i, _, hfile⟩ := Vfs.Files.openAt_eq_some hopen
      have hfdin := congrFun hrest.file fdin
      rw [hfile, Function.update_self, hfree] at hfdin
      cases hfdin
    · obtain ⟨_, ino, hprep⟩ := mkstemp_eq_some htemp
      refine iff_of_true ?_ ?_
      · rcases copyOver_steps hprep hover with ⟨_, hfd, a, data, w, hw, rfl⟩ |
          ⟨hrv, _⟩
        · exact ⟨hfd, hw.restored_cleanup hopen hclean⟩
        · cases hrv
      · rintro ⟨src', dst', fdin', v₁', hroute', hsource', htemp'⟩
        cases hroute.symm.trans hroute'
        cases hsource.symm.trans hsource'
        rw [htemp] at htemp'
        cases htemp'

end Failure

def failing (mkstemp : Except Errno Temp) (rename : Rv) : MoveAnswers :=
  { moving 0 9 with mkstemp := mkstemp, rename := rename }

/-- A move that fails at its last step. -/
theorem movefile_restores_iff_rename :
    (movefile twoMounts ["/a".toList, "/b".toList] theFile 1
      (failing (.ok ⟨"000000".toList, 11, 5⟩) (.error EROFS)) oneFile 3).map
        Prod.fst = some (-1) ∧
    ∀ v' fd', movefile twoMounts ["/a".toList, "/b".toList] theFile 1
        (failing (.ok ⟨"000000".toList, 11, 5⟩) (.error EROFS)) oneFile 3 =
          some (-1, v', fd') →
      fd' = 3 ∧ Restored oneFile v' := by
  refine ⟨by decide, fun v' fd' h =>
    (movefile_restores_iff _ _ _ _ _ _ _ rfl h).mpr ?_⟩
  rintro ⟨src, dst, fdin, v₁, hroute, hsource, htemp⟩
  obtain ⟨st, hst, hsrc, hdst⟩ := route_eq_some hroute
  cases hst
  cases findonfs_full.symm.trans hsrc
  cases mfs_full.symm.trans hdst
  cases hsource
  cases htemp

/-- The temporary file cannot be made, and the descriptor `4` of the source stays
open. -/
theorem movefile_leaks :
    oneFile.file 4 = none ∧
    (movefile twoMounts ["/a".toList, "/b".toList] theFile 1
      (failing (.error EROFS) (.ok ())) oneFile 3).map
        (fun r => (r.1, (r.2.1.file 4).isSome)) = some (-1, true) := by
  constructor <;> decide

end Mergerfs
