import Mergerfs.Fs.Movefile

/-!
# Which file is moved

`fs::movefile` has a descriptor and the path the file was opened by. The path it
copies from and removes is that of the first branch which has an entry at the fusepath
on the device of the descriptor. Branches may share a device, and the file may have
been renamed since, so that this need not be the file that is open.
-/

namespace Mergerfs

def OnDevice (m : Mounts) (fusepath : FusePath) (ans : MoveAnswers) (v : Files)
    (dev : ℕ) (b : Path) : Prop :=
  ∃ st, lstat v (m.slot fusepath b) (ans.lstat b) = some st ∧ st.dev = dev

/-- The first branch with the path on the device of the file `ino` has that file
at the path. -/
def FirstNames (m : Mounts) (basepaths : List Path) (fusepath : FusePath)
    (ans : MoveAnswers) (v : Files) (ino : ℕ) : Prop :=
  ∃ node pre b post, v.inode ino = some node ∧ basepaths = pre ++ b :: post ∧
    OnDevice m fusepath ans v node.dev b ∧
    (∀ b' ∈ pre, ¬ OnDevice m fusepath ans v node.dev b') ∧
    v.entry (m.slot fusepath b) = some ino

section Source

variable {m : Mounts} {basepaths : List Path} {fusepath : FusePath}
  {ans : MoveAnswers} {v : Files} {fd : ℕ} {src : Path}

theorem file_of_findonfs
    (h : findonfs m basepaths fusepath ans v fd = some src) :
    ∃ f node, v.file fd = some f ∧ v.inode f.ino = some node ∧
      fstat v fd ans.findFstat = some node := by
  unfold findonfs at h
  split at h
  · cases h
  · rename_i node hstat
    have hstat' := hstat
    unfold fstat at hstat'
    split_ifs at hstat'
    obtain ⟨f, hf, hnode⟩ := Option.bind_eq_some_iff.mp hstat'
    exact ⟨f, node, hf, hnode, hstat⟩

/-- `fs::findonfs` finds the first branch on the device. -/
theorem findonfs_eq_some_iff {node : Inode}
    (hstat : fstat v fd ans.findFstat = some node) :
    findonfs m basepaths fusepath ans v fd = some src ↔
      OnDevice m fusepath ans v node.dev src ∧
        ∃ pre post, basepaths = pre ++ src :: post ∧
          ∀ b ∈ pre, ¬ OnDevice m fusepath ans v node.dev b := by
  obtain ⟨p, hfind, hp⟩ : ∃ p : Path → Bool,
      findonfs m basepaths fusepath ans v fd = basepaths.find? p ∧
        ∀ b, p b = true ↔ OnDevice m fusepath ans v node.dev b := by
    refine ⟨_, by simp only [findonfs, hstat]; rfl, ?_⟩
    intro b
    unfold OnDevice
    split <;> simp_all
  simp only [hfind, List.find?_eq_some_iff_append, hp, Bool.not_eq_true',
    ← Bool.not_eq_true]

end Source

/-- A move that succeeded copied and removed the path of a branch, and this named
the file that was open exactly when the first branch on the device of the file does. -/
theorem movefile_source_iff (m : Mounts) (basepaths : List Path)
    (fusepath : FusePath) (additionalSize : UInt64) (ans : MoveAnswers)
    (v v' : Files) (origfd origfd' : ℕ)
    (h : movefile m basepaths fusepath additionalSize ans v origfd =
      some (0, v', origfd')) :
    ∃ src ∈ basepaths, ∃ dst ∈ basepaths, ∃ f ino data,
      v.file origfd = some f ∧
      Copied ans.clone (m.slot fusepath src) data v ∧
      Moved (m.slot fusepath src) (m.slot fusepath dst) ans.unlink.isOk ino
        origfd' (getfl v origfd ans.getfl) data v v' ∧
      (v.entry (m.slot fusepath src) = some f.ino ↔
        FirstNames m basepaths fusepath ans v f.ino) := by
  rcases movefile_cases h with ⟨hrv, _⟩ |
    ⟨_, src, dst, ino, data, hroute, hcopied, _, hmoved⟩
  · cases hrv
  · obtain ⟨_, _, hsrc, hdst⟩ := route_eq_some hroute
    obtain ⟨f, node, hf, hnode, hstat⟩ := file_of_findonfs hsrc
    obtain ⟨hdev, pre, post, heq, hpre⟩ := (findonfs_eq_some_iff hstat).mp hsrc
    refine ⟨src, by simp [heq], dst, mem_of_mfs hdst, f, ino, data, hf, hcopied,
      hmoved, ?_⟩
    constructor
    · intro hentry
      exact ⟨node, pre, src, post, hnode, heq, hdev, hpre, hentry⟩
    · rintro ⟨node', pre', b, post', hnode', heq', hdev', hpre', hentry⟩
      cases hnode.symm.trans hnode'
      -- both are the branch the scan ends at
      have hb := (findonfs_eq_some_iff hstat).mpr ⟨hdev', pre', post', heq', hpre'⟩
      cases hsrc.symm.trans hb
      exact hentry

def sharedMounts : Mounts where
  dir p := if p = "/a".toList then 1 else if p = "/b".toList then 2 else 3
  dev d := if d = 3 then 2 else 1

def sameName : Files where
  entry s := if s = (1, "x".toList) then some 10
    else if s = (2, "x".toList) then some 20 else none
  inode i := if i = 10 then some ⟨1, [1, 2]⟩
    else if i = 20 then some ⟨1, [9]⟩ else none
  file fd := if fd = 3 then some ⟨10, false⟩
    else if fd = 6 then some ⟨20, false⟩ else none
  inode_of_entry := by
    intro s i h
    split_ifs at h <;> cases h <;> rfl
  inode_of_file := by
    intro fd f h
    split_ifs at h <;> cases h <;> rfl

def threeBranches : List Path := ["/a".toList, "/b".toList, "/c".toList]

def toThird : MoveAnswers :=
  { moving 0 0 with
    statvfsCache := fun p =>
      some ⟨1, 0, if p = "/c".toList then 9 else 0, 0⟩ }

theorem movefile_source_iff_first :
    (movefile sharedMounts threeBranches theFile 1 toThird sameName 3).map
      Prod.fst = some 0 ∧
    ∀ v' fd', movefile sharedMounts threeBranches theFile 1 toThird sameName 3 =
        some (0, v', fd') →
      ∃ src ∈ threeBranches, ∃ dst ∈ threeBranches, ∃ ino data,
        Moved (sharedMounts.slot theFile src) (sharedMounts.slot theFile dst) true
          ino fd' false data sameName v' ∧
        sameName.entry (sharedMounts.slot theFile src) = some 10 := by
  refine ⟨by decide, ?_⟩
  intro v' fd' h
  obtain ⟨src, hsrc, dst, hdst, f, ino, data, hf, _, hmoved, hiff⟩ :=
    movefile_source_iff _ _ _ _ _ _ _ _ _ h
  cases hf
  exact ⟨src, hsrc, dst, hdst, ino, data, hmoved, hiff.mpr
    ⟨⟨1, [1, 2]⟩, [], "/a".toList, ["/b".toList, "/c".toList], rfl, rfl,
      ⟨⟨1, [1, 2]⟩, rfl, rfl⟩, by simp, rfl⟩⟩

/-- The open file is that of the second branch, and that of the first is copied
and removed. -/
theorem movefile_takes_other :
    content sameName 6 = [9] ∧
    (movefile sharedMounts threeBranches theFile 1 toThird sameName 6).map
      (fun r => (r.1, threeBranches.map fun b =>
        r.2.1.entry (sharedMounts.slot theFile b), content r.2.1 r.2.2)) =
      some (0, [none, some 20, some 11], [1, 2]) := by
  decide

end Mergerfs
