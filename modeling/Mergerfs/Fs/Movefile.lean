import Mergerfs.Fs.Copy
import Mergerfs.Library.Vfs
import Mergerfs.Policy.Definitions

/-!
# Moving a file to another branch

`fs::movefile` looks for the branch the open file is on, picks the branch with the
most free space, copies the file there under a temporary name, renames the copy
into place, removes the original and exchanges the descriptor for that of the copy.

The file system is that of `Vfs`: a path leads to a place in a directory, and
`Mounts` says which. Two branch paths may lead to one directory, so that files are
compared by their places and never by their paths. What the calls answer is given
by `MoveAnswers`; a call that may succeed does so only if the file system allows it.
-/

namespace Mergerfs

open Errno

abbrev Slot := ℕ × Path

abbrev Files := Vfs.Files Slot ℕ UInt8

abbrev Inode := Vfs.Inode ℕ UInt8

/-- The directory a path names, be it there or not, and the device a directory is
on. -/
structure Mounts where
  dir : Path → ℕ
  dev : ℕ → ℕ

namespace Mounts

def slot (m : Mounts) (fusepath : FusePath) (base : Path) : Slot :=
  (m.dir (make base (dirname fusepath.path)), basename fusepath.path)

def tempSlot (m : Mounts) (fusepath : FusePath) (base tail : Path) : Slot :=
  (m.dir (make base (dirname fusepath.path)),
    basename fusepath.path ++ '.' :: tail)

theorem tempSlot_ne_slot (m : Mounts) (fusepath : FusePath)
    (base tail base' : Path) :
    m.tempSlot fusepath base tail ≠ m.slot fusepath base' := by
  intro h
  have hname := congrArg List.length (Prod.mk.inj h).2
  simp at hname

end Mounts

/-- What `mkstemp` picks: the characters for the `X`s, and the numbers of the new
file and of its descriptor. -/
structure Temp where
  tail : Path
  ino : ℕ
  fd : ℕ

structure MoveAnswers where
  fstat : Rv
  getfl : Rv
  /-- `fs::fstat` in `fs::findonfs`. -/
  findFstat : Rv
  lstat : Path → Rv
  statvfsCache : Path → Option StatVFS
  clonepath : Rv
  /-- The descriptor `fs::open` returns. -/
  openFd : Except Errno ℕ
  mkstemp : Except Errno Temp
  clone : CloneAnswers
  setfl : Rv
  rename : Rv
  unlink : Rv
  /-- `fs::unlink` of the temporary file. -/
  unlinkTemp : Rv

/-! ## The two branches -/

def fstat (v : Files) (fd : ℕ) (ans : Rv) : Option Inode :=
  if ans.isOk then v.stat fd else none

def lstat (v : Files) (s : Slot) (ans : Rv) : Option Inode :=
  if ans.isOk then (v.entry s).bind v.inode else none

def findonfs (m : Mounts) (basepaths : List Path) (fusepath : FusePath)
    (ans : MoveAnswers) (v : Files) (fd : ℕ) : Option Path :=
  match fstat v fd ans.findFstat with
  | none => none
  | some st => basepaths.find? fun b =>
      match lstat v (m.slot fusepath b) (ans.lstat b) with
      | none => false
      | some st' => st'.dev == st.dev

/-- `if(spaceavail <= mfs) continue;` -/
def mostStrict : Scan.Ranking UInt64 where
  atLeast k k' := k' ≤ k
  skip k best := decide (k ≤ best)
  refl := UInt64.le_refl
  trans hab hbc := UInt64.le_trans hbc hab
  of_skip h := by
    rw [decide_eq_true_iff] at h
    exact h
  of_keep h := by
    rw [decide_eq_false_iff_not] at h
    exact UInt64.le_of_lt (UInt64.not_le.mp h)

def spaceTest (statvfsCache : Path → Option StatVFS) (minfreespace : UInt64)
    (basepath : Path) : Except Errno UInt64 :=
  match statvfsCache basepath with
  | none => .error ENOENT
  | some st =>
      if st.spaceavail < minfreespace then .error ENOSPC else .ok st.spaceavail

/-- `fs::mfs`; it fails with `ENOENT` whatever the reasons were. -/
def mfs (basepaths : List Path) (minfreespace : UInt64)
    (statvfsCache : Path → Option StatVFS) : Option Path :=
  (Scan.best (fun e _ => e) mostStrict (spaceTest statvfsCache minfreespace)
    (fun _ => .ok ()) ⟨ENOENT, 0, none⟩ basepaths).chosen

/-- The branch to move from and the branch to move to. -/
def route (m : Mounts) (basepaths : List Path) (fusepath : FusePath)
    (additionalSize : UInt64) (ans : MoveAnswers) (v : Files) (origfd : ℕ) :
    Option (Path × Path) :=
  match fstat v origfd ans.fstat with
  | none => none
  | some st =>
      match findonfs m basepaths fusepath ans v origfd with
      | none => none
      | some src =>
          match mfs basepaths (UInt64.ofNat st.content.length + additionalSize)
            ans.statvfsCache with
          | none => none
          | some dst => if ans.clonepath.isOk then some (src, dst) else none

/-! ## The move -/

/-- The flags of `origfd`; the `-1` of a failed call has every flag set. -/
def getfl (v : Files) (fd : ℕ) (ans : Rv) : Bool :=
  match ans with
  | .ok _ => ((v.file fd).map Vfs.OpenFile.append).getD false
  | .error _ => true

def content (v : Files) (fd : ℕ) : Content :=
  ((v.stat fd).map Vfs.Inode.content).getD []

def cleanup (ans : MoveAnswers) (tmp : Slot) (fdin fdout : ℕ) (v : Files) :
    Files :=
  let v := (v.close fdin).close fdout
  if ans.unlinkTemp.isOk then v.unlink tmp else v

/-- `movefile` from `fs::clonefile` on. -/
def copyOver (ans : MoveAnswers) (src tmp dst : Slot) (append : Bool)
    (fdin fdout : ℕ) (v : Files) (origfd : ℕ) : Option (ℤ × Files × ℕ) :=
  match clonefile ans.clone (content v fdin) (content v fdout) with
  | none => none
  | some (rv, data) =>
      let v := v.modify fdout fun _ _ => data
      if rv = -1 then some (-1, cleanup ans tmp fdin fdout v, origfd)
      else if !ans.setfl.isOk then some (-1, cleanup ans tmp fdin fdout v, origfd)
      else
        let v := v.setAppend fdout append
        if !ans.rename.isOk then
          some (-1, cleanup ans tmp fdin fdout v, origfd)
        else
          let v := v.rename tmp dst
          -- "should we care if it fails?"
          let v := if ans.unlink.isOk then v.unlink src else v
          some (0, (v.close fdin).close origfd, fdout)

def openSource (ans : MoveAnswers) (src : Slot) (v : Files) :
    Option (ℕ × Files) :=
  match ans.openFd with
  | .error _ => none
  | .ok fd => (v.openAt src fd).map fun v => (fd, v)

def mkstemp (m : Mounts) (fusepath : FusePath) (ans : MoveAnswers) (dst : Path)
    (v : Files) : Option (Slot × ℕ × Files) :=
  match ans.mkstemp with
  | .error _ => none
  | .ok temp =>
      let tmp := m.tempSlot fusepath dst temp.tail
      (v.create tmp (m.dev tmp.1) temp.ino temp.fd).map fun v =>
        (tmp, temp.fd, v)

/-- `fs::movefile`: the value returned, the files and `origfd` after it. -/
def movefile (m : Mounts) (basepaths : List Path) (fusepath : FusePath)
    (additionalSize : UInt64) (ans : MoveAnswers) (v : Files) (origfd : ℕ) :
    Option (ℤ × Files × ℕ) :=
  match route m basepaths fusepath additionalSize ans v origfd with
  | none => some (-1, v, origfd)
  | some (src, dst) =>
      let append := getfl v origfd ans.getfl
      match openSource ans (m.slot fusepath src) v with
      | none => some (-1, v, origfd)
      | some (fdin, v) =>
          match mkstemp m fusepath ans dst v with
          -- `fdin` is left open here
          | none => some (-1, v, origfd)
          | some (tmp, fdout, v) =>
              copyOver ans (m.slot fusepath src) tmp (m.slot fusepath dst)
                append fdin fdout v origfd

/-! ## What a move does -/

/-- A move that failed: the files named `leaf` and the descriptors that were open
are what they were. -/
structure Unmoved (leaf : Path) (v v' : Files) : Prop where
  entry : ∀ s : Slot, s.2 = leaf → v'.entry s = v.entry s
  inode : ∀ i, (v.inode i).isSome → v'.inode i = v.inode i
  file : ∀ fd f, v.file fd = some f → v'.file fd = some f

/-- A move that succeeded: the new file `ino` with the content `data` is in place
at `dst` and open at `fd`, and `src` names nothing if it could be removed. -/
structure Moved (src dst : Slot) (unlinked : Bool) (ino fd : ℕ) (append : Bool)
    (data : Content) (v v' : Files) : Prop where
  fresh : v.inode ino = none
  entry : v'.entry =
    if unlinked then Function.update (Function.update v.entry dst (some ino)) src
      none
    else Function.update v.entry dst (some ino)
  file : v'.file fd = some ⟨ino, append⟩
  inode : ∃ node : Inode, v'.inode ino = some node ∧ node.content = data
  inode_of_ne : ∀ i ≠ ino, v'.inode i = v.inode i

def Copied (ans : CloneAnswers) (src : Slot) (data : Content) (v : Files) :
    Prop :=
  ∃ (i : ℕ) (node : Inode) (rv : ℤ), v.entry src = some i ∧
    v.inode i = some node ∧
    clonefile ans node.content [] = some (rv, data) ∧ rv ≠ -1

theorem Unmoved.refl (leaf : Path) (v : Files) : Unmoved leaf v v :=
  ⟨fun _ _ => rfl, fun _ _ => rfl, fun _ _ h => h⟩

theorem Unmoved.trans {leaf : Path} {v₁ v₂ v₃ : Files}
    (h₁₂ : Unmoved leaf v₁ v₂) (h₂₃ : Unmoved leaf v₂ v₃) :
    Unmoved leaf v₁ v₃ := by
  refine ⟨?_, ?_, fun fd f hf => h₂₃.file fd f (h₁₂.file fd f hf)⟩
  · intro s hs
    rw [h₂₃.entry s hs, h₁₂.entry s hs]
  · intro i hi
    have hsame := h₁₂.inode i hi
    rw [h₂₃.inode i (hsame ▸ hi), hsame]

theorem ne_of_snd {s tmp : Slot} {leaf : Path} (htmp : tmp.2 ≠ leaf)
    (hs : s.2 = leaf) : s ≠ tmp := by
  rintro rfl
  exact htmp hs

theorem file_of_openAt {v v₁ : Files} {s : Slot} {fdin : ℕ}
    (h : v.openAt s fdin = some v₁) {fd : ℕ} {f : Vfs.OpenFile}
    (hf : v.file fd = some f) : v₁.file fd = some f := by
  obtain ⟨hfree, _, _, i, _, hfile⟩ := Vfs.Files.openAt_eq_some h
  have hne : fd ≠ fdin := by
    rintro rfl
    rw [hf] at hfree
    cases hfree
  rw [hfile, Function.update_of_ne hne, hf]

theorem unmoved_openAt {v v₁ : Files} {s : Slot} {fdin : ℕ}
    (h : v.openAt s fdin = some v₁) (leaf : Path) : Unmoved leaf v v₁ := by
  obtain ⟨_, hentry, hinode, _⟩ := Vfs.Files.openAt_eq_some h
  refine ⟨?_, ?_, fun fd f hf => file_of_openAt h hf⟩
  · intro s _
    rw [hentry]
  · intro i _
    rw [hinode]

/-- The file system between `fs::mkstemp` and `fs::rename`: a new file `ino` that
only `tmp` names, with the descriptor `fdout`. -/
structure Prepared (tmp : Slot) (ino fdout : ℕ) (append : Bool) (data : Content)
    (v v' : Files) : Prop where
  free : v.entry tmp = none
  fresh : v.inode ino = none
  unused : v.file fdout = none
  entry : v'.entry = Function.update v.entry tmp (some ino)
  file : v'.file = Function.update v.file fdout (some ⟨ino, append⟩)
  inode : ∃ node : Inode, v'.inode ino = some node ∧ node.content = data
  inode_of_ne : ∀ i ≠ ino, v'.inode i = v.inode i

namespace Prepared

variable {tmp : Slot} {ino fdout : ℕ} {append : Bool} {data : Content}
  {v v' : Files}

theorem create {dev : ℕ} (h : v.create tmp dev ino fdout = some v') :
    Prepared tmp ino fdout false [] v v' := by
  obtain ⟨hfree, hfresh, hunused, hentry, hinode, hfile⟩ :=
    Vfs.Files.create_eq_some h
  refine ⟨hfree, hfresh, hunused, hentry, hfile, ⟨⟨dev, []⟩, ?_, rfl⟩, ?_⟩
  · rw [hinode, Function.update_self]
  · intro i hi
    rw [hinode, Function.update_of_ne hi]

theorem file_fdout (h : Prepared tmp ino fdout append data v v') :
    v'.file fdout = some ⟨ino, append⟩ := by
  rw [h.file, Function.update_self]

theorem file_of_file (h : Prepared tmp ino fdout append data v v') {fd : ℕ}
    {f : Vfs.OpenFile} (hf : v.file fd = some f) :
    fd ≠ fdout ∧ v'.file fd = some f := by
  have hne : fd ≠ fdout := by
    rintro rfl
    rw [h.unused] at hf
    cases hf
  exact ⟨hne, by rw [h.file, Function.update_of_ne hne, hf]⟩

theorem content_fdout (h : Prepared tmp ino fdout append data v v') :
    content v' fdout = data := by
  obtain ⟨node, hnode, hdata⟩ := h.inode
  simp [content, Vfs.Files.stat, h.file_fdout, hnode, hdata]

theorem content_of_file (h : Prepared tmp ino fdout append data v v') {fd : ℕ}
    {f : Vfs.OpenFile} (hf : v.file fd = some f) {node : Inode}
    (hnode : v.inode f.ino = some node) : content v' fd = node.content := by
  have hne : f.ino ≠ ino := by
    intro heq
    rw [heq, h.fresh] at hnode
    cases hnode
  simp [content, Vfs.Files.stat, (h.file_of_file hf).2, h.inode_of_ne _ hne,
    hnode]

theorem modify (h : Prepared tmp ino fdout append data v v') (data' : Content) :
    Prepared tmp ino fdout append data' v
      (v'.modify fdout fun _ _ => data') := by
  obtain ⟨node, hnode, _⟩ := h.inode
  have hmod := Vfs.Files.inode_modify (fun _ _ => data') h.file_fdout hnode
  refine ⟨h.free, h.fresh, h.unused, ?_, ?_, ⟨{ node with content := data' },
    ?_, rfl⟩, ?_⟩
  · rw [Vfs.Files.entry_modify, h.entry]
  · rw [Vfs.Files.file_modify, h.file]
  · rw [hmod, Function.update_self]
  · intro i hi
    rw [hmod, Function.update_of_ne hi, h.inode_of_ne i hi]

theorem setAppend (h : Prepared tmp ino fdout append data v v')
    (append' : Bool) :
    Prepared tmp ino fdout append' data v (v'.setAppend fdout append') := by
  refine ⟨h.free, h.fresh, h.unused, h.entry, ?_, h.inode, h.inode_of_ne⟩
  rw [Vfs.Files.file_setAppend, h.file_fdout, h.file, Function.update_idem]
  rfl

/-- The temporary file changes nothing but its own name, number and descriptor. -/
theorem unmoved (h : Prepared tmp ino fdout append data v v') {leaf : Path}
    (hleaf : tmp.2 ≠ leaf) : Unmoved leaf v v' := by
  refine ⟨?_, ?_, fun fd f hf => (h.file_of_file hf).2⟩
  · intro s hs
    rw [h.entry, Function.update_of_ne (ne_of_snd hleaf hs)]
  · intro i hi
    refine h.inode_of_ne i ?_
    rintro rfl
    rw [h.fresh] at hi
    cases hi

theorem unmoved_cleanup (h : Prepared tmp ino fdout append data v v')
    {leaf : Path} (hleaf : tmp.2 ≠ leaf) {v₀ : Files} {fdin : ℕ}
    (hv : Unmoved leaf v₀ v) (hfdin : v₀.file fdin = none)
    (ans : MoveAnswers) :
    Unmoved leaf v₀ (cleanup ans tmp fdin fdout v') := by
  have hall : Unmoved leaf v₀ v' := hv.trans (h.unmoved hleaf)
  have hfile : ∀ fd f, v₀.file fd = some f →
      Function.update (Function.update v'.file fdin none) fdout none fd =
        some f := by
    intro fd f hf
    have hne : fd ≠ fdin := by
      rintro rfl
      rw [hf] at hfdin
      cases hfdin
    have hne' : fd ≠ fdout := (h.file_of_file (hv.file fd f hf)).1
    rw [Function.update_of_ne hne', Function.update_of_ne hne, hall.file fd f hf]
  unfold cleanup
  dsimp only
  split_ifs
  · refine ⟨?_, hall.inode, hfile⟩
    intro s hs
    rw [Vfs.Files.entry_unlink, Function.update_of_ne (ne_of_snd hleaf hs)]
    exact hall.entry s hs
  · exact ⟨hall.entry, hall.inode, hfile⟩

/-- The rename puts the new file in place and leaves no trace of its temporary
name. -/
theorem entry_rename (h : Prepared tmp ino fdout append data v v') {dst : Slot}
    (hdst : tmp ≠ dst) :
    (v'.rename tmp dst).entry = Function.update v.entry dst (some ino) := by
  have htmp : v'.entry tmp = some ino := by
    rw [h.entry, Function.update_self]
  have hother : v'.entry dst = v.entry dst := by
    rw [h.entry, Function.update_of_ne hdst.symm]
  -- the new number is that of no other file, so the rename is not a no-op
  have hne : v'.entry tmp ≠ v'.entry dst := by
    rw [htmp, hother]
    intro heq
    exact Vfs.Files.ne_of_entry h.fresh heq.symm rfl
  rw [Vfs.Files.entry_rename hne, htmp, h.entry]
  funext s
  by_cases hs : s = tmp
  · subst hs
    rw [Function.update_self, Function.update_of_ne hdst, h.free]
  · rw [Function.update_of_ne hs]
    by_cases hs' : s = dst
    · subst hs'
      rw [Function.update_self, Function.update_self]
    · rw [Function.update_of_ne hs', Function.update_of_ne hs',
        Function.update_of_ne hs]

theorem moved (h : Prepared tmp ino fdout append data v v') {src dst : Slot}
    (hdst : tmp ≠ dst) {v₀ : Files} {fdin : ℕ}
    (hopen : v₀.openAt src fdin = some v) {origfd : ℕ} {f : Vfs.OpenFile}
    (horig : v₀.file origfd = some f) (unlinked : Bool) :
    Moved src dst unlinked ino fdout append data v₀
      (((if unlinked then (v'.rename tmp dst).unlink src
        else v'.rename tmp dst).close fdin).close origfd) := by
  obtain ⟨_, hentry, hinode, i, _, hfile⟩ := Vfs.Files.openAt_eq_some hopen
  have hin : v.file fdin = some ⟨i, false⟩ := by
    rw [hfile, Function.update_self]
  have hne : fdout ≠ fdin := (h.file_of_file hin).1.symm
  have hne' : fdout ≠ origfd :=
    (h.file_of_file (file_of_openAt hopen horig)).1.symm
  have hren := h.entry_rename hdst
  rw [hentry] at hren
  refine ⟨hinode ▸ h.fresh, ?_, ?_, ?_, ?_⟩
  · cases unlinked with
    | false => exact hren
    | true => simp [hren]
  · cases unlinked <;>
      simp [Function.update_of_ne hne, Function.update_of_ne hne', h.file_fdout]
  · cases unlinked <;> simpa using h.inode
  · intro i hi
    rw [← hinode, ← h.inode_of_ne i hi]
    cases unlinked <;> simp

end Prepared

/-- The ways out of the last steps, from the files `v₁` before the temporary file was
made: to `cleanup:` with the file in whatever state it was in, or past the rename. -/
theorem copyOver_steps {ans : MoveAnswers} {src tmp dst : Slot}
    {append : Bool} {fdin fdout ino origfd fd' : ℕ} {v₁ v₂ v' : Files} {rv : ℤ}
    (hprep : Prepared tmp ino fdout false [] v₁ v₂)
    (h : copyOver ans src tmp dst append fdin fdout v₂ origfd =
      some (rv, v', fd')) :
    (rv = -1 ∧ fd' = origfd ∧ ∃ a data w, Prepared tmp ino fdout a data v₁ w ∧
      v' = cleanup ans tmp fdin fdout w) ∨
    (rv = 0 ∧ fd' = fdout ∧ ∃ rvc data w,
      clonefile ans.clone (content v₂ fdin) [] = some (rvc, data) ∧ rvc ≠ -1 ∧
      ans.rename.isOk = true ∧ Prepared tmp ino fdout append data v₁ w ∧
      v' = ((if ans.unlink.isOk then (w.rename tmp dst).unlink src
        else w.rename tmp dst).close fdin).close origfd) := by
  unfold copyOver at h
  rw [hprep.content_fdout] at h
  split at h
  · cases h
  · rename_i rvc data hclone
    have hmod := hprep.modify data
    have hset := hmod.setAppend append
    dsimp only at h
    by_cases hrv : rvc = -1
    · rw [if_pos hrv] at h
      cases h
      exact .inl ⟨rfl, rfl, _, _, _, hmod, rfl⟩
    · rw [if_neg hrv] at h
      split at h
      · cases h
        exact .inl ⟨rfl, rfl, _, _, _, hmod, rfl⟩
      · split at h
        · cases h
          exact .inl ⟨rfl, rfl, _, _, _, hset, rfl⟩
        · rename_i hrename
          cases h
          exact .inr ⟨rfl, rfl, rvc, data, _, hclone, hrv, by simpa using hrename,
            hset, rfl⟩

theorem copyOver_cases {ans : MoveAnswers} {src tmp dst : Slot}
    {append : Bool} {fdin fdout ino origfd fd' : ℕ} {v v₁ v₂ v' : Files} {rv : ℤ}
    (hopen : v.openAt src fdin = some v₁)
    (hprep : Prepared tmp ino fdout false [] v₁ v₂)
    (htmp : tmp.2 ≠ dst.2) {f : Vfs.OpenFile} (horig : v.file origfd = some f)
    (h : copyOver ans src tmp dst append fdin fdout v₂ origfd =
      some (rv, v', fd')) :
    rv = -1 ∧ fd' = origfd ∧ Unmoved dst.2 v v' ∨
    rv = 0 ∧ ∃ data, Copied ans.clone src data v ∧
      ans.rename.isOk = true ∧ Moved src dst ans.unlink.isOk ino fd' append data v v' := by
  obtain ⟨hfree, _, hinode, i, hi, hfile⟩ := Vfs.Files.openAt_eq_some hopen
  have hin : v₁.file fdin = some ⟨i, false⟩ := by
    rw [hfile, Function.update_self]
  obtain ⟨node, hnode⟩ := Vfs.Files.exists_inode_of_entry hi
  have hsrc : content v₂ fdin = node.content :=
    hprep.content_of_file hin (hinode ▸ hnode)
  rcases copyOver_steps hprep h with ⟨hrv, hfd, a, data, w, hw, rfl⟩ |
    ⟨hrv, rfl, rvc, data, w, hclone, hrvc, hrename, hw, rfl⟩
  · exact .inl ⟨hrv, hfd, hw.unmoved_cleanup htmp (unmoved_openAt hopen dst.2) hfree
      ans⟩
  · rw [hsrc] at hclone
    have hne : tmp ≠ dst := fun heq => htmp (congrArg Prod.snd heq)
    exact .inr ⟨hrv, data, ⟨i, node, rvc, hi, hnode, hclone, hrvc⟩, hrename,
      hw.moved hne hopen horig _⟩

theorem mem_of_mfs {basepaths : List Path} {minfreespace : UInt64}
    {statvfsCache : Path → Option StatVFS} {dst : Path}
    (h : mfs basepaths minfreespace statvfsCache = some dst) :
    dst ∈ basepaths := by
  rcases Scan.best_chosen _ _ _ _ _ h with ⟨hmem, _⟩ | ⟨hnone, _⟩
  · exact hmem
  · cases hnone

theorem route_eq_some {m : Mounts} {basepaths : List Path} {fusepath : FusePath}
    {additionalSize : UInt64} {ans : MoveAnswers} {v : Files} {origfd : ℕ}
    {src dst : Path}
    (h : route m basepaths fusepath additionalSize ans v origfd =
      some (src, dst)) :
    ∃ st, fstat v origfd ans.fstat = some st ∧
      findonfs m basepaths fusepath ans v origfd = some src ∧
      mfs basepaths (UInt64.ofNat st.content.length + additionalSize)
        ans.statvfsCache = some dst := by
  unfold route at h
  split at h
  · cases h
  · rename_i st hst
    split at h
    · cases h
    · rename_i src' hsrc
      split at h
      · cases h
      · rename_i dst' hdst
        split_ifs at h
        cases h
        exact ⟨st, hst, hsrc, hdst⟩

theorem file_of_fstat {v : Files} {fd : ℕ} {ans : Rv} {st : Inode}
    (h : fstat v fd ans = some st) : ∃ f, v.file fd = some f := by
  unfold fstat at h
  split_ifs at h
  obtain ⟨f, hf, _⟩ := Option.bind_eq_some_iff.mp h
  exact ⟨f, hf⟩

theorem openSource_eq_some {ans : MoveAnswers} {src : Slot} {v v₁ : Files}
    {fdin : ℕ} (h : openSource ans src v = some (fdin, v₁)) :
    v.openAt src fdin = some v₁ := by
  unfold openSource at h
  split at h
  · cases h
  · obtain ⟨w, hw, heq⟩ := Option.map_eq_some_iff.mp h
    cases heq
    exact hw

theorem mkstemp_eq_some {m : Mounts} {fusepath : FusePath} {ans : MoveAnswers}
    {dst : Path} {v v₁ : Files} {tmp : Slot} {fdout : ℕ}
    (h : mkstemp m fusepath ans dst v = some (tmp, fdout, v₁)) :
    tmp.2 ≠ (m.slot fusepath dst).2 ∧
      ∃ ino, Prepared tmp ino fdout false [] v v₁ := by
  unfold mkstemp at h
  split at h
  · cases h
  · rename_i temp _
    obtain ⟨w, hw, heq⟩ := Option.map_eq_some_iff.mp h
    cases heq
    refine ⟨?_, temp.ino, .create hw⟩
    intro hsame
    exact m.tempSlot_ne_slot fusepath dst temp.tail dst (Prod.ext rfl hsame)

theorem movefile_steps {m : Mounts} {basepaths : List Path}
    {fusepath : FusePath} {additionalSize : UInt64} {ans : MoveAnswers}
    {v v' : Files} {origfd fd' : ℕ} {rv : ℤ}
    (h : movefile m basepaths fusepath additionalSize ans v origfd =
      some (rv, v', fd')) :
    (rv = -1 ∧ v' = v ∧ fd' = origfd ∧
      ∀ src dst, route m basepaths fusepath additionalSize ans v origfd =
        some (src, dst) → openSource ans (m.slot fusepath src) v = none) ∨
    ∃ src dst fdin v₁,
      route m basepaths fusepath additionalSize ans v origfd = some (src, dst) ∧
      openSource ans (m.slot fusepath src) v = some (fdin, v₁) ∧
      ((rv = -1 ∧ v' = v₁ ∧ fd' = origfd ∧ mkstemp m fusepath ans dst v₁ = none) ∨
        ∃ tmp fdout v₂, mkstemp m fusepath ans dst v₁ = some (tmp, fdout, v₂) ∧
          copyOver ans (m.slot fusepath src) tmp (m.slot fusepath dst)
            (getfl v origfd ans.getfl) fdin fdout v₂ origfd =
              some (rv, v', fd')) := by
  unfold movefile at h
  split at h
  · rename_i hroute
    cases h
    refine .inl ⟨rfl, rfl, rfl, fun src dst hsome => ?_⟩
    rw [hroute] at hsome
    cases hsome
  · rename_i src dst hroute
    dsimp only at h
    split at h
    · rename_i hsource
      cases h
      refine .inl ⟨rfl, rfl, rfl, fun src' dst' hsome => ?_⟩
      cases hroute.symm.trans hsome
      exact hsource
    · rename_i fdin v₁ hsource
      refine .inr ⟨src, dst, fdin, v₁, hroute, hsource, ?_⟩
      split at h
      · rename_i htemp
        cases h
        exact .inl ⟨rfl, rfl, rfl, htemp⟩
      · rename_i tmp fdout v₂ htemp
        exact .inr ⟨tmp, fdout, v₂, htemp, h⟩

/-- What `fs::movefile` can do. -/
theorem movefile_cases {m : Mounts} {basepaths : List Path}
    {fusepath : FusePath} {additionalSize : UInt64} {ans : MoveAnswers}
    {v v' : Files} {origfd fd' : ℕ} {rv : ℤ}
    (h : movefile m basepaths fusepath additionalSize ans v origfd =
      some (rv, v', fd')) :
    rv = -1 ∧ fd' = origfd ∧ Unmoved (basename fusepath.path) v v' ∨
    rv = 0 ∧ ∃ src dst ino data,
      route m basepaths fusepath additionalSize ans v origfd =
        some (src, dst) ∧
      Copied ans.clone (m.slot fusepath src) data v ∧
      ans.rename.isOk = true ∧
      Moved (m.slot fusepath src) (m.slot fusepath dst) ans.unlink.isOk ino fd'
        (getfl v origfd ans.getfl) data v v' := by
  rcases movefile_steps h with ⟨rfl, rfl, rfl, _⟩ |
    ⟨src, dst, fdin, v₁, hroute, hsource, hrest⟩
  · exact .inl ⟨rfl, rfl, .refl _ _⟩
  · obtain ⟨st, hst, _⟩ := route_eq_some hroute
    obtain ⟨f, hf⟩ := file_of_fstat hst
    have hopen := openSource_eq_some hsource
    rcases hrest with ⟨rfl, rfl, rfl, _⟩ | ⟨tmp, fdout, v₂, htemp, hover⟩
    · exact .inl ⟨rfl, rfl, unmoved_openAt hopen _⟩
    · obtain ⟨hname, ino, hprep⟩ := mkstemp_eq_some htemp
      rcases copyOver_cases hopen hprep hname hf hover with
        hfail | ⟨hrv, data, hdone⟩
      · exact .inl hfail
      · exact .inr ⟨hrv, src, dst, ino, data, hroute, hdone⟩

/-! ## Whether the file is kept -/

/-- The new file is named by every place that leads to the destination, unless
the source was there as well and was removed. -/
theorem Moved.entry_eq_iff {src dst : Slot} {unlinked append : Bool}
    {ino fd : ℕ} {data : Content} {v v' : Files}
    (h : Moved src dst unlinked ino fd append data v v') (s : Slot) :
    v'.entry s = some ino ↔ s = dst ∧ (src ≠ dst ∨ unlinked = false) := by
  have hput : Function.update v.entry dst (some ino) s = some ino ↔
      s = dst := by
    constructor
    · intro hs
      by_contra hne
      rw [Function.update_of_ne hne] at hs
      exact Vfs.Files.ne_of_entry h.fresh hs rfl
    · rintro rfl
      exact Function.update_self ..
  rw [h.entry]
  cases unlinked with
  | false => simpa using hput
  | true =>
      rw [if_pos rfl]
      by_cases hs : s = src
      · subst hs
        rw [Function.update_self]
        simp
      · rw [Function.update_of_ne hs, hput]
        constructor
        · rintro rfl
          exact ⟨rfl, .inl (Ne.symm hs)⟩
        · exact And.left

theorem Moved.entry_eq_none {src dst : Slot} {unlinked append : Bool}
    {ino fd : ℕ} {data : Content} {v v' : Files}
    (h : Moved src dst unlinked ino fd append data v v') {s : Slot}
    (hs : s ≠ dst) (hnone : v.entry s = none ∨ s = src ∧ unlinked = true) :
    v'.entry s = none := by
  have hput : Function.update v.entry dst (some ino) s = v.entry s :=
    Function.update_of_ne hs _ _
  rw [h.entry]
  rcases hnone with hnone | ⟨rfl, rfl⟩
  · by_cases hsrc : s = src
    · subst hsrc
      split_ifs
      · exact Function.update_self ..
      · rw [hput, hnone]
    · split_ifs
      · rw [Function.update_of_ne hsrc, hput, hnone]
      · rw [hput, hnone]
  · rw [if_pos rfl, Function.update_self]

/-- After a move that returned `0` some branch has an entry at the path, and the
entry is the file `origfd` refers to, exactly when the branch the file was found
on and the branch with the most free space do not lead to the same place, or the
original could not be removed. -/
theorem movefile_keeps_iff (m : Mounts) (basepaths : List Path)
    (fusepath : FusePath) (additionalSize : UInt64) (ans : MoveAnswers)
    (v v' : Files) (origfd origfd' : ℕ)
    (h : movefile m basepaths fusepath additionalSize ans v origfd =
      some (0, v', origfd')) :
    (∃ b ∈ basepaths, ∃ f, v'.file origfd' = some f ∧
      v'.entry (m.slot fusepath b) = some f.ino) ↔
    ∀ st src dst, fstat v origfd ans.fstat = some st →
      findonfs m basepaths fusepath ans v origfd = some src →
      mfs basepaths (UInt64.ofNat st.content.length + additionalSize)
        ans.statvfsCache = some dst →
      m.slot fusepath src ≠ m.slot fusepath dst ∨
        ans.unlink.isOk = false := by
  rcases movefile_cases h with ⟨hrv, _⟩ |
    ⟨_, src, dst, ino, data, hroute, _, _, hmoved⟩
  · cases hrv
  · obtain ⟨st, hst, hsrc, hdst⟩ := route_eq_some hroute
    constructor
    · rintro ⟨b, _, f, hf, hentry⟩ st' src' dst' hst' hsrc' hdst'
      cases hst.symm.trans hst'
      cases hsrc.symm.trans hsrc'
      cases hdst.symm.trans hdst'
      cases hmoved.file.symm.trans hf
      exact ((hmoved.entry_eq_iff _).mp hentry).2
    · intro hapart
      exact ⟨dst, mem_of_mfs hdst, _, hmoved.file,
        (hmoved.entry_eq_iff _).mpr ⟨rfl, hapart st src dst hst hsrc hdst⟩⟩

def twoMounts : Mounts where
  dir p := if p = "/a".toList then 1 else 2
  dev d := d

def theFile : FusePath := .top ['x']

def oneFile : Files where
  entry s := if s = (1, "x".toList) then some 10 else none
  inode i := if i = 10 then some ⟨1, [1, 2]⟩ else none
  file fd := if fd = 3 ∨ fd = 6 then some ⟨10, false⟩ else none
  inode_of_entry := by
    intro s i h
    split_ifs at h
    cases h
    rfl
  inode_of_file := by
    intro fd f h
    split_ifs at h
    cases h
    rfl

def moving (a b : UInt64) : MoveAnswers where
  fstat := .ok ()
  getfl := .ok ()
  findFstat := .ok ()
  lstat _ := .ok ()
  statvfsCache p := some ⟨1, 0, if p = "/a".toList then a else b, 0⟩
  clonepath := .ok ()
  openFd := .ok 4
  mkstemp := .ok ⟨"000000".toList, 11, 5⟩
  clone := copyingUpTo 2
  setfl := .ok ()
  rename := .ok ()
  unlink := .ok ()
  unlinkTemp := .ok ()

theorem findonfs_full : findonfs twoMounts ["/a".toList, "/b".toList] theFile
    (moving 0 9) oneFile 3 = some "/a".toList := by
  decide

theorem mfs_full : mfs ["/a".toList, "/b".toList] 3 (moving 0 9).statvfsCache =
    some "/b".toList := by
  decide

/-- A file on a full branch is moved to the other one. -/
theorem movefile_keeps_iff_full :
    (movefile twoMounts ["/a".toList, "/b".toList] theFile 1 (moving 0 9) oneFile
      3).map Prod.fst = some 0 ∧
    ∀ v' fd', movefile twoMounts ["/a".toList, "/b".toList] theFile 1
        (moving 0 9) oneFile 3 = some (0, v', fd') →
      ∃ b ∈ ["/a".toList, "/b".toList], ∃ f, v'.file fd' = some f ∧
        v'.entry (twoMounts.slot theFile b) = some f.ino := by
  refine ⟨by decide, fun v' fd' h =>
    (movefile_keeps_iff _ _ _ _ _ _ _ _ _ h).mpr ?_⟩
  intro st src dst hst hsrc hdst
  cases hst
  cases findonfs_full.symm.trans hsrc
  cases mfs_full.symm.trans hdst
  exact .inl (by decide)

/-- A branch that refuses a write and still reports free space is the one the
file is moved to, and the file is gone. -/
theorem movefile_loses :
    (movefile twoMounts ["/a".toList] theFile 1 (moving 9 0) oneFile 3).map
      (fun r => (r.1, ["/a".toList].map fun b =>
        r.2.1.entry (twoMounts.slot theFile b))) = some (0, [none]) := by
  decide

end Mergerfs
