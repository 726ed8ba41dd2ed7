import Mathlib.Data.List.OfFn
import Mergerfs.Fs.CloneErrno
import Mergerfs.Fs.MoveFailure

/-!
# Breaking a hard link

`fs::cow::break_link` gives a path a file of its own: it copies the file to a
temporary one beside it and renames the copy into place. The name of the temporary
file is drawn up to ten times by `fs::mktemp`, until one is free. Every failure after
the source was opened goes through `cleanup_on_error`, which keeps `errno`.
-/

namespace Mergerfs

open Errno

/-! ## The temporary file -/

/-- One turn of the loop of `fs::mktemp`: what `std::rand` returns, and the numbers
of the new file and of its descriptor if the call of `fs::open` is not refused. -/
structure Attempt where
  rand : Fin 6 → ℕ
  answer : Except Errno (ℕ × ℕ)

def generateTmpPath (base : Slot) (rand : Fin 6 → ℕ) : Slot :=
  (base.1, base.2 ++ '_' :: List.ofFn fun i => Char.ofNat ('A'.toNat + rand i % 26))

/-- `fs::open` with `O_EXCL | O_CREAT`: a name that is there is not opened. -/
def openExcl (dev : ℕ → ℕ) (tmp : Slot) (answer : Except Errno (ℕ × ℕ))
    (v : Files) : Option (Except Errno (ℕ × Files)) :=
  match answer with
  | .error e => some (.error e)
  | .ok (ino, fd) =>
      if (v.entry tmp).isSome then some (.error EEXIST)
      else (v.create tmp (dev tmp.1) ino fd).map fun v => .ok (fd, v)

/-- The loop of `fs::mktemp` with `count` turns left: the path it made, the
descriptor and the files. -/
def mktemp (dev : ℕ → ℕ) (base : Slot) (attempts : ℕ → Attempt) :
    ℕ → Files → Option (Except Errno (Slot × ℕ × Files))
  | 0, _ => some (.error EEXIST)
  | count + 1, v =>
      let tmp := generateTmpPath base (attempts count).rand
      match openExcl dev tmp (attempts count).answer v with
      | none => none
      | some (.error e) =>
          if e = EEXIST then mktemp dev base attempts count v
          else some (.error e)
      | some (.ok (fd, v)) => some (.ok (tmp, fd, v))

theorem generateTmpPath_ne (base : Slot) (rand : Fin 6 → ℕ) :
    generateTmpPath base rand ≠ base := by
  intro h
  have hname := congrArg List.length (Prod.mk.inj h).2
  simp at hname

section Mktemp

variable (dev : ℕ → ℕ) (base : Slot) (attempts : ℕ → Attempt) (v : Files)

def Collides (count : ℕ) : Prop :=
  openExcl dev (generateTmpPath base (attempts count).rand) (attempts count).answer
    v = some (.error EEXIST)

inductive MktempFailure (count : ℕ) (e : Errno) : Prop
  | exhausted (he : e = EEXIST) (h : ∀ k < count, Collides dev base attempts v k)
  | refused (k : ℕ) (hk : k < count) (h : (attempts k).answer = .error e)
      (he : e ≠ EEXIST)
      (hbefore : ∀ j, k < j → j < count → Collides dev base attempts v j)

variable {dev base attempts v}

theorem MktempFailure.succ {count : ℕ} {e : Errno}
    (hcollides : Collides dev base attempts v count)
    (h : MktempFailure dev base attempts v count e) :
    MktempFailure dev base attempts v (count + 1) e := by
  cases h with
  | exhausted he h =>
      refine .exhausted he fun k hk => ?_
      rcases Nat.lt_succ_iff_lt_or_eq.mp hk with hlt | rfl
      · exact h k hlt
      · exact hcollides
  | refused k hk h he hbefore =>
      refine .refused k (by omega) h he fun j hkj hj => ?_
      rcases Nat.lt_succ_iff_lt_or_eq.mp hj with hlt | rfl
      · exact hbefore j hkj hlt
      · exact hcollides

theorem openExcl_eq_error {tmp : Slot} {answer : Except Errno (ℕ × ℕ)} {e : Errno}
    (h : openExcl dev tmp answer v = some (.error e)) (he : e ≠ EEXIST) :
    answer = .error e := by
  unfold openExcl at h
  split at h
  · cases h
    rfl
  · split_ifs at h
    · cases h
      exact absurd rfl he
    · obtain ⟨_, _, heq⟩ := Option.map_eq_some_iff.mp h
      cases heq

theorem openExcl_eq_ok {tmp : Slot} {answer : Except Errno (ℕ × ℕ)} {fd : ℕ}
    {v' : Files} (h : openExcl dev tmp answer v = some (.ok (fd, v'))) :
    ∃ ino, Prepared tmp ino fd false [] v v' := by
  unfold openExcl at h
  split at h
  · cases h
  · rename_i ino fd'
    split_ifs at h
    · cases h
    · obtain ⟨w, hw, heq⟩ := Option.map_eq_some_iff.mp h
      cases heq
      exact ⟨ino, .create hw⟩

theorem mktemp_eq_error {count : ℕ} {e : Errno}
    (h : mktemp dev base attempts count v = some (.error e)) :
    MktempFailure dev base attempts v count e := by
  induction count with
  | zero =>
      cases h
      exact .exhausted rfl fun k hk => absurd hk (Nat.not_lt_zero k)
  | succ count ih =>
      rw [mktemp] at h
      split at h
      · cases h
      · rename_i e' hopen
        split_ifs at h with he
        · subst he
          exact (ih h).succ hopen
        · cases h
          refine .refused count (Nat.lt_succ_self _) (openExcl_eq_error hopen he) he ?_
          intro j hj hj'
          omega
      · cases h

/-- Whatever the number of collisions was, the file is a new one under a name that
was free. -/
theorem mktemp_eq_ok {count : ℕ} {tmp : Slot} {fd : ℕ} {v' : Files}
    (h : mktemp dev base attempts count v = some (.ok (tmp, fd, v'))) :
    tmp ≠ base ∧ ∃ ino, Prepared tmp ino fd false [] v v' := by
  induction count with
  | zero => cases h
  | succ count ih =>
      rw [mktemp] at h
      split at h
      · cases h
      · split_ifs at h
        · exact ih h
        · cases h
      · rename_i fd₁ v₁ hopen
        cases h
        exact ⟨generateTmpPath_ne _ _, openExcl_eq_ok hopen⟩

end Mktemp

/-! ## Breaking the link -/

/-- What the calls of one `break_link` answer; those of `fs::close` and `fs::unlink`
succeed. -/
structure BreakAnswers where
  openFd : Except Errno ℕ
  attempts : ℕ → Attempt
  clone : CloneAnswers
  rename : Rv

def openLink (answer : Except Errno ℕ) (src : Slot) (v : Files) :
    Option (Except Errno (ℕ × Files)) :=
  match answer with
  | .error e => some (.error e)
  | .ok fd =>
      if v.entry src = none then some (.error ENOENT)
      else (v.openAt src fd).map fun v => .ok (fd, v)

/-- `cleanup_on_error`; `errno` is kept over the calls. -/
def cleanupOnError (errno : Errno) (srcFd : ℕ) (dst : Option (ℕ × Slot))
    (v : Files) : Rv × Files :=
  let v := v.close srcFd
  match dst with
  | none => (.error errno, v)
  | some (dstFd, tmp) => (.error errno, (v.close dstFd).unlink tmp)

def replaceLink (ans : BreakAnswers) (src tmp : Slot) (srcFd dstFd : ℕ)
    (v : Files) : Option (Rv × Files) :=
  match clonefileErrno ans.clone (content v srcFd) (content v dstFd) with
  | none => none
  | some (rv, data) =>
      let v := v.modify dstFd fun _ _ => data
      match rv with
      | .error e => some (cleanupOnError e srcFd (some (dstFd, tmp)) v)
      | .ok _ =>
          match ans.rename with
          | .error e => some (cleanupOnError e srcFd (some (dstFd, tmp)) v)
          | .ok _ => some (.ok (), ((v.rename tmp src).close srcFd).close dstFd)

def breakLink (dev : ℕ → ℕ) (ans : BreakAnswers) (src : Slot) (v : Files) :
    Option (Rv × Files) :=
  match openLink ans.openFd src v with
  | none => none
  | some (.error e) => some (.error e, v)
  | some (.ok (srcFd, v)) =>
      match mktemp dev src ans.attempts 10 v with
      | none => none
      | some (.error e) => some (cleanupOnError e srcFd none v)
      | some (.ok (tmp, dstFd, v)) => replaceLink ans src tmp srcFd dstFd v

/-- What a link that was broken leaves: `src` names a new file, with what `fs::clonefile`
made of the content of the old one, and every other name, every file there was and every
descriptor is what it was. -/
structure Replaced (ans : CloneAnswers) (src : Slot) (v v' : Files) : Prop where
  copied : ∃ (node copy : Inode) (ino : ℕ),
    (v.entry src).bind v.inode = some node ∧ v.inode ino = none ∧
      v'.entry src = some ino ∧ v'.inode ino = some copy ∧
      clonefileErrno ans node.content [] = some (.ok (), copy.content)
  entry : ∀ s ≠ src, v'.entry s = v.entry s
  inode : ∀ i, (v.inode i).isSome → v'.inode i = v.inode i
  file : v'.file = v.file

section BreakLink

variable (dev : ℕ → ℕ) (ans : BreakAnswers) (src : Slot) (v : Files)

inductive FailingStep (e : Errno) : Prop
  | openSource (h : openLink ans.openFd src v = some (.error e))
  | mktemp (srcFd : ℕ) (v₁ : Files)
      (hopen : openLink ans.openFd src v = some (.ok (srcFd, v₁)))
      (h : MktempFailure dev src ans.attempts v₁ 10 e)
  | clonefile (srcFd dstFd : ℕ) (tmp : Slot) (v₁ v₂ : Files) (node : Inode)
      (hopen : openLink ans.openFd src v = some (.ok (srcFd, v₁)))
      (hmktemp : Mergerfs.mktemp dev src ans.attempts 10 v₁ =
        some (.ok (tmp, dstFd, v₂)))
      (hsrc : (v.entry src).bind v.inode = some node)
      (h : CloneFailure ans.clone node.content [] e)
  | rename (srcFd dstFd : ℕ) (tmp : Slot) (v₁ v₂ : Files) (node : Inode)
      (data : Content)
      (hopen : openLink ans.openFd src v = some (.ok (srcFd, v₁)))
      (hmktemp : Mergerfs.mktemp dev src ans.attempts 10 v₁ =
        some (.ok (tmp, dstFd, v₂)))
      (hsrc : (v.entry src).bind v.inode = some node)
      (hclone : clonefileErrno ans.clone node.content [] = some (.ok (), data))
      (h : ans.rename = .error e)

variable {dev ans src v}

theorem openLink_eq_ok {answer : Except Errno ℕ} {fd : ℕ} {v₁ : Files}
    (h : openLink answer src v = some (.ok (fd, v₁))) :
    v.openAt src fd = some v₁ := by
  unfold openLink at h
  split at h
  · cases h
  · split_ifs at h
    · cases h
    · obtain ⟨w, hw, heq⟩ := Option.map_eq_some_iff.mp h
      cases heq
      exact hw

theorem restored_close {fd : ℕ} {v₁ : Files} (h : v.openAt src fd = some v₁) :
    Restored v (v₁.close fd) := by
  obtain ⟨hfree, hentry, hinode, i, _, hfile⟩ := Vfs.Files.openAt_eq_some h
  refine ⟨hentry, fun j _ => congrFun hinode j, ?_⟩
  rw [Vfs.Files.file_close, hfile, Function.update_idem]
  exact Function.update_eq_self_iff.mpr hfree.symm

/-- A source that is open is read through its descriptor, whatever happened to the
temporary file. -/
theorem content_srcFd {tmp : Slot} {ino srcFd dstFd : ℕ} {append : Bool}
    {data : Content} {v₁ w : Files} (hopen : v.openAt src srcFd = some v₁)
    (hprep : Prepared tmp ino dstFd append data v₁ w) :
    ∃ node, (v.entry src).bind v.inode = some node ∧
      content w srcFd = node.content := by
  obtain ⟨_, _, hinode, i, hi, hfile⟩ := Vfs.Files.openAt_eq_some hopen
  obtain ⟨node, hnode⟩ := Vfs.Files.exists_inode_of_entry hi
  have hsrc : v₁.file srcFd = some ⟨i, false⟩ := by
    rw [hfile, Function.update_self]
  refine ⟨node, by rw [hi, Option.bind_some, hnode], ?_⟩
  exact hprep.content_of_file hsrc (by rw [hinode, hnode])

theorem Prepared.replaced {tmp : Slot} {ino srcFd dstFd : ℕ} {append : Bool}
    {data : Content} {v₁ w : Files} (hopen : v.openAt src srcFd = some v₁)
    (hprep : Prepared tmp ino dstFd append data v₁ w) (htmp : tmp ≠ src) {node : Inode}
    (hsrc : (v.entry src).bind v.inode = some node) {clone : CloneAnswers}
    (hclone : clonefileErrno clone node.content [] = some (.ok (), data)) :
    Replaced clone src v (((w.rename tmp src).close srcFd).close dstFd) := by
  obtain ⟨_, hentry, hinode, _⟩ := Vfs.Files.openAt_eq_some hopen
  refine ⟨?_, ?_, ?_, ?_⟩
  · obtain ⟨copy, hcopy, rfl⟩ := hprep.inode
    refine ⟨node, copy, ino, hsrc, by rw [← hinode, hprep.fresh], ?_, ?_, hclone⟩
    · rw [Vfs.Files.entry_close, Vfs.Files.entry_close, hprep.entry_rename htmp,
        Function.update_self]
    · rw [Vfs.Files.inode_close, Vfs.Files.inode_close, Vfs.Files.inode_rename, hcopy]
  · intro s hs
    rw [Vfs.Files.entry_close, Vfs.Files.entry_close, hprep.entry_rename htmp,
      Function.update_of_ne hs, hentry]
  · intro i hi
    rw [Vfs.Files.inode_close, Vfs.Files.inode_close, Vfs.Files.inode_rename]
    exact hprep.inode_of_isSome hopen hi
  · rw [← hprep.file_close_close hopen, Vfs.Files.file_close, Vfs.Files.file_close,
      Vfs.Files.file_rename, Vfs.Files.file_close, Vfs.Files.file_close]

theorem replaceLink_steps {tmp : Slot} {srcFd dstFd : ℕ} {v₁ v₂ v' : Files} {rv : Rv}
    (hopen : openLink ans.openFd src v = some (.ok (srcFd, v₁)))
    (hmktemp : mktemp dev src ans.attempts 10 v₁ = some (.ok (tmp, dstFd, v₂)))
    (h : replaceLink ans src tmp srcFd dstFd v₂ = some (rv, v')) :
    (∃ e, rv = .error e ∧ Restored v v' ∧ FailingStep dev ans src v e) ∨
      rv = .ok () ∧ Replaced ans.clone src v v' := by
  obtain ⟨htmp, ino, hprep⟩ := mktemp_eq_ok hmktemp
  have hsource := openLink_eq_ok hopen
  obtain ⟨node, hsrc, hcontent⟩ := content_srcFd hsource hprep
  unfold replaceLink at h
  rw [hcontent, hprep.content_fdout] at h
  split at h
  · cases h
  · rename_i rv₁ data hclone
    have hcopied := hprep.modify data
    dsimp only at h
    split at h
    · rename_i e
      cases h
      exact .inl ⟨e, rfl, hcopied.restored hsource,
        .clonefile srcFd dstFd tmp v₁ v₂ node hopen hmktemp hsrc
          (clonefileErrno_failure hclone)⟩
    · split at h
      · rename_i e hrename
        cases h
        exact .inl ⟨e, rfl, hcopied.restored hsource,
          .rename srcFd dstFd tmp v₁ v₂ node data hopen hmktemp hsrc hclone hrename⟩
      · cases h
        exact .inr ⟨rfl, hcopied.replaced hsource htmp hsrc hclone⟩

/-- Every exit of `break_link`. -/
theorem breakLink_steps {v' : Files} {rv : Rv}
    (h : breakLink dev ans src v = some (rv, v')) :
    (∃ e, rv = .error e ∧ Restored v v' ∧ FailingStep dev ans src v e) ∨
      rv = .ok () ∧ Replaced ans.clone src v v' := by
  unfold breakLink at h
  split at h
  · cases h
  · rename_i e hopen
    cases h
    exact .inl ⟨e, rfl, .refl v, .openSource hopen⟩
  · rename_i srcFd v₁ hopen
    split at h
    · cases h
    · rename_i e hmktemp
      cases h
      exact .inl ⟨e, rfl, restored_close (openLink_eq_ok hopen),
        .mktemp srcFd v₁ hopen (mktemp_eq_error hmktemp)⟩
    · rename_i tmp dstFd v₂ hmktemp
      exact replaceLink_steps hopen hmktemp h

end BreakLink

/-- A link that is not broken leaves no trace, and `errno` is that of the step that
failed; one that is broken makes `src` name a new file with the copy, leaves every other
name, every file there was and every descriptor alone, and no temporary file. -/
theorem breakLink_clean (dev : ℕ → ℕ) (ans : BreakAnswers) (src : Slot) (v v' : Files)
    (rv : Rv) (h : breakLink dev ans src v = some (rv, v')) :
    (∀ e, rv = .error e → Restored v v' ∧ FailingStep dev ans src v e) ∧
    (rv = .ok () → Replaced ans.clone src v v' ∧
      ∀ srcFd v₁ tmp dstFd v₂,
        openLink ans.openFd src v = some (.ok (srcFd, v₁)) →
        mktemp dev src ans.attempts 10 v₁ = some (.ok (tmp, dstFd, v₂)) →
          v'.entry tmp = none) := by
  rcases breakLink_steps h with ⟨e, rfl, hrestored, hstep⟩ | ⟨rfl, hreplaced⟩
  · constructor
    · intro e' he'
      cases he'
      exact ⟨hrestored, hstep⟩
    · intro hrv
      cases hrv
  · constructor
    · intro e he
      cases he
    intro _
    refine ⟨hreplaced, ?_⟩
    intro srcFd v₁ tmp dstFd v₂ hopen hmktemp
    obtain ⟨htmp, ino, hprep⟩ := mktemp_eq_ok hmktemp
    obtain ⟨_, hentry, _⟩ := Vfs.Files.openAt_eq_some (openLink_eq_ok hopen)
    rw [hreplaced.entry tmp htmp, ← hentry, hprep.free]

def drawing (clone : CloneAnswers) (rename : Rv) : BreakAnswers where
  openFd := .ok 4
  attempts _ := ⟨fun _ => 0, .ok (11, 5)⟩
  clone := clone
  rename := rename

/-- The copy cannot be put into place, and a break that goes through. -/
theorem breakLink_clean_oneFile :
    (∀ v' rv, breakLink id (drawing (copyingUpTo 2) (.error EROFS)) (1, "x".toList)
        oneFile = some (rv, v') → ∀ e, rv = .error e → Restored oneFile v') ∧
    (breakLink id (drawing (copyingUpTo 2) (.error EROFS)) (1, "x".toList)
        oneFile).map Prod.fst = some (.error EROFS) ∧
    (∀ v' rv, breakLink id (drawing (copyingUpTo 2) (.ok ())) (1, "x".toList)
        oneFile = some (rv, v') → rv = .ok () →
          Replaced (copyingUpTo 2) (1, "x".toList) oneFile v') ∧
    (breakLink id (drawing (copyingUpTo 2) (.ok ())) (1, "x".toList)
        oneFile).map Prod.fst = some (.ok ()) := by
  refine ⟨?_, by rfl, ?_, by rfl⟩
  · intro v' rv h e he
    exact ((breakLink_clean _ _ _ _ _ _ h).1 e he).1
  · intro v' rv h hrv
    exact ((breakLink_clean _ _ _ _ _ _ h).2 hrv).1

end Mergerfs
