import Mergerfs.Fs.Copy

/-!
# What a copy returns

`copydata` goes from one means of copying to the next when the kernel refuses the one
it tried. Each step has its own list of errors that count as a refusal, and any other
error ends the copy: `copydata_fallback_iff` says which refusals lead as far as
reading and writing.

The number of bytes that were moved is returned as an `int`, and `-1` stands for a
failure. A count whose low 32 bits are all ones is taken for one:
`copy_survives_iff`.
-/

namespace Mergerfs

open Errno

/-! ## Refusals -/

def Succeeds (r : Option (ℤ × Content)) : Prop :=
  ∃ rv dst, r = some (rv, dst) ∧ rv ≠ -1

theorem succeeds_iff_map_fst {r : Option (ℤ × Content)} :
    Succeeds r ↔ ∃ rv, r.map Prod.fst = some rv ∧ rv ≠ -1 := by
  constructor
  · rintro ⟨rv, dst, rfl, hrv⟩
    exact ⟨rv, rfl, hrv⟩
  · rintro ⟨rv, hr, hrv⟩
    obtain ⟨⟨rv', dst⟩, rfl, rfl⟩ := Option.map_eq_some_iff.mp hr
    exact ⟨rv', dst, rfl, hrv⟩

theorem not_succeeds_fail (dst : Content) : ¬ Succeeds (some (-1, dst)) := by
  rintro ⟨rv, d, h, hrv⟩
  cases h
  exact hrv rfl

theorem copyfile_map_fst (ans : CopyAnswers) (src dst₁ dst₂ : Content) :
    (copyfile ans src dst₁).map Prod.fst = (copyfile ans src dst₂).map Prod.fst := by
  unfold copyfile copyfileErrno
  cases ans.fstat with
  | error e => rfl
  | ok u =>
      have hloop := copyLoop_rel (R := fun _ _ => True) (fun _ _ _ => trivial)
        (.exact src.length) src ans.bufsize ans.reads ans.writes 0 0 dst₁ dst₂
        trivial EINTR EINTR
      dsimp only
      generalize copyLoop _ src _ _ _ 0 0 dst₁ EINTR = r₁ at hloop ⊢
      generalize copyLoop _ src _ _ _ 0 0 dst₂ EINTR = r₂ at hloop ⊢
      rcases hloop with ⟨hcount, _⟩ | _
      · simp only [Option.map_some, hcount]
      · rfl

theorem succeeds_copyfile_iff (ans : CopyAnswers) (src dst₁ dst₂ : Content) :
    Succeeds (copyfile ans src dst₁) ↔ Succeeds (copyfile ans src dst₂) := by
  rw [succeeds_iff_map_fst, succeeds_iff_map_fst, copyfile_map_fst ans src dst₁ dst₂]

theorem copydata_of_refused {ans : CopyAnswers} {src dst : Content} {e : Errno}
    (hclone : ans.ficlone = .error EOPNOTSUPP)
    (hrange : ans.copyFileRange = .error EOPNOTSUPP) (hsend : ans.sendfile = .error e)
    (he : e = EINVAL ∨ e = ENOSYS) :
    copydata ans src dst src.length =
      copyfile ans src (preallocate ans dst src.length) := by
  rw [copyfile_eq_map ans src _ e]
  rcases he with rfl | rfl
  all_goals simp [copydata, hclone, hrange, hsend, transfer]

/-- Where all three faster means are refused and reading and writing would succeed,
`copydata` succeeds exactly if each refusal is one its step knows. -/
theorem copydata_fallback_iff (ans : CopyAnswers) (src dst : Content)
    {e₁ e₂ e₃ : Errno} (hclone : ans.ficlone = .error e₁)
    (hrange : ans.copyFileRange = .error e₂) (hsend : ans.sendfile = .error e₃)
    (hplain : Succeeds (copyfile ans src dst)) :
    Succeeds (copydata ans src dst src.length) ↔
      e₁ = EOPNOTSUPP ∧ e₂ = EOPNOTSUPP ∧ (e₃ = EINVAL ∨ e₃ = ENOSYS) := by
  by_cases h₁ : e₁ = EOPNOTSUPP
  · by_cases h₂ : e₂ = EOPNOTSUPP
    · by_cases h₃ : e₃ = EINVAL ∨ e₃ = ENOSYS
      · subst h₁ h₂
        rw [copydata_of_refused hclone hrange hsend h₃,
          succeeds_copyfile_iff ans src _ dst]
        exact iff_of_true hplain ⟨rfl, rfl, h₃⟩
      · have heq : copydata ans src dst src.length =
            some (-1, preallocate ans dst src.length) := by
          simp [copydata, hclone, hrange, hsend, transfer, h₁, h₂, not_or.mp h₃]
        rw [heq]
        exact iff_of_false (not_succeeds_fail _) fun h => h₃ h.2.2
    · have heq : copydata ans src dst src.length =
          some (-1, preallocate ans dst src.length) := by
        simp [copydata, hclone, hrange, transfer, h₁, h₂]
      rw [heq]
      exact iff_of_false (not_succeeds_fail _) fun h => h₂ h.2.1
  · have heq : copydata ans src dst src.length =
        some (-1, preallocate ans dst src.length) := by
      simp [copydata, hclone, h₁]
    rw [heq]
    exact iff_of_false (not_succeeds_fail _) fun h => h₁ h.1

def refusing (e₁ e₂ e₃ : Errno) : CopyAnswers where
  fallocate := .ok ()
  ftruncate := .ok ()
  ficlone := .error e₁
  copyFileRange := .error e₂
  sendfile := .error e₃
  fstat := .ok ()
  reads := [.ok 2]
  writes := [.ok 2]
  blksize := 4096
  bufsize_pos := pageSize_pos
  bufsize_lt := pageSize_lt

theorem succeeds_copyfile_refusing (e₁ e₂ e₃ : Errno) :
    Succeeds (copyfile (refusing e₁ e₂ e₃) [1, 2] []) := by
  have hloop : copyLoop (.exact 2) [1, 2] 65536 [.ok 2] [.ok 2] 0 0 [] EINTR =
      some (some 2, EINTR, [1, 2]) := by decide
  refine ⟨2, [1, 2], ?_, by decide⟩
  rw [copyfile, copyfileErrno, bufsize_of_pageSize rfl]
  exact congrArg (Option.map _) (congrArg (Option.map _) hloop)

theorem copydata_fallback_iff_refusing :
    Succeeds (copydata (refusing EOPNOTSUPP EOPNOTSUPP EINVAL) [1, 2] [] 2) :=
  (copydata_fallback_iff (refusing EOPNOTSUPP EOPNOTSUPP EINVAL) [1, 2] [] rfl rfl rfl
    (succeeds_copyfile_refusing _ _ _)).mpr ⟨rfl, rfl, .inl rfl⟩

/-- The two files are on different devices, or the kernel has no `copy_file_range`, or
`sendfile` does not support the files: the copy fails, although reading and writing
would not. -/
theorem copydata_gives_up :
    (∀ e₁ e₂ e₃, Succeeds (copyfile (refusing e₁ e₂ e₃) [1, 2] [])) ∧
    copydata (refusing EXDEV EOPNOTSUPP EINVAL) [1, 2] [] 2 = some (-1, [0, 0]) ∧
    copydata (refusing EOPNOTSUPP ENOSYS EINVAL) [1, 2] [] 2 = some (-1, [0, 0]) ∧
    copydata (refusing EOPNOTSUPP EOPNOTSUPP EOPNOTSUPP) [1, 2] [] 2 =
      some (-1, [0, 0]) := by
  refine ⟨succeeds_copyfile_refusing, ?_, ?_, ?_⟩ <;> decide

/-! ## Counts that look like a failure -/

theorem toInt_eq_neg_one_iff (n : ℕ) : toInt n = -1 ↔ n % 2 ^ 32 = 2 ^ 32 - 1 := by
  unfold toInt
  simp only [Int.bmod_def, Nat.reducePow]
  split_ifs <;> omega

def Undisturbed (calls : List Transfer) : Prop := ∀ e, .error e ∈ calls → e = EINTR

section Undisturbed

variable {C : Type} {t : Tally C} {src : Content} {bufsize : ℕ} {s s' : CopyState C}

theorem Undisturbed.tail {a : Transfer} {calls : List Transfer}
    (h : Undisturbed (a :: calls)) : Undisturbed calls :=
  fun e he => h e (List.mem_cons_of_mem a he)

theorem Round.undisturbed (h : Round t src bufsize s s')
    (hs : Undisturbed s.reads ∧ Undisturbed s.writes) :
    Undisturbed s'.reads ∧ Undisturbed s'.writes := by
  cases h with
  | interrupted => exact ⟨hs.1.tail, hs.2⟩
  | copied _ _ _ hwriten _ =>
      exact ⟨hs.1.tail, fun e he => hs.2 e ((writen_eq_some hwriten).1 _ he)⟩

/-- The loop ends with `-1` only when a call has failed, or bytes are not counted. -/
theorem Exit.not_undisturbed {errno : Errno} {dst : Content}
    (h : Exit t src bufsize s (none, errno, dst))
    (hadd : ∀ total nr, t.add total nr ≠ none) :
    ¬ (Undisturbed s.reads ∧ Undisturbed s.writes) := by
  rintro ⟨hreads, hwrites⟩
  cases h with
  | read _ he => exact he (hreads _ (.head _))
  | write _ _ _ hwriten =>
      obtain ⟨_, hmem, he⟩ := (writen_eq_some hwriten).2.2 _ rfl
      exact he (hwrites _ hmem)
  | count _ _ _ _ hnone => exact hadd _ _ hnone

end Undisturbed

structure Plain (ans : CopyAnswers) (src dst : Content) : Prop where
  fstat : ans.fstat = .ok ()
  reads : Undisturbed ans.reads
  writes : Undisturbed ans.writes
  ends : (copyfile ans src dst).isSome

theorem Plain.copyfile {ans : CopyAnswers} {src dst : Content}
    (h : Plain ans src dst) (dst₁ : Content) :
    ∃ dst', Mergerfs.copyfile ans src dst₁ = some (toInt src.length, dst') := by
  have hsome : (Mergerfs.copyfile ans src dst₁).isSome := by
    have hends := h.ends
    rw [← Option.isSome_map (f := Prod.fst)] at hends ⊢
    rwa [copyfile_map_fst ans src dst₁ dst]
  obtain ⟨⟨rv, dst'⟩, heq⟩ := Option.isSome_iff_exists.mp hsome
  refine ⟨dst', heq.trans ?_⟩
  rw [Mergerfs.copyfile, copyfileErrno, h.fstat, Option.map_map] at heq
  obtain ⟨⟨count, errno', _⟩, hloop, hr⟩ := Option.map_eq_some_iff.mp heq
  cases hr
  obtain ⟨s, hrounds, hexit⟩ := copyLoop_eq_some_iff.mp hloop
  have hs : CopiedTo src s := hrounds.keeps Round.copiedTo ⟨rfl, Nat.zero_le _, rfl⟩
  cases count with
  | some total =>
      dsimp only
      rw [intOf, (hexit.total_eq ans.bufsize_ne hs).1]
  | none =>
      exact absurd (hrounds.keeps Round.undisturbed ⟨h.reads, h.writes⟩)
        (hexit.not_undisturbed fun _ _ => Option.some_ne_none _)

inductive Means where
  | copyFileRange
  | sendfile
  | copyfile
deriving DecidableEq

/-- The means before this one are refused, this one moves everything, and no call
fails. -/
def Means.Moves (ans : CopyAnswers) (src dst : Content) : Means → Prop
  | .copyFileRange => ans.ficlone = .error EOPNOTSUPP ∧
      (∃ k, ans.copyFileRange = .ok k ∧ src.length ≤ k) ∧
      -- it is called if the count is taken for a failure
      (toInt src.length = -1 → ∃ k, ans.sendfile = .ok k)
  | .sendfile => ans.ficlone = .error EOPNOTSUPP ∧
      ans.copyFileRange = .error EOPNOTSUPP ∧
      ∃ k, ans.sendfile = .ok k ∧ src.length ≤ k
  | .copyfile => ans.ficlone = .error EOPNOTSUPP ∧
      ans.copyFileRange = .error EOPNOTSUPP ∧
      (ans.sendfile = .error EINVAL ∨ ans.sendfile = .error ENOSYS) ∧
      Plain ans src dst

/-- The low 32 bits of a count are all ones. -/
def Aliases (n : ℕ) : Prop := n % 2 ^ 32 = 2 ^ 32 - 1

/-- The count that is returned is not one that is taken for a failure. After
`copy_file_range` that may be the count of `sendfile`, which copies once more. -/
def Means.Survives (ans : CopyAnswers) (src : Content) (m : Means) : Prop :=
  ¬ Aliases src.length ∨
    m = .copyFileRange ∧
      ∀ k, ans.sendfile = .ok k → ¬ Aliases (moved k src.length src)

theorem moved_of_le {k : ℕ} {src : Content} (h : src.length ≤ k) :
    moved k src.length src = src.length := by
  unfold moved
  omega

theorem copydata_of_first {ans : CopyAnswers} {src dst : Content}
    (hclone : ans.ficlone = .error EOPNOTSUPP)
    (hrv : (firstTransfer ans src dst).1 ≠ -1) :
    copydata ans src dst src.length =
      some ((firstTransfer ans src dst).1, (firstTransfer ans src dst).2.2) := by
  simp only [firstTransfer] at hrv ⊢
  simp [copydata, hclone, hrv]

/-- `sendfile` ends the copy if it moves something, for it leaves `errno` as it
was. -/
theorem copydata_of_second {ans : CopyAnswers} {src dst : Content}
    (hclone : ans.ficlone = .error EOPNOTSUPP)
    (hrv : (firstTransfer ans src dst).1 = -1)
    (herrno : (firstTransfer ans src dst).2.1 = EOPNOTSUPP) {k : ℕ}
    (hsend : ans.sendfile = .ok k) :
    ∃ dst', copydata ans src dst src.length =
      some (toInt (moved k src.length src), dst') := by
  refine ⟨(transfer ans.sendfile src src.length EOPNOTSUPP
    (firstTransfer ans src dst).2.2).2.2, ?_⟩
  have hne : EOPNOTSUPP ≠ EINVAL ∧ EOPNOTSUPP ≠ ENOSYS := by decide
  have hsecond : ∀ d, transfer (.ok k) src src.length EOPNOTSUPP d =
      (toInt (moved k src.length src), EOPNOTSUPP,
        Bytes.writeAt 0 d 0 (src.take (moved k src.length src))) := fun _ => rfl
  simp only [firstTransfer] at hrv herrno ⊢
  simp [copydata, hclone, hrv, herrno, hsend, hsecond, hne]

theorem Means.copydata_eq {ans : CopyAnswers} {src dst : Content} {m : Means}
    (h : m.Moves ans src dst) :
    ∃ rv dst', copydata ans src dst src.length = some (rv, dst') ∧
      (rv ≠ -1 ↔ m.Survives ans src) := by
  have halias : ∀ n, toInt n ≠ -1 ↔ ¬ Aliases n :=
    fun n => not_congr (toInt_eq_neg_one_iff n)
  cases m with
  | copyFileRange =>
      obtain ⟨hclone, ⟨k, hrange, hk⟩, hsend⟩ := h
      have hfirst : (firstTransfer ans src dst).1 = toInt src.length := by
        rw [firstTransfer, hrange, transfer, moved_of_le hk]
      by_cases hn : toInt src.length = -1
      · -- the count looks like a failure, and `errno` is still that of the refusal
        have herrno : (firstTransfer ans src dst).2.1 = EOPNOTSUPP := by
          rw [firstTransfer, hrange, transfer]
        obtain ⟨k', hk'⟩ := hsend hn
        obtain ⟨dst', hcopy⟩ :=
          copydata_of_second hclone (hfirst.trans hn) herrno hk'
        refine ⟨_, dst', hcopy, ?_⟩
        rw [halias, Survives, ← halias src.length]
        simp [hn, hk']
      · have hcopy := copydata_of_first hclone (by rwa [hfirst])
        refine ⟨_, _, hcopy, ?_⟩
        rw [hfirst, halias, Survives, ← halias src.length]
        simp [hn]
  | sendfile =>
      obtain ⟨hclone, hrange, k, hsend, hk⟩ := h
      have hfirst : firstTransfer ans src dst =
          (-1, EOPNOTSUPP, preallocate ans dst src.length) := by
        rw [firstTransfer, hrange, transfer]
      obtain ⟨dst', hcopy⟩ := copydata_of_second hclone (by rw [hfirst])
        (by rw [hfirst]) hsend
      refine ⟨_, dst', hcopy, ?_⟩
      rw [moved_of_le hk, halias]
      simp [Survives]
  | copyfile =>
      obtain ⟨hclone, hrange, hsend, hplain⟩ := h
      obtain ⟨dst', hcopy⟩ := hplain.copyfile (preallocate ans dst src.length)
      refine ⟨toInt src.length, dst', ?_, ?_⟩
      · rw [← hcopy]
        rcases hsend with hsend | hsend
        · exact copydata_of_refused hclone hrange hsend (.inl rfl)
        · exact copydata_of_refused hclone hrange hsend (.inr rfl)
      · rw [halias]
        simp [Survives]

structure CloneAnswers.Attributed (ans : CloneAnswers) : Prop where
  fstat : ans.fstat = .ok ()
  attrCopy : ans.attrCopy = .ok ()
  xattrCopy : ans.xattrCopy = .ok ()
  fchown : ans.fchown = .ok ()
  fchmod : ans.fchmod = .ok ()
  utime : ans.utime = .ok ()

theorem CloneAnswers.Attributed.clonefile {ans : CloneAnswers} (h : ans.Attributed)
    {src dst dst' : Content} {rv : ℤ}
    (hcopy : copydata ans.copy src dst src.length = some (rv, dst')) :
    Mergerfs.clonefile ans src dst = some (if rv = -1 then -1 else 0, dst') := by
  unfold Mergerfs.clonefile
  simp only [h.fstat, hcopy, h.attrCopy, h.xattrCopy, h.fchown, h.fchmod, h.utime]
  split_ifs <;> simp_all [fails, Except.isOk, Except.toBool]

/-- A copy of everything in which no call fails is not reported as a failure exactly
if its count does not look like one, so for `copydata` by whatever means and for
`fs::clonefile`; and likewise for `fs::copyfile`. -/
theorem copy_survives_iff (ans : CloneAnswers) (src dst : Content) :
    (∀ m : Means, m.Moves ans.copy src dst →
      ∃ rv dst', copydata ans.copy src dst src.length = some (rv, dst') ∧
        (rv ≠ -1 ↔ m.Survives ans.copy src) ∧
        (ans.Attributed → ∃ rv', clonefile ans src dst = some (rv', dst') ∧
          (rv' ≠ -1 ↔ m.Survives ans.copy src))) ∧
    (Plain ans.copy src dst →
      ∃ rv dst', copyfile ans.copy src dst = some (rv, dst') ∧
        (rv ≠ -1 ↔ ¬ Aliases src.length)) := by
  constructor
  · intro m hm
    obtain ⟨rv, dst', hcopy, hrv⟩ := Means.copydata_eq hm
    refine ⟨rv, dst', hcopy, hrv, ?_⟩
    intro hans
    refine ⟨_, hans.clonefile hcopy, ?_⟩
    rw [← hrv]
    split_ifs with h <;> simp [h]
  · intro hplain
    obtain ⟨dst', hcopy⟩ := hplain.copyfile dst
    exact ⟨_, dst', hcopy, not_congr (toInt_eq_neg_one_iff _)⟩

theorem isSome_copyLoop_replicate {src : Content} {bufsize n : ℕ} (hbuf : 0 < bufsize)
    {pos : ℕ} (h : src.length - pos ≤ n * bufsize) (dst : Content) (errno : Errno) :
    (copyLoop (.exact src.length) src bufsize (List.replicate n (.ok bufsize))
      (List.replicate n (.ok bufsize)) pos pos dst errno).isSome := by
  induction n generalizing pos dst with
  | zero =>
      rw [copyLoop_done (decide_eq_false (by omega))]
      rfl
  | succ n ih =>
      by_cases hlt : pos < src.length
      · have hsize : readSize bufsize bufsize (src.length - pos) =
            min bufsize (src.length - pos) := by
          unfold readSize
          omega
        have hshort : ((src.drop pos).take
            (min bufsize (src.length - pos))).length ≤ bufsize := by
          rw [List.length_take]
          omega
        rw [List.replicate_succ, copyLoop_read (decide_eq_true hlt) hsize (by omega),
          writen, if_pos hshort]
        apply ih
        rw [Nat.succ_mul] at h
        omega
      · rw [copyLoop_done (decide_eq_false hlt)]
        rfl

def portioned (n : ℕ) : CloneAnswers where
  fstat := .ok ()
  copy :=
    { fallocate := .ok ()
      ftruncate := .ok ()
      ficlone := .error EOPNOTSUPP
      copyFileRange := .error EOPNOTSUPP
      sendfile := .error ENOSYS
      fstat := .ok ()
      reads := List.replicate n (.ok (4096 * 16))
      writes := List.replicate n (.ok (4096 * 16))
      blksize := 4096
      bufsize_pos := pageSize_pos
      bufsize_lt := pageSize_lt }
  attrCopy := .ok ()
  xattrCopy := .ok ()
  fchown := .ok ()
  fchmod := .ok ()
  utime := .ok ()

theorem undisturbed_replicate (n k : ℕ) : Undisturbed (List.replicate n (.ok k)) := by
  intro e he
  cases (List.mem_replicate.mp he).2

theorem portioned_moves {n : ℕ} {src : Content} (h : src.length ≤ n * (4096 * 16))
    (dst : Content) : Means.copyfile.Moves (portioned n).copy src dst := by
  have hbuf : 0 < 4096 * 16 := by decide
  refine ⟨rfl, rfl, .inr rfl, rfl, undisturbed_replicate n _, undisturbed_replicate n _,
    ?_⟩
  rw [copyfile, copyfileErrno, bufsize_of_pageSize rfl, Option.isSome_map]
  exact Option.isSome_map.trans (isSome_copyLoop_replicate hbuf h dst EINTR)

theorem portioned_attributed (n : ℕ) : (portioned n).Attributed :=
  ⟨rfl, rfl, rfl, rfl, rfl, rfl⟩

/-- A file of 4294967295 bytes is copied whole, and the copy is reported as
failed. -/
theorem copy_aliases :
    Means.copyfile.Moves (portioned 65536).copy (List.replicate 4294967295 0) [] ∧
    (portioned 65536).Attributed ∧
    ∃ dst', copydata (portioned 65536).copy (List.replicate 4294967295 0) []
        (List.replicate 4294967295 (0 : UInt8)).length = some (-1, dst') ∧
      clonefile (portioned 65536) (List.replicate 4294967295 0) [] =
        some (-1, dst') := by
  have hmoves := portioned_moves (show (List.replicate 4294967295
    (0 : UInt8)).length ≤ 65536 * (4096 * 16) by rw [List.length_replicate]; decide) []
  obtain ⟨rv, dst', hcopy, hrv⟩ := Means.copydata_eq hmoves
  obtain rfl : rv = -1 := by
    by_contra hne
    rcases hrv.mp hne with h | ⟨h, _⟩
    · exact h (by rw [List.length_replicate]; rfl)
    · cases h
  exact ⟨hmoves, portioned_attributed _, dst', hcopy,
    (portioned_attributed _).clonefile hcopy⟩

end Mergerfs
