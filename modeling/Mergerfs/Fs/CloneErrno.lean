import Mergerfs.Fs.Copy

/-!
# The `errno` of a copy

`fs::clonefile` is followed here once more, with the `errno` it leaves when it returns
`-1`. Most of the time it is that of the call the copy ended at. `copydata` converts a
count of bytes to `int`, though, so that a file of `2 ^ 32 - 1` bytes is copied with
the result `-1`; then `errno` is what a call that failed before has left.
-/

namespace Mergerfs

open Errno

/-- The test `rv == -1`, and `errno` if it is. -/
def checked (r : ℤ × Errno × Content) : Rv × Content :=
  (if r.1 = -1 then .error r.2.1 else .ok (), r.2.2)

def copydataErrno (ans : CopyAnswers) (src dst : Content) (count : ℕ) :
    Option (Rv × Content) :=
  let dst := preallocate ans dst count
  match ans.ficlone with
  | .ok _ => some (.ok (), Bytes.writeAt 0 dst 0 src)
  | .error e =>
      if e ≠ EOPNOTSUPP then some (.error e, dst)
      else
        let r := transfer ans.copyFileRange src count e dst
        if r.1 ≠ -1 ∨ r.2.1 ≠ EOPNOTSUPP then some (checked r)
        else
          let r := transfer ans.sendfile src count r.2.1 r.2.2
          if r.1 ≠ -1 ∨ r.2.1 ≠ EINVAL ∧ r.2.1 ≠ ENOSYS then some (checked r)
          else (copyfileErrno ans src r.2.2 r.2.1).map checked

/-- A copy of attributes, whose failure for want of support does not count. -/
def tolerated (rv : Rv) : Rv :=
  match rv with
  | .ok _ => .ok ()
  | .error e => if ignorableError e then .ok () else .error e

def clonefileErrno (ans : CloneAnswers) (src dst : Content) :
    Option (Rv × Content) :=
  match ans.fstat with
  | .error e => some (.error e, dst)
  | .ok _ =>
      (copydataErrno ans.copy src dst src.length).map fun r =>
        (do r.1
            tolerated ans.attrCopy
            tolerated ans.xattrCopy
            ans.fchown
            ans.fchmod
            ans.utime, r.2)

/-! ## Without `errno` it is the copy there was -/

theorem isOk_checked (r : ℤ × Errno × Content) :
    (checked r).1.isOk = decide (r.1 ≠ -1) := by
  unfold checked
  by_cases h : r.1 = -1
  · simp [h, Except.isOk, Except.toBool]
  · simp [h, Except.isOk, Except.toBool]

theorem copydata_map_eq (ans : CopyAnswers) (src dst : Content) (count : ℕ) :
    (copydata ans src dst count).map (fun r => (decide (r.1 ≠ -1), r.2)) =
      (copydataErrno ans src dst count).map fun r => (r.1.isOk, r.2) := by
  unfold copydata copydataErrno
  cases ans.ficlone with
  | ok u => rfl
  | error e =>
      dsimp only
      split_ifs with he hfirst hsecond
      · rfl
      · simp only [Option.map_some, isOk_checked]
        rfl
      · simp only [Option.map_some, isOk_checked]
        rfl
      · rw [Option.map_map, Option.map_map]
        congr 1
        funext r
        simp only [Function.comp_apply, isOk_checked]
        rfl

theorem isOk_tolerated (rv : Rv) : (tolerated rv).isOk = !fails rv := by
  cases rv with
  | ok u => rfl
  | error e =>
      simp only [tolerated, fails]
      cases ignorableError e <;> rfl

theorem isOk_bind (rv : Rv) (k : Unit → Rv) :
    (rv >>= k).isOk = (rv.isOk && (k ()).isOk) := by
  cases rv <;> rfl

/-- `clonefile` is `clonefileErrno` without `errno`. -/
theorem clonefile_eq_map (ans : CloneAnswers) (src dst : Content) :
    clonefile ans src dst = (clonefileErrno ans src dst).map fun r =>
      (if r.1.isOk then 0 else -1, r.2) := by
  unfold clonefile clonefileErrno
  cases ans.fstat with
  | error e => rfl
  | ok u =>
      have hcopy := copydata_map_eq ans.copy src dst src.length
      dsimp only
      generalize copydata ans.copy src dst src.length = r at hcopy ⊢
      generalize copydataErrno ans.copy src dst src.length = r' at hcopy ⊢
      rcases r with _ | ⟨rv, data⟩ <;> rcases r' with _ | ⟨rv', data'⟩
      · rfl
      · cases hcopy
      · cases hcopy
      · simp only [Option.map_some, Option.some.injEq, Prod.mk.injEq] at hcopy
        obtain ⟨hok, rfl⟩ := hcopy
        simp only [Option.map_some, isOk_bind, isOk_tolerated, ← hok]
        by_cases hrv : rv = -1
        · simp [hrv]
        · simp only [hrv, if_false, ne_eq, not_false_eq_true, decide_true,
            Bool.true_and]
          cases fails ans.attrCopy <;> cases fails ans.xattrCopy <;>
            cases ans.fchown.isOk <;> cases ans.fchmod.isOk <;>
              cases ans.utime.isOk <;> rfl

/-! ## Where it comes from -/

/-- The data cannot be shared, and `copy_file_range` is refused too, or has moved a
number of bytes that is `-1` as an `int`. -/
def RangeRefused (ans : CopyAnswers) (src : Content) : Prop :=
  ans.ficlone = .error EOPNOTSUPP ∧
    (ans.copyFileRange = .error EOPNOTSUPP ∨
      ∃ k, ans.copyFileRange = .ok k ∧ toInt (moved k src.length src) = -1)

/-- `sendfile` is refused after them, and the loop of `fs::copyfile` stands at `s` after
some rounds. -/
def LoopAt (ans : CopyAnswers) (src dst : Content) (s : CopyState ℕ) : Prop :=
  RangeRefused ans src ∧ ans.fstat = .ok () ∧
    ∃ errno, (errno = EINVAL ∨ errno = ENOSYS) ∧ ans.sendfile = .error errno ∧
      Rounds (.exact src.length) src ans.bufsize
        ⟨ans.reads, ans.writes, 0, 0, (firstTransfer ans src dst).2.2, errno⟩ s

/-- The call `copydata` comes to and ends at, where `errno` is `e`: it fails with `e`,
or the number of the bytes copied is `-1` as an `int`. -/
inductive CopyFailure (ans : CopyAnswers) (src dst : Content) (e : Errno) : Prop
  | ficlone (h : ans.ficlone = .error e) (he : e ≠ EOPNOTSUPP)
  | copyFileRange (hclone : ans.ficlone = .error EOPNOTSUPP)
      (h : ans.copyFileRange = .error e) (he : e ≠ EOPNOTSUPP)
  | sendfile (hrange : RangeRefused ans src) (h : ans.sendfile = .error e)
      (he : e ≠ EINVAL ∧ e ≠ ENOSYS)
  | fstat (hrange : RangeRefused ans src)
      (hsend : ans.sendfile = .error EINVAL ∨ ans.sendfile = .error ENOSYS)
      (h : ans.fstat = .error e)
  | read {reads writes : List Transfer} {pos : ℕ} {dst' : Content} {errno : Errno}
      (hloop : LoopAt ans src dst ⟨.error e :: reads, writes, pos, pos, dst', errno⟩)
      (hpos : pos < src.length) (he : e ≠ EINTR)
  | write {reads writes rest : List Transfer} {k pos : ℕ} {dst' dst'' : Content}
      {errno : Errno}
      (hloop : LoopAt ans src dst ⟨.ok k :: reads, writes, pos, pos, dst', errno⟩)
      (hpos : pos < src.length)
      (h : writen writes dst' pos
        ((src.drop pos).take (readSize k ans.bufsize (src.length - pos))) errno =
          some (rest, .error e, e, dst''))
      (he : e ≠ EINTR)
  /-- `errno` is still that of the refusals before. -/
  | sendfileCount {k : ℕ} (hrange : RangeRefused ans src) (h : ans.sendfile = .ok k)
      (hcount : toInt (moved k src.length src) = -1) (he : e = EOPNOTSUPP)
  /-- `errno` is still that of `sendfile`, or of a call that was interrupted. -/
  | loopCount {s : CopyState ℕ} (hloop : LoopAt ans src dst s)
      (hpos : s.pos = src.length) (hcount : toInt src.length = -1) (herrno : s.errno = e)
      (he : ans.sendfile = .error e ∨ e = EINTR)

section LoopAt

variable {ans : CopyAnswers} {src dst : Content} {s : CopyState ℕ}

theorem LoopAt.copiedTo (h : LoopAt ans src dst s) : CopiedTo src s := by
  obtain ⟨_, _, errno, _, _, hrounds⟩ := h
  exact hrounds.keeps Round.copiedTo ⟨rfl, Nat.zero_le _, rfl⟩

/-- The rounds leave `errno` as it was, or as an interruption left it. -/
theorem LoopAt.errno_eq (h : LoopAt ans src dst s) :
    ans.sendfile = .error s.errno ∨ s.errno = EINTR := by
  obtain ⟨_, _, errno, _, hsend, hrounds⟩ := h
  refine hrounds.keeps
    (P := fun s => ans.sendfile = .error s.errno ∨ s.errno = EINTR) ?_ (.inl hsend)
  intro s s' hround hs
  cases hround with
  | interrupted => exact .inr rfl
  | copied _ _ _ hwriten _ =>
      rcases (writen_eq_some hwriten).2.1 rfl with rfl | hintr
      · exact hs
      · exact .inr hintr

theorem LoopAt.failure (h : LoopAt ans src dst s) {count : Option ℕ} {e : Errno}
    {dst' : Content} (hexit : Exit (.exact src.length) src ans.bufsize s (count, e, dst'))
    (hrv : intOf count = -1) : CopyFailure ans src dst e := by
  cases count with
  | some total =>
      obtain ⟨rfl, hpos, rfl, _⟩ := hexit.total_eq ans.bufsize_ne h.copiedTo
      exact .loopCount h hpos hrv rfl h.errno_eq
  | none =>
      have htotal := h.copiedTo.total_eq
      cases hexit with
      | read hshort he =>
          dsimp only at htotal
          subst htotal
          exact .read h (of_decide_eq_true hshort) he
      | write hshort hnr _ hwriten =>
          dsimp only at htotal
          subst htotal hnr
          obtain ⟨rfl, _, he⟩ := (writen_eq_some hwriten).2.2 _ rfl
          exact .write h (of_decide_eq_true hshort) hwriten he
      | count _ _ _ _ hadd => cases hadd

end LoopAt

theorem checked_error {r : ℤ × Errno × Content} {e : Errno} {data : Content}
    (h : checked r = (.error e, data)) : r = (-1, e, data) := by
  obtain ⟨rv, errno, dst⟩ := r
  unfold checked at h
  obtain ⟨hrv, rfl⟩ := Prod.mk.inj h
  dsimp only at hrv
  split_ifs at hrv with hneg
  cases hrv
  rw [hneg]

theorem transfer_neg_one {a : Transfer} {src dst : Content} {count : ℕ}
    {errno : Errno} (h : (transfer a src count errno dst).1 = -1) :
    a = .error (transfer a src count errno dst).2.1 ∨
      (transfer a src count errno dst).2.1 = errno ∧
        ∃ k, a = .ok k ∧ toInt (moved k count src) = -1 := by
  cases a with
  | error e => exact .inl rfl
  | ok k =>
      simp only [transfer] at h
      exact .inr ⟨rfl, k, rfl, h⟩

theorem rangeRefused {ans : CopyAnswers} {src dst : Content}
    (hclone : ans.ficlone = .error EOPNOTSUPP)
    (hrv : (firstTransfer ans src dst).1 = -1)
    (herrno : (firstTransfer ans src dst).2.1 = EOPNOTSUPP) : RangeRefused ans src := by
  refine ⟨hclone, ?_⟩
  rcases transfer_neg_one hrv with hfail | ⟨_, hcount⟩
  · exact .inl (herrno ▸ hfail)
  · exact .inr hcount

/-- The loop of `fs::copyfile` is come to only when `sendfile` fails, for a count leaves
the `errno` of the refusals before. -/
theorem sendfile_eq_error {ans : CopyAnswers} {src dst : Content}
    (h : ¬ ((transfer ans.sendfile src src.length EOPNOTSUPP dst).1 ≠ -1 ∨
      (transfer ans.sendfile src src.length EOPNOTSUPP dst).2.1 ≠ EINVAL ∧
        (transfer ans.sendfile src src.length EOPNOTSUPP dst).2.1 ≠ ENOSYS)) :
    ∃ errno, (errno = EINVAL ∨ errno = ENOSYS) ∧ ans.sendfile = .error errno := by
  rw [not_or, not_not] at h
  obtain ⟨hrv, herrno⟩ := h
  rcases transfer_neg_one hrv with hfail | ⟨heq, _⟩
  · exact ⟨_, by tauto, hfail⟩
  · rw [heq] at herrno
    exact absurd ⟨by decide, by decide⟩ herrno

theorem copyfileErrno_failure {ans : CopyAnswers} {src dst data : Content}
    {errno e : Errno} (hrange : RangeRefused ans src)
    (herrno : errno = EINVAL ∨ errno = ENOSYS) (hsend : ans.sendfile = .error errno)
    (h : copyfileErrno ans src (firstTransfer ans src dst).2.2 errno =
      some (-1, e, data)) : CopyFailure ans src dst e := by
  unfold copyfileErrno at h
  cases hstat : ans.fstat with
  | error e₁ =>
      rw [hstat] at h
      cases h
      refine .fstat hrange ?_ hstat
      rcases herrno with rfl | rfl
      · exact .inl hsend
      · exact .inr hsend
  | ok u =>
      rw [hstat] at h
      obtain ⟨⟨count, errno', dst'⟩, hloop, heq⟩ := Option.map_eq_some_iff.mp h
      obtain ⟨hrv, hrest⟩ := Prod.mk.inj heq
      cases hrest
      obtain ⟨s, hrounds, hexit⟩ := copyLoop_eq_some_iff.mp hloop
      exact LoopAt.failure ⟨hrange, hstat, errno, herrno, hsend, hrounds⟩ hexit hrv

theorem copydataErrno_failure {ans : CopyAnswers} {src dst data : Content} {e : Errno}
    (h : copydataErrno ans src dst src.length = some (.error e, data)) :
    CopyFailure ans src dst e := by
  unfold copydataErrno at h
  cases hclone : ans.ficlone with
  | ok u =>
      rw [hclone] at h
      cases h
  | error e₀ =>
      rw [hclone] at h
      dsimp only at h
      split_ifs at h with he hret₁ hret₂
      · cases h
        exact .ficlone hclone he
      · obtain rfl : e₀ = EOPNOTSUPP := not_not.mp he
        have hr := checked_error (Option.some.inj h)
        rw [hr] at hret₁
        rcases transfer_neg_one (congrArg Prod.fst hr) with hfail | ⟨heq, _⟩
        · rw [hr] at hfail
          exact .copyFileRange hclone hfail (hret₁.resolve_left fun hne => hne rfl)
        · -- the count of `copy_file_range` leaves the `errno` the copy goes on with
          rw [hr] at heq
          exact absurd heq (hret₁.resolve_left fun hne => hne rfl)
      · obtain rfl : e₀ = EOPNOTSUPP := not_not.mp he
        rw [not_or, not_not, not_not] at hret₁
        have hrange := rangeRefused hclone hret₁.1 hret₁.2
        have hr := checked_error (Option.some.inj h)
        rw [hr] at hret₂
        rcases transfer_neg_one (congrArg Prod.fst hr) with hfail | ⟨heq, k, hk, hcount⟩
        · rw [hr] at hfail
          exact .sendfile hrange hfail (hret₂.resolve_left fun hne => hne rfl)
        · rw [hr] at heq
          exact .sendfileCount hrange hk hcount (heq.trans hret₁.2)
      · obtain rfl : e₀ = EOPNOTSUPP := not_not.mp he
        rw [not_or, not_not, not_not] at hret₁
        have hrange := rangeRefused hclone hret₁.1 hret₁.2
        rw [hret₁.2] at hret₂ h
        obtain ⟨errno, herrno, hsend⟩ := sendfile_eq_error hret₂
        obtain ⟨r, hcopy, hcheck⟩ := Option.map_eq_some_iff.mp h
        obtain rfl := checked_error hcheck
        rw [hsend] at hcopy
        exact copyfileErrno_failure hrange herrno hsend hcopy

inductive FirstFailure (e : Errno) : List Rv → Prop
  | here (steps : List Rv) : FirstFailure e (.error e :: steps)
  | there {steps : List Rv} (h : FirstFailure e steps) :
      FirstFailure e (.ok () :: steps)

/-- The step at which `fs::clonefile` fails, and the `errno` of that step. -/
inductive CloneFailure (ans : CloneAnswers) (src dst : Content) (e : Errno) : Prop
  | fstat (h : ans.fstat = .error e)
  | step (hstat : ans.fstat = .ok ()) (copy : Rv) (data : Content)
      (hcopy : copydataErrno ans.copy src dst src.length = some (copy, data))
      (hcause : copy = .error e → CopyFailure ans.copy src dst e)
      (h : FirstFailure e [copy, tolerated ans.attrCopy, tolerated ans.xattrCopy,
        ans.fchown, ans.fchmod, ans.utime])

theorem FirstFailure.of_bind {rv : Rv} {k : Unit → Rv} {e : Errno} {steps : List Rv}
    (h : (rv >>= k) = .error e) (hk : k () = .error e → FirstFailure e steps) :
    FirstFailure e (rv :: steps) := by
  cases rv with
  | error e' =>
      cases h
      exact .here steps
  | ok u => exact .there (hk h)

theorem clonefileErrno_failure {ans : CloneAnswers} {src dst data : Content}
    {e : Errno} (h : clonefileErrno ans src dst = some (.error e, data)) :
    CloneFailure ans src dst e := by
  unfold clonefileErrno at h
  cases hstat : ans.fstat with
  | error e' =>
      rw [hstat] at h
      cases h
      exact .fstat hstat
  | ok u =>
      rw [hstat] at h
      obtain ⟨⟨copy, dst'⟩, hcopy, heq⟩ := Option.map_eq_some_iff.mp h
      obtain ⟨hsteps, rfl⟩ := Prod.mk.inj heq
      refine .step hstat copy dst' hcopy ?_ ?_
      · rintro rfl
        exact copydataErrno_failure hcopy
      · refine .of_bind hsteps fun hsteps => ?_
        refine .of_bind hsteps fun hsteps => ?_
        refine .of_bind hsteps fun hsteps => ?_
        refine .of_bind hsteps fun hsteps => ?_
        refine .of_bind hsteps fun hsteps => ?_
        rw [hsteps]
        exact .here []

end Mergerfs
