import Mergerfs.Fs.CopyLoop

/-!
# Copying the content of a file

`fs::clonefile` copies the content of one open file to another by the first of four
means that works: sharing the data, `copy_file_range`, `sendfile`, and reading and
writing. The destination is extended to its full size before.

What the kernel answers is given by `CopyAnswers`. A transfer moves at most what was
asked for, and possibly less. The bytes that were read and written are counted without
a bound; `Fs.Copyfile` says why the integer types of the code come to the same.
-/

namespace Mergerfs

open Errno

/-- A read gets no more bytes than this at a time. -/
def maxRead : ℕ := 2147479552

structure CopyAnswers where
  fallocate : Rv
  ftruncate : Rv
  ficlone : Rv
  copyFileRange : Transfer
  sendfile : Transfer
  /-- `fs::fstat` in `fs::copyfile`. -/
  fstat : Rv
  reads : List Transfer
  writes : List Transfer
  /-- `st_blksize`. The buffer of sixteen blocks is not empty, and can be made. -/
  blksize : UInt64
  bufsize_pos : 0 < (blksize * 16).toNat
  bufsize_lt : (blksize * 16).toNat < 2 ^ 63

def CopyAnswers.bufsize (ans : CopyAnswers) : ℕ := min (ans.blksize * 16).toNat maxRead

theorem CopyAnswers.bufsize_ne (ans : CopyAnswers) : 0 < ans.bufsize :=
  Nat.lt_min.mpr ⟨ans.bufsize_pos, by decide⟩

theorem pageSize_pos : 0 < ((4096 : UInt64) * 16).toNat := by decide

theorem pageSize_lt : ((4096 : UInt64) * 16).toNat < 2 ^ 63 := by decide

theorem bufsize_of_pageSize {ans : CopyAnswers} (h : ans.blksize = 4096) :
    ans.bufsize = 65536 := by
  rw [CopyAnswers.bufsize, h]
  decide

/-! ## Reading and writing -/

def Tally.exact (count : ℕ) : Tally ℕ where
  short total := decide (total < count)
  add total nr := some (total + nr)

theorem Tally.add_exact (count total nr : ℕ) :
    (Tally.exact count).add total nr = some (total + nr) := rfl

def intOf : Option ℕ → ℤ
  | none => -1
  | some total => toInt total

def copyfileErrno (ans : CopyAnswers) (src dst : Content) (errno : Errno) :
    Option (ℤ × Errno × Content) :=
  match ans.fstat with
  | .error e => some (-1, e, dst)
  | .ok _ =>
      (copyLoop (.exact src.length) src ans.bufsize ans.reads ans.writes 0 0 dst
        errno).map fun r => (intOf r.1, r.2)

/-- `fs::copyfile`, whatever `errno` was. -/
def copyfile (ans : CopyAnswers) (src dst : Content) : Option (ℤ × Content) :=
  (copyfileErrno ans src dst EINTR).map fun r => (r.1, r.2.2)

theorem copyfile_eq_map (ans : CopyAnswers) (src dst : Content) (errno : Errno) :
    copyfile ans src dst =
      (copyfileErrno ans src dst errno).map fun r => (r.1, r.2.2) := by
  unfold copyfile copyfileErrno
  cases ans.fstat with
  | error e => rfl
  | ok u =>
      have hloop := copyLoop_rel (R := Eq)
        (fun off buf heq => congrArg (Bytes.writeAt 0 · off buf) heq)
        (.exact src.length) src ans.bufsize ans.reads ans.writes 0 0 dst dst rfl
        EINTR errno
      dsimp only
      generalize copyLoop _ src _ _ _ 0 0 dst EINTR = r₁ at hloop ⊢
      generalize copyLoop _ src _ _ _ 0 0 dst errno = r₂ at hloop ⊢
      rcases hloop with ⟨hcount, hdst⟩ | _
      · simp only [Option.map_some, hcount, hdst]
      · rfl

/-! ## The four means -/

/-- The destination after it was extended; the results of the calls are not looked
at. -/
def preallocate (ans : CopyAnswers) (dst : Content) (count : ℕ) : Content :=
  let dst := match ans.fallocate with
    | .ok _ => Bytes.extend 0 dst count
    | .error _ => dst
  match ans.ftruncate with
  | .ok _ => Bytes.resize 0 dst count
  | .error _ => dst

def moved (k count : ℕ) (src : Content) : ℕ := min k (min count src.length)

/-- `copy_file_range` or `sendfile` from the start of both files: the `int` made
of its result, the value of `errno` after it and the destination. -/
def transfer (ans : Transfer) (src : Content) (count : ℕ) (errno : Errno)
    (dst : Content) : ℤ × Errno × Content :=
  match ans with
  | .ok k => (toInt (moved k count src), errno,
      Bytes.writeAt 0 dst 0 (src.take (moved k count src)))
  | .error e => (-1, e, dst)

def copydata (ans : CopyAnswers) (src dst : Content) (count : ℕ) :
    Option (ℤ × Content) :=
  let dst := preallocate ans dst count
  match ans.ficlone with
  | .ok _ => some (0, Bytes.writeAt 0 dst 0 src)
  | .error e =>
      if e ≠ EOPNOTSUPP then some (-1, dst)
      else
        let r := transfer ans.copyFileRange src count e dst
        if r.1 ≠ -1 ∨ r.2.1 ≠ EOPNOTSUPP then some (r.1, r.2.2)
        else
          let r := transfer ans.sendfile src count r.2.1 r.2.2
          if r.1 ≠ -1 ∨ r.2.1 ≠ EINVAL ∧ r.2.1 ≠ ENOSYS then some (r.1, r.2.2)
          else (copyfileErrno ans src r.2.2 r.2.1).map fun r => (r.1, r.2.2)

structure CloneAnswers where
  fstat : Rv
  copy : CopyAnswers
  attrCopy : Rv
  xattrCopy : Rv
  fchown : Rv
  fchmod : Rv
  utime : Rv

def ignorableError (e : Errno) : Bool := e = ENOTTY || e = EOPNOTSUPP

/-- A copy of attributes that may fail for want of support. -/
def fails (rv : Rv) : Bool :=
  match rv with
  | .ok _ => false
  | .error e => !ignorableError e

def clonefile (ans : CloneAnswers) (src dst : Content) : Option (ℤ × Content) :=
  match ans.fstat with
  | .error _ => some (-1, dst)
  | .ok _ =>
      match copydata ans.copy src dst src.length with
      | none => none
      | some (rv, dst) =>
          if rv = -1 then some (-1, dst)
          else if fails ans.attrCopy then some (-1, dst)
          else if fails ans.xattrCopy then some (-1, dst)
          else if !ans.fchown.isOk then some (-1, dst)
          else if !ans.fchmod.isOk then some (-1, dst)
          else if !ans.utime.isOk then some (-1, dst)
          else some (0, dst)

/-! ## Reading and writing copies everything -/

/-- The destination is the source as far as it was copied, and that is counted. -/
structure CopiedTo (src : Content) (s : CopyState ℕ) : Prop where
  total_eq : s.total = s.pos
  pos_le : s.pos ≤ src.length
  take_eq : s.dst.take s.pos = src.take s.pos

theorem Round.copiedTo {src : Content} {count bufsize : ℕ} {s s' : CopyState ℕ}
    (h : Round (.exact count) src bufsize s s') (hs : CopiedTo src s) :
    CopiedTo src s' := by
  cases h with
  | interrupted => exact ⟨hs.total_eq, hs.pos_le, hs.take_eq⟩
  | @copied _ _ _ pos k nr _ _ dst _ _ _ _ hnr _ hwriten hadd =>
      obtain ⟨htotal, hpos, htake⟩ := hs
      dsimp only at htotal hpos htake
      have hle : nr ≤ src.length - pos := hnr ▸ readSize_le k bufsize _
      have hlen : pos ≤ dst.length := by
        have := congrArg List.length htake
        rw [List.length_take, List.length_take] at this
        omega
      have hwrite := take_of_writen hlen hwriten
      rw [htake, List.length_take, List.length_drop, Nat.min_eq_left hle,
        ← List.take_add] at hwrite
      exact ⟨by rw [← Option.some.inj hadd, htotal], by dsimp only; omega, hwrite⟩

theorem Exit.total_eq {src : Content} {bufsize : ℕ} (hbuf : 0 < bufsize)
    {s : CopyState ℕ} (hs : CopiedTo src s) {total : ℕ} {errno : Errno} {dst : Content}
    (h : Exit (.exact src.length) src bufsize s (some total, errno, dst)) :
    total = src.length ∧ s.pos = src.length ∧ s.errno = errno ∧ s.dst = dst := by
  obtain ⟨htotal, hpos, _⟩ := hs
  cases h with
  | done hshort =>
      have := of_decide_eq_false hshort
      dsimp only at htotal hpos
      exact ⟨by omega, by dsimp only; omega, rfl, rfl⟩
  | eof hshort hnr =>
      have := of_decide_eq_true hshort
      dsimp only at htotal hpos
      exact absurd hnr (Nat.ne_of_gt (readSize_pos hbuf (by omega)))

theorem take_of_copyfileErrno {ans : CopyAnswers} {src dst dst' : Content} {rv : ℤ}
    {errno errno' : Errno}
    (h : copyfileErrno ans src dst errno = some (rv, errno', dst')) (hrv : rv ≠ -1) :
    dst'.take src.length = src := by
  unfold copyfileErrno at h
  split at h
  · cases h
    exact absurd rfl hrv
  · obtain ⟨⟨count, errno₁, dst₁⟩, hloop, heq⟩ := Option.map_eq_some_iff.mp h
    cases heq
    obtain ⟨s, hrounds, hexit⟩ := copyLoop_eq_some_iff.mp hloop
    have hs : CopiedTo src s := hrounds.keeps Round.copiedTo ⟨rfl, Nat.zero_le _, rfl⟩
    cases count with
    | none => exact absurd rfl hrv
    | some total =>
        obtain ⟨_, hpos, _, rfl⟩ := hexit.total_eq ans.bufsize_ne hs
        rw [← hpos, hs.take_eq, hpos, List.take_length]

/-! ## When the copy is whole -/

def Present (dst src : Content) (n : ℕ) : Prop :=
  src.drop n = (dst.take src.length).drop n

theorem take_writeAt_iff {dst src : Content} {n : ℕ} (hn : n ≤ src.length) :
    (Bytes.writeAt 0 dst 0 (src.take n)).take src.length = src ↔
      Present dst src n := by
  have hlen : (src.take n).length = n := by
    rw [List.length_take, Nat.min_eq_left hn]
  have htake : (Bytes.writeAt 0 dst 0 (src.take n)).take src.length =
      src.take n ++ (dst.take src.length).drop n := by
    rw [Bytes.writeAt_zero, List.take_append, hlen,
      List.take_of_length_le (by omega), List.drop_take]
  rw [htake, Present]
  constructor
  · intro h
    have hsplit := h.trans (List.take_append_drop n src).symm
    exact (List.append_cancel_left hsplit).symm
  · intro h
    rw [← h, List.take_append_drop]

theorem moved_le (k count : ℕ) (src : Content) : moved k count src ≤ src.length :=
  Nat.le_trans (Nat.min_le_right _ _) (Nat.min_le_right _ _)

def firstTransfer (ans : CopyAnswers) (src dst : Content) :
    ℤ × Errno × Content :=
  transfer ans.copyFileRange src src.length EOPNOTSUPP
    (preallocate ans dst src.length)

/-- The data was shared, or the transfer that ended the copy moved everything the
destination did not hold already. -/
def TransfersAll (ans : CopyAnswers) (src dst : Content) : Prop :=
  ans.ficlone = .ok () ∨
    ((firstTransfer ans src dst).1 ≠ -1 → ∀ k, ans.copyFileRange = .ok k →
      Present (preallocate ans dst src.length) src (moved k src.length src)) ∧
    ((firstTransfer ans src dst).1 = -1 → ∀ k, ans.sendfile = .ok k →
      Present (firstTransfer ans src dst).2.2 src (moved k src.length src))

theorem transfer_of_ne {a : Transfer} {src dst : Content} {count : ℕ}
    {errno : Errno} (h : (transfer a src count errno dst).1 ≠ -1) :
    ∃ k, a = .ok k ∧ (transfer a src count errno dst).2.2 =
      Bytes.writeAt 0 dst 0 (src.take (moved k count src)) := by
  cases a with
  | error e => exact absurd rfl h
  | ok k => exact ⟨k, rfl, rfl⟩

theorem copydata_iff_of_first {ans : CopyAnswers} {src dst : Content}
    {e : Errno} (hclone : ans.ficlone = .error e)
    (hrv : (firstTransfer ans src dst).1 ≠ -1) :
    (firstTransfer ans src dst).2.2.take src.length = src ↔
      TransfersAll ans src dst := by
  obtain ⟨k, hk, hdst⟩ := transfer_of_ne hrv
  rw [firstTransfer, hdst, take_writeAt_iff (moved_le _ _ _)]
  constructor
  · intro hpresent
    refine .inr ⟨?_, fun h => absurd h hrv⟩
    intro _ k' hk'
    cases hk.symm.trans hk'
    exact hpresent
  · intro hall
    rcases hall with hok | ⟨hfirst, _⟩
    · rw [hclone] at hok
      cases hok
    · exact hfirst hrv k hk

theorem copydata_iff_of_second {ans : CopyAnswers} {src dst : Content}
    {e : Errno} (hclone : ans.ficlone = .error e)
    (hfirst : (firstTransfer ans src dst).1 = -1) {errno : Errno}
    (hrv : (transfer ans.sendfile src src.length errno
      (firstTransfer ans src dst).2.2).1 ≠ -1) :
    (transfer ans.sendfile src src.length errno
      (firstTransfer ans src dst).2.2).2.2.take src.length = src ↔
        TransfersAll ans src dst := by
  obtain ⟨k, hk, hdst⟩ := transfer_of_ne hrv
  rw [hdst, take_writeAt_iff (moved_le _ _ _)]
  constructor
  · intro hpresent
    refine .inr ⟨fun h => absurd hfirst h, ?_⟩
    intro _ k' hk'
    cases hk.symm.trans hk'
    exact hpresent
  · intro hall
    rcases hall with hok | ⟨_, hsecond⟩
    · rw [hclone] at hok
      cases hok
    · exact hsecond hfirst k hk

/-- `copydata` that does not fail has made a whole copy exactly when the call that
ended it has left nothing out. -/
theorem copydata_iff {ans : CopyAnswers} {src dst dst' : Content} {rv : ℤ}
    (h : copydata ans src dst src.length = some (rv, dst')) (hrv : rv ≠ -1) :
    dst'.take src.length = src ↔ TransfersAll ans src dst := by
  unfold copydata at h
  cases hclone : ans.ficlone with
  | ok u =>
      rw [hclone] at h
      obtain ⟨_, rfl⟩ := Prod.mk.inj (Option.some.inj h)
      rw [Bytes.writeAt_zero, List.take_left]
      exact ⟨fun _ => .inl hclone, fun _ => rfl⟩
  | error e =>
      rw [hclone] at h
      dsimp only at h
      split_ifs at h with he hfirst hsecond
      · cases h
        exact absurd rfl hrv
      · obtain rfl : e = EOPNOTSUPP := not_not.mp he
        obtain ⟨rfl, rfl⟩ := Prod.mk.inj (Option.some.inj h)
        exact copydata_iff_of_first hclone hrv
      · obtain rfl : e = EOPNOTSUPP := not_not.mp he
        obtain ⟨rfl, rfl⟩ := Prod.mk.inj (Option.some.inj h)
        rw [not_or, not_not] at hfirst
        exact copydata_iff_of_second hclone hfirst.1 hrv
      · -- reading and writing ended it, after both transfers had failed
        obtain rfl : e = EOPNOTSUPP := not_not.mp he
        rw [not_or, not_not, not_not] at hfirst
        obtain ⟨⟨rv', errno', dst₁⟩, hcopy, heq⟩ := Option.map_eq_some_iff.mp h
        cases heq
        refine ⟨fun _ => .inr ⟨fun hne => absurd hfirst.1 hne, ?_⟩,
          fun _ => take_of_copyfileErrno hcopy hrv⟩
        intro _ k hk
        -- a transfer that succeeds leaves `errno` as it was
        exfalso
        apply hsecond
        rw [hk]
        exact .inr ⟨by rw [transfer, hfirst.2]; decide,
          by rw [transfer, hfirst.2]; decide⟩

theorem clonefile_eq_some {ans : CloneAnswers} {src dst dst' : Content} {rv : ℤ}
    (h : clonefile ans src dst = some (rv, dst')) (hrv : rv ≠ -1) :
    ∃ rv', copydata ans.copy src dst src.length = some (rv', dst') ∧
      rv' ≠ -1 := by
  have hfail : ∀ {dst₁ : Content}, some ((-1 : ℤ), dst₁) ≠ some (rv, dst') := by
    intro dst₁ heq
    cases heq
    exact hrv rfl
  unfold clonefile at h
  split at h
  · exact absurd h hfail
  · split at h
    · cases h
    · rename_i rv' dst₁ hcopy
      split_ifs at h with hrv'
      iterate 6 exact absurd h hfail
      cases h
      exact ⟨rv', hcopy, hrv'⟩

/-- A copy that does not fail is whole exactly when the transfer that ended it has
moved everything the destination did not hold already; so for `copydata` and for
`fs::clonefile`. -/
theorem clonefile_whole_iff (ans : CloneAnswers) (src dst : Content) :
    (∀ rv dst', copydata ans.copy src dst src.length = some (rv, dst') →
      rv ≠ -1 →
        (dst'.take src.length = src ↔ TransfersAll ans.copy src dst)) ∧
    (∀ rv dst', clonefile ans src dst = some (rv, dst') → rv ≠ -1 →
      (dst'.take src.length = src ↔ TransfersAll ans.copy src dst)) := by
  constructor
  · intro rv dst' h hrv
    exact copydata_iff h hrv
  · intro rv dst' h hrv
    obtain ⟨rv', hcopy, hrv'⟩ := clonefile_eq_some h hrv
    exact copydata_iff hcopy hrv'

def copyingUpTo (n : ℕ) : CloneAnswers where
  fstat := .ok ()
  copy :=
    { fallocate := .ok ()
      ftruncate := .ok ()
      ficlone := .error EOPNOTSUPP
      copyFileRange := .ok n
      sendfile := .error EINVAL
      fstat := .ok ()
      reads := []
      writes := []
      blksize := 4096
      bufsize_pos := pageSize_pos
      bufsize_lt := pageSize_lt }
  attrCopy := .ok ()
  xattrCopy := .ok ()
  fchown := .ok ()
  fchmod := .ok ()
  utime := .ok ()

/-- A transfer of everything makes a whole copy. -/
theorem clonefile_whole_iff_all :
    clonefile (copyingUpTo 2) [1, 2] [] = some (0, [1, 2]) ∧
      ([1, 2] : Content).take 2 = [1, 2] := by
  have h : clonefile (copyingUpTo 2) [1, 2] [] = some (0, [1, 2]) := by decide
  refine ⟨h, ((clonefile_whole_iff (copyingUpTo 2) [1, 2] []).2 0 [1, 2] h
    (by decide)).mpr (.inr ⟨?_, ?_⟩)⟩
  · intro _ k hk
    cases hk
    rfl
  · intro hne
    exact absurd hne (by decide)

/-- A transfer of one byte of two is taken for a success, and the second byte is
one the destination was filled up with. -/
theorem clonefile_short :
    clonefile (copyingUpTo 1) [1, 2] [] = some (0, [1, 0]) := by
  decide

end Mergerfs
