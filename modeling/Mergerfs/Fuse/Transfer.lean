import Mergerfs.Fuse.Write

/-!
# What a read or a write reports

`FUSE::read` and `FUSE::write` return what `fs::pread` or `fs::pwrite` returned. Each
has two variants: with `direct_io` the number of bytes transferred is passed on, and
without it any transfer of more than nothing is passed on as one of all the bytes
asked for. Here they are programs over the calls they make, for requests of any size:
the number a call returns goes through an `int`, and so does the size of the request.

The write of `Handles` is one of the executions of `Fuse.write`.
-/

namespace Mergerfs

open Errno

namespace Fuse

inductive IoCall where
  | pread (fd count offset : ℕ)
  | pwrite (fd : ℕ) (buf : Content) (offset : ℕ)
  | movefile (fusepath : Path) (additionalSize fd : ℕ)

/-- What a transfer returned, and what is in `errno` after one that has not
failed. -/
structure Answer where
  transfer : Transfer
  stale : ℕ

/-- `fs::movefile` returns a value, and a descriptor through its argument. -/
@[reducible] def IoAns : IoCall → Type
  | .pread _ _ _ => Answer
  | .pwrite _ _ _ => Answer
  | .movefile _ _ _ => ℤ × ℕ

abbrev IoProg := Program IoCall IoAns

abbrev IoTrace := List (Program.Event IoCall IoAns)

def io (c : IoCall) : IoProg (IoAns c) := Program.call c

namespace Answer

/-- `int rv = fs::pread(...)`. -/
def rv (r : Answer) : ℤ :=
  match r.transfer with
  | .error _ => -1
  | .ok k => toInt k

def errno (r : Answer) : ℤ :=
  match r.transfer with
  | .error e => e.val
  | .ok _ => r.stale

/-- The body of `l::read_direct_io` and of `l::write_direct_io`. -/
def directIo (r : Answer) : ℤ :=
  if r.rv = -1 then -r.errno else r.rv

def regular (r : Answer) (count : ℕ) : ℤ :=
  if r.rv = -1 then -r.errno
  else if r.rv = 0 then 0
  else toInt count

def value (directIo : Bool) (r : Answer) (count : ℕ) : ℤ :=
  if directIo then r.directIo else r.regular count

end Answer

def read (directIo : Bool) (fd count offset : ℕ) : IoProg ℤ := do
  let r ← io (.pread fd count offset)
  pure (r.value directIo count)

def writeFunc (directIo : Bool) (fd : ℕ) (buf : Content) (offset : ℕ) :
    IoProg ℤ := do
  let r ← io (.pwrite fd buf offset)
  pure (r.value directIo buf.length)

def write (directIo moveonenospc : Bool) (fusepath : Path) (fd : ℕ)
    (buf : Content) (offset : ℕ) : IoProg ℤ := do
  let rv ← writeFunc directIo fd buf offset
  if outOfSpace (-rv) ∧ moveonenospc then
    let r ← io (.movefile fusepath buf.length fd)
    if r.1 = -1 then pure ENOSPC.neg
    else writeFunc directIo r.2 buf offset
  else pure rv

/-! ## What is reported -/

def Reports (t : Transfer) (value : ℤ) : Prop :=
  match t with
  | .error e => value = e.neg
  | .ok k => value = k

/-- The number of bytes fits an `int`, and without `direct_io` it is none or all of
those asked for. -/
def Passed (directIo : Bool) (count : ℕ) (t : Transfer) : Prop :=
  ∀ k, t = .ok k → toInt k = k ∧ (directIo = true ∨ k = 0 ∨ toInt count = k)

def lastTransfer (tr : IoTrace) : Option Transfer :=
  (tr.filterMap fun e => match e with
    | ⟨.pread _ _ _, r⟩ => some r.transfer
    | ⟨.pwrite _ _ _, r⟩ => some r.transfer
    | ⟨.movefile _ _ _, _⟩ => none).getLast?

def MoveFailed (tr : IoTrace) : Prop :=
  ∃ fusepath size fd fd', (⟨.movefile fusepath size fd, (-1, fd')⟩ :
    Program.Event IoCall IoAns) ∈ tr

@[simp] theorem toInt_zero : toInt 0 = 0 := rfl

theorem Answer.reports_value_iff (directIo : Bool) (r : Answer) (count : ℕ) :
    Reports r.transfer (r.value directIo count) ↔
      Passed directIo count r.transfer := by
  obtain ⟨t, stale⟩ := r
  cases t with
  | error e =>
      have hvalue : Answer.value directIo ⟨.error e, stale⟩ count = e.neg := by
        cases directIo <;>
          simp [value, Answer.directIo, regular, rv, errno, Errno.neg]
      constructor
      · intro _ k hk
        cases hk
      · intro _
        exact hvalue
  | ok k =>
      have hpassed : Passed directIo count (.ok k) ↔
          toInt k = k ∧ (directIo = true ∨ k = 0 ∨ toInt count = k) := by
        constructor
        · intro h
          exact h k rfl
        · intro h k' hk'
          cases hk'
          exact h
      have hzero : k = 0 → toInt k = 0 := by
        rintro rfl
        exact toInt_zero
      -- an `int` of another value would have to be the number itself
      have hint : toInt count = k → toInt k = k := by
        intro h
        have hbmod : Int.bmod (toInt count) (2 ^ 32) = toInt count :=
          Int.bmod_bmod
        rwa [h] at hbmod
      rw [hpassed]
      cases directIo with
      | true =>
          simp only [Reports, value, Answer.directIo, rv, errno, if_true,
            true_or, and_true]
          split_ifs <;> omega
      | false =>
          simp only [Reports, value, regular, rv, errno, Bool.false_eq_true,
            if_false, false_or]
          split_ifs <;> omega

theorem exec_read {directIo : Bool} {fd count offset : ℕ} {tr : IoTrace} {ret : ℤ}
    (h : Program.Exec (read directIo fd count offset) tr ret) :
    ∃ r : Answer, tr = [⟨.pread fd count offset, r⟩] ∧
      ret = r.value directIo count := by
  obtain ⟨r, tr', rfl, hret⟩ := Program.exec_call_bind.mp h
  obtain ⟨rfl, rfl⟩ := Program.exec_pure.mp hret
  exact ⟨r, rfl, rfl⟩

theorem exec_writeFunc {directIo : Bool} {fd : ℕ} {buf : Content} {offset : ℕ}
    {tr : IoTrace} {ret : ℤ} :
    Program.Exec (writeFunc directIo fd buf offset) tr ret ↔
      ∃ r : Answer, tr = [⟨.pwrite fd buf offset, r⟩] ∧
        ret = r.value directIo buf.length := by
  constructor
  · intro h
    obtain ⟨r, tr', rfl, hret⟩ := Program.exec_call_bind.mp h
    obtain ⟨rfl, rfl⟩ := Program.exec_pure.mp hret
    exact ⟨r, rfl, rfl⟩
  · rintro ⟨r, rfl, rfl⟩
    exact Program.exec_call_bind.mpr ⟨r, [], rfl, Program.exec_pure.mpr ⟨rfl, rfl⟩⟩

/-- A write is one transfer; or a failed move after it; or a move and a second
transfer. -/
theorem exec_write {directIo moveonenospc : Bool} {fusepath : Path} {fd : ℕ}
    {buf : Content} {offset : ℕ} {tr : IoTrace} {ret : ℤ} :
    Program.Exec (write directIo moveonenospc fusepath fd buf offset) tr ret ↔
      ∃ r : Answer,
        (¬ (outOfSpace (-r.value directIo buf.length) = true ∧
            moveonenospc = true) ∧
          tr = [⟨.pwrite fd buf offset, r⟩] ∧
          ret = r.value directIo buf.length) ∨
        (outOfSpace (-r.value directIo buf.length) = true ∧
            moveonenospc = true ∧
          ∃ rv fd', (rv = -1 ∧ ret = ENOSPC.neg ∧
              tr = [⟨.pwrite fd buf offset, r⟩,
                ⟨.movefile fusepath buf.length fd, (rv, fd')⟩]) ∨
            (rv ≠ -1 ∧ ∃ r' : Answer, ret = r'.value directIo buf.length ∧
              tr = [⟨.pwrite fd buf offset, r⟩,
                ⟨.movefile fusepath buf.length fd, (rv, fd')⟩,
                ⟨.pwrite fd' buf offset, r'⟩])) := by
  rw [write, Program.exec_bind]
  constructor
  · rintro ⟨t₁, rv, t₂, rfl, h₁, h₂⟩
    obtain ⟨r, rfl, rfl⟩ := exec_writeFunc.mp h₁
    refine ⟨r, ?_⟩
    split_ifs at h₂ with hspace
    · obtain ⟨⟨rv, fd'⟩, t, rfl, hrest⟩ := Program.exec_call_bind.mp h₂
      refine .inr ⟨hspace.1, hspace.2, rv, fd', ?_⟩
      split_ifs at hrest with hrv
      · obtain ⟨rfl, rfl⟩ := Program.exec_pure.mp hrest
        exact .inl ⟨hrv, rfl, rfl⟩
      · obtain ⟨r', rfl, rfl⟩ := exec_writeFunc.mp hrest
        exact .inr ⟨hrv, r', rfl, rfl⟩
    · obtain ⟨rfl, rfl⟩ := Program.exec_pure.mp h₂
      exact .inl ⟨hspace, rfl, rfl⟩
  · rintro ⟨r, ⟨hspace, rfl, rfl⟩ | ⟨hout, hmove, rv, fd', hrest⟩⟩
    · refine ⟨_, _, [], rfl, exec_writeFunc.mpr ⟨r, rfl, rfl⟩, ?_⟩
      rw [if_neg hspace]
      exact Program.exec_pure.mpr ⟨rfl, rfl⟩
    · rcases hrest with ⟨hrv, rfl, rfl⟩ | ⟨hrv, r', rfl, rfl⟩
      · refine ⟨[_], _, [_], rfl, exec_writeFunc.mpr ⟨r, rfl, rfl⟩, ?_⟩
        rw [if_pos ⟨hout, hmove⟩]
        refine Program.exec_call_bind.mpr ⟨(rv, fd'), [], rfl, ?_⟩
        rw [if_pos hrv]
        exact Program.exec_pure.mpr ⟨rfl, rfl⟩
      · refine ⟨[_], _, [_, _], rfl, exec_writeFunc.mpr ⟨r, rfl, rfl⟩, ?_⟩
        rw [if_pos ⟨hout, hmove⟩]
        refine Program.exec_call_bind.mpr ⟨(rv, fd'), [_], rfl, ?_⟩
        rw [if_neg hrv]
        exact exec_writeFunc.mpr ⟨r', rfl, rfl⟩

/-- A failed move is reported as `ENOSPC`, whatever the transfer before it. -/
theorem reports_ENOSPC_iff (directIo : Bool) (count : ℕ) (t : Transfer) :
    Reports t ENOSPC.neg ↔
      Passed directIo count t ∧ t = .error ENOSPC := by
  cases t with
  | error e =>
      constructor
      · intro h
        have hval : (ENOSPC.val : ℤ) = e.val := Int.neg_inj.mp h
        have he : e = ENOSPC := by
          obtain ⟨val, pos⟩ := e
          simp only [ENOSPC, Errno.mk.injEq] at hval ⊢
          omega
        refine ⟨?_, by rw [he]⟩
        intro k hk
        cases hk
      · rintro ⟨_, h⟩
        cases h
        rfl
  | ok k =>
      constructor
      · intro h
        have hneg := ENOSPC.neg_lt_zero
        simp only [Reports] at h
        omega
      · rintro ⟨_, h⟩
        cases h

/-- A read reports its transfer exactly when the transfer is passed on, and a write
its last one exactly when that is passed on and no failed move hides its error. -/
theorem transfer_reported_iff (directIo moveonenospc : Bool) (fusepath : Path)
    (fd count offset : ℕ) (buf : Content) :
    (∀ tr ret, Program.Exec (read directIo fd count offset) tr ret →
      ∃ t, lastTransfer tr = some t ∧
        (Reports t ret ↔ Passed directIo count t)) ∧
    (∀ tr ret, Program.Exec
        (write directIo moveonenospc fusepath fd buf offset) tr ret →
      ∃ t, lastTransfer tr = some t ∧
        (Reports t ret ↔ Passed directIo buf.length t ∧
          (MoveFailed tr → t = .error ENOSPC))) := by
  constructor
  · intro tr ret h
    obtain ⟨r, rfl, rfl⟩ := exec_read h
    exact ⟨r.transfer, rfl, r.reports_value_iff directIo count⟩
  · intro tr ret h
    obtain ⟨r, ⟨_, rfl, rfl⟩ | ⟨_, _, rv, fd', hrest⟩⟩ := exec_write.mp h
    · refine ⟨r.transfer, rfl, ?_⟩
      have hmove : ¬ MoveFailed [⟨.pwrite fd buf offset, r⟩] := by
        rintro ⟨_, _, _, _, hmem⟩
        simp at hmem
      simp [r.reports_value_iff, hmove]
    · rcases hrest with ⟨rfl, rfl, rfl⟩ | ⟨hrv, r', rfl, rfl⟩
      · refine ⟨r.transfer, rfl, ?_⟩
        have hmove : MoveFailed [⟨.pwrite fd buf offset, r⟩,
            ⟨.movefile fusepath buf.length fd, (-1, fd')⟩] :=
          ⟨fusepath, buf.length, fd, fd', by simp⟩
        rw [reports_ENOSPC_iff directIo buf.length]
        simp [hmove]
      · refine ⟨r'.transfer, rfl, ?_⟩
        have hmove : ¬ MoveFailed [⟨.pwrite fd buf offset, r⟩,
            ⟨.movefile fusepath buf.length fd, (rv, fd')⟩,
            ⟨.pwrite fd' buf offset, r'⟩] := by
          rintro ⟨_, _, _, _, hmem⟩
          simp at hmem
          exact hrv hmem.2.1.symm
        simp [r'.reports_value_iff, hmove]

/-- With `direct_io` a short read is reported as it is. -/
theorem transfer_reported_iff_short :
    Program.Exec (read true 3 2 0) [⟨.pread 3 2 0, ⟨.ok 1, 0⟩⟩] 1 ∧
    ∃ t, lastTransfer [⟨.pread 3 2 0, ⟨.ok 1, 0⟩⟩] = some t ∧
      (Reports t 1 ↔ Passed true 2 t) := by
  have hex : Program.Exec (read true 3 2 0) [⟨.pread 3 2 0, ⟨.ok 1, 0⟩⟩] 1 :=
    ⟨⟨.ok 1, 0⟩, [], rfl, rfl, rfl⟩
  exact ⟨hex, (transfer_reported_iff true false [] 3 2 0 []).1 _ _ hex⟩

/-- Without it a transfer of one byte of two is reported as one of two. -/
theorem transfer_reported_whole :
    Program.Exec (read false 3 2 0) [⟨.pread 3 2 0, ⟨.ok 1, 0⟩⟩] 2 ∧
    Program.Exec (write false true ['/', 'f'] 3 [7, 8] 0)
      [⟨.pwrite 3 [7, 8] 0, ⟨.ok 1, 0⟩⟩] 2 ∧
    ¬ Reports (.ok 1) 2 := by
  refine ⟨⟨⟨.ok 1, 0⟩, [], rfl, rfl, rfl⟩, ?_, ?_⟩
  · exact exec_write.mpr ⟨⟨.ok 1, 0⟩, .inl ⟨by decide, rfl, rfl⟩⟩
  · simp [Reports]

/-! ## The write of the handles -/

/-- For the requests of `WriteCall` no number wraps, and the value is the one made
of what `fs::pwrite` returned. -/
theorem func_eq_value {H : Type*} (c : WriteCall H) (v : Files) (fd : ℕ)
    (ans : Transfer) (stale : ℕ) :
    c.func (pwrite v fd c.offset c.buf ans).1 =
      Answer.value c.directIo ⟨(pwrite v fd c.offset c.buf ans).1, stale⟩
        c.buf.length := by
  have hlt := c.buf_lt
  have hok : ∀ n, n ≤ c.buf.length → c.func (.ok n) =
      Answer.value c.directIo ⟨.ok n, stale⟩ c.buf.length := by
    intro n hn
    have hint : toInt n = n := toInt_of_lt (by omega)
    have hne : Answer.rv ⟨.ok n, stale⟩ ≠ -1 := by
      change toInt n ≠ -1
      omega
    rw [Answer.value, Answer.directIo, Answer.regular, if_neg hne, if_neg hne]
    rfl
  have herr : ∀ e, c.func (.error e) =
      Answer.value c.directIo ⟨.error e, stale⟩ c.buf.length := by
    intro e
    simp [WriteCall.func, writeDirectIo, writeRegular, Answer.value,
      Answer.directIo, Answer.regular, Answer.rv, Answer.errno, Errno.neg]
  unfold pwrite
  split
  · exact herr EBADF
  · split
    · exact herr _
    · exact hok _ (Nat.min_le_right _ _)

theorem exec_of_write {H : Type*} [DecidableEq H] {m : Mounts} {cfg : Config}
    {fusepath : FusePath} {s s' : Handles H} {c : WriteCall H} {ret : ℤ}
    (h : Mergerfs.write m cfg fusepath s c = some (ret, s')) :
    ∃ tr, Program.Exec (write c.directIo cfg.moveonenospc fusepath.path
      (s.fd c.handle) c.buf c.offset) tr ret := by
  unfold Mergerfs.write at h
  dsimp only at h
  rw [func_eq_value c _ _ _ 0] at h
  split_ifs at h with hspace
  · cases hmove : c.movefile m cfg fusepath
        (pwrite s.files (s.fd c.handle) c.offset c.buf c.first).2
        (s.fd c.handle) with
    | none =>
        rw [hmove] at h
        cases h
    | some moved =>
        obtain ⟨rv, v, fd⟩ := moved
        rw [hmove] at h
        dsimp only at h
        split_ifs at h with hrv
        · cases h
          exact ⟨_, exec_write.mpr ⟨_, .inr ⟨hspace.1, hspace.2, rv, fd,
            .inl ⟨hrv, rfl, rfl⟩⟩⟩⟩
        · rw [func_eq_value c _ _ _ 0] at h
          cases h
          exact ⟨_, exec_write.mpr ⟨_, .inr ⟨hspace.1, hspace.2, rv, fd,
            .inr ⟨hrv, _, rfl, rfl⟩⟩⟩⟩
  · cases h
    exact ⟨_, exec_write.mpr ⟨_, .inl ⟨hspace, rfl, rfl⟩⟩⟩

end Fuse

end Mergerfs
