import Mergerfs.Basic.Num
import Mergerfs.Fs.Copy

/-!
# The plain copy loop

`copyfile` reads sixteen blocks at a time and writes what it has read, whatever the calls
make of it: they may be interrupted, and they may move less than they were asked to. The
sizes are those of the code. The sixteenfold of the block size is a number of 64 bits, and
`writen` gives the number of the bytes it has written back as an `int`; if either does not
fit, the loop ends too early or with a number that is not that of the bytes.

The destination is what has been appended to it.
-/

namespace Mergerfs.Copyfile

open Errno

/-- How the loop ends: with the number of the bytes before it is made an `int`, with `-1`,
or by an exception. -/
inductive End where
  | returned (totalwritten : UInt64)
  | failed
  | thrown
  deriving DecidableEq, Repr

def End.of : Option UInt64 → End
  | some totalwritten => .returned totalwritten
  | none => .failed

/-- The bytes are counted by a number of 64 bits, to which the `int` that `writen`
returns is added. -/
def counting (count : UInt64) : Tally UInt64 where
  short totalwritten := decide (totalwritten < count)
  add totalwritten nr :=
    let nw := toInt nr
    if nw = -1 then none else some (totalwritten + UInt64.ofInt nw)

/-- `copyfile`, where the kernel reads at most `cap` bytes at a time. A vector is not made
longer than `2 ^ 63 - 1`. -/
def copyfile (cap : ℕ) (src : Content) (count blocksize : UInt64)
    (reads writes : List Transfer) : Option (End × Content) :=
  let bufsize := blocksize * 16
  if 2 ^ 63 ≤ bufsize.toNat then some (.thrown, [])
  else
    -- the result is the same whatever `errno` was
    (copyLoop (counting count) src (min bufsize.toNat cap) reads writes 0 0 []
      EINTR).map fun r => (.of r.1, r.2.2)

/-! ## What a copy should be -/

structure Source where
  content : Content
  length_lt : content.length < 2 ^ 63

def interrupted : Transfer → Bool
  | .error e => decide (e = EINTR)
  | .ok _ => false

/-- The answers of the calls: only finitely many in a row are interruptions, and a write
that succeeds writes something. -/
structure Pattern where
  reads : ℕ → Transfer
  writes : ℕ → Transfer
  reads_recur : ∀ n, ∃ m, n ≤ m ∧ interrupted (reads m) = false
  writes_recur : ∀ n, ∃ m, n ≤ m ∧ interrupted (writes m) = false
  writes_pos : ∀ n k, writes n = .ok k → 0 < k

def answered (calls : ℕ → Transfer) (n : ℕ) : List Transfer := (List.range n).map calls

/-- What was appended is a beginning of the source. Without an error it is as long as the
result says, and not shorter than was asked for unless it is all of the source. -/
def Exact (src : Content) (count : UInt64) : End × Content → Prop
  | (.returned n, dst) =>
      dst = src.take n.toNat ∧ dst.length = n.toNat ∧ (count ≤ n ∨ dst = src)
  | (.failed, dst) => dst <+: src
  | (.thrown, dst) => dst <+: src

/-- Whatever the calls make of it, the copy ends and is exact. -/
def CopiesExactly (cap : ℕ) (src : Source) (count blocksize : UInt64) : Prop :=
  ∀ p : Pattern, ∃ rounds result, Exact src.content count result ∧
    ∀ n, rounds ≤ n →
      copyfile cap src.content count blocksize (answered p.reads n) (answered p.writes n) =
        some result

/-! ## Writing a buffer -/

def effective (calls : List Transfer) : ℕ := calls.countP fun a => !interrupted a

theorem effective_ok (k : ℕ) (calls : List Transfer) :
    effective (.ok k :: calls) = effective calls + 1 :=
  List.countP_cons_of_pos rfl

theorem effective_interrupted (calls : List Transfer) :
    effective (.error EINTR :: calls) = effective calls :=
  List.countP_cons_of_neg (by decide)

section Writen

variable {writes rest : List Transfer} {dst dst' buf : Content} {rv : Rv}
  {errno errno' : Errno}

/-- A beginning of the buffer is appended, and all of it if no write fails. -/
theorem append_of_writen
    (h : writen writes dst dst.length buf errno = some (rest, rv, errno', dst')) :
    ∃ j, dst' = dst ++ buf.take j ∧ (rv = .ok () → buf.length ≤ j) := by
  induction writes generalizing dst buf errno with
  | nil => cases h
  | cons a writes ih =>
      cases a with
      | error e =>
          rw [writen] at h
          split_ifs at h with he
          · exact ih h
          · cases h
            exact ⟨0, by simp, fun hok => by cases hok⟩
      | ok k =>
          rw [writen, Bytes.writeAt_length] at h
          split_ifs at h with hk
          · cases h
            exact ⟨k, rfl, fun _ => hk⟩
          · -- the rest of the buffer goes behind the part that was written
            have hlen : (dst ++ buf.take k).length = dst.length + k := by
              rw [List.length_append, List.length_take]
              omega
            rw [← hlen] at h
            obtain ⟨j, hdst, hall⟩ := ih h
            refine ⟨k + j, ?_, fun hok => ?_⟩
            · rw [hdst, List.append_assoc, ← List.take_add]
            · have hj := hall hok
              rw [List.length_drop] at hj
              omega

theorem length_of_writen
    (h : writen writes dst dst.length buf errno = some (rest, .ok (), errno', dst')) :
    dst'.length = dst.length + buf.length := by
  obtain ⟨j, rfl, hall⟩ := append_of_writen h
  rw [List.length_append, List.take_of_length_le (hall rfl)]

/-- A buffer is written with no more calls than it has bytes. -/
theorem exists_writen (hpos : ∀ k, .ok k ∈ writes → 0 < k) (hne : buf ≠ [])
    (hwrites : buf.length ≤ effective writes) (dst : Content) (off : ℕ)
    (errno : Errno) :
    ∃ rest rv errno' dst',
      writen writes dst off buf errno = some (rest, rv, errno', dst') ∧
        rest <:+ writes ∧ effective writes ≤ effective rest + buf.length := by
  have hbuf : 0 < buf.length := List.length_pos_iff.mpr hne
  induction writes generalizing dst off buf errno with
  | nil => exact absurd hwrites (Nat.not_le.mpr hbuf)
  | cons a writes ih =>
      have hpos' : ∀ k, .ok k ∈ writes → 0 < k := fun k hk => hpos k (.tail _ hk)
      cases a with
      | error e =>
          rw [writen]
          split_ifs with he
          · subst he
            rw [effective_interrupted] at hwrites ⊢
            obtain ⟨rest, rv, errno', dst', hsome, hsuffix, hcalls⟩ :=
              ih hpos' hne hwrites dst off EINTR hbuf
            exact ⟨rest, rv, errno', dst', hsome, hsuffix.trans (List.suffix_cons _ _), hcalls⟩
          · refine ⟨writes, .error e, e, dst, rfl, List.suffix_cons _ _, ?_⟩
            have hone : effective (.error e :: writes) ≤ effective writes + 1 := by
              rw [effective, List.countP_cons]
              exact Nat.add_le_add_left (by split_ifs <;> omega) _
            omega
      | ok k =>
          have hk := hpos k (.head _)
          rw [writen]
          rw [effective_ok] at hwrites ⊢
          split_ifs with hle
          · exact ⟨writes, .ok (), errno, _, rfl, List.suffix_cons _ _, by omega⟩
          · have hdrop : (buf.drop k).length = buf.length - k := List.length_drop
            have hleft : 0 < (buf.drop k).length := by omega
            obtain ⟨rest, rv, errno', dst', hsome, hsuffix, hcalls⟩ :=
              ih hpos' (List.length_pos_iff.mp hleft) (by omega)
                (Bytes.writeAt 0 dst off (buf.take k)) (off + k) errno hleft
            exact ⟨rest, rv, errno', dst', hsome, hsuffix.trans (List.suffix_cons _ _),
              by omega⟩

theorem writen_append {off : ℕ} (more : List Transfer)
    (h : writen writes dst off buf errno = some (rest, rv, errno', dst')) :
    writen (writes ++ more) dst off buf errno =
      some (rest ++ more, rv, errno', dst') := by
  induction writes generalizing dst off buf errno with
  | nil => cases h
  | cons a writes ih =>
      cases a with
      | error e =>
          rw [List.cons_append, writen]
          rw [writen] at h
          split_ifs at h ⊢ with he
          · exact ih h
          · cases h
            rfl
      | ok k =>
          rw [List.cons_append, writen]
          rw [writen] at h
          split_ifs at h ⊢ with hle
          · cases h
            rfl
          · exact ih h

end Writen

/-! ## A whole run -/

section Run

variable {src : Content} {count : UInt64} {bufsize : ℕ}

theorem toInt_of_readSize (hsmall : bufsize < 2 ^ 31 ∨ src.length < 2 ^ 31) {k pos nr : ℕ}
    (hnr : readSize k bufsize (src.length - pos) = nr) : toInt nr = (nr : ℕ) := by
  refine toInt_of_lt ?_
  rw [← hnr, readSize]
  omega

theorem add_counting {nr : ℕ} (h : toInt nr = (nr : ℕ)) (totalwritten : UInt64) :
    (counting count).add totalwritten nr = some (totalwritten + UInt64.ofNat nr) := by
  simp only [counting, h]
  rw [if_neg (by omega), ofInt_natCast]

structure Appended (src : Content) (s : CopyState UInt64) : Prop where
  pos_le : s.pos ≤ src.length
  total_eq : s.total.toNat = s.pos
  dst_eq : s.dst = src.take s.pos

theorem Appended.length_dst {s : CopyState UInt64} (h : Appended src s) :
    s.dst.length = s.pos := by
  rw [h.dst_eq, List.length_take, Nat.min_eq_left h.pos_le]

theorem Appended.round (hsrc : src.length < 2 ^ 63)
    (hsmall : bufsize < 2 ^ 31 ∨ src.length < 2 ^ 31) {s s' : CopyState UInt64}
    (h : Round (counting count) src bufsize s s') (hs : Appended src s) :
    Appended src s' := by
  have hlen := hs.length_dst
  obtain ⟨hpos, htotal, hdst⟩ := hs
  cases h with
  | interrupted => exact ⟨hpos, htotal, hdst⟩
  | @copied _ _ _ pos k nr _ _ _ _ _ _ _ hnr hne hwriten hadd =>
      dsimp only at hpos htotal hdst hlen
      have hle : nr ≤ src.length - pos := hnr ▸ readSize_le k bufsize _
      rw [← hlen] at hwriten
      obtain ⟨j, rfl, hall⟩ := append_of_writen hwriten
      rw [add_counting (toInt_of_readSize hsmall hnr), Option.some.injEq] at hadd
      refine ⟨by dsimp only; omega, ?_, ?_⟩
      · rw [← hadd, UInt64.toNat_add, UInt64.toNat_ofNat', htotal]
        dsimp only
        omega
      · rw [List.take_of_length_le (hall rfl), hlen, hdst, ← List.take_add]

theorem Appended.exact_returned {s : CopyState UInt64} (hs : Appended src s)
    (h : count ≤ s.total ∨ src.length ≤ s.pos) :
    Exact src count (.returned s.total, s.dst) := by
  refine ⟨by rw [hs.total_eq, hs.dst_eq], by rw [hs.length_dst, hs.total_eq], ?_⟩
  refine h.imp_right fun hend => ?_
  rw [hs.dst_eq, List.take_of_length_le hend]

theorem Appended.exit (hbuf : bufsize = 0 → src = [])
    (hsmall : bufsize < 2 ^ 31 ∨ src.length < 2 ^ 31) {s : CopyState UInt64}
    {r : Option UInt64 × Errno × Content} (h : Exit (counting count) src bufsize s r)
    (hs : Appended src s) : Exact src count (.of r.1, r.2.2) := by
  cases h with
  | done hshort =>
      exact hs.exact_returned (.inl (UInt64.not_lt.mp (of_decide_eq_false hshort)))
  | @eof _ _ pos k _ _ _ _ hnr =>
      refine hs.exact_returned (.inr ?_)
      have hnil : bufsize = 0 → src.length = 0 := fun hzero => by
        rw [hbuf hzero, List.length_nil]
      rw [readSize] at hnr
      dsimp only
      omega
  | read =>
      have hdst := hs.dst_eq
      dsimp only at hdst
      exact hdst ▸ List.take_prefix _ src
  | write _ _ _ hwriten =>
      -- a failing write has appended a part of what was read
      have hlen := hs.length_dst
      have hdst := hs.dst_eq
      dsimp only at hlen hdst
      rw [← hlen] at hwriten
      obtain ⟨j, rfl, _⟩ := append_of_writen hwriten
      rw [hlen, hdst, List.take_take, ← List.take_add]
      exact List.take_prefix _ src
  | count _ hnr _ _ hadd =>
      rw [add_counting (toInt_of_readSize hsmall hnr)] at hadd
      cases hadd

/-- If no read gets `2 ^ 31` bytes, what was appended is the source as far as it was read,
and the number of the bytes is counted. -/
theorem exact_of_copyLoop (hsrc : src.length < 2 ^ 63) (hbuf : bufsize = 0 → src = [])
    (hsmall : bufsize < 2 ^ 31 ∨ src.length < 2 ^ 31) {reads writes : List Transfer}
    {errno : Errno} {r : Option UInt64 × Errno × Content}
    (h : copyLoop (counting count) src bufsize reads writes 0 0 [] errno = some r) :
    Exact src count (.of r.1, r.2.2) := by
  obtain ⟨s, hrounds, hexit⟩ := copyLoop_eq_some_iff.mp h
  have hs : Appended src s :=
    hrounds.keeps (Appended.round hsrc hsmall) ⟨Nat.zero_le _, rfl, rfl⟩
  exact hs.exit hbuf hsmall hexit

theorem exists_copyLoop {C : Type} {t : Tally C} {reads writes : List Transfer} {pos : ℕ}
    (hpos : ∀ k, .ok k ∈ writes → 0 < k)
    (hreads : src.length - pos < effective reads)
    (hwrites : src.length - pos ≤ effective writes) (total : C)
    (dst : Content) (errno : Errno) :
    ∃ r, copyLoop t src bufsize reads writes pos total dst errno = some r := by
  induction reads generalizing writes pos total dst errno with
  | nil => exact absurd hreads (Nat.not_lt_zero _)
  | cons a reads ih =>
      cases hshort : t.short total with
      | false => exact ⟨_, copyLoop_done hshort⟩
      | true =>
          cases a with
          | error e =>
              rw [copyLoop_error hshort]
              split_ifs with he
              · rw [he, effective_interrupted] at hreads
                exact ih hpos hreads hwrites total dst e
              · exact ⟨_, rfl⟩
          | ok k =>
              rw [effective_ok] at hreads
              by_cases hnr : readSize k bufsize (src.length - pos) = 0
              · exact ⟨_, copyLoop_eof hshort hnr⟩
              · rw [copyLoop_read hshort rfl hnr]
                have hle := readSize_le k bufsize (src.length - pos)
                generalize readSize k bufsize (src.length - pos) = nr at hnr hle
                have hbuf : ((src.drop pos).take nr).length = nr := by
                  rw [List.length_take, List.length_drop]
                  omega
                have hne : (src.drop pos).take nr ≠ [] :=
                  List.length_pos_iff.mp (by omega)
                obtain ⟨rest, rv, errno', dst', hwriten, hsuffix, hcalls⟩ :=
                  exists_writen hpos hne (by omega) dst pos errno
                rw [hwriten]
                cases rv with
                | error e => exact ⟨_, rfl⟩
                | ok u =>
                    dsimp only
                    have hrest : ∀ k, .ok k ∈ rest → 0 < k :=
                      fun k hk => hpos k (hsuffix.subset hk)
                    cases t.add total nr with
                    | none => exact ⟨_, rfl⟩
                    | some total' => exact ih hrest (by omega) (by omega) total' dst' errno'

end Run

/-! ## More answers -/

section More

variable {C : Type} {t : Tally C} {src : Content} {bufsize : ℕ} {s s' : CopyState C}
  (moreReads moreWrites : List Transfer)

def more (s : CopyState C) : CopyState C :=
  { s with reads := s.reads ++ moreReads, writes := s.writes ++ moreWrites }

theorem round_more (h : Round t src bufsize s s') :
    Round t src bufsize (more moreReads moreWrites s)
      (more moreReads moreWrites s') := by
  cases h with
  | interrupted hshort => exact .interrupted hshort
  | copied hshort hnr hpos hwriten hadd =>
      exact .copied hshort hnr hpos (writen_append moreWrites hwriten) hadd

theorem exit_more {r : Option C × Errno × Content}
    (h : Exit t src bufsize s r) :
    Exit t src bufsize (more moreReads moreWrites s) r := by
  cases h with
  | done hshort => exact .done hshort
  | eof hshort hnr => exact .eof hshort hnr
  | read hshort he => exact .read hshort he
  | write hshort hnr hpos hwriten =>
      exact .write hshort hnr hpos (writen_append moreWrites hwriten)
  | count hshort hnr hpos hwriten hadd =>
      exact .count hshort hnr hpos (writen_append moreWrites hwriten) hadd

theorem copyLoop_append {reads writes : List Transfer} {pos : ℕ} {total : C}
    {dst : Content} {errno : Errno} {r : Option C × Errno × Content}
    (h : copyLoop t src bufsize reads writes pos total dst errno = some r) :
    copyLoop t src bufsize (reads ++ moreReads) (writes ++ moreWrites) pos total dst
      errno = some r := by
  obtain ⟨s, hrounds, hexit⟩ := copyLoop_eq_some_iff.mp h
  have hlift : Rounds t src bufsize
      (more moreReads moreWrites ⟨reads, writes, pos, total, dst, errno⟩)
      (more moreReads moreWrites s) :=
    Relation.ReflTransGen.lift (more moreReads moreWrites)
      (fun _ _ => round_more moreReads moreWrites) _ _ hrounds
  exact copyLoop_eq_some_iff.mpr ⟨_, hlift, exit_more moreReads moreWrites hexit⟩

end More

/-! ## The loop on a destination that is there

`Fs.Copy` has the loop on the whole of the destination and with numbers that do not go
round. As no read gets `2 ^ 31` bytes there, it comes to the same.
-/

def End.rv : End → ℤ
  | .returned totalwritten => toInt totalwritten.toNat
  | .failed => -1
  | .thrown => -1

theorem writen_writeAt (old : Content) (writes : List Transfer) (dst buf : Content)
    (errno : Errno) :
    writen writes (Bytes.writeAt 0 old 0 dst) dst.length buf errno =
      (writen writes dst dst.length buf errno).map fun r =>
        (r.1, r.2.1, r.2.2.1, Bytes.writeAt 0 old 0 r.2.2.2) := by
  induction writes generalizing dst buf errno with
  | nil => rfl
  | cons a writes ih =>
      cases a with
      | error e =>
          rw [writen, writen]
          split_ifs
          · exact ih dst buf e
          · rfl
      | ok k =>
          rw [writen, writen, Bytes.writeAt_writeAt, Bytes.writeAt_length]
          split_ifs with hle
          · rfl
          · have hlen : (dst ++ buf.take k).length = dst.length + k := by
              rw [List.length_append, List.length_take]
              omega
            rw [← hlen]
            exact ih (dst ++ buf.take k) (buf.drop k) errno

theorem toNat_ofNat_size {n : ℕ} (h : n < 2 ^ 63) : (UInt64.ofNat n).toNat = n := by
  rw [UInt64.toNat_ofNat', Nat.mod_eq_of_lt (by omega)]

theorem short_counting {n : ℕ} (h : n < 2 ^ 63) (count : UInt64) :
    (counting count).short (UInt64.ofNat n) = (Tally.exact count.toNat).short n := by
  refine decide_eq_decide.mpr ?_
  rw [UInt64.lt_iff_toNat_lt, toNat_ofNat_size h]

/-- While no read gets `2 ^ 31` bytes, the loop with the numbers of the code writes the
same and returns the same as the one that counts the bytes as they are. -/
theorem copyLoop_eq_map {src : Content} {bufsize : ℕ} (hsrc : src.length < 2 ^ 63)
    (hsmall : bufsize < 2 ^ 31) (count : UInt64) (old : Content)
    (reads writes : List Transfer) (dst : Content) (hdst : dst.length ≤ src.length)
    (errno : Errno) :
    copyLoop (.exact count.toNat) src bufsize reads writes dst.length dst.length
        (Bytes.writeAt 0 old 0 dst) errno =
      (copyLoop (counting count) src bufsize reads writes dst.length
        (UInt64.ofNat dst.length) dst errno).map fun r =>
          (r.1.map UInt64.toNat, r.2.1, Bytes.writeAt 0 old 0 r.2.2) := by
  induction reads generalizing writes dst errno with
  | nil =>
      have htotal := toNat_ofNat_size (Nat.lt_of_le_of_lt hdst hsrc)
      have hcount := short_counting (Nat.lt_of_le_of_lt hdst hsrc) count
      cases hshort : (Tally.exact count.toNat).short dst.length with
      | false =>
          rw [copyLoop_done hshort, copyLoop_done (hcount.trans hshort), Option.map_some,
            Option.map_some, htotal]
      | true => rw [copyLoop_nil hshort, copyLoop_nil (hcount.trans hshort), Option.map_none]
  | cons a reads ih =>
      have htotal := toNat_ofNat_size (Nat.lt_of_le_of_lt hdst hsrc)
      have hcount := short_counting (Nat.lt_of_le_of_lt hdst hsrc) count
      cases hshort : (Tally.exact count.toNat).short dst.length with
      | false =>
          rw [copyLoop_done hshort, copyLoop_done (hcount.trans hshort), Option.map_some,
            Option.map_some, htotal]
      | true =>
          have hshort' := hcount.trans hshort
          cases a with
          | error e =>
              rw [copyLoop_error hshort, copyLoop_error hshort']
              split_ifs
              · exact ih writes dst hdst e
              · rfl
          | ok k =>
              by_cases hnr : readSize k bufsize (src.length - dst.length) = 0
              · rw [copyLoop_eof hshort hnr, copyLoop_eof hshort' hnr, Option.map_some,
                  Option.map_some, htotal]
              · have hint := toInt_of_readSize (.inl hsmall)
                  (rfl : readSize k bufsize (src.length - dst.length) = _)
                have hle := readSize_le k bufsize (src.length - dst.length)
                cases hwriten : writen writes dst dst.length ((src.drop dst.length).take
                    (readSize k bufsize (src.length - dst.length))) errno with
                | none =>
                    rw [copyLoop_read hshort rfl hnr, copyLoop_read hshort' rfl hnr,
                      writen_writeAt, hwriten]
                    rfl
                | some r =>
                    obtain ⟨rest, rv, errno', dst'⟩ := r
                    have hwriten' := (writen_writeAt old writes dst _ errno).trans
                      (congrArg (Option.map _) hwriten)
                    cases rv with
                    | error e =>
                        rw [copyLoop_write hshort rfl hnr hwriten',
                          copyLoop_write hshort' rfl hnr hwriten, Option.map_some,
                          Option.map_none]
                    | ok u =>
                        have hlen := length_of_writen hwriten
                        rw [List.length_take, List.length_drop,
                          Nat.min_eq_left hle] at hlen
                        rw [copyLoop_copied hshort rfl hnr hwriten' (Tally.add_exact ..),
                          copyLoop_copied hshort' rfl hnr hwriten (add_counting hint _),
                          ← UInt64.ofNat_add, ← hlen]
                        exact ih rest dst' (by omega) errno'

/-- `fs::copyfile` is `copyfile` with the size and the block size of the source. -/
theorem copyfile_eq_map (ans : CopyAnswers) (hstat : ans.fstat = .ok ()) (src : Source)
    (dst : Content) :
    Mergerfs.copyfile ans src.content dst =
      (copyfile maxRead src.content (UInt64.ofNat src.content.length) ans.blksize
        ans.reads ans.writes).map fun r => (r.1.rv, Bytes.writeAt 0 dst 0 r.2) := by
  have hsmall : ans.bufsize < 2 ^ 31 :=
    Nat.lt_of_le_of_lt (Nat.min_le_right _ _) (by decide)
  have hloop := copyLoop_eq_map src.length_lt hsmall (UInt64.ofNat src.content.length) dst
    ans.reads ans.writes [] (Nat.zero_le _) EINTR
  rw [toNat_ofNat_size src.length_lt, Bytes.writeAt_nil] at hloop
  rw [Mergerfs.copyfile, copyfileErrno, hstat, copyfile,
    if_neg (Nat.not_le.mpr ans.bufsize_lt)]
  change Option.map _ (Option.map _ (copyLoop _ _ ans.bufsize _ _ ([] : Content).length
    ([] : Content).length dst EINTR)) = _
  rw [hloop, Option.map_map, Option.map_map, Option.map_map]
  refine congrArg (Option.map · _) (funext fun r => ?_)
  obtain ⟨_ | total, _, _⟩ := r
  · simp only [Function.comp_apply, Option.map_none, intOf, End.of, End.rv]
  · simp only [Function.comp_apply, Option.map_some, intOf, End.of, End.rv]

/-! ## The answers of a pattern -/

theorem effective_append (calls more : List Transfer) :
    effective (calls ++ more) = effective calls + effective more :=
  List.countP_append

theorem answered_add (calls : ℕ → Transfer) (n m : ℕ) :
    ∃ more, answered calls (n + m) = answered calls n ++ more :=
  ⟨(List.range m).map fun i => calls (n + i), by
    rw [answered, List.range_add, List.map_append, List.map_map]
    rfl⟩

theorem exists_effective {calls : ℕ → Transfer}
    (h : ∀ n, ∃ m, n ≤ m ∧ interrupted (calls m) = false) (c : ℕ) :
    ∃ n, ∀ m, c ≤ effective (answered calls (n + m)) := by
  induction c with
  | zero => exact ⟨0, fun _ => Nat.zero_le _⟩
  | succ c ih =>
      obtain ⟨n, hn⟩ := ih
      obtain ⟨m, hm, hcall⟩ := h n
      refine ⟨m + 1, fun i => ?_⟩
      obtain ⟨more, hmore⟩ := answered_add calls (m + 1) i
      obtain ⟨j, rfl⟩ := Nat.exists_eq_add_of_le hm
      have hone : effective [calls (n + j)] = 1 := by
        rw [effective, List.countP_cons_of_pos (by rw [hcall]; rfl)]
        rfl
      have hlast : answered calls (n + j + 1) =
          answered calls (n + j) ++ [calls (n + j)] := by
        rw [answered, List.range_succ, List.map_append]
        rfl
      have hbefore := hn j
      rw [hmore, hlast, effective_append, effective_append, hone]
      omega

/-- Every copy ends. -/
theorem exists_copyfile (cap : ℕ) (src : Content) (count blocksize : UInt64)
    (p : Pattern) :
    ∃ rounds result, ∀ n, rounds ≤ n →
      copyfile cap src count blocksize (answered p.reads n) (answered p.writes n) =
        some result := by
  unfold copyfile
  dsimp only
  split_ifs with hthrown
  · exact ⟨0, _, fun _ _ => rfl⟩
  · obtain ⟨n, hn⟩ := exists_effective p.reads_recur (src.length + 1)
    obtain ⟨m, hm⟩ := exists_effective p.writes_recur src.length
    have hwrites : ∀ k, .ok k ∈ answered p.writes (n + m) → 0 < k := by
      intro k hk
      obtain ⟨i, _, hi⟩ := List.mem_map.mp hk
      exact p.writes_pos i k hi
    obtain ⟨r, hr⟩ : ∃ r, copyLoop (counting count) src (min (blocksize * 16).toNat cap)
        (answered p.reads (n + m)) (answered p.writes (n + m)) 0 0 [] EINTR = some r :=
      exists_copyLoop hwrites (Nat.lt_of_succ_le (hn m))
        (by rw [Nat.add_comm n m]; exact hm n) 0 [] EINTR
    refine ⟨n + m, (.of r.1, r.2.2), fun k hk => ?_⟩
    obtain ⟨i, rfl⟩ := Nat.exists_eq_add_of_le hk
    obtain ⟨moreReads, hreads⟩ := answered_add p.reads (n + m) i
    obtain ⟨moreWrites, hwrites⟩ := answered_add p.writes (n + m) i
    rw [hreads, hwrites, copyLoop_append moreReads moreWrites hr, Option.map_some]

/-! ## When every copy is exact -/

section Exact

variable {cap : ℕ} {src : Source} {count blocksize : UInt64}

theorem copiesExactly_of_fits (hcap : 0 < cap)
    (h : count = 0 ∨ src.content = [] ∨ (blocksize * 16 ≠ 0 ∧
      (2 ^ 63 ≤ (blocksize * 16).toNat ∨ min (blocksize * 16).toNat cap < 2 ^ 31 ∨
        src.content.length < 2 ^ 31))) :
    CopiesExactly cap src count blocksize := by
  intro p
  obtain ⟨rounds, result, hresult⟩ :=
    exists_copyfile cap src.content count blocksize p
  refine ⟨rounds, result, ?_, hresult⟩
  have hsome := hresult rounds le_rfl
  rw [copyfile] at hsome
  split_ifs at hsome with hthrown
  · cases hsome
    exact List.nil_prefix
  · obtain ⟨r, hr, rfl⟩ := Option.map_eq_some_iff.mp hsome
    rcases h with rfl | h
    · rw [copyLoop_done rfl] at hr
      cases hr
      exact ⟨rfl, rfl, .inl (UInt64.le_refl 0)⟩
    · refine exact_of_copyLoop src.length_lt ?_ ?_ hr
      · intro hzero
        rcases h with hnil | ⟨hne, _⟩
        · exact hnil
        · have hne' : (blocksize * 16).toNat ≠ 0 := fun heq =>
            hne (UInt64.toNat_inj.mp heq)
          omega
      · rcases h with hnil | ⟨_, hlarge | hsmall⟩
        · rw [hnil]
          exact .inr (by decide)
        · exact absurd hlarge hthrown
        · exact hsmall

/-- The calls that get on: the first read of `first` bytes and the others of one, and
every write of all it is given up to `2 ^ 31`. -/
def obligingCalls (first : ℕ) : Pattern where
  reads n := .ok (if n = 0 then first else 1)
  writes _ := .ok (2 ^ 31)
  reads_recur n := ⟨n, le_rfl, rfl⟩
  writes_recur n := ⟨n, le_rfl, rfl⟩
  writes_pos n k h := by
    cases h
    exact Nat.two_pow_pos 31

theorem answered_reads (first n : ℕ) :
    answered (obligingCalls first).reads (n + 1) =
      .ok first :: List.replicate n (.ok 1) := by
  rw [answered, List.range_succ_eq_map, List.map_cons, List.map_map]
  refine congrArg _ (List.eq_replicate_iff.mpr ⟨by simp, ?_⟩)
  intro a ha
  obtain ⟨i, _, rfl⟩ := List.mem_map.mp ha
  rfl

theorem answered_writes (first n : ℕ) :
    answered (obligingCalls first).writes n = List.replicate n (.ok (2 ^ 31)) := by
  refine List.eq_replicate_iff.mpr ⟨by simp [answered], ?_⟩
  intro a ha
  obtain ⟨i, _, rfl⟩ := List.mem_map.mp ha
  rfl

theorem writen_full (writes : List Transfer) (dst : Content) {buf : Content}
    (h : buf.length ≤ 2 ^ 31) (errno : Errno) :
    writen (.ok (2 ^ 31) :: writes) dst dst.length buf errno =
      some (writes, .ok (), errno, dst ++ buf) := by
  rw [writen, if_pos h, Bytes.writeAt_length, List.take_of_length_le h]

/-- The number of the bytes is `2 ^ 32` short of what was appended, and what is read and
written from here on is one byte at a time. -/
structure Short (s : CopyState UInt64) : Prop where
  reads : ∀ a ∈ s.reads, a = .ok 1
  writes : ∀ a ∈ s.writes, a = .ok (2 ^ 31)
  length_dst : s.dst.length = s.pos
  total_add : s.total + 4294967296 = UInt64.ofNat s.pos

theorem readSize_one {bufsize left nr : ℕ} (hnr : readSize 1 bufsize left = nr)
    (hpos : nr ≠ 0) : nr = 1 := by
  rw [readSize] at hnr
  omega

theorem Short.round {src : Content} {bufsize : ℕ} {s s' : CopyState UInt64}
    (h : Round (counting count) src bufsize s s') (hs : Short s) : Short s' := by
  obtain ⟨hreads, hwrites, hlen, htotal⟩ := hs
  cases h with
  | interrupted => cases hreads _ (.head _)
  | @copied _ writes _ pos k nr _ _ dst _ errno _ _ hnr hpos hwriten hadd =>
      cases hreads _ (.head _)
      dsimp only at hlen htotal
      have hbuf : ((src.drop pos).take 1).length = 1 := by
        rw [readSize] at hnr
        rw [List.length_take, List.length_drop]
        omega
      obtain rfl := readSize_one hnr hpos
      rw [add_counting (by decide), Option.some.injEq] at hadd
      cases writes with
      | nil => cases hwriten
      | cons a writes =>
          cases hwrites a (.head _)
          rw [← hlen, writen_full _ _ (by rw [hlen, hbuf]; decide)] at hwriten
          cases hwriten
          refine ⟨fun a ha => hreads a (.tail _ ha), fun a ha => hwrites a (.tail _ ha),
            ?_, ?_⟩
          · rw [List.length_append, hlen, hbuf]
          · rw [← hadd, UInt64.ofNat_add, ← htotal, UInt64.add_assoc, UInt64.add_assoc,
              UInt64.add_comm (UInt64.ofNat 1)]

/-- Once the number of the bytes is `2 ^ 32` short of what was appended, it stays so. -/
theorem Short.exit {src : Content} {bufsize : ℕ} {s : CopyState UInt64}
    {r : Option UInt64 × Errno × Content} (h : Exit (counting count) src bufsize s r)
    (hs : Short s) :
    ∃ total, r.1 = some total ∧ total + 4294967296 = UInt64.ofNat r.2.2.length := by
  obtain ⟨hreads, hwrites, hlen, htotal⟩ := hs
  cases h with
  | done => exact ⟨_, rfl, hlen ▸ htotal⟩
  | eof => exact ⟨_, rfl, hlen ▸ htotal⟩
  | read => cases hreads _ (.head _)
  | write _ _ _ hwriten =>
      obtain ⟨_, hmem, _⟩ := (writen_eq_some hwriten).2.2 _ rfl
      cases hwrites _ hmem
  | count _ hnr hpos _ hadd =>
      cases hreads _ (.head _)
      obtain rfl := readSize_one hnr hpos
      rw [add_counting (by decide)] at hadd
      cases hadd

/-- A read of `2 ^ 31` bytes puts the number of the bytes out of step. -/
theorem not_copiesExactly_of_large (hcount : count ≠ 0)
    (hthrown : ¬ 2 ^ 63 ≤ (blocksize * 16).toNat)
    (hlarge : 2 ^ 31 ≤ min (blocksize * 16).toNat cap)
    (hsrc : 2 ^ 31 ≤ src.content.length) : ¬ CopiesExactly cap src count blocksize := by
  intro hcopies
  obtain ⟨rounds, result, hexact, hresult⟩ := hcopies (obligingCalls (2 ^ 31))
  have hsome := hresult (rounds + 1) (Nat.le_succ _)
  have hlt : 0 < count := UInt64.pos_iff_ne_zero.mpr hcount
  have hnr : readSize (2 ^ 31) (min (blocksize * 16).toNat cap)
      (src.content.length - 0) = 2 ^ 31 := by
    rw [readSize]
    omega
  have hbuf : ((src.content.drop 0).take (2 ^ 31)).length = 2 ^ 31 := by
    rw [List.drop_zero, List.length_take]
    omega
  have hadd : (counting count).add 0 (2 ^ 31) = some 18446744071562067968 := rfl
  rw [copyfile, if_neg hthrown, answered_reads, answered_writes, List.replicate_succ]
    at hsome
  obtain ⟨r, hr, rfl⟩ := Option.map_eq_some_iff.mp hsome
  -- the first round adds a negative number
  have hfirst : Round (counting count) src.content (min (blocksize * 16).toNat cap)
      ⟨.ok (2 ^ 31) :: List.replicate rounds (.ok 1),
        .ok (2 ^ 31) :: List.replicate rounds (.ok (2 ^ 31)), 0, 0, [], EINTR⟩
      ⟨List.replicate rounds (.ok 1), List.replicate rounds (.ok (2 ^ 31)), 0 + 2 ^ 31,
        18446744071562067968, [] ++ (src.content.drop 0).take (2 ^ 31), EINTR⟩ :=
    .copied (decide_eq_true hlt) hnr (by decide)
      (writen_full _ [] (Nat.le_of_eq hbuf) EINTR) hadd
  obtain ⟨s, hrounds, hexit⟩ := copyLoop_eq_some_iff.mp (hfirst.run_eq.symm.trans hr)
  have hs : Short s := by
    have htotal : 18446744071562067968 + 4294967296 = UInt64.ofNat (0 + 2 ^ 31) := by
      decide
    refine hrounds.keeps Short.round ⟨?_, ?_, ?_, htotal⟩
    · exact fun a ha => (List.mem_replicate.mp ha).2
    · exact fun a ha => (List.mem_replicate.mp ha).2
    · rw [List.nil_append, hbuf, Nat.zero_add]
  obtain ⟨total, htotal, hshort⟩ := hs.exit hexit
  rw [htotal] at hexact
  obtain ⟨_, hlen, _⟩ := hexact
  rw [hlen, UInt64.ofNat_toNat] at hshort
  have hzero := congrArg UInt64.toNat hshort
  rw [UInt64.toNat_add] at hzero
  have hlt := total.toNat_lt
  have hliteral : (4294967296 : UInt64).toNat = 4294967296 := rfl
  omega

/-- Nothing is read into a buffer that has no length. -/
theorem not_copiesExactly_of_zero (hcount : count ≠ 0) (hsrc : src.content ≠ [])
    (hzero : blocksize * 16 = 0) : ¬ CopiesExactly cap src count blocksize := by
  intro hcopies
  obtain ⟨rounds, result, hexact, hresult⟩ := hcopies (obligingCalls 1)
  have hsome := hresult (rounds + 1) (Nat.le_succ _)
  have hlt : 0 < count := UInt64.pos_iff_ne_zero.mpr hcount
  have hnr : readSize 1 (min (0 : UInt64).toNat cap) (src.content.length - 0) = 0 := by
    simp [readSize]
  rw [copyfile, hzero, if_neg (by decide), answered_reads,
    copyLoop_eof (decide_eq_true hlt) hnr] at hsome
  obtain rfl := Option.some.inj hsome
  obtain ⟨_, _, hle | hnil⟩ := hexact
  · exact UInt64.not_le.mpr hlt hle
  · exact hsrc hnil.symm

end Exact

/-- Every copy ends and is exact, whatever the calls answer, exactly if nothing is asked
for, or there is nothing to copy, or sixteen blocks are not nought in 64 bits and are too
many for a buffer or too few for `2 ^ 31` bytes to be read at a time. -/
theorem copyfile_exact_iff (cap : ℕ) (hcap : 0 < cap) (src : Source)
    (count blocksize : UInt64) :
    CopiesExactly cap src count blocksize ↔
      count = 0 ∨ src.content = [] ∨ (blocksize * 16 ≠ 0 ∧
        (2 ^ 63 ≤ (blocksize * 16).toNat ∨ min (blocksize * 16).toNat cap < 2 ^ 31 ∨
          src.content.length < 2 ^ 31)) := by
  refine ⟨fun hcopies => ?_, copiesExactly_of_fits hcap⟩
  by_contra hnot
  simp only [not_or, not_and] at hnot
  obtain ⟨hcount, hsrc, hfits⟩ := hnot
  by_cases hzero : blocksize * 16 = 0
  · exact not_copiesExactly_of_zero hcount hsrc hzero hcopies
  · obtain ⟨hthrown, hlarge, hlong⟩ := hfits hzero
    exact not_copiesExactly_of_large hcount hthrown (Nat.not_lt.mp hlarge)
      (Nat.not_lt.mp hlong) hcopies

/-- Blocks of 4096 bytes on a system that reads at most `0x7ffff000` at a time. -/
theorem copyfile_exact_blocks :
    CopiesExactly 2147479552 ⟨[1, 2, 3], by decide⟩ 3 4096 := by
  refine (copyfile_exact_iff 2147479552 (by decide) ⟨[1, 2, 3], by decide⟩ 3 4096).mpr ?_
  exact .inr (.inr ⟨by decide, .inr (.inl (by decide))⟩)

/-- With blocks of `2 ^ 60` bytes the buffer has no length, and the copy of one byte ends
with none. -/
theorem copyfile_stops_short :
    copyfile 2147479552 [7] 1 1152921504606846976 [.ok 1] [.ok 1] =
        some (.returned 0, []) ∧
      ¬ Exact [7] 1 (.returned 0, []) := by
  constructor
  · decide
  · rintro ⟨_, _, hle | hnil⟩
    · exact absurd hle (by decide)
    · cases hnil

end Mergerfs.Copyfile
