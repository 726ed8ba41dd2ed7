import Mathlib.Algebra.Group.Int.Defs
import Mathlib.Algebra.Group.Nat.Defs
import Mathlib.Logic.Relation
import Mergerfs.Basic.Errno
import Mergerfs.Library.Bytes

/-!
# The loop of `copyfile`

`copyfile` reads a buffer and writes what it has read until it has written as much as it
was asked for. A read and a write may be interrupted, and may move less than they were
asked to; a read of something moves at least one byte unless the file has ended. The
answers of the calls are lists, and the loop has no result when they end before it does.

How the bytes are counted is a parameter: `Fs.Copy` counts them as they are, and
`Fs.Copyfile` by the integer types of the code. A loop that ends has gone through some
rounds and then met an exit, and conversely; what it makes of its files is shown by what
each `Round` keeps and what each `Exit` returns.
-/

namespace Mergerfs

open Errno

abbrev Content := List UInt8

/-- The conversion of a size to `int`. -/
def toInt (n : ℕ) : ℤ := Int.bmod n (2 ^ 32)

theorem toInt_lt (n : ℕ) : toInt n < 2 ^ 31 := by
  unfold toInt
  simp only [Int.bmod_def, Nat.reducePow]
  split_ifs <;> omega

theorem toInt_of_lt {n : ℕ} (h : n < 2 ^ 31) : toInt n = n := by
  unfold toInt
  simp only [Int.bmod_def, Nat.reducePow]
  split_ifs <;> omega

abbrev Transfer := Except Errno ℕ

/-- `writen`: what is left of the answers, whether it succeeded, the value of `errno`
after it, and the destination after `buf` was written at the offset `off`. -/
def writen : List Transfer → Content → ℕ → Content → Errno →
    Option (List Transfer × Rv × Errno × Content)
  | [], _, _, _, _ => none
  | .error e :: writes, dst, off, buf, _ =>
      if e = EINTR then writen writes dst off buf e
      else some (writes, .error e, e, dst)
  | .ok k :: writes, dst, off, buf, errno =>
      let dst := Bytes.writeAt 0 dst off (buf.take k)
      if buf.length ≤ k then some (writes, .ok (), errno, dst)
      else writen writes dst (off + k) (buf.drop k) errno

def readSize (k bufsize left : ℕ) : ℕ := min (max 1 k) (min bufsize left)

theorem readSize_pos {k bufsize left : ℕ} (hbuf : 0 < bufsize)
    (hleft : 0 < left) : 0 < readSize k bufsize left := by
  unfold readSize
  omega

theorem readSize_le (k bufsize left : ℕ) : readSize k bufsize left ≤ left := by
  unfold readSize
  omega

/-- How `copyfile` counts: whether the count is short of what was asked for, and the
count after `nr` more bytes, unless what `writen` returns for them is taken for `-1`. -/
structure Tally (C : Type) where
  short : C → Bool
  add : C → ℕ → Option C

/-- The loop of `copyfile`, where the source was read and the destination written up to
`pos`: the count it returns or none for `-1`, the value of `errno` after it, and the
destination. -/
def copyLoop {C : Type} (t : Tally C) (src : Content) (bufsize : ℕ) :
    List Transfer → List Transfer → ℕ → C → Content → Errno →
      Option (Option C × Errno × Content)
  | reads, writes, pos, total, dst, errno =>
      if t.short total then
        match reads with
        | [] => none
        | .error e :: reads =>
            if e = EINTR then copyLoop t src bufsize reads writes pos total dst e
            else some (none, e, dst)
        | .ok k :: reads =>
            let nr := readSize k bufsize (src.length - pos)
            if nr = 0 then some (some total, errno, dst)
            else match writen writes dst pos ((src.drop pos).take nr) errno with
              | none => none
              | some (_, .error _, errno, dst) => some (none, errno, dst)
              | some (writes, .ok _, errno, dst) =>
                  match t.add total nr with
                  | none => some (none, errno, dst)
                  | some total =>
                      copyLoop t src bufsize reads writes (pos + nr) total dst errno
      else some (some total, errno, dst)

section Equations

variable {C : Type} {t : Tally C} {src : Content} {bufsize : ℕ}
  {reads writes : List Transfer} {pos : ℕ} {total : C} {dst : Content} {errno : Errno}

theorem copyLoop_done (h : t.short total = false) :
    copyLoop t src bufsize reads writes pos total dst errno =
      some (some total, errno, dst) := by
  unfold copyLoop
  rw [h]
  rfl

theorem copyLoop_nil (h : t.short total = true) :
    copyLoop t src bufsize [] writes pos total dst errno = none := by
  rw [copyLoop, if_pos h]

theorem copyLoop_error (h : t.short total = true) (e : Errno) :
    copyLoop t src bufsize (.error e :: reads) writes pos total dst errno =
      if e = EINTR then copyLoop t src bufsize reads writes pos total dst e
      else some (none, e, dst) := by
  rw [copyLoop, if_pos h]

theorem copyLoop_eof (h : t.short total = true) {k : ℕ}
    (hnr : readSize k bufsize (src.length - pos) = 0) :
    copyLoop t src bufsize (.ok k :: reads) writes pos total dst errno =
      some (some total, errno, dst) := by
  rw [copyLoop, if_pos h]
  exact if_pos hnr

theorem copyLoop_read (h : t.short total = true) {k nr : ℕ}
    (hnr : readSize k bufsize (src.length - pos) = nr) (hpos : nr ≠ 0) :
    copyLoop t src bufsize (.ok k :: reads) writes pos total dst errno =
      match writen writes dst pos ((src.drop pos).take nr) errno with
      | none => none
      | some (_, .error _, errno, dst) => some (none, errno, dst)
      | some (writes, .ok _, errno, dst) =>
          match t.add total nr with
          | none => some (none, errno, dst)
          | some total =>
              copyLoop t src bufsize reads writes (pos + nr) total dst errno := by
  subst hnr
  rw [copyLoop, if_pos h]
  exact if_neg hpos

section Written

variable {k nr : ℕ} {rest : List Transfer} {dst' : Content} {errno' : Errno}
  (h : t.short total = true) (hnr : readSize k bufsize (src.length - pos) = nr)
  (hpos : nr ≠ 0)
include h hnr hpos

theorem copyLoop_write {e : Errno}
    (hwriten : writen writes dst pos ((src.drop pos).take nr) errno =
      some (rest, .error e, errno', dst')) :
    copyLoop t src bufsize (.ok k :: reads) writes pos total dst errno =
      some (none, errno', dst') := by
  rw [copyLoop_read h hnr hpos, hwriten]

variable (hwriten : writen writes dst pos ((src.drop pos).take nr) errno =
  some (rest, .ok (), errno', dst'))
include hwriten

theorem copyLoop_count (hadd : t.add total nr = none) :
    copyLoop t src bufsize (.ok k :: reads) writes pos total dst errno =
      some (none, errno', dst') := by
  rw [copyLoop_read h hnr hpos, hwriten]
  dsimp only
  rw [hadd]

theorem copyLoop_copied {total' : C} (hadd : t.add total nr = some total') :
    copyLoop t src bufsize (.ok k :: reads) writes pos total dst errno =
      copyLoop t src bufsize reads rest (pos + nr) total' dst' errno' := by
  rw [copyLoop_read h hnr hpos, hwriten]
  dsimp only
  rw [hadd]

end Written

end Equations

/-! ## Rounds and exits -/

structure CopyState (C : Type) where
  reads : List Transfer
  writes : List Transfer
  pos : ℕ
  total : C
  dst : Content
  errno : Errno

def CopyState.run {C : Type} (t : Tally C) (src : Content) (bufsize : ℕ)
    (s : CopyState C) : Option (Option C × Errno × Content) :=
  copyLoop t src bufsize s.reads s.writes s.pos s.total s.dst s.errno

section Rounds

variable {C : Type} (t : Tally C) (src : Content) (bufsize : ℕ)

/-- A round the loop goes on after: its read was interrupted, or what it read is
written. -/
inductive Round : CopyState C → CopyState C → Prop
  | interrupted {reads writes : List Transfer} {pos : ℕ} {total : C} {dst : Content}
      {errno : Errno} (hshort : t.short total = true) :
      Round ⟨.error EINTR :: reads, writes, pos, total, dst, errno⟩
        ⟨reads, writes, pos, total, dst, EINTR⟩
  | copied {reads writes rest : List Transfer} {pos k nr : ℕ} {total total' : C}
      {dst dst' : Content} {errno errno' : Errno} (hshort : t.short total = true)
      (hnr : readSize k bufsize (src.length - pos) = nr) (hpos : nr ≠ 0)
      (hwriten : writen writes dst pos ((src.drop pos).take nr) errno =
        some (rest, .ok (), errno', dst'))
      (hadd : t.add total nr = some total') :
      Round ⟨.ok k :: reads, writes, pos, total, dst, errno⟩
        ⟨reads, rest, pos + nr, total', dst', errno'⟩

inductive Exit : CopyState C → Option C × Errno × Content → Prop
  | done {reads writes : List Transfer} {pos : ℕ} {total : C} {dst : Content}
      {errno : Errno} (hshort : t.short total = false) :
      Exit ⟨reads, writes, pos, total, dst, errno⟩ (some total, errno, dst)
  | eof {reads writes : List Transfer} {pos k : ℕ} {total : C} {dst : Content}
      {errno : Errno} (hshort : t.short total = true)
      (hnr : readSize k bufsize (src.length - pos) = 0) :
      Exit ⟨.ok k :: reads, writes, pos, total, dst, errno⟩ (some total, errno, dst)
  | read {reads writes : List Transfer} {pos : ℕ} {total : C} {dst : Content}
      {errno e : Errno} (hshort : t.short total = true) (he : e ≠ EINTR) :
      Exit ⟨.error e :: reads, writes, pos, total, dst, errno⟩ (none, e, dst)
  | write {reads writes rest : List Transfer} {pos k nr : ℕ} {total : C}
      {dst dst' : Content} {errno errno' e : Errno} (hshort : t.short total = true)
      (hnr : readSize k bufsize (src.length - pos) = nr) (hpos : nr ≠ 0)
      (hwriten : writen writes dst pos ((src.drop pos).take nr) errno =
        some (rest, .error e, errno', dst')) :
      Exit ⟨.ok k :: reads, writes, pos, total, dst, errno⟩ (none, errno', dst')
  | count {reads writes rest : List Transfer} {pos k nr : ℕ} {total : C}
      {dst dst' : Content} {errno errno' : Errno} (hshort : t.short total = true)
      (hnr : readSize k bufsize (src.length - pos) = nr) (hpos : nr ≠ 0)
      (hwriten : writen writes dst pos ((src.drop pos).take nr) errno =
        some (rest, .ok (), errno', dst'))
      (hadd : t.add total nr = none) :
      Exit ⟨.ok k :: reads, writes, pos, total, dst, errno⟩ (none, errno', dst')

def Rounds : CopyState C → CopyState C → Prop :=
  Relation.ReflTransGen (Round t src bufsize)

variable {t src bufsize} {s s' : CopyState C} {r : Option C × Errno × Content}

theorem Round.run_eq (h : Round t src bufsize s s') :
    s.run t src bufsize = s'.run t src bufsize := by
  cases h with
  | interrupted hshort => exact (copyLoop_error hshort EINTR).trans (if_pos rfl)
  | copied hshort hnr hpos hwriten hadd =>
      exact copyLoop_copied hshort hnr hpos hwriten hadd

theorem Exit.run_eq (h : Exit t src bufsize s r) : s.run t src bufsize = some r := by
  cases h with
  | done hshort => exact copyLoop_done hshort
  | eof hshort hnr => exact copyLoop_eof hshort hnr
  | read hshort he => exact (copyLoop_error hshort _).trans (if_neg he)
  | write hshort hnr hpos hwriten => exact copyLoop_write hshort hnr hpos hwriten
  | count hshort hnr hpos hwriten hadd =>
      exact copyLoop_count hshort hnr hpos hwriten hadd

theorem Rounds.keeps {P : CopyState C → Prop}
    (hround : ∀ {s s'}, Round t src bufsize s s' → P s → P s')
    (h : Rounds t src bufsize s s') (hs : P s) : P s' := by
  induction h with
  | refl => exact hs
  | tail _ hlast ih => exact hround hlast ih

theorem Rounds.run_eq (h : Rounds t src bufsize s s') :
    s.run t src bufsize = s'.run t src bufsize := by
  induction h with
  | refl => rfl
  | tail _ hlast ih => exact ih.trans hlast.run_eq

theorem exit_or_round (reads : List Transfer) {writes : List Transfer} {pos : ℕ}
    {total : C} {dst : Content} {errno : Errno}
    (h : copyLoop t src bufsize reads writes pos total dst errno = some r) :
    Exit t src bufsize ⟨reads, writes, pos, total, dst, errno⟩ r ∨
      ∃ s : CopyState C, Round t src bufsize ⟨reads, writes, pos, total, dst, errno⟩ s ∧
        s.reads = reads.tail ∧ s.run t src bufsize = some r := by
  cases hshort : t.short total with
  | false =>
      rw [copyLoop_done hshort] at h
      cases h
      exact .inl (.done hshort)
  | true =>
      rcases reads with _ | ⟨e | k, reads⟩
      · rw [copyLoop_nil hshort] at h
        cases h
      · rw [copyLoop_error hshort] at h
        split_ifs at h with he
        · subst he
          exact .inr ⟨_, .interrupted hshort, rfl, h⟩
        · cases h
          exact .inl (.read hshort he)
      · cases hnr : readSize k bufsize (src.length - pos) with
        | zero =>
            rw [copyLoop_eof hshort hnr] at h
            cases h
            exact .inl (.eof hshort hnr)
        | succ n =>
            rw [copyLoop_read hshort hnr n.succ_ne_zero] at h
            split at h
            · cases h
            · rename_i hwriten
              cases h
              exact .inl (.write hshort hnr n.succ_ne_zero hwriten)
            · rename_i hwriten
              split at h
              · rename_i hadd
                cases h
                exact .inl (.count hshort hnr n.succ_ne_zero hwriten hadd)
              · rename_i hadd
                exact .inr ⟨_, .copied hshort hnr n.succ_ne_zero hwriten hadd, rfl, h⟩

/-- The loop ends with `r` exactly if its rounds lead to an exit with `r`. -/
theorem copyLoop_eq_some_iff {reads writes : List Transfer} {pos : ℕ} {total : C}
    {dst : Content} {errno : Errno} :
    copyLoop t src bufsize reads writes pos total dst errno = some r ↔
      ∃ s, Rounds t src bufsize ⟨reads, writes, pos, total, dst, errno⟩ s ∧
        Exit t src bufsize s r := by
  constructor
  · intro h
    -- every round takes an answer from the reads
    induction reads generalizing writes pos total dst errno with
    | nil =>
        rcases exit_or_round [] h with hexit | ⟨s', hround, _⟩
        · exact ⟨_, .refl, hexit⟩
        · cases hround
    | cons a reads ih =>
        rcases exit_or_round (a :: reads) h with hexit | ⟨s', hround, hreads, hs'⟩
        · exact ⟨_, .refl, hexit⟩
        · obtain ⟨reads', writes', pos', total', dst', errno'⟩ := s'
          obtain rfl : reads' = reads := hreads
          obtain ⟨s'', hrounds, hexit⟩ := ih hs'
          exact ⟨s'', hrounds.head hround, hexit⟩
  · rintro ⟨s', hrounds, hexit⟩
    exact hrounds.run_eq.trans hexit.run_eq

end Rounds

/-! ## The writes of one buffer -/

theorem take_of_writen {writes rest : List Transfer} {dst dst' buf : Content}
    {off : ℕ} {errno errno' : Errno} (hoff : off ≤ dst.length)
    (h : writen writes dst off buf errno = some (rest, .ok (), errno', dst')) :
    dst'.take (off + buf.length) = dst.take off ++ buf := by
  induction writes generalizing dst off buf errno with
  | nil => cases h
  | cons a writes ih =>
      cases a with
      | error e =>
          rw [writen] at h
          split_ifs at h
          · exact ih hoff h
          · cases h
      | ok k =>
          rw [writen] at h
          have htake : (Bytes.writeAt 0 dst off (buf.take k)).take
              (off + (buf.take k).length) = dst.take off ++ buf.take k :=
            Bytes.take_writeAt 0 hoff
          split_ifs at h with hk
          · cases h
            rwa [List.take_of_length_le hk] at htake ⊢
          · -- the rest of the buffer goes behind the part that was written
            have hlen : (buf.take k).length = k := by
              rw [List.length_take]
              omega
            have hle : off + k ≤
                (Bytes.writeAt 0 dst off (buf.take k)).length := by
              have := congrArg List.length htake
              rw [hlen, List.length_take, List.length_append, List.length_take,
                hlen] at this
              omega
            have hrest := ih hle h
            rw [hlen] at htake
            rw [htake, List.append_assoc, List.take_append_drop,
              List.length_drop] at hrest
            rwa [show off + k + (buf.length - k) = off + buf.length by omega]
              at hrest

/-- The answers that are left were among those there were. After a success `errno` is
what it was unless a write was interrupted, and a failure is that of a write. -/
theorem writen_eq_some {writes rest : List Transfer} {dst dst' buf : Content}
    {off : ℕ} {errno errno' : Errno} {rv : Rv}
    (h : writen writes dst off buf errno = some (rest, rv, errno', dst')) :
    (∀ a ∈ rest, a ∈ writes) ∧ (rv = .ok () → errno' = errno ∨ errno' = EINTR) ∧
      ∀ e, rv = .error e → errno' = e ∧ .error e ∈ writes ∧ e ≠ EINTR := by
  induction writes generalizing dst off buf errno with
  | nil => cases h
  | cons a writes ih =>
      cases a with
      | error e =>
          rw [writen] at h
          split_ifs at h with he
          · obtain ⟨hrest, hok, hfail⟩ := ih h
            refine ⟨fun b hb => .tail _ (hrest b hb), fun hrv => ?_, fun e' he' => ?_⟩
            · rcases hok hrv with rfl | hintr
              · exact .inr he
              · exact .inr hintr
            · obtain ⟨herrno, hmem, hne⟩ := hfail e' he'
              exact ⟨herrno, .tail _ hmem, hne⟩
          · cases h
            refine ⟨fun b hb => .tail _ hb, nofun, fun e' he' => ?_⟩
            cases he'
            exact ⟨rfl, .head _, he⟩
      | ok k =>
          rw [writen] at h
          split_ifs at h
          · cases h
            exact ⟨fun b hb => .tail _ hb, fun _ => .inl rfl, nofun⟩
          · obtain ⟨hrest, hok, hfail⟩ := ih h
            refine ⟨fun b hb => .tail _ (hrest b hb), hok, fun e he => ?_⟩
            obtain ⟨herrno, hmem, hne⟩ := hfail e he
            exact ⟨herrno, .tail _ hmem, hne⟩

/-! ## Two destinations -/

section Rel

variable {R : Content → Content → Prop}
  (hR : ∀ {d₁ d₂ : Content} (off : ℕ) (buf : Content), R d₁ d₂ →
    R (Bytes.writeAt 0 d₁ off buf) (Bytes.writeAt 0 d₂ off buf))
include hR

/-- What the writes of one buffer come to depends neither on the destination nor on what
`errno` was, and what is the same of two destinations before is so after them. -/
theorem writen_rel (writes : List Transfer) {dst₁ dst₂ : Content} (hdst : R dst₁ dst₂)
    (off : ℕ) (buf : Content) (errno₁ errno₂ : Errno) :
    Option.Rel (fun r₁ r₂ => r₁.1 = r₂.1 ∧ r₁.2.1 = r₂.2.1 ∧ R r₁.2.2.2 r₂.2.2.2)
      (writen writes dst₁ off buf errno₁) (writen writes dst₂ off buf errno₂) := by
  induction writes generalizing dst₁ dst₂ off buf errno₁ errno₂ with
  | nil => exact .none
  | cons a writes ih =>
      cases a with
      | error e =>
          rw [writen, writen]
          split_ifs
          · exact ih hdst off buf e e
          · exact .some ⟨rfl, rfl, hdst⟩
      | ok k =>
          rw [writen, writen]
          split_ifs
          · exact .some ⟨rfl, rfl, hR off _ hdst⟩
          · exact ih (hR off _ hdst) _ _ errno₁ errno₂

theorem copyLoop_rel {C : Type} (t : Tally C) (src : Content) (bufsize : ℕ)
    (reads writes : List Transfer) (pos : ℕ) (total : C) (dst₁ dst₂ : Content)
    (hdst : R dst₁ dst₂) (errno₁ errno₂ : Errno) :
    Option.Rel (fun r₁ r₂ => r₁.1 = r₂.1 ∧ R r₁.2.2 r₂.2.2)
      (copyLoop t src bufsize reads writes pos total dst₁ errno₁)
      (copyLoop t src bufsize reads writes pos total dst₂ errno₂) := by
  induction reads generalizing writes pos total dst₁ dst₂ errno₁ errno₂ with
  | nil =>
      unfold copyLoop
      split_ifs
      · exact .none
      · exact .some ⟨rfl, hdst⟩
  | cons a reads ih =>
      unfold copyLoop
      split_ifs
      · cases a with
        | error e =>
            dsimp only
            split_ifs
            · exact ih writes pos total dst₁ dst₂ hdst e e
            · exact .some ⟨rfl, hdst⟩
        | ok k =>
            dsimp only
            split_ifs
            · exact .some ⟨rfl, hdst⟩
            · have hw := writen_rel hR writes hdst pos
                ((src.drop pos).take (readSize k bufsize (src.length - pos)))
                errno₁ errno₂
              generalize writen writes dst₁ pos _ errno₁ = r₁ at hw ⊢
              generalize writen writes dst₂ pos _ errno₂ = r₂ at hw ⊢
              rcases hw with @⟨⟨rest, rv, e₁, d₁⟩, ⟨_, _, e₂, d₂⟩, rfl, rfl, hd⟩ | _
              · cases rv with
                | error e => exact .some ⟨rfl, hd⟩
                | ok u =>
                    dsimp only
                    cases t.add total (readSize k bufsize (src.length - pos)) with
                    | none => exact .some ⟨rfl, hd⟩
                    | some total' => exact ih rest _ total' d₁ d₂ hd e₁ e₂
              · exact .none
      · exact .some ⟨rfl, hdst⟩

end Rel

end Mergerfs
