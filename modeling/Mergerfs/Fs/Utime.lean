import Mathlib.Data.Nat.Bitwise
import Mergerfs.Fuse.Call

/-!
# Setting the times of a file where `utimensat` is missing

`fs_base_utime_generic.hpp` implements `fs::utime` by `futimesat`, `lutimes` and
`futimes`, which take microseconds and know neither of `UTIME_NOW` nor of
`UTIME_OMIT`: the pair is checked, cases for the pair as a whole are dealt with, and
then each of its two slots is replaced where it has to be. What the calls should do is
what `utimensat` and `futimens` do, up to the nanoseconds.

The file is there and may be changed, so that a call fails for its arguments only. The
model takes `fs::stat_atime(st)`, which is not given the address it asks for, to be
given it.
-/

namespace Mergerfs

open Errno

/-- The values the header defines where the system does not. -/
def UTIME_NOW : Int64 := 1073741823

def UTIME_OMIT : Int64 := 1073741822

def AT_SYMLINK_NOFOLLOW : UInt32 := 0x100

def AT_FDCWD : ℤ := -100

structure Timeval where
  tv_sec : Int64
  tv_usec : Int64
deriving DecidableEq

abbrev Times := Timespec × Timespec

structure Instant extends Timespec where
  nonneg : 0 ≤ tv_nsec
  le : tv_nsec ≤ 999999999

structure FileTimes where
  atime : Instant
  mtime : Instant

def timespecToTimeval (ts : Timespec) : Timeval := ⟨ts.tv_sec, ts.tv_nsec / 1000⟩

/-! ## The calls of the system -/

def Timeval.toTimespec (tv : Timeval) : Timespec := ⟨tv.tv_sec, tv.tv_usec * 1000⟩

def Timeval.outOfRange (tv : Timeval) : Bool :=
  decide (tv.tv_usec < 0) || decide (999999 < tv.tv_usec)

/-- `futimesat`, `lutimes` and `futimes`: the times the file has then. -/
def setTimes (now : Instant) : Option (Timeval × Timeval) → Except Errno Times
  | none => .ok (now.toTimespec, now.toTimespec)
  | some (a, m) =>
      if a.outOfRange || m.outOfRange then .error EINVAL
      else .ok (a.toTimespec, m.toTimespec)

/-- What `utimensat` takes for a slot: a number of nanoseconds, or one of the two
values with a meaning of their own. -/
def Timespec.Accepted (ts : Timespec) : Prop :=
  0 ≤ ts.tv_nsec ∧ ts.tv_nsec ≤ 999999999 ∨ ts.tv_nsec = UTIME_NOW ∨
    ts.tv_nsec = UTIME_OMIT

instance (ts : Timespec) : Decidable ts.Accepted :=
  inferInstanceAs (Decidable (_ ∨ _))

def chosenTime (now current : Instant) (ts : Timespec) : Timespec :=
  if ts.tv_nsec = UTIME_NOW then now.toTimespec
  else if ts.tv_nsec = UTIME_OMIT then current.toTimespec
  else ts

def futimens (now : Instant) (st : FileTimes) (ts : Option Times) :
    Except Errno Times :=
  match ts with
  | none => .ok (now.toTimespec, now.toTimespec)
  | some (a, m) =>
      if a.Accepted ∧ m.Accepted then
        .ok (chosenTime now st.atime a, chosenTime now st.mtime m)
      else .error EINVAL

def utimensat (now : Instant) (st : FileTimes) (ts : Option Times) (flags : UInt32) :
    Except Errno Times :=
  if flags = 0 ∨ flags = AT_SYMLINK_NOFOLLOW then futimens now st ts
  else .error EINVAL

/-! ## The replacement -/

def timespecInvalid (ts : Timespec) : Bool :=
  (decide (ts.tv_nsec < 0) || decide (999999999 < ts.tv_nsec)) &&
    (ts.tv_nsec != UTIME_NOW && ts.tv_nsec != UTIME_OMIT)

/-- `_timespec_invalid`. -/
def timesInvalid : Option Times → Bool
  | none => false
  | some ts => timespecInvalid ts.1 || timespecInvalid ts.2

def flagsInvalid (flags : UInt32) : Bool := flags &&& ~~~AT_SYMLINK_NOFOLLOW != 0

def canCallLutimes (dirfd : ℤ) (path : Path) (flags : UInt32) : Bool :=
  flags == AT_SYMLINK_NOFOLLOW && (dirfd == AT_FDCWD || path.head? == some '/')

def Times.shouldIgnore : Option Times → Bool
  | none => false
  | some ts => ts.1.tv_nsec == UTIME_OMIT && ts.2.tv_nsec == UTIME_OMIT

def shouldBeSetToNow : Option Times → Bool
  | none => true
  | some ts => ts.1.tv_nsec == UTIME_NOW && ts.2.tv_nsec == UTIME_NOW

def anyTimespecIsUtimeOmit (ts : Times) : Bool :=
  ts.1.tv_nsec == UTIME_OMIT || ts.2.tv_nsec == UTIME_OMIT

def anyTimespecIsUtimeNow (ts : Times) : Bool :=
  ts.1.tv_nsec == UTIME_NOW || ts.2.tv_nsec == UTIME_NOW

/-- `_set_utime_omit_to_current_value`, in both of its forms. -/
def setUtimeOmitToCurrentValue (st : FileTimes) (ts : Times)
    (tv : Timeval × Timeval) : Timeval × Timeval :=
  if !anyTimespecIsUtimeOmit ts then tv
  else
    (if ts.1.tv_nsec = UTIME_OMIT then timespecToTimeval st.atime.toTimespec else tv.1,
      if ts.2.tv_nsec = UTIME_OMIT then timespecToTimeval st.mtime.toTimespec else tv.2)

/-- `_set_utime_now_to_now`. The test at its beginning is the wrong way round, so that
it leaves the pairs alone it is for. -/
def setUtimeNowToNow (now : Instant) (ts : Times) (tv : Timeval × Timeval) :
    Timeval × Timeval :=
  if anyTimespecIsUtimeNow ts then tv
  else
    (if ts.1.tv_nsec = UTIME_NOW then timespecToTimeval now.toTimespec else tv.1,
      if ts.2.tv_nsec = UTIME_NOW then timespecToTimeval now.toTimespec else tv.2)

def convertTimespecToTimeval (now : Instant) (st : FileTimes) (ts : Option Times) :
    Option (Timeval × Timeval) :=
  if shouldBeSetToNow ts then none
  else ts.map fun ts =>
    setUtimeNowToNow now ts (setUtimeOmitToCurrentValue st ts
      (timespecToTimeval ts.1, timespecToTimeval ts.2))

def utimePath (now : Instant) (st : FileTimes) (dirfd : ℤ) (path : Path)
    (ts : Option Times) (flags : UInt32) : Except Errno Times :=
  if flagsInvalid flags then .error EINVAL
  else if timesInvalid ts then .error EINVAL
  else if Times.shouldIgnore ts then .ok (st.atime.toTimespec, st.mtime.toTimespec)
  else
    let tvp := convertTimespecToTimeval now st ts
    if flags &&& AT_SYMLINK_NOFOLLOW = 0 then setTimes now tvp
    else if canCallLutimes dirfd path flags then setTimes now tvp
    else .error EOPNOTSUPP

def utimeFd (now : Instant) (st : FileTimes) (ts : Option Times) :
    Except Errno Times :=
  if timesInvalid ts then .error EINVAL
  else if Times.shouldIgnore ts then .ok (st.atime.toTimespec, st.mtime.toTimespec)
  else setTimes now (convertTimespecToTimeval now st ts)

/-! ## Where the two agree -/

/-- Both refuse the arguments, or both set the same times up to the nanoseconds. -/
def Agree : Except Errno Times → Except Errno Times → Prop
  | .ok t, .ok t' => timespecToTimeval t.1 = timespecToTimeval t'.1 ∧
      timespecToTimeval t.2 = timespecToTimeval t'.2
  | .error e, .error e' => e = EINVAL ∧ e' = EINVAL
  | _, _ => False

def HalfNow : Option Times → Prop
  | none => False
  | some (a, m) => a.tv_nsec = UTIME_NOW ∧ m.tv_nsec ≠ UTIME_NOW ∨
      a.tv_nsec ≠ UTIME_NOW ∧ m.tv_nsec = UTIME_NOW

def slotTimeval (current : Instant) (ts : Timespec) : Timeval :=
  timespecToTimeval (if ts.tv_nsec = UTIME_OMIT then current.toTimespec else ts)

theorem toInt_div_thousand {x : Int64} (h0 : 0 ≤ x) :
    (x / 1000).toInt = x.toInt / 1000 := by
  have h0' := Int64.le_iff_toInt_le.mp h0
  have hne : x ≠ Int64.minValue := by
    rintro rfl
    exact absurd h0 (by decide)
  rw [Int64.toInt_div_of_ne_left _ _ hne]
  exact Int.tdiv_eq_ediv_of_nonneg h0'

theorem timespecToTimeval_range {ts : Timespec} (h0 : 0 ≤ ts.tv_nsec)
    (h1 : ts.tv_nsec ≤ 999999999) :
    (timespecToTimeval ts).outOfRange = false ∧
      timespecToTimeval (timespecToTimeval ts).toTimespec = timespecToTimeval ts := by
  have h0' : 0 ≤ ts.tv_nsec.toInt := Int64.le_iff_toInt_le.mp h0
  have h1' : ts.tv_nsec.toInt ≤ 999999999 := Int64.le_iff_toInt_le.mp h1
  have hdiv := toInt_div_thousand h0
  have hmul : (ts.tv_nsec / 1000 * 1000).toInt = ts.tv_nsec.toInt / 1000 * 1000 := by
    rw [Int64.toInt_mul, hdiv, show (1000 : Int64).toInt = 1000 from rfl]
    exact Int.bmod_eq_of_le (by simp only [Nat.reducePow]; omega)
      (by simp only [Nat.reducePow]; omega)
  constructor
  · have hlow : ¬ ts.tv_nsec / 1000 < 0 := by
      intro hlt
      have : (ts.tv_nsec / 1000).toInt < 0 := Int64.lt_iff_toInt_lt.mp hlt
      omega
    have hhigh : ¬ 999999 < ts.tv_nsec / 1000 := by
      intro hlt
      have : 999999 < (ts.tv_nsec / 1000).toInt := Int64.lt_iff_toInt_lt.mp hlt
      omega
    simp [Timeval.outOfRange, timespecToTimeval, hlow, hhigh]
  · have hnonneg : 0 ≤ ts.tv_nsec / 1000 * 1000 := by
      apply Int64.le_iff_toInt_le.mpr
      rw [hmul]
      exact Int.mul_nonneg (by omega) (by decide)
    have hback : ts.tv_nsec / 1000 * 1000 / 1000 = ts.tv_nsec / 1000 := by
      rw [← Int64.toInt_inj, toInt_div_thousand hnonneg, hmul, hdiv]
      omega
    simp only [timespecToTimeval, Timeval.toTimespec, hback]

/-! ### What is refused -/

theorem timespecInvalid_iff (ts : Timespec) :
    timespecInvalid ts = true ↔ ¬ ts.Accepted := by
  simp only [timespecInvalid, Timespec.Accepted, Bool.and_eq_true, Bool.or_eq_true,
    decide_eq_true_eq, bne_iff_ne, not_or, not_and_or, Int64.not_le]

/-- The test of the code and that of `futimens` refuse the same pairs. -/
theorem timesInvalid_iff (now : Instant) (st : FileTimes) (ts : Option Times) :
    timesInvalid ts = true ↔ futimens now st ts = .error EINVAL := by
  match ts with
  | none => exact iff_of_false Bool.false_ne_true nofun
  | some (a, m) =>
      rw [timesInvalid, Bool.or_eq_true, timespecInvalid_iff, timespecInvalid_iff,
        ← not_and_or, futimens]
      split_ifs with hboth
      · exact iff_of_false (not_not.mpr hboth) nofun
      · exact iff_of_true hboth rfl

theorem futimens_of_valid (now : Instant) (st : FileTimes) {a m : Timespec}
    (h : timesInvalid (some (a, m)) = false) :
    futimens now st (some (a, m)) =
      .ok (chosenTime now st.atime a, chosenTime now st.mtime m) := by
  refine if_pos (not_not.mp fun hnot => ?_)
  rw [not_and_or, ← timespecInvalid_iff, ← timespecInvalid_iff, ← Bool.or_eq_true] at hnot
  exact Bool.false_ne_true (h.symm.trans hnot)

theorem and_symlinkNofollow (flags : UInt32) :
    flags &&& AT_SYMLINK_NOFOLLOW = 0 ∨
      flags &&& AT_SYMLINK_NOFOLLOW = AT_SYMLINK_NOFOLLOW := by
  have h : (flags &&& AT_SYMLINK_NOFOLLOW).toNat =
      (flags.toNat.testBit 8).toNat * 2 ^ 8 := by
    rw [UInt32.toNat_and]
    exact Nat.and_two_pow flags.toNat 8
  cases hbit : flags.toNat.testBit 8 with
  | false =>
      rw [hbit] at h
      exact .inl (UInt32.toNat_inj.mp h)
  | true =>
      rw [hbit] at h
      exact .inr (UInt32.toNat_inj.mp h)

theorem eq_and_of_and_not {flags mask : UInt32} (h : flags &&& ~~~mask = 0) :
    flags = flags &&& mask := by
  refine UInt32.toBitVec_inj.mp (BitVec.eq_of_getLsbD_eq fun i hi => ?_)
  have hbit := congrArg (fun x => x.toBitVec.getLsbD i) h
  simp only [UInt32.toBitVec_and, UInt32.toBitVec_not, BitVec.getLsbD_and,
    BitVec.getLsbD_not, hi] at hbit ⊢
  cases hmask : mask.toBitVec.getLsbD i <;> simp_all

/-- The test of the code and that of `utimensat` refuse the same flags. -/
theorem flagsInvalid_iff (flags : UInt32) :
    flagsInvalid flags = true ↔ ¬ (flags = 0 ∨ flags = AT_SYMLINK_NOFOLLOW) := by
  rw [flagsInvalid, bne_iff_ne, not_iff_not]
  constructor
  · intro h
    rw [eq_and_of_and_not h]
    exact and_symlinkNofollow flags
  · rintro (rfl | rfl)
    · rfl
    · rfl

/-! ### One slot -/

theorem timespecInvalid_eq_false {ts : Timespec} (h : timespecInvalid ts = false)
    (hnow : ts.tv_nsec ≠ UTIME_NOW) (homit : ts.tv_nsec ≠ UTIME_OMIT) :
    0 ≤ ts.tv_nsec ∧ ts.tv_nsec ≤ 999999999 := by
  simp only [timespecInvalid, bne_iff_ne.mpr hnow, bne_iff_ne.mpr homit, Bool.and_true,
    Bool.or_eq_false_iff, decide_eq_false_iff_not] at h
  exact ⟨Int64.not_lt.mp h.1, Int64.not_lt.mp h.2⟩

/-- A valid slot that is not `UTIME_NOW` becomes what `utimensat` makes of it. -/
theorem slotTimeval_spec {ts : Timespec} (h : timespecInvalid ts = false)
    (hnow : ts.tv_nsec ≠ UTIME_NOW) (now current : Instant) :
    (slotTimeval current ts).outOfRange = false ∧
      timespecToTimeval (slotTimeval current ts).toTimespec =
        timespecToTimeval (chosenTime now current ts) := by
  unfold slotTimeval chosenTime
  rw [if_neg hnow]
  by_cases homit : ts.tv_nsec = UTIME_OMIT
  · rw [if_pos homit]
    exact timespecToTimeval_range current.nonneg current.le
  · rw [if_neg homit]
    obtain ⟨h0, h1⟩ := timespecInvalid_eq_false h hnow homit
    exact timespecToTimeval_range h0 h1

theorem outOfRange_of_now {ts : Timespec} (hnow : ts.tv_nsec = UTIME_NOW)
    (current : Instant) : (slotTimeval current ts).outOfRange = true := by
  have homit : ts.tv_nsec ≠ UTIME_OMIT := by
    rw [hnow]
    decide
  have hhigh : 999999 < UTIME_NOW / 1000 := by decide
  rw [slotTimeval, if_neg homit, Timeval.outOfRange, timespecToTimeval, hnow,
    decide_eq_true hhigh, Bool.or_true]

/-! ### The pair -/

/-- The function that should put in the current time does nothing to any pair. -/
theorem setUtimeNowToNow_eq (now : Instant) (ts : Times) (tv : Timeval × Timeval) :
    setUtimeNowToNow now ts tv = tv := by
  unfold setUtimeNowToNow
  cases hany : anyTimespecIsUtimeNow ts with
  | true => rfl
  | false =>
      simp only [anyTimespecIsUtimeNow, Bool.or_eq_false_iff, beq_eq_false_iff_ne] at hany
      rw [if_neg hany.1, if_neg hany.2]
      rfl

theorem setUtimeOmitToCurrentValue_eq (st : FileTimes) (ts : Times) :
    setUtimeOmitToCurrentValue st ts (timespecToTimeval ts.1, timespecToTimeval ts.2) =
      (slotTimeval st.atime ts.1, slotTimeval st.mtime ts.2) := by
  simp only [slotTimeval, apply_ite timespecToTimeval]
  unfold setUtimeOmitToCurrentValue
  cases hany : anyTimespecIsUtimeOmit ts with
  | true => rfl
  | false =>
      simp only [anyTimespecIsUtimeOmit, Bool.or_eq_false_iff, beq_eq_false_iff_ne] at hany
      rw [if_neg hany.1, if_neg hany.2]
      rfl

theorem convertTimespecToTimeval_some (now : Instant) (st : FileTimes)
    {a m : Timespec} (h : ¬ (a.tv_nsec = UTIME_NOW ∧ m.tv_nsec = UTIME_NOW)) :
    convertTimespecToTimeval now st (some (a, m)) =
      some (slotTimeval st.atime a, slotTimeval st.mtime m) := by
  have hset : shouldBeSetToNow (some (a, m)) = false := by
    rw [shouldBeSetToNow, Bool.eq_false_iff, ne_eq, Bool.and_eq_true, beq_iff_eq,
      beq_iff_eq]
    exact h
  rw [convertTimespecToTimeval, hset, Option.map_some, setUtimeNowToNow_eq,
    setUtimeOmitToCurrentValue_eq]
  rfl

/-- For a valid pair the calls do what `futimens` does, unless one slot alone is
`UTIME_NOW`. -/
theorem agree_setTimes_iff (now : Instant) (st : FileTimes) {ts : Option Times}
    (h : timesInvalid ts = false) :
    Agree (setTimes now (convertTimespecToTimeval now st ts)) (futimens now st ts) ↔
      ¬ HalfNow ts := by
  match ts with
  | none => exact iff_of_true ⟨rfl, rfl⟩ id
  | some (a, m) =>
      obtain ⟨hvalid₁, hvalid₂⟩ := Bool.or_eq_false_iff.mp h
      rw [futimens_of_valid now st h]
      by_cases ha : a.tv_nsec = UTIME_NOW
      · by_cases hm : m.tv_nsec = UTIME_NOW
        · have hset : shouldBeSetToNow (some (a, m)) = true := by
            simp [shouldBeSetToNow, ha, hm]
          rw [convertTimespecToTimeval, hset, chosenTime, if_pos ha, chosenTime,
            if_pos hm]
          exact iff_of_true ⟨rfl, rfl⟩ (by simp [HalfNow, ha, hm])
        · rw [convertTimespecToTimeval_some now st fun hboth => hm hboth.2, setTimes,
            outOfRange_of_now ha, Bool.true_or, if_pos rfl]
          exact iff_of_false id (by simp [HalfNow, ha, hm])
      · rw [convertTimespecToTimeval_some now st fun hboth => ha hboth.1, setTimes]
        by_cases hm : m.tv_nsec = UTIME_NOW
        · rw [outOfRange_of_now hm, Bool.or_true, if_pos rfl]
          exact iff_of_false id (by simp [HalfNow, ha, hm])
        · obtain ⟨ha₁, ha₂⟩ := slotTimeval_spec hvalid₁ ha now st.atime
          obtain ⟨hm₁, hm₂⟩ := slotTimeval_spec hvalid₂ hm now st.mtime
          rw [ha₁, hm₁]
          exact iff_of_true ⟨ha₂, hm₂⟩ (by simp [HalfNow, ha, hm])

theorem shouldIgnore_not_halfNow {ts : Option Times} (h : Times.shouldIgnore ts = true) :
    timesInvalid ts = false ∧ ¬ HalfNow ts := by
  match ts with
  | none => cases h
  | some (a, m) =>
      simp only [Times.shouldIgnore, Bool.and_eq_true, beq_iff_eq] at h
      have hne : UTIME_OMIT ≠ UTIME_NOW := by decide
      simp [timesInvalid, timespecInvalid, HalfNow, h.1, h.2, hne]

theorem futimens_of_shouldIgnore (now : Instant) (st : FileTimes) {ts : Option Times}
    (h : Times.shouldIgnore ts = true) :
    futimens now st ts = .ok (st.atime.toTimespec, st.mtime.toTimespec) := by
  have hvalid := (shouldIgnore_not_halfNow h).1
  match ts with
  | none => cases h
  | some (a, m) =>
      simp only [Times.shouldIgnore, Bool.and_eq_true, beq_iff_eq] at h
      have hne : UTIME_OMIT ≠ UTIME_NOW := by decide
      rw [futimens_of_valid now st hvalid]
      simp [chosenTime, h.1, h.2, hne]

theorem agree_utimeFd_iff (now : Instant) (st : FileTimes) (ts : Option Times) :
    Agree (utimeFd now st ts) (futimens now st ts) ↔
      timesInvalid ts = true ∨ ¬ HalfNow ts := by
  rw [utimeFd]
  cases hinvalid : timesInvalid ts with
  | true =>
      rw [(timesInvalid_iff now st ts).mp hinvalid]
      exact iff_of_true ⟨rfl, rfl⟩ (.inl rfl)
  | false =>
      rw [or_iff_right Bool.false_ne_true]
      cases hignore : Times.shouldIgnore ts with
      | true =>
          rw [futimens_of_shouldIgnore now st hignore]
          exact iff_of_true ⟨rfl, rfl⟩ (shouldIgnore_not_halfNow hignore).2
      | false => exact agree_setTimes_iff now st hinvalid

theorem not_agree_EOPNOTSUPP (r : Except Errno Times) :
    ¬ Agree (.error EOPNOTSUPP) r := by
  cases r with
  | ok t => exact id
  | error e => exact fun h => absurd h.1 (by decide)

theorem agree_utimePath_iff (now : Instant) (st : FileTimes) (dirfd : ℤ)
    (path : Path) (ts : Option Times) (flags : UInt32) :
    Agree (utimePath now st dirfd path ts flags) (utimensat now st ts flags) ↔
      flagsInvalid flags = true ∨ timesInvalid ts = true ∨ Times.shouldIgnore ts = true ∨
        ¬ HalfNow ts ∧ (flags &&& AT_SYMLINK_NOFOLLOW = 0 ∨
          canCallLutimes dirfd path flags = true) := by
  rw [utimePath, utimensat]
  cases hflags : flagsInvalid flags with
  | true =>
      rw [if_neg ((flagsInvalid_iff flags).mp hflags)]
      exact iff_of_true ⟨rfl, rfl⟩ (.inl rfl)
  | false =>
      have hknown : flags = 0 ∨ flags = AT_SYMLINK_NOFOLLOW :=
        not_not.mp fun hnot =>
          Bool.false_ne_true (hflags.symm.trans ((flagsInvalid_iff flags).mpr hnot))
      rw [or_iff_right Bool.false_ne_true, if_pos hknown]
      cases hinvalid : timesInvalid ts with
      | true =>
          rw [(timesInvalid_iff now st ts).mp hinvalid]
          exact iff_of_true ⟨rfl, rfl⟩ (.inl rfl)
      | false =>
          rw [or_iff_right Bool.false_ne_true]
          cases hignore : Times.shouldIgnore ts with
          | true =>
              rw [futimens_of_shouldIgnore now st hignore]
              exact iff_of_true ⟨rfl, rfl⟩ (.inl rfl)
          | false =>
              rw [or_iff_right Bool.false_ne_true]
              have hpair := agree_setTimes_iff now st hinvalid
              by_cases hfollow : flags &&& AT_SYMLINK_NOFOLLOW = 0
              · rw [if_pos hfollow]
                exact hpair.trans (and_iff_left (.inl hfollow)).symm
              · rw [if_neg hfollow]
                cases hlutimes : canCallLutimes dirfd path flags with
                | true => exact hpair.trans (and_iff_left (.inr rfl)).symm
                | false =>
                    refine iff_of_false (not_agree_EOPNOTSUPP _) ?_
                    rintro ⟨-, hcan | hcan⟩
                    · exact hfollow hcan
                    · cases hcan

/-- `fs::utime` of a path and of a descriptor do what `utimensat` and `futimens` do,
but for a valid pair one slot of which alone is `UTIME_NOW`, and but for a path that is
not to be followed and for which `lutimes` cannot be called. -/
theorem utime_agrees_iff (now : Instant) (st : FileTimes) (dirfd : ℤ) (path : Path)
    (ts : Option Times) (flags : UInt32) :
    (Agree (utimePath now st dirfd path ts flags) (utimensat now st ts flags) ↔
      flagsInvalid flags = true ∨ timesInvalid ts = true ∨ Times.shouldIgnore ts = true ∨
        ¬ HalfNow ts ∧ (flags &&& AT_SYMLINK_NOFOLLOW = 0 ∨
          canCallLutimes dirfd path flags = true)) ∧
    (Agree (utimeFd now st ts) (futimens now st ts) ↔
      timesInvalid ts = true ∨ ¬ HalfNow ts) :=
  ⟨agree_utimePath_iff now st dirfd path ts flags, agree_utimeFd_iff now st ts⟩

/-- Five seconds for the atime and now for the mtime: `futimes` is given more than a
million microseconds. -/
theorem utime_half_now :
    utimeFd ⟨⟨100, 0⟩, by decide, by decide⟩
        ⟨⟨⟨1, 0⟩, by decide, by decide⟩, ⟨⟨2, 0⟩, by decide, by decide⟩⟩
        (some (⟨5, 0⟩, ⟨0, UTIME_NOW⟩)) = .error EINVAL ∧
      futimens ⟨⟨100, 0⟩, by decide, by decide⟩
        ⟨⟨⟨1, 0⟩, by decide, by decide⟩, ⟨⟨2, 0⟩, by decide, by decide⟩⟩
        (some (⟨5, 0⟩, ⟨0, UTIME_NOW⟩)) = .ok (⟨5, 0⟩, ⟨100, 0⟩) := by
  decide

end Mergerfs
