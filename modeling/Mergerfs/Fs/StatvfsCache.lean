import Mergerfs.Basic.Branch
import Mergerfs.Library.Along
import Mergerfs.Library.Timed

/-!
# The cache of `statvfs`

With a timeout other than zero `fs::statvfs_cache` keeps what `statvfs` answered for a
path. An entry is made zeroed, with time zero. An entry that is older than the timeout
is stamped with the current time before the kernel is asked, and keeps its content when
the kernel fails. So an entry can be young and still hold nothing the kernel said, and
`LastSucceeded` is the condition on a call under which it does not matter.
-/

namespace Mergerfs

/-- `g_cache`, with `Element` for the entries. -/
abbrev StatvfsCache := Timed.Map Path StatVFS

namespace StatvfsCache

def zero : Timed.Entry StatVFS := ⟨0, ⟨0, 0, 0, 0⟩⟩

end StatvfsCache

structure StatvfsCall where
  path : Path
  now : UInt64
  timeout : UInt64
  answer : Except Errno StatVFS

open StatvfsCache (zero)

def expired (cache : StatvfsCache) (c : StatvfsCall) : Bool :=
  c.timeout < (cache.get zero c.path).age c.now

/-- `fs::statvfs_cache`: the cache it leaves, and the error or the struct it fills. -/
def statvfsCache (cache : StatvfsCache) (c : StatvfsCall) :
    StatvfsCache × Except Errno StatVFS :=
  if c.timeout = 0 then (cache, c.answer)
  else
    let e := cache.get zero c.path
    if expired cache c then
      -- the time is stamped whether or not `statvfs` fills the struct
      (cache.put c.path ⟨c.now, match c.answer with
        | .ok st => st
        | .error _ => e.val⟩, c.answer)
    else (cache.put c.path e, .ok e.val)

def callsStatvfs (cache : StatvfsCache) (c : StatvfsCall) : Bool :=
  c.timeout == 0 || expired cache c

/-! ## Runs -/

/-- The cache, and the calls so far that asked the kernel, the last one first. -/
structure StatvfsRun where
  cache : StatvfsCache
  made : List StatvfsCall

namespace StatvfsRun

def zero : StatvfsRun := ⟨Timed.Map.empty, []⟩

def step (s : StatvfsRun) (c : StatvfsCall) : StatvfsRun where
  cache := (statvfsCache s.cache c).1
  made := if callsStatvfs s.cache c then c :: s.made else s.made

def last (s : StatvfsRun) (path : Path) : Option StatvfsCall :=
  s.made.find? fun d => d.path == path && d.timeout != 0

/-- A call that does not ask the kernel comes after a success for its path. -/
def LastSucceeded (s : StatvfsRun) (c : StatvfsCall) : Prop :=
  callsStatvfs s.cache c = false →
    ∃ d st, s.last c.path = some d ∧ d.answer = .ok st

def Stored (s : StatvfsRun) : Prop :=
  ∀ path d, s.last path = some d →
    (s.cache.get StatvfsCache.zero path).time = d.now ∧
      ∀ st, d.answer = .ok st → (s.cache.get StatvfsCache.zero path).val = st

end StatvfsRun

section Step

variable {s : StatvfsRun} {c : StatvfsCall}

/-- A call stores an answer of the kernel, or it leaves every entry as it was. -/
theorem StatvfsRun.step_cases (s : StatvfsRun) (c : StatvfsCall) :
    (c.timeout ≠ 0 ∧ (s.step c).made = c :: s.made ∧
      ∃ e : Timed.Entry StatVFS, (s.step c).cache = s.cache.put c.path e ∧
        e.time = c.now ∧ ∀ st, c.answer = .ok st → e.val = st) ∨
    (∀ path, (s.step c).last path = s.last path) ∧
      ∀ path, (s.step c).cache.get StatvfsCache.zero path =
        s.cache.get StatvfsCache.zero path := by
  unfold StatvfsRun.last StatvfsRun.step statvfsCache callsStatvfs
  by_cases hzero : c.timeout = 0
  · right
    simp [hzero]
  · cases hexp : expired s.cache c with
    | true =>
        left
        refine ⟨hzero, by simp, _, by simp only [if_neg hzero]; rfl, rfl, ?_⟩
        intro st hst
        simp only [hst]
    | false =>
        right
        simp [hzero, Timed.Map.get_put_get]

theorem StatvfsRun.Stored.step (h : s.Stored) (c : StatvfsCall) :
    (s.step c).Stored := by
  intro path d hd
  rcases s.step_cases c with ⟨hzero, hmade, e, hcache, htime, hval⟩ | ⟨hlast, hget⟩
  · rw [hcache, Timed.Map.get_put]
    rw [StatvfsRun.last, hmade, List.find?_cons] at hd
    split_ifs with hpath
    · subst hpath
      simp only [beq_self_eq_true, Bool.true_and, bne_iff_ne.mpr hzero,
        Option.some.injEq] at hd
      subst hd
      exact ⟨htime, hval⟩
    · have hne : (c.path == path) = false := by
        simpa using Ne.symm hpath
      rw [hne, Bool.false_and] at hd
      exact h path d hd
  · rw [hlast] at hd
    rw [hget]
    exact h path d hd

theorem StatvfsRun.mem_of_mem_made {done : List StatvfsCall}
    (h : ∀ d ∈ s.made, d ∈ done) :
    ∀ d ∈ (s.step c).made, d ∈ done ++ [c] := by
  intro d hd
  unfold StatvfsRun.step at hd
  split at hd
  · rcases List.mem_cons.mp hd with rfl | hd
    · simp
    · exact List.mem_append_left _ (h d hd)
  · exact List.mem_append_left _ (h d hd)

theorem statvfsCache_of_calls (h : callsStatvfs s.cache c = true) :
    (statvfsCache s.cache c).2 = c.answer := by
  unfold callsStatvfs at h
  unfold statvfsCache
  by_cases hzero : c.timeout = 0
  · rw [if_pos hzero]
  · have hexp : expired s.cache c = true := by simpa [hzero] using h
    rw [if_neg hzero, if_pos hexp]

theorem statvfsCache_of_not_calls (h : callsStatvfs s.cache c = false) :
    (statvfsCache s.cache c).2 = .ok (s.cache.get zero c.path).val ∧
      (s.cache.get zero c.path).age c.now ≤ c.timeout := by
  simp only [callsStatvfs, Bool.or_eq_false_iff, beq_eq_false_iff_ne] at h
  obtain ⟨hzero, hexp⟩ := h
  refine ⟨by simp [statvfsCache, hzero, hexp], ?_⟩
  simpa [expired] using hexp

end Step

/-- The struct is the answer of a successful `statvfs` of the path of `c`, made by
`c` itself or no longer ago than the timeout. -/
def StatvfsRun.Fresh (s : StatvfsRun) (c : StatvfsCall) (st : StatVFS) : Prop :=
  callsStatvfs s.cache c = true ∧ c.answer = .ok st ∨
    ∃ d ∈ s.made, d.path = c.path ∧ d.answer = .ok st ∧ d.now ≤ c.now ∧
      c.now.toNat - d.now.toNat ≤ c.timeout.toNat

/-- In a run whose calls ask the kernel or come after a success for their path,
every struct that is filled is real and fresh. -/
theorem statvfsCache_fresh (calls : List StatvfsCall)
    (hclock : calls.Pairwise fun c d => c.now ≤ d.now)
    (hrun : Along.along StatvfsRun.step StatvfsRun.LastSucceeded StatvfsRun.zero
      calls)
    (done rest : List StatvfsCall) (c : StatvfsCall)
    (heq : calls = done ++ c :: rest) (st : StatVFS)
    (hst : (statvfsCache (done.foldl StatvfsRun.step StatvfsRun.zero).cache c).2 =
      .ok st) :
    (done.foldl StatvfsRun.step StatvfsRun.zero).Fresh c st := by
  obtain ⟨⟨hstored, hmade⟩, hlast⟩ := Along.along.inv_split
    (I := fun done s => s.Stored ∧ ∀ d ∈ s.made, d ∈ done)
    (fun done s c hs _ => ⟨hs.1.step c, StatvfsRun.mem_of_mem_made hs.2⟩)
    ⟨by simp [StatvfsRun.Stored, StatvfsRun.last, StatvfsRun.zero],
      by simp [StatvfsRun.zero]⟩ hrun heq
  generalize done.foldl StatvfsRun.step StatvfsRun.zero = s at *
  cases hcalls : callsStatvfs s.cache c with
  | true => exact .inl ⟨hcalls, (statvfsCache_of_calls hcalls).symm.trans hst⟩
  | false =>
      right
      obtain ⟨d, st', hd, hans⟩ := hlast hcalls
      obtain ⟨htime, hval⟩ := hstored c.path d hd
      obtain ⟨hserved, hage⟩ := statvfsCache_of_not_calls hcalls
      have hmem := List.mem_of_find?_eq_some hd
      have hpath : d.path = c.path := by
        have htest := List.find?_some hd
        simp only [Bool.and_eq_true, beq_iff_eq] at htest
        exact htest.1
      -- the entry was stamped in the past, so its age does not wrap
      have hle : d.now ≤ c.now := by
        rw [heq, List.pairwise_append] at hclock
        exact hclock.2.2 d (hmade d hmem) c List.mem_cons_self
      rw [hserved, Except.ok.injEq] at hst
      refine ⟨d, hmem, hpath, ?_, hle, ?_⟩
      · rw [hans, ← hst, hval st' hans]
      · rw [← htime, ← Timed.Entry.toNat_age (by rw [htime]; exact hle)]
        exact UInt64.le_iff_toNat_le.mp hage

def someFs : StatVFS := ⟨1, 100, 50, 0⟩

def mounted (now : UInt64) (answer : Except Errno StatVFS) : StatvfsCall :=
  ⟨"/a".toList, now, 10, answer⟩

/-- The second of two calls is answered from the entry of the first. -/
theorem statvfsCache_fresh_hit :
    (StatvfsRun.zero.step (mounted 100 (.ok someFs))).Fresh
      (mounted 105 (.error Errno.EIO)) someFs := by
  refine statvfsCache_fresh
    [mounted 100 (.ok someFs), mounted 105 (.error Errno.EIO)] ?_ ?_
    [mounted 100 (.ok someFs)] [] _ rfl someFs rfl
  · simp [mounted]
  · refine ⟨?_, ?_, trivial⟩
    · intro h
      cases h
    · intro _
      exact ⟨mounted 100 (.ok someFs), someFs, rfl, rfl⟩

/-- After a failure the zeroed entry is served, and with a timeout larger than the
clock already the first call gets it. -/
theorem statvfsCache_unreal :
    (statvfsCache (StatvfsRun.zero.step (mounted 100 (.error Errno.EIO))).cache
        (mounted 105 (.ok someFs))).2 = .ok ⟨0, 0, 0, 0⟩ ∧
      ¬ (StatvfsRun.zero.step (mounted 100 (.error Errno.EIO))).Fresh
        (mounted 105 (.ok someFs)) ⟨0, 0, 0, 0⟩ ∧
    (statvfsCache StatvfsRun.zero.cache
        ⟨"/a".toList, 100, 18446744073709551615, .ok someFs⟩).2 =
          .ok ⟨0, 0, 0, 0⟩ ∧
      ¬ StatvfsRun.zero.Fresh
        ⟨"/a".toList, 100, 18446744073709551615, .ok someFs⟩ ⟨0, 0, 0, 0⟩ := by
  refine ⟨rfl, ?_, rfl, ?_⟩
  · rintro (⟨h, _⟩ | ⟨d, hd, _, hans, _⟩)
    · cases h
    · rw [List.mem_singleton.mp hd] at hans
      cases hans
  · rintro (⟨h, _⟩ | ⟨d, hd, _⟩)
    · cases h
    · cases hd

end Mergerfs
