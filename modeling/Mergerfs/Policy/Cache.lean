import Mergerfs.Basic.Errno
import Mergerfs.Basic.Path
import Mergerfs.Library.Along
import Mergerfs.Library.Timed

/-!
# The cache of the open policy

With a timeout other than zero `PolicyCache` remembers which branch the policy chose
for a fusepath. An entry that is not there is made with time zero and an empty branch
before the policy is asked, and stays so when the policy fails. The entry counts as
young as long as the clock is below the timeout, which any number may be.
-/

namespace Mergerfs

abbrev PolicyCache := Timed.Map Path Path

namespace PolicyCache

def value : Timed.Entry Path := ⟨0, []⟩

def clear (_ : PolicyCache) : PolicyCache := Timed.Map.empty

/-- `PolicyCache::cleanup`; `rand` is what `rand()` returns. -/
def cleanup (cache : PolicyCache) (timeout now : UInt64) (prob rand : ℕ) :
    PolicyCache :=
  if rand % prob ≠ 0 then cache
  else fun fusepath =>
    (cache fusepath).filter fun v => !decide (timeout ≤ v.age now)

def expired (cache : PolicyCache) (timeout now : UInt64) (fusepath : Path) :
    Bool :=
  timeout ≤ (cache.get value fusepath).age now

/-- The first locked section of `operator()`: the entry is made if it is not
there. -/
def enter (cache : PolicyCache) (fusepath : Path) : PolicyCache :=
  cache.put fusepath (cache.get value fusepath)

/-- `PolicyCache::operator()`: the cache it leaves, and the error or the branch.
`func` is the outcome of the policy should it be called. -/
def call (cache : PolicyCache) (timeout now : UInt64) (fusepath : Path)
    (func : Except Errno Path) : PolicyCache × Except Errno Path :=
  if timeout = 0 then (cache, func)
  else if expired cache timeout now fusepath then
    match func with
    | .error err => (cache.enter fusepath, .error err)
    | .ok branch => ((cache.enter fusepath).put fusepath ⟨now, branch⟩, .ok branch)
  else (cache.enter fusepath, .ok (cache.get value fusepath).val)

def callsFunc (cache : PolicyCache) (timeout now : UInt64) (fusepath : Path) :
    Bool :=
  timeout == 0 || expired cache timeout now fusepath

def ClockReached (cache : PolicyCache) (timeout now : UInt64) (fusepath : Path) :
    Prop :=
  timeout ≠ 0 → cache.get value fusepath = value → timeout ≤ now

section Call

variable {cache : PolicyCache} {timeout now : UInt64} {fusepath : Path}
  {func : Except Errno Path}

theorem call_of_callsFunc (h : cache.callsFunc timeout now fusepath = true) :
    (cache.call timeout now fusepath func).2 = func := by
  unfold callsFunc at h
  unfold call
  by_cases hzero : timeout = 0
  · rw [if_pos hzero]
  · have hexp : cache.expired timeout now fusepath = true := by
      simpa [hzero] using h
    rw [if_neg hzero, if_pos hexp]
    cases func <;> rfl

/-- The entry is used only while it is younger than the timeout. -/
theorem callsFunc_eq_false_iff :
    cache.callsFunc timeout now fusepath = false ↔
      timeout ≠ 0 ∧ (cache.get value fusepath).age now < timeout := by
  simp [callsFunc, expired]

theorem call_of_not_callsFunc
    (h : cache.callsFunc timeout now fusepath = false) :
    (cache.call timeout now fusepath func).2 =
      .ok (cache.get value fusepath).val := by
  simp only [callsFunc, Bool.or_eq_false_iff, beq_eq_false_iff_ne] at h
  simp [call, h]

theorem Holds.enter {P : Path → Timed.Entry Path → Prop}
    (h : cache.Holds value P) (fusepath : Path) :
    (cache.enter fusepath).Holds value P :=
  h.put (h.get fusepath)

theorem Holds.call {P : Path → Timed.Entry Path → Prop}
    (h : cache.Holds value P)
    (hfunc : ∀ branch, cache.callsFunc timeout now fusepath = true →
      func = .ok branch → P fusepath ⟨now, branch⟩) :
    (cache.call timeout now fusepath func).1.Holds value P := by
  unfold PolicyCache.call
  split
  · exact h
  · split
    · rename_i hexp
      have hcalls : cache.callsFunc timeout now fusepath = true := by
        rw [callsFunc, hexp, Bool.or_true]
      split
      · exact Holds.enter h fusepath
      · rename_i branch
        exact (Holds.enter h fusepath).put (.inr (hfunc branch hcalls rfl))
    · exact Holds.enter h fusepath

/-- An entry that is used instead of the policy is a filled one. -/
theorem Holds.of_not_callsFunc {P : Path → Timed.Entry Path → Prop}
    (h : cache.Holds value P)
    (hcalls : cache.callsFunc timeout now fusepath = false)
    (hclock : cache.ClockReached timeout now fusepath) :
    P fusepath (cache.get value fusepath) := by
  obtain ⟨hzero, hage⟩ := callsFunc_eq_false_iff.mp hcalls
  rcases Timed.Map.Holds.get h fusepath with hinit | hP
  · -- the age of a new entry is the clock
    have hle := hclock hzero hinit
    rw [hinit] at hage
    have hnow : value.age now = now := by simp [value, Timed.Entry.age]
    rw [hnow] at hage
    exact absurd hage (UInt64.not_lt.mpr hle)
  · exact hP

end Call

theorem Holds.erase {P : Path → Timed.Entry Path → Prop} {cache : PolicyCache}
    (h : cache.Holds value P) (fusepath : Path) :
    Timed.Map.Holds value P (Timed.Map.erase cache fusepath) :=
  h.of_sub fun _ _ he => (Timed.Map.eq_of_erase he).2

theorem Holds.cleanup {P : Path → Timed.Entry Path → Prop} {cache : PolicyCache}
    (h : cache.Holds value P) (timeout now : UInt64) (prob rand : ℕ) :
    (cache.cleanup timeout now prob rand).Holds value P := by
  refine h.of_sub ?_
  intro fusepath v hv
  unfold PolicyCache.cleanup at hv
  split at hv
  · exact hv
  · exact (Option.filter_eq_some_iff.mp hv).1

end PolicyCache

/-! ## Runs -/

inductive CacheOp where
  /-- `operator()`, with the outcome of the policy should it be called. -/
  | call (fusepath : Path) (func : Except Errno Path)
  | erase (fusepath : Path)
  | clear
  | cleanup (prob rand : ℕ)

structure CacheStep where
  now : UInt64
  timeout : UInt64
  op : CacheOp

/-- The cache, and the choices the policy has made so far: the fusepath, the time and
the branch. -/
structure PolicyRun where
  cache : PolicyCache
  made : List (Path × Timed.Entry Path)

namespace PolicyRun

def zero : PolicyRun := ⟨Timed.Map.empty, []⟩

def step (s : PolicyRun) (c : CacheStep) : PolicyRun :=
  match c.op with
  | .call fusepath func =>
      { cache := (s.cache.call c.timeout c.now fusepath func).1
        made :=
          if s.cache.callsFunc c.timeout c.now fusepath then
            match func with
            | .ok branch => (fusepath, ⟨c.now, branch⟩) :: s.made
            | .error _ => s.made
          else s.made }
  | .erase fusepath => { s with cache := s.cache.erase fusepath }
  | .clear => { s with cache := s.cache.clear }
  | .cleanup prob rand =>
      { s with cache := s.cache.cleanup c.timeout c.now prob rand }

/-- The clock has reached the timeout when a fusepath without a filled entry is
asked for. -/
def ClockReached (s : PolicyRun) (c : CacheStep) : Prop :=
  ∀ fusepath func, c.op = .call fusepath func →
    s.cache.ClockReached c.timeout c.now fusepath

def Recorded (s : PolicyRun) : Prop :=
  s.cache.Holds PolicyCache.value fun fusepath v => (fusepath, v) ∈ s.made

/-- The branch is one the policy chose for the fusepath, in this call or less than
the timeout ago. -/
def Chosen (s : PolicyRun) (c : CacheStep) (fusepath : Path)
    (func : Except Errno Path) (branch : Path) : Prop :=
  s.cache.callsFunc c.timeout c.now fusepath = true ∧ func = .ok branch ∨
    ∃ t, (fusepath, ⟨t, branch⟩) ∈ s.made ∧ t ≤ c.now ∧
      c.now.toNat - t.toNat < c.timeout.toNat

variable {s : PolicyRun} {c : CacheStep}

theorem mem_made_step {x : Path × Timed.Entry Path} (h : x ∈ s.made) :
    x ∈ (s.step c).made := by
  unfold step
  split
  · dsimp only
    split
    · split
      · exact List.mem_cons_of_mem _ h
      · exact h
    · exact h
  all_goals exact h

theorem time_of_mem_made_step {x : Path × Timed.Entry Path}
    (h : x ∈ (s.step c).made) : x ∈ s.made ∨ x.2.time = c.now := by
  unfold step at h
  split at h
  · dsimp only at h
    split at h
    · split at h
      · exact (List.mem_cons.mp h).symm.imp_right fun heq => by rw [heq]
      · exact .inl h
    · exact .inl h
  all_goals exact .inl h

theorem Recorded.step (h : s.Recorded) (c : CacheStep) : (s.step c).Recorded := by
  have hmono : s.cache.Holds PolicyCache.value fun fusepath v =>
      (fusepath, v) ∈ (s.step c).made :=
    h.mono fun _ _ => mem_made_step
  unfold Recorded
  obtain ⟨now, timeout, op⟩ := c
  cases op with
  | call fusepath func =>
      refine PolicyCache.Holds.call hmono ?_
      intro branch hcalls hfunc
      simp [PolicyRun.step, hcalls, hfunc]
  | erase fusepath => exact PolicyCache.Holds.erase hmono fusepath
  | clear => exact Timed.Map.holds_empty
  | cleanup prob rand => exact PolicyCache.Holds.cleanup hmono _ _ prob rand

end PolicyRun

/-- In a run in which the clock has reached the timeout whenever there is no filled
entry, `operator()` returns only what the policy chose. -/
theorem call_chosen (steps : List CacheStep)
    (hclock : steps.Pairwise fun c d => c.now ≤ d.now)
    (hrun : Along.along PolicyRun.step PolicyRun.ClockReached PolicyRun.zero steps)
    (done rest : List CacheStep) (c : CacheStep)
    (heq : steps = done ++ c :: rest) (fusepath : Path)
    (func : Except Errno Path) (hop : c.op = .call fusepath func) (branch : Path)
    (hbranch : ((done.foldl PolicyRun.step PolicyRun.zero).cache.call c.timeout
      c.now fusepath func).2 = .ok branch) :
    (done.foldl PolicyRun.step PolicyRun.zero).Chosen c fusepath func branch := by
  obtain ⟨⟨hrec, htimes⟩, hreached⟩ := Along.along.inv_split
    (I := fun done s => s.Recorded ∧ ∀ x ∈ s.made, ∃ d ∈ done, x.2.time = d.now)
    (by
      intro done s c hs _
      refine ⟨hs.1.step c, ?_⟩
      intro x hx
      rcases PolicyRun.time_of_mem_made_step hx with hx | hx
      · obtain ⟨d, hd, htime⟩ := hs.2 x hx
        exact ⟨d, List.mem_append_left _ hd, htime⟩
      · exact ⟨c, by simp, hx⟩)
    ⟨Timed.Map.holds_empty, by simp [PolicyRun.zero]⟩ hrun heq
  generalize done.foldl PolicyRun.step PolicyRun.zero = s at *
  cases hcalls : s.cache.callsFunc c.timeout c.now fusepath with
  | true =>
      exact .inl ⟨hcalls, (PolicyCache.call_of_callsFunc hcalls).symm.trans hbranch⟩
  | false =>
      right
      obtain ⟨_, hage⟩ := PolicyCache.callsFunc_eq_false_iff.mp hcalls
      rw [PolicyCache.call_of_not_callsFunc hcalls, Except.ok.injEq] at hbranch
      have hmem := PolicyCache.Holds.of_not_callsFunc hrec hcalls
        (hreached fusepath func hop)
      generalize s.cache.get PolicyCache.value fusepath = v at *
      -- the entry was stamped in the past, so its age does not wrap
      have hle : v.time ≤ c.now := by
        obtain ⟨d, hd, htime⟩ := htimes _ hmem
        rw [heq, List.pairwise_append] at hclock
        rw [htime]
        exact hclock.2.2 d hd c List.mem_cons_self
      refine ⟨v.time, hbranch ▸ hmem, hle, ?_⟩
      rw [← Timed.Entry.toNat_age hle]
      exact UInt64.lt_iff_toNat_lt.mp hage

def asking (now timeout : UInt64) (func : Except Errno Path) : CacheStep :=
  ⟨now, timeout, .call "/x".toList func⟩

/-- The second of two calls is answered from the entry of the first. -/
theorem call_chosen_hit :
    (PolicyRun.zero.step (asking 100 10 (.ok "/a".toList))).Chosen
      (asking 105 10 (.ok "/b".toList)) "/x".toList (.ok "/b".toList)
      "/a".toList := by
  refine call_chosen
    [asking 100 10 (.ok "/a".toList), asking 105 10 (.ok "/b".toList)] ?_ ?_
    [asking 100 10 (.ok "/a".toList)] [] _ rfl _ _ rfl _ rfl
  · simp [asking]
  · refine ⟨?_, ?_, trivial⟩
    all_goals
      intro _ _ _ _ _
      decide

/-- With the timeout `-1` stands for, the empty branch of a new entry is
returned. -/
theorem call_unchosen :
    (PolicyRun.zero.cache.call 18446744073709551615 100 "/x".toList
        (.ok "/a".toList)).2 = .ok [] ∧
      ¬ PolicyRun.zero.Chosen (asking 100 18446744073709551615 (.ok "/a".toList))
        "/x".toList (.ok "/a".toList) [] := by
  refine ⟨rfl, ?_⟩
  rintro (⟨h, _⟩ | ⟨t, ht, _⟩)
  · cases h
  · cases ht

end Mergerfs
