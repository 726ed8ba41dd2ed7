import Mergerfs.Fuse.Call
import Mergerfs.Fuse.Srcmounts
import Mergerfs.Policy.Cache
import Mergerfs.Policy.Search

/-!
# Opening a file

`FUSE::open` gets the branch from the cache of the open policy and opens the path
on it. The cache is not told of changes of the branch list, so that a branch which
has been taken out of the pool is still used for as long as its entries live.
-/

namespace Mergerfs

/-- A call of `FUSE::open`: the open policy and what it sees should it be asked, and
the timeout of the cache and the time. -/
structure OpenCall where
  fusepath : FusePath
  policy : Policy
  env : Probe
  minfreespace : UInt64
  timeout : UInt64
  now : UInt64

/-- `Policy::Func::Search` with a string for the branch. -/
def searchBranch (branches : Branches) (c : OpenCall) : Except Errno Path :=
  let r := c.policy.func c.env .search branches c.fusepath.path c.minfreespace []
  match r.1 with
  | .error e => .error e
  | .ok _ => .ok (front r.2)

/-- `l::open` up to `l::open_core`: the cache it leaves, and the error or the
branch the file is opened on. -/
def openBranch (branches : Branches) (cache : PolicyCache) (c : OpenCall) :
    PolicyCache × Except Errno Path :=
  cache.call c.timeout c.now c.fusepath.path (searchBranch branches c)

def openPath (branches : Branches) (cache : PolicyCache) (c : OpenCall) :
    Except Errno Path :=
  (openBranch branches cache c).2.map fun basepath => make basepath c.fusepath.path

theorem searchBranch_eq_ok {branches : Branches} {c : OpenCall} {basepath : Path}
    (h : searchBranch branches c = .ok basepath) :
    basepath ∈ toPaths branches ∧
      (c.env.lstat (make basepath c.fusepath.path)).isSome := by
  unfold searchBranch at h
  cases hrv : (c.policy.func c.env .search branches c.fusepath.path c.minfreespace
    []).1 with
  | error e =>
      simp only [hrv] at h
      cases h
  | ok u =>
      simp only [hrv, Except.ok.injEq] at h
      obtain ⟨b, hb, hfirst, st, hst⟩ := Policy.func_search_ok _ _ _ _ hrv
      have hfront : basepath = b.path := by
        rw [← h, front, List.headD_eq_head?_getD, hfirst, Option.getD_some]
      rw [hfront]
      exact ⟨List.mem_map_of_mem hb, Option.isSome_iff_exists.mpr ⟨st, hst⟩⟩

/-- The branch of an open is a filled entry of the cache or the policy's choice. -/
theorem openBranch_of_holds {branches : Branches} {cache : PolicyCache}
    {c : OpenCall} {P : Path → Path → Prop}
    (h : cache.Holds PolicyCache.value fun fusepath v => P fusepath v.val)
    (hclock : cache.ClockReached c.timeout c.now c.fusepath.path)
    (hsearch : ∀ basepath, searchBranch branches c = .ok basepath →
      P c.fusepath.path basepath) {basepath : Path}
    (hb : (openBranch branches cache c).2 = .ok basepath) :
    P c.fusepath.path basepath := by
  unfold openBranch at hb
  cases hcalls : cache.callsFunc c.timeout c.now c.fusepath.path with
  | true =>
      rw [PolicyCache.call_of_callsFunc hcalls] at hb
      exact hsearch basepath hb
  | false =>
      rw [PolicyCache.call_of_not_callsFunc hcalls, Except.ok.injEq] at hb
      rw [← hb]
      exact PolicyCache.Holds.of_not_callsFunc h hcalls hclock

theorem openBranch_eq_error {branches : Branches} {cache : PolicyCache}
    {c : OpenCall} {e : Errno} (h : (openBranch branches cache c).2 = .error e) :
    searchBranch branches c = .error e := by
  unfold openBranch at h
  cases hcalls : cache.callsFunc c.timeout c.now c.fusepath.path with
  | true => rwa [PolicyCache.call_of_callsFunc hcalls] at h
  | false =>
      rw [PolicyCache.call_of_not_callsFunc hcalls] at h
      cases h

/-! ## Changes of the branch list -/

structure OpenPool where
  branches : Branches
  cache : PolicyCache

inductive PoolEvent where
  | open (c : OpenCall)
  /-- `setxattr` of `user.mergerfs.branches` or `user.mergerfs.srcmounts`. -/
  | setxattr (env : PathEnv) (attrval : List Char) (flags : UInt32)

namespace OpenPool

def step (s : OpenPool) : PoolEvent → OpenPool
  | .open c => { s with cache := (openBranch s.branches s.cache c).1 }
  | .setxattr env attrval flags =>
      { s with branches := (setxattrSrcmounts env attrval flags s.branches).2 }

/-- A change of the list keeps the branches the filled entries name, and an open
without a filled entry comes when the clock has reached the timeout. -/
def KeepsCached (s : OpenPool) : PoolEvent → Prop
  | .open c => s.cache.ClockReached c.timeout c.now c.fusepath.path
  | .setxattr env attrval flags =>
      ∀ fusepath v, s.cache fusepath = some v → v ≠ PolicyCache.value →
        v.val ∈ toPaths s.branches →
        v.val ∈ toPaths (setxattrSrcmounts env attrval flags s.branches).2

def Inside (s : OpenPool) : Prop :=
  s.cache.Holds PolicyCache.value fun _ v => v.val ∈ toPaths s.branches

theorem Inside.step {s : OpenPool} (h : s.Inside) {e : PoolEvent}
    (he : s.KeepsCached e) : (s.step e).Inside := by
  cases e with
  | «open» c =>
      refine PolicyCache.Holds.call h ?_
      intro basepath _ hsearch
      exact (searchBranch_eq_ok hsearch).1
  | setxattr env attrval flags =>
      intro fusepath v hv
      rcases h fusepath v hv with hinit | hin
      · exact .inl hinit
      · by_cases hval : v = PolicyCache.value
        · exact .inl hval
        · exact .inr (he fusepath v hv hval hin)

end OpenPool

/-- In a run in which changes of the list keep the branches the cache names, every
open is on a branch of the list of its moment. -/
theorem open_in_pool (branches : Branches) (events : List PoolEvent)
    (hrun : Along.along OpenPool.step OpenPool.KeepsCached
      ⟨branches, Timed.Map.empty⟩ events)
    (done rest : List PoolEvent) (c : OpenCall)
    (heq : events = done ++ .open c :: rest) (path : Path)
    (hpath : openPath (done.foldl OpenPool.step ⟨branches, Timed.Map.empty⟩).branches
      (done.foldl OpenPool.step ⟨branches, Timed.Map.empty⟩).cache c = .ok path) :
    ∃ b ∈ (done.foldl OpenPool.step ⟨branches, Timed.Map.empty⟩).branches,
      path = make b.path c.fusepath.path := by
  obtain ⟨hinside, hclock⟩ := Along.along.inv_split
    (I := fun _ s => s.Inside) (fun _ _ _ hs he => hs.step he)
    Timed.Map.holds_empty hrun heq
  generalize done.foldl OpenPool.step ⟨branches, Timed.Map.empty⟩ = s at *
  unfold openPath at hpath
  cases hb : (openBranch s.branches s.cache c).2 with
  | error e =>
      rw [hb] at hpath
      cases hpath
  | ok basepath =>
      rw [hb] at hpath
      cases hpath
      have hmem : basepath ∈ toPaths s.branches :=
        openBranch_of_holds (P := fun _ basepath => basepath ∈ toPaths s.branches)
          hinside hclock (fun _ h => (searchBranch_eq_ok h).1) hb
      obtain ⟨b, hin, rfl⟩ := List.mem_map.mp hmem
      exact ⟨b, hin, rfl⟩

def abBranches : Branches := [⟨.RW, "/a".toList⟩, ⟨.RW, "/b".toList⟩]

def openingAt (now : UInt64) : OpenCall where
  fusepath := .top ['x']
  policy := .ff
  env := .unshuffled (fun _ => some ⟨0, 1, 0, 5⟩) fun _ => none
  minfreespace := 0
  timeout := 10
  now := now

/-- A branch that is not in use may go. -/
theorem open_in_pool_other :
    ∃ b ∈ ([PoolEvent.open (openingAt 100), .setxattr plainPaths "-/b".toList
        0].foldl OpenPool.step ⟨abBranches, Timed.Map.empty⟩).branches,
      "/a/x".toList = make b.path "/x".toList := by
  refine open_in_pool abBranches
    [.open (openingAt 100), .setxattr plainPaths "-/b".toList 0,
      .open (openingAt 105)] ?_
    [.open (openingAt 100), .setxattr plainPaths "-/b".toList 0] []
    (openingAt 105) rfl "/a/x".toList rfl
  refine ⟨?_, ?_, ?_, trivial⟩
  · intro _ _
    decide
  · intro fusepath v hv hval _
    rcases Timed.Map.eq_of_put hv with ⟨_, rfl⟩ | hv
    · decide
    · rcases Timed.Map.eq_of_put hv with ⟨_, rfl⟩ | hv
      · exact absurd rfl hval
      · cases hv
  · intro _ _
    decide

/-- The first branch has been taken out of the pool and is still used. -/
theorem open_outside_pool :
    let s := [PoolEvent.open (openingAt 100), .setxattr plainPaths "-/a".toList
      0].foldl OpenPool.step ⟨abBranches, Timed.Map.empty⟩
    openPath s.branches s.cache (openingAt 105) = .ok "/a/x".toList ∧
      s.branches = [⟨.RW, "/b".toList⟩] :=
  ⟨rfl, rfl⟩

end Mergerfs
