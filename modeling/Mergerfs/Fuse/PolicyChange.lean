import Mergerfs.Policy.CacheThreads

/-!
# Changing the open policy at runtime

`setxattr` of `user.mergerfs.func.open`, or of `user.mergerfs.category.search`, clears
the cache of the open policy and then replaces the policy. An open is handed the policy
in force when it starts and computes with it, whatever happens meanwhile; what it finds
goes into the cache.

The policies are numbered in the order in which they come into force. A branch carries
the number of the policy that computed it.
-/

namespace Mergerfs

/-- The cache, the number of the policy in force, the policy each open under way was
handed, and the threads inside a `setxattr` that has cleared the cache. -/
structure OpenThreads where
  cache : CacheThreads ℕ
  epoch : ℕ
  handed : ℕ → Option ℕ
  changing : ℕ → Bool

inductive OpenStep where
  /-- `FUSE::open` reads `config.open`. -/
  | start (t : ℕ)
  /-- The first section of `operator()`. -/
  | enter (t : ℕ) (timeout now : UInt64) (fusepath : Path)
  /-- The call of the policy when the timeout is zero. -/
  | direct (t : ℕ) (r : Except Errno Path)
  /-- The call of the policy between the two sections. -/
  | call (t : ℕ) (r : Except Errno Path)
  /-- The second section. -/
  | store (t : ℕ)
  | erase (fusepath : Path)
  | cleanup (timeout now : UInt64)
  /-- The first step of `setxattr`: the cache is cleared. -/
  | clear (t : ℕ)
  /-- The second step: the policy is replaced, and `setxattr` returns `0`. -/
  | assign (t : ℕ)
  /-- Or there is no such policy. -/
  | refuse (t : ℕ)

namespace OpenThreads

def zero : OpenThreads := ⟨CacheThreads.zero, 0, fun _ => none, fun _ => false⟩

def serves (s : OpenThreads) (t : ℕ) (timeout now : UInt64) (fusepath : Path) :
    Bool :=
  timeout != 0 && (s.cache.pending t).isNone &&
    !decide (timeout ≤ (s.cache.find fusepath).entry.age now)

def goOn (s : OpenThreads) (t : ℕ) (cache : CacheThreads ℕ) : OpenThreads :=
  { s with
    cache := cache
    handed :=
      if (s.cache.pending t).isSome && (cache.pending t).isNone then
        Function.update s.handed t none
      else s.handed }

def step (s : OpenThreads) : OpenStep → OpenThreads
  | .start t =>
      if (s.handed t).isSome then s
      else { s with handed := Function.update s.handed t (some s.epoch) }
  | .enter t timeout now fusepath =>
      match s.handed t with
      | none => s
      | some e =>
          { s with
            cache := s.cache.step (.enter t e timeout now fusepath)
            handed :=
              if s.serves t timeout now fusepath then
                Function.update s.handed t none
              else s.handed }
  | .direct t _ =>
      if (s.cache.pending t).isSome then s
      else { s with handed := Function.update s.handed t none }
  | .call t r => s.goOn t (s.cache.step (.call t r))
  | .store t => s.goOn t (s.cache.step (.store t))
  | .erase fusepath => { s with cache := s.cache.step (.erase fusepath) }
  | .cleanup timeout now => { s with cache := s.cache.step (.cleanup timeout now) }
  | .clear t =>
      { s with
        cache := s.cache.step .clear
        changing := Function.update s.changing t true }
  | .assign t =>
      if s.changing t then
        { s with
          epoch := s.epoch + 1
          changing := Function.update s.changing t false }
      else s
  | .refuse t => { s with changing := Function.update s.changing t false }

/-- What an open returns in a step: the policy it was handed, the branch, and the
policy that computed the branch, if any did. -/
def returned (s : OpenThreads) : OpenStep → Option (ℕ × Path × Option ℕ)
  | .enter t timeout now fusepath =>
      if s.serves t timeout now fusepath then
        (s.handed t).map fun e => (e, (s.cache.find fusepath).entry.val,
          (s.cache.find fusepath).origin)
      else none
  | .direct t (.ok branch) =>
      if (s.cache.pending t).isSome then none
      else (s.handed t).map fun e => (e, branch, some e)
  | .store t =>
      (s.handed t).bind fun e => (s.cache.pending t).bind fun q =>
        q.branch.map fun branch => (e, branch, some q.func)
  | _ => none

/-- When the policy is replaced no branch is in the cache and no open is under
way. -/
def Quiet (s : OpenThreads) (x : OpenStep) : Prop :=
  ∀ t, x = .assign t →
    (∀ p c, s.cache.cell p = some c → c.origin = none) ∧ ∀ t, s.handed t = none

structure Current (s : OpenThreads) : Prop where
  origin : ∀ p c e, s.cache.cell p = some c → c.origin = some e → e = s.epoch
  handed : ∀ t e, s.handed t = some e → e = s.epoch
  pending : ∀ t q, s.cache.pending t = some q → s.handed t = some q.func

theorem current_zero : zero.Current := by
  refine ⟨?_, ?_, ?_⟩
  · intro p c e hc
    cases hc
  · intro t e he
    cases he
  · intro t q hq
    cases hq

section Step

variable {s : OpenThreads}

/-- A step of the cache keeps all current if no open is handed another policy and
the calls under way keep theirs. -/
theorem Current.of_cache (h : s.Current) (x : ThreadStep ℕ)
    {handed : ℕ → Option ℕ} (changing : ℕ → Bool)
    (hsub : ∀ t e, handed t = some e → s.handed t = some e)
    (hpending : ∀ t q, (s.cache.step x).pending t = some q →
      handed t = some q.func) :
    Current ⟨s.cache.step x, s.epoch, handed, changing⟩ := by
  refine ⟨?_, fun t e he => h.handed t e (hsub t e he), hpending⟩
  intro p c e hc he
  rcases CacheThreads.origin_step hc he with ⟨c₀, hc₀, he₀⟩ | ⟨t, q, hq, rfl⟩
  · exact h.origin p c₀ e hc₀ he₀
  · exact h.handed t q.func (h.pending t q hq)

theorem Current.pending_step (h : s.Current) {x : ThreadStep ℕ}
    (hx : ∀ t func timeout now fusepath, x ≠ .enter t func timeout now fusepath)
    {t : ℕ} {q : Pending ℕ} (hq : (s.cache.step x).pending t = some q) :
    s.handed t = some q.func := by
  rcases CacheThreads.pending_step hq with ⟨q₀, hq₀, _, _, hfunc⟩ |
    ⟨⟨timeout, now, heq⟩, _⟩
  · rw [hfunc]
    exact h.pending t q₀ hq₀
  · exact absurd heq (hx t q.func timeout now q.fusepath)

theorem eq_of_update_none {handed : ℕ → Option ℕ} {t t' e : ℕ}
    (h : Function.update handed t none t' = some e) : handed t' = some e := by
  rcases Timed.eq_of_update h with ⟨_, hnone⟩ | ⟨_, hold⟩
  · cases hnone
  · exact hold

theorem Current.goOn (h : s.Current) (t : ℕ) {x : ThreadStep ℕ}
    (hx : ∀ t func timeout now fusepath, x ≠ .enter t func timeout now fusepath) :
    (s.goOn t (s.cache.step x)).Current := by
  refine h.of_cache x s.changing ?_ ?_
  · intro t' e he
    split at he
    · exact eq_of_update_none he
    · exact he
  · intro t' q hq
    have hhanded := h.pending_step hx hq
    split
    · rename_i hleft
      have hne : t' ≠ t := by
        rintro rfl
        simp [hq] at hleft
      rw [Function.update_of_ne hne]
      exact hhanded
    · exact hhanded

theorem Current.enter (h : s.Current) {t e : ℕ} (he : s.handed t = some e)
    (timeout now : UInt64) (fusepath : Path) :
    (s.step (.enter t timeout now fusepath)).Current := by
  have hstep : s.step (.enter t timeout now fusepath) =
      ⟨s.cache.step (.enter t e timeout now fusepath), s.epoch,
        if s.serves t timeout now fusepath then Function.update s.handed t none
        else s.handed, s.changing⟩ := by
    simp only [step, he]
  rw [hstep]
  cases hserves : s.serves t timeout now fusepath with
  | true =>
      simp only [serves, Bool.and_eq_true, bne_iff_ne, ne_eq,
        Option.isNone_iff_eq_none, Bool.not_eq_true', decide_eq_false_iff_not]
        at hserves
      obtain ⟨⟨hzero, hidle⟩, hage⟩ := hserves
      refine h.of_cache _ _ (fun _ _ => eq_of_update_none) ?_
      intro t' q hq
      have hq' : s.cache.pending t' = some q := by
        simpa [CacheThreads.step, CacheThreads.enter, hzero, hidle, hage] using hq
      have hne : t' ≠ t := by
        rintro rfl
        rw [hidle] at hq'
        cases hq'
      rw [if_pos rfl, Function.update_of_ne hne]
      exact h.pending t' q hq'
  | false =>
      refine h.of_cache _ _ (fun _ _ => id) ?_
      intro t' q hq
      rcases CacheThreads.pending_step hq with ⟨q₀, hq₀, _, _, hfunc⟩ |
        ⟨⟨_, _, heq⟩, _⟩
      · rw [hfunc]
        exact h.pending t' q₀ hq₀
      · cases heq
        exact he

theorem Current.start (h : s.Current) (t : ℕ) : (s.step (.start t)).Current := by
  simp only [OpenThreads.step]
  split
  · exact h
  · rename_i hfree
    refine ⟨h.origin, ?_, ?_⟩
    · intro t' e he
      rcases Timed.eq_of_update he with ⟨_, hnew⟩ | ⟨_, hold⟩
      · exact (Option.some.inj hnew).symm
      · exact h.handed t' e hold
    · intro t' q hq
      have hhanded := h.pending t' q hq
      have hne : t' ≠ t := by
        rintro rfl
        simp [hhanded] at hfree
      exact (Function.update_of_ne hne ..).trans hhanded

theorem Current.direct (h : s.Current) (t : ℕ) (r : Except Errno Path) :
    (s.step (.direct t r)).Current := by
  simp only [OpenThreads.step]
  split
  · exact h
  · rename_i hidle
    refine ⟨h.origin, fun t' e he => h.handed t' e (eq_of_update_none he), ?_⟩
    intro t' q hq
    have hne : t' ≠ t := by
      rintro rfl
      simp [show s.cache.pending t' = some q from hq] at hidle
    exact (Function.update_of_ne hne ..).trans (h.pending t' q hq)

theorem Current.assign (h : s.Current) {t : ℕ} (hx : s.Quiet (.assign t)) :
    (s.step (.assign t)).Current := by
  obtain ⟨hempty, hidle⟩ := hx t rfl
  simp only [OpenThreads.step]
  split
  · refine ⟨?_, ?_, h.pending⟩
    · intro p c e hc he
      rw [hempty p c hc] at he
      cases he
    · intro t' e he
      cases (hidle t').symm.trans he
  · exact h

theorem Current.step (h : s.Current) {x : OpenStep} (hx : s.Quiet x) :
    (s.step x).Current := by
  cases x with
  | start t => exact h.start t
  | enter t timeout now fusepath =>
      cases he : s.handed t with
      | none => simpa [OpenThreads.step, he] using h
      | some e => exact h.enter he timeout now fusepath
  | direct t r => exact h.direct t r
  | call t r => exact h.goOn t (by simp)
  | store t => exact h.goOn t (by simp)
  | erase fusepath =>
      exact h.of_cache _ _ (fun _ _ => id) fun t q => h.pending_step (by simp)
  | cleanup timeout now =>
      exact h.of_cache _ _ (fun _ _ => id) fun t q => h.pending_step (by simp)
  | clear t =>
      exact h.of_cache _ _ (fun _ _ => id) fun t q => h.pending_step (by simp)
  | assign t => exact h.assign hx
  | refuse t => exact ⟨h.origin, h.handed, h.pending⟩

theorem Current.returned (h : s.Current) {x : OpenStep} {e o : ℕ} {branch : Path}
    (hret : s.returned x = some (e, branch, some o)) : e = o := by
  cases x with
  | enter t timeout now fusepath =>
      simp only [OpenThreads.returned] at hret
      split at hret
      · simp only [Option.map_eq_some_iff, Prod.mk.injEq] at hret
        obtain ⟨e', he, rfl, _, horigin⟩ := hret
        rw [h.handed t e' he]
        unfold CacheThreads.find at horigin
        cases hc : s.cache.cell fusepath with
        | none =>
            rw [hc] at horigin
            cases horigin
        | some c =>
            rw [hc] at horigin
            exact (h.origin fusepath c o hc horigin).symm
      · cases hret
  | direct t r =>
      cases r with
      | error err => cases hret
      | ok b =>
          simp only [OpenThreads.returned] at hret
          split at hret
          · cases hret
          · obtain ⟨e', _, heq⟩ := Option.map_eq_some_iff.mp hret
            cases heq
            rfl
  | store t =>
      simp only [OpenThreads.returned, Option.bind_eq_some_iff,
        Option.map_eq_some_iff] at hret
      obtain ⟨e', he, q, hq, b, _, heq⟩ := hret
      cases heq
      rw [h.pending t q hq] at he
      exact (Option.some.inj he).symm
  | _ => cases hret

end Step

end OpenThreads

/-- In a run in which the policy is only replaced while the cache holds no branch and
no open is under way, an open never returns a branch of a policy that was replaced
before it started. -/
theorem open_not_stale (steps : List OpenStep)
    (hrun : Along.along OpenThreads.step OpenThreads.Quiet OpenThreads.zero steps)
    (done rest : List OpenStep) (x : OpenStep) (heq : steps = done ++ x :: rest)
    (e o : ℕ) (branch : Path)
    (hret : (done.foldl OpenThreads.step OpenThreads.zero).returned x =
      some (e, branch, some o)) : e ≤ o := by
  obtain ⟨hcurrent, _⟩ := Along.along.inv_split
    (I := fun _ s => OpenThreads.Current s) (fun _ _ _ hs hx => hs.step hx)
    OpenThreads.current_zero hrun heq
  exact Nat.le_of_eq (hcurrent.returned hret)

def opens (t : ℕ) (now : UInt64) (branch : Path) : List OpenStep :=
  [.start t, .enter t 10 now "/x".toList, .call t (.ok branch), .store t]

def replacing : List OpenStep :=
  [.clear 9, .assign 9] ++ opens 0 100 "/b".toList ++ [.start 1]

/-- The second open gets what the first one found with the new policy. -/
theorem open_not_stale_after :
    (replacing.foldl OpenThreads.step OpenThreads.zero).returned
        (.enter 1 10 105 "/x".toList) = some (1, "/b".toList, some 1) ∧
      ∀ e o branch, (replacing.foldl OpenThreads.step OpenThreads.zero).returned
        (.enter 1 10 105 "/x".toList) = some (e, branch, some o) → e ≤ o := by
  refine ⟨rfl, open_not_stale (replacing ++ [.enter 1 10 105 "/x".toList]) ?_
    replacing [] (.enter 1 10 105 "/x".toList) rfl⟩
  have hquiet : ∀ (s : OpenThreads) (x : OpenStep), (∀ t, x ≠ .assign t) →
      s.Quiet x := fun s x hx t heq => absurd heq (hx t)
  refine ⟨hquiet _ _ (by simp), ?_, hquiet _ _ (by simp), hquiet _ _ (by simp),
    hquiet _ _ (by simp), hquiet _ _ (by simp), hquiet _ _ (by simp),
    hquiet _ _ (by simp), trivial⟩
  intro _ _
  refine ⟨?_, fun _ => rfl⟩
  intro p c hc
  cases hc

/-- An open between the two steps of `setxattr` fills the cache with the choice of the
old policy. -/
theorem open_stale :
    let steps := [OpenStep.clear 9] ++ opens 0 100 "/a".toList ++
      [.assign 9, .start 1]
    (steps.foldl OpenThreads.step OpenThreads.zero).returned
        (.enter 1 10 105 "/x".toList) = some (1, "/a".toList, some 0) :=
  rfl

end Mergerfs
