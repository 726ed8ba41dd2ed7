import Mergerfs.Policy.Cache

/-!
# The cache of the open policy under several threads

`operator()` takes its lock twice: it looks the entry up, lets go of the lock for the
call of the policy, and then stores through the pointer it got from the map. Every
section between taking and releasing the lock is one step here, as is the call of the
policy, and the steps of the threads interleave at will.

An entry is a node with an address of its own; an entry that is erased and made again
has another one. The branch of an entry carries along which function computed it,
which no step looks at.
-/

namespace Mergerfs

open PolicyCache (value)

structure Cell (φ : Type*) where
  node : ℕ
  entry : Timed.Entry Path
  origin : Option φ

/-- An `operator()` between its two sections: what it was called with, the pointer it
holds, and the branch once the policy has returned. -/
structure Pending (φ : Type*) where
  fusepath : Path
  node : ℕ
  now : UInt64
  func : φ
  branch : Option Path

/-- The map, the calls that are under way by thread, and the next free address. -/
structure CacheThreads (φ : Type*) where
  cell : Path → Option (Cell φ)
  pending : ℕ → Option (Pending φ)
  next : ℕ

inductive ThreadStep (φ : Type*) where
  /-- The first section of `operator()` in the thread `t`. -/
  | enter (t : ℕ) (func : φ) (timeout now : UInt64) (fusepath : Path)
  /-- The call of the policy. -/
  | call (t : ℕ) (r : Except Errno Path)
  /-- The second section. -/
  | store (t : ℕ)
  | erase (fusepath : Path)
  | clear
  /-- `cleanup`, when its `rand()` lets it through. -/
  | cleanup (timeout now : UInt64)

def ThreadStep.gone {φ : Type*} : ThreadStep φ → Path → Timed.Entry Path → Bool
  | .erase fusepath, p, _ => p == fusepath
  | .clear, _, _ => true
  | .cleanup timeout now, _, v => timeout ≤ v.age now
  | _, _, _ => false

namespace CacheThreads

variable {φ : Type*}

def zero : CacheThreads φ := ⟨fun _ => none, fun _ => none, 0⟩

def find (s : CacheThreads φ) (fusepath : Path) : Cell φ :=
  (s.cell fusepath).getD ⟨s.next, value, none⟩

def enter (s : CacheThreads φ) (t : ℕ) (func : φ) (timeout now : UInt64)
    (fusepath : Path) : CacheThreads φ :=
  if timeout = 0 ∨ (s.pending t).isSome then s
  else
    { cell := Function.update s.cell fusepath (some (s.find fusepath))
      pending :=
        if timeout ≤ (s.find fusepath).entry.age now then
          Function.update s.pending t
            (some ⟨fusepath, (s.find fusepath).node, now, func, none⟩)
        else s.pending
      next := s.next + 1 }

def call (s : CacheThreads φ) (t : ℕ) (r : Except Errno Path) : CacheThreads φ :=
  match s.pending t with
  | some ⟨fusepath, node, now, func, none⟩ =>
      { s with pending := Function.update s.pending t (match r with
        | .ok branch => some ⟨fusepath, node, now, func, some branch⟩
        | .error _ => none) }
  | _ => s

def Live (s : CacheThreads φ) (q : Pending φ) : Prop :=
  ∃ c, s.cell q.fusepath = some c ∧ c.node = q.node

/-- The write through the pointer, which reaches the map only if the entry is still
there. -/
def write (s : CacheThreads φ) (q : Pending φ) (branch : Path) :
    Path → Option (Cell φ) :=
  match s.cell q.fusepath with
  | none => s.cell
  | some c =>
      if c.node = q.node then
        Function.update s.cell q.fusepath
          (some ⟨c.node, ⟨q.now, branch⟩, some q.func⟩)
      else s.cell

def store (s : CacheThreads φ) (t : ℕ) : CacheThreads φ :=
  match s.pending t with
  | none => s
  | some q =>
      match q.branch with
      | none => s
      | some branch =>
          { s with
            cell := s.write q branch
            pending := Function.update s.pending t none }

def remove (s : CacheThreads φ) (gone : Path → Timed.Entry Path → Bool) :
    CacheThreads φ :=
  { s with cell := fun p => (s.cell p).filter fun c => !gone p c.entry }

def step (s : CacheThreads φ) (x : ThreadStep φ) : CacheThreads φ :=
  match x with
  | .enter t func timeout now fusepath => s.enter t func timeout now fusepath
  | .call t r => s.call t r
  | .store t => s.store t
  | x => s.remove x.gone

/-- No step takes out an entry that a call under way points to. -/
def Spares (s : CacheThreads φ) (x : ThreadStep φ) : Prop :=
  ∀ t q c, s.pending t = some q → s.cell q.fusepath = some c →
    x.gone q.fusepath c.entry = false

def AllLive (s : CacheThreads φ) : Prop :=
  ∀ t q, s.pending t = some q → s.Live q

/-! ## What a step does -/

section Step

variable {s : CacheThreads φ} {x : ThreadStep φ}

theorem write_cases (s : CacheThreads φ) (q : Pending φ) (branch p : Path) :
    s.write q branch p = s.cell p ∨
      ∃ c, q.fusepath = p ∧ s.cell p = some c ∧ c.node = q.node ∧
        s.write q branch p = some ⟨c.node, ⟨q.now, branch⟩, some q.func⟩ := by
  unfold write
  cases hc : s.cell q.fusepath with
  | none => exact .inl rfl
  | some c =>
      dsimp only
      by_cases hnode : c.node = q.node
      · rw [if_pos hnode]
        by_cases hp : p = q.fusepath
        · subst hp
          exact .inr ⟨c, rfl, hc, hnode, Function.update_self ..⟩
        · exact .inl (Function.update_of_ne hp ..)
      · rw [if_neg hnode]
        exact .inl rfl

theorem remove_cases (s : CacheThreads φ)
    (gone : Path → Timed.Entry Path → Bool) (p : Path) :
    (s.remove gone).cell p = s.cell p ∨
      ∃ c, s.cell p = some c ∧ gone p c.entry = true ∧
        (s.remove gone).cell p = none := by
  cases hc : s.cell p with
  | none => exact .inl (by simp [remove, hc])
  | some c =>
      cases hgone : gone p c.entry with
      | false => exact .inl (by simp [remove, hc, hgone])
      | true => exact .inr ⟨c, rfl, hgone, by simp [remove, hc, hgone]⟩

/-- What a step can do to an entry: nothing, make it, store into it through the
pointer of a thread, or take it out. -/
theorem cell_step (s : CacheThreads φ) (x : ThreadStep φ) (p : Path) :
    (s.step x).cell p = s.cell p ∨
    (s.step x).cell p = some ⟨s.next, value, none⟩ ∧ s.cell p = none ∨
    (∃ t q branch c, x = .store t ∧ s.pending t = some q ∧
      q.branch = some branch ∧ s.cell p = some c ∧
      (s.step x).cell p = some ⟨c.node, ⟨q.now, branch⟩, some q.func⟩) ∨
    ∃ c, s.cell p = some c ∧ x.gone p c.entry = true ∧
      (s.step x).cell p = none := by
  have hremove : ∀ gone, (s.remove gone).cell p = s.cell p ∨
      (s.remove gone).cell p = some ⟨s.next, value, none⟩ ∧ s.cell p = none ∨
      (∃ t q branch c, x = .store t ∧ s.pending t = some q ∧
        q.branch = some branch ∧ s.cell p = some c ∧
        (s.remove gone).cell p = some ⟨c.node, ⟨q.now, branch⟩, some q.func⟩) ∨
      ∃ c, s.cell p = some c ∧ gone p c.entry = true ∧
        (s.remove gone).cell p = none := fun gone =>
    (s.remove_cases gone p).imp_right fun h => .inr (.inr h)
  cases x with
  | enter t func timeout now fusepath =>
      by_cases hin : timeout = 0 ∨ (s.pending t).isSome
      · exact .inl (by simp [step, enter, hin])
      · by_cases hp : p = fusepath
        · subst hp
          cases hc : s.cell p with
          | none => exact .inr (.inl ⟨by simp [step, enter, hin, find, hc], rfl⟩)
          | some c => exact .inl (by simp [step, enter, hin, find, hc])
        · exact .inl (by simp [step, enter, hin, hp])
  | call t r =>
      left
      unfold step call
      dsimp only
      split <;> rfl
  | store t =>
      cases hq : s.pending t with
      | none => exact .inl (by simp [step, store, hq])
      | some q =>
          cases hb : q.branch with
          | none => exact .inl (by simp [step, store, hq, hb])
          | some branch =>
              have hcell : (s.step (.store t)).cell = s.write q branch := by
                simp [step, store, hq, hb]
              rw [hcell]
              rcases s.write_cases q branch p with heq | ⟨c, _, hc, _, heq⟩
              · exact .inl heq
              · exact .inr (.inr (.inl ⟨t, q, branch, c, rfl, hq, hb, hc, heq⟩))
  | erase fusepath => exact hremove _
  | clear => exact hremove _
  | cleanup timeout now => exact hremove _

theorem node_step {p : Path} {c : Cell φ} (hc : s.cell p = some c)
    (hgone : x.gone p c.entry = false) :
    ∃ c', (s.step x).cell p = some c' ∧ c'.node = c.node := by
  rcases s.cell_step x p with heq | ⟨_, hnone⟩ | ⟨t, q, branch, c₀, _, _, _, hc₀, heq⟩ |
    ⟨c₀, hc₀, hgone₀, _⟩
  · exact ⟨c, heq.trans hc, rfl⟩
  · rw [hc] at hnone
    cases hnone
  · cases hc.symm.trans hc₀
    exact ⟨_, heq, rfl⟩
  · cases hc.symm.trans hc₀
    rw [hgone] at hgone₀
    cases hgone₀

theorem pending_step {t : ℕ} {q : Pending φ}
    (hq : (s.step x).pending t = some q) :
    (∃ q₀, s.pending t = some q₀ ∧ q.fusepath = q₀.fusepath ∧
        q.node = q₀.node ∧ q.func = q₀.func) ∨
      (∃ timeout now, x = .enter t q.func timeout now q.fusepath) ∧
        (s.step x).Live q := by
  have hold : s.pending t = some q → ∃ q₀, s.pending t = some q₀ ∧
      q.fusepath = q₀.fusepath ∧ q.node = q₀.node ∧ q.func = q₀.func :=
    fun h => ⟨q, h, rfl, rfl, rfl⟩
  cases x with
  | enter t' func timeout now fusepath =>
      by_cases hin : timeout = 0 ∨ (s.pending t').isSome
      · rw [step, enter, if_pos hin] at hq
        exact .inl (hold hq)
      · simp only [step, enter, if_neg hin] at hq
        split at hq
        · rcases Timed.eq_of_update hq with ⟨rfl, hnew⟩ | ⟨_, hother⟩
          · cases hnew
            refine .inr ⟨⟨timeout, now, rfl⟩, s.find fusepath, ?_, rfl⟩
            simp [step, enter, hin]
          · exact .inl (hold hother)
        · exact .inl (hold hq)
  | call t' r =>
      left
      simp only [step, call] at hq
      split at hq
      · rename_i hq'
        rcases Timed.eq_of_update hq with ⟨rfl, hnew⟩ | ⟨_, hother⟩
        · cases r with
          | error e => cases hnew
          | ok branch =>
              cases hnew
              exact ⟨_, hq', rfl, rfl, rfl⟩
        · exact hold hother
      · exact hold hq
  | store t' =>
      left
      simp only [step, store] at hq
      split at hq
      · exact hold hq
      · split at hq
        · exact hold hq
        · rcases Timed.eq_of_update hq with ⟨_, hnew⟩ | ⟨_, hother⟩
          · cases hnew
          · exact hold hother
  | erase fusepath => exact .inl (hold hq)
  | clear => exact .inl (hold hq)
  | cleanup timeout now => exact .inl (hold hq)

theorem origin_step {p : Path} {c : Cell φ} (hc : (s.step x).cell p = some c)
    {f : φ} (hf : c.origin = some f) :
    (∃ c₀, s.cell p = some c₀ ∧ c₀.origin = some f) ∨
      ∃ t q, s.pending t = some q ∧ q.func = f := by
  rcases s.cell_step x p with heq | ⟨heq, _⟩ | ⟨t, q, _, _, _, hq, _, _, heq⟩ |
    ⟨_, _, _, heq⟩
  · exact .inl ⟨c, heq ▸ hc, hf⟩
  · cases heq.symm.trans hc
    cases hf
  · cases heq.symm.trans hc
    exact .inr ⟨t, q, hq, Option.some.inj hf⟩
  · cases heq.symm.trans hc

theorem AllLive.step (h : s.AllLive) (hx : s.Spares x) : (s.step x).AllLive := by
  intro t q hq
  rcases pending_step hq with ⟨q₀, hq₀, hpath, hnode, _⟩ | ⟨_, hlive⟩
  · obtain ⟨c, hc, hcnode⟩ := h t q₀ hq₀
    obtain ⟨c', hc', hnode'⟩ := node_step hc (hx t q₀ c hq₀ hc)
    exact ⟨c', by rw [hpath, hc'], by rw [hnode', hcnode, hnode]⟩
  · exact hlive

theorem cell_store_of_live {t : ℕ} {q : Pending φ} (hq : s.pending t = some q)
    {branch : Path} (hb : q.branch = some branch) (hlive : s.Live q) :
    (s.step (.store t)).cell q.fusepath =
      some ⟨q.node, ⟨q.now, branch⟩, some q.func⟩ := by
  obtain ⟨c, hc, hnode⟩ := hlive
  simp [step, store, hq, hb, write, hc, hnode]

end Step

/-! ## One thread alone -/

def toCache (s : CacheThreads φ) : PolicyCache := fun p => (s.cell p).map Cell.entry

theorem get_toCache (s : CacheThreads φ) (p : Path) :
    s.toCache.get value p = (s.find p).entry := by
  unfold Timed.Map.get toCache find
  cases s.cell p <;> rfl

theorem toCache_update (s : CacheThreads φ) (p : Path) (c : Cell φ)
    (pending : ℕ → Option (Pending φ)) (next : ℕ) :
    toCache ⟨Function.update s.cell p (some c), pending, next⟩ =
      s.toCache.put p c.entry := by
  funext p'
  unfold toCache Timed.Map.put
  by_cases hp : p' = p
  · subst hp
    simp
  · simp [hp]

theorem call_of_idle {s : CacheThreads φ} {t : ℕ} (h : s.pending t = none)
    (r : Except Errno Path) : s.call t r = s := by
  simp [call, h]

theorem store_of_idle {s : CacheThreads φ} {t : ℕ} (h : s.pending t = none) :
    s.store t = s := by
  simp [store, h]

/-- The sections of `operator()` in a row, with nothing in between, are the call of
the cache. -/
theorem toCache_call (s : CacheThreads φ) {t : ℕ} (hidle : s.pending t = none)
    (func : φ) {timeout : UInt64} (htimeout : timeout ≠ 0) (now : UInt64)
    (p : Path) (r : Except Errno Path) :
    (((s.enter t func timeout now p).call t r).store t).toCache =
      (s.toCache.call timeout now p r).1 := by
  have hin : ¬ (timeout = 0 ∨ (s.pending t).isSome) := by
    simp [htimeout, hidle]
  have henter : (s.enter t func timeout now p).toCache = s.toCache.enter p := by
    rw [PolicyCache.enter, get_toCache]
    simp only [enter, if_neg hin]
    exact s.toCache_update ..
  by_cases hexp : timeout ≤ (s.find p).entry.age now
  · have hexp' : s.toCache.expired timeout now p = true := by
      simpa [PolicyCache.expired, get_toCache] using hexp
    simp only [PolicyCache.call, if_neg htimeout, if_pos hexp', ← henter]
    cases r with
    | error e =>
        rw [store_of_idle (by simp [enter, call, hin, hexp])]
        simp only [enter, call, if_neg hin, if_pos hexp, Function.update_self]
        rfl
    | ok branch =>
        have hcell : (((s.enter t func timeout now p).call t (.ok branch)).store
            t).cell = Function.update (s.enter t func timeout now p).cell p
              (some ⟨(s.find p).node, ⟨now, branch⟩, some func⟩) := by
          simp [enter, call, store, hin, hexp, write]
        unfold toCache at *
        rw [hcell]
        exact (s.enter t func timeout now p).toCache_update p _
          (fun _ => none) 0
  · have hexp' : s.toCache.expired timeout now p = false := by
      simpa [PolicyCache.expired, get_toCache] using hexp
    have hidle' : (s.enter t func timeout now p).pending t = none := by
      rw [enter, if_neg hin]
      simp only [if_neg hexp, hidle]
    rw [call_of_idle hidle', store_of_idle hidle']
    simp only [PolicyCache.call, if_neg htimeout, hexp', Bool.false_eq_true,
      if_false, henter]

theorem toCache_remove (s : CacheThreads φ)
    (gone : Path → Timed.Entry Path → Bool) (p : Path) :
    (s.remove gone).toCache p = (s.toCache p).filter fun v => !gone p v := by
  cases hc : s.cell p with
  | none => simp [toCache, remove, hc]
  | some c =>
      cases hgone : gone p c.entry <;>
        simp [toCache, remove, hc, Option.filter, hgone]

theorem toCache_step (s : CacheThreads φ) :
    (∀ fusepath, (s.step (.erase fusepath)).toCache =
        Timed.Map.erase s.toCache fusepath) ∧
      (s.step .clear).toCache = s.toCache.clear ∧
      ∀ timeout now prob rand, rand % prob = 0 →
        (s.step (.cleanup timeout now)).toCache =
          s.toCache.cleanup timeout now prob rand := by
  refine ⟨?_, ?_, ?_⟩
  · intro fusepath
    funext p
    refine (s.toCache_remove _ p).trans ?_
    by_cases hp : p = fusepath
    · subst hp
      cases s.toCache p <;> simp [Timed.Map.erase, ThreadStep.gone, Option.filter]
    · cases hv : s.toCache p <;>
        simp [Timed.Map.erase, ThreadStep.gone, Option.filter, hp, hv]
  · funext p
    refine (s.toCache_remove _ p).trans ?_
    cases s.toCache p <;> rfl
  · intro timeout now prob rand hrand
    funext p
    unfold PolicyCache.cleanup
    rw [if_neg (by simpa using hrand)]
    exact s.toCache_remove _ p

end CacheThreads

/-- In a run in which no entry is taken out while a call under way points to it, the
second section of `operator()` writes to an entry of the map. -/
theorem store_live {φ : Type} (steps : List (ThreadStep φ))
    (hrun : Along.along CacheThreads.step CacheThreads.Spares CacheThreads.zero
      steps)
    (done rest : List (ThreadStep φ)) (t : ℕ)
    (heq : steps = done ++ .store t :: rest) (q : Pending φ)
    (hq : (done.foldl CacheThreads.step CacheThreads.zero).pending t = some q)
    (branch : Path) (hb : q.branch = some branch) :
    (done.foldl CacheThreads.step CacheThreads.zero).Live q ∧
      ((done ++ [ThreadStep.store t]).foldl CacheThreads.step CacheThreads.zero).cell
        q.fusepath = some ⟨q.node, ⟨q.now, branch⟩, some q.func⟩ := by
  obtain ⟨hlive, _⟩ := Along.along.inv_split
    (I := fun _ (s : CacheThreads φ) => s.AllLive) (fun _ _ _ hs hx => hs.step hx)
    (by
      intro t q hq
      cases hq) hrun heq
  refine ⟨hlive t q hq, ?_⟩
  rw [List.foldl_append]
  exact CacheThreads.cell_store_of_live hq hb (hlive t q hq)

def looking (t : ℕ) : List (ThreadStep Unit) :=
  [.enter t () 10 100 "/x".toList, .call t (.ok "/a".toList)]

/-- Another path is erased in between. -/
theorem store_live_other :
    ((looking 0 ++ [ThreadStep.erase "/y".toList, .store 0]).foldl
      CacheThreads.step CacheThreads.zero).cell "/x".toList =
        some ⟨0, ⟨100, "/a".toList⟩, some ()⟩ := by
  refine (store_live (looking 0 ++ [.erase "/y".toList, .store 0]) ?_
    (looking 0 ++ [.erase "/y".toList]) [] 0 rfl
    ⟨"/x".toList, 0, 100, (), some "/a".toList⟩ rfl "/a".toList rfl).2
  refine ⟨fun _ _ _ _ _ => rfl, fun _ _ _ _ _ => rfl, ?_,
    fun _ _ _ _ _ => rfl, trivial⟩
  intro t q c hq _
  rcases Timed.eq_of_update hq with ⟨_, hnew⟩ | ⟨ht, hold⟩
  · cases hnew
    rfl
  · rcases Timed.eq_of_update hold with ⟨rfl, _⟩ | ⟨_, hnone⟩
    · exact absurd rfl ht
    · cases hnone

/-- A run after which the pointer of the thread `0` is to no entry of the map. -/
def Dangles (steps : List (ThreadStep Unit)) : Prop :=
  ∃ q, (steps.foldl CacheThreads.step CacheThreads.zero).pending 0 = some q ∧
    q.branch = some "/a".toList ∧
    ¬ (steps.foldl CacheThreads.step CacheThreads.zero).Live q

/-- The path is erased in between, the entry that was just made is cleaned up for
its time, or another thread makes the entry again. -/
theorem store_dangling :
    Dangles (looking 0 ++ [.erase "/x".toList]) ∧
      Dangles (looking 0 ++ [.cleanup 10 100]) ∧
      Dangles (looking 0 ++ [.clear] ++ looking 1) := by
  refine ⟨⟨_, rfl, rfl, ?_⟩, ⟨_, rfl, rfl, ?_⟩, ⟨_, rfl, rfl, ?_⟩⟩
  all_goals
    rintro ⟨c, hc, hnode⟩
    cases hc
  cases hnode

end Mergerfs
