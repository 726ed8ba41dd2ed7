import Mathlib.Data.List.Induction

/-!
# Scans of a list with rejections

Three loops over a list `xs`, each of which tests an element by a function into
`Except ε α`: an `Except.error` rejects the element and is merged into a running
error, an `Except.ok` accepts it. `collect` keeps every accepted element,
`first` stops at the first one, and `best` keeps a running optimum of the keys
the test returns. In `best` the key is known before the last tests are made, so
an element may be passed over without being tested to the end.

The running error of the three loops is the same fold `reject` of the rejections
as long as nothing is accepted, which is what makes their failures comparable.
-/

namespace Scan

/-- The running error after the rejections of `xs`, in order. -/
def reject {ε α β : Type*} (merge : ε → ε → ε) (test : β → Except ε α)
    (e : ε) (xs : List β) : ε :=
  xs.foldl (fun e x => match test x with
    | .error e' => merge e e'
    | .ok _ => e) e

theorem reject_cons_error {ε α β : Type*} {merge : ε → ε → ε}
    {test : β → Except ε α} {e e' : ε} {x : β} {xs : List β}
    (h : test x = .error e') :
    reject merge test e (x :: xs) = reject merge test (merge e e') xs := by
  simp [reject, h]

theorem reject_cons_ok {ε α β : Type*} {merge : ε → ε → ε}
    {test : β → Except ε α} {e : ε} {a : α} {x : β} {xs : List β}
    (h : test x = .ok a) :
    reject merge test e (x :: xs) = reject merge test e xs := by
  simp [reject, h]

/-- The running error is the fold of the rejections alone; `rej` names them. -/
theorem reject_eq_foldl {ε α β : Type*} (merge : ε → ε → ε)
    {test : β → Except ε α} {rej : β → Option ε}
    (hrej : ∀ x e, test x = .error e ↔ rej x = some e) (e : ε) (xs : List β) :
    reject merge test e xs = (xs.filterMap rej).foldl merge e := by
  induction xs generalizing e with
  | nil => rfl
  | cons x xs ih =>
      cases h : test x with
      | error e' =>
          rw [reject_cons_error h, ih, List.filterMap_cons_some ((hrej x e').mp h),
            List.foldl_cons]
      | ok a =>
          have hnone : rej x = none := by
            cases hr : rej x with
            | none => rfl
            | some e' => simp [(hrej x e').mpr hr] at h
          rw [reject_cons_ok h, ih, List.filterMap_cons_none hnone]

/-! ## Keeping every accepted element -/

def collect {ε α β : Type*} (merge : ε → ε → ε) (test : β → Except ε α) :
    ε × List β → List β → ε × List β
  | s, [] => s
  | s, x :: xs => match test x with
    | .error e => collect merge test (merge s.1 e, s.2) xs
    | .ok _ => collect merge test (s.1, s.2 ++ [x]) xs

theorem collect_snd {ε α β : Type*} (merge : ε → ε → ε)
    (test : β → Except ε α) (s : ε × List β) (xs : List β) :
    (collect merge test s xs).2 =
      s.2 ++ xs.filter fun x => (test x).isOk := by
  induction xs generalizing s with
  | nil => simp [collect]
  | cons x xs ih =>
      cases h : test x with
      | error e => simp [collect, h, ih, Except.isOk, Except.toBool]
      | ok a => simp [collect, h, ih, Except.isOk, Except.toBool]

theorem collect_fst {ε α β : Type*} (merge : ε → ε → ε)
    (test : β → Except ε α) (s : ε × List β) (xs : List β) :
    (collect merge test s xs).1 = reject merge test s.1 xs := by
  induction xs generalizing s with
  | nil => rfl
  | cons x xs ih =>
      cases h : test x with
      | error e => simp [collect, reject, h, ih]
      | ok a => simp [collect, reject, h, ih]

/-! ## Stopping at the first accepted element -/

def first {ε α β : Type*} (merge : ε → ε → ε) (test : β → Except ε α) :
    ε → List β → Except ε β
  | e, [] => .error e
  | e, x :: xs => match test x with
    | .error e' => first merge test (merge e e') xs
    | .ok _ => .ok x

/-- Stopping at the first accepted element finds the head of what keeping every
accepted element would have kept. -/
theorem first_eq_head? {ε α β : Type*} (merge : ε → ε → ε)
    (test : β → Except ε α) (e : ε) (xs : List β) :
    first merge test e xs =
      match (xs.filter fun x => (test x).isOk).head? with
      | some x => .ok x
      | none => .error (reject merge test e xs) := by
  induction xs generalizing e with
  | nil => rfl
  | cons x xs ih =>
      cases h : test x with
      | error e' =>
          simp [first, h, ih, reject_cons_error h, Except.isOk, Except.toBool]
      | ok a => simp [first, h, Except.isOk, Except.toBool]

theorem findSome?_of_first {ε α β γ : Type*} {merge : ε → ε → ε}
    {test : β → Except ε α} {f : β → Option γ}
    (hf : ∀ x, (test x).isOk = (f x).isSome) {e : ε} {xs : List β} {x : β}
    (h : first merge test e xs = .ok x) :
    xs.findSome? f = f x ∧ (f x).isSome := by
  induction xs generalizing e with
  | nil => cases h
  | cons y ys ih =>
      have hy := hf y
      cases htest : test y with
      | error e' =>
          simp only [first, htest] at h
          have hnone : f y = none := by
            simpa [htest, Except.isOk, Except.toBool] using hy
          rw [List.findSome?_cons, hnone]
          exact ih h
      | ok a =>
          simp only [first, htest] at h
          cases h
          have hsome : (f x).isSome := by
            simpa [htest, Except.isOk, Except.toBool] using hy.symm
          obtain ⟨z, hz⟩ := Option.isSome_iff_exists.mp hsome
          exact ⟨by rw [List.findSome?_cons, hz], hsome⟩

/-! ## Keeping a running optimum -/

/-- A rule for passing over keys. `atLeast k k'` says that `k` is as good as
`k'`, and `skip k best` is the test by which a loop with running optimum `best`
passes over the key `k`: it may skip only what the optimum dominates, and what
it does not skip dominates the optimum. -/
structure Ranking (κ : Type*) where
  atLeast : κ → κ → Prop
  skip : κ → κ → Bool
  refl : ∀ k, atLeast k k
  trans : ∀ {a b c}, atLeast a b → atLeast b c → atLeast a c
  of_skip : ∀ {k best}, skip k best = true → atLeast best k
  of_keep : ∀ {k best}, skip k best = false → atLeast k best

/-- The state of `best`: the running error, the running optimum and the element
it was read from. -/
structure State (ε κ β : Type*) where
  error : ε
  best : κ
  chosen : Option β

variable {ε κ β : Type*}

def candidate (pre : β → Except ε κ) (post : β → Except ε Unit) (x : β) :
    Except ε κ :=
  match pre x with
  | .error e => .error e
  | .ok k => match post x with
    | .error e => .error e
    | .ok _ => .ok k

def bestStep (merge : ε → ε → ε) (r : Ranking κ) (pre : β → Except ε κ)
    (post : β → Except ε Unit) (s : State ε κ β) (x : β) : State ε κ β :=
  match pre x with
  | .error e => { s with error := merge s.error e }
  | .ok k =>
      if r.skip k s.best then s
      else match post x with
        | .error e => { s with error := merge s.error e }
        | .ok _ => { s with best := k, chosen := some x }

def best (merge : ε → ε → ε) (r : Ranking κ) (pre : β → Except ε κ)
    (post : β → Except ε Unit) (s : State ε κ β) (xs : List β) :
    State ε κ β :=
  xs.foldl (bestStep merge r pre post) s

@[simp] theorem best_nil (merge : ε → ε → ε) (r : Ranking κ)
    (pre : β → Except ε κ) (post : β → Except ε Unit) (s : State ε κ β) :
    best merge r pre post s [] = s := rfl

theorem best_cons (merge : ε → ε → ε) (r : Ranking κ)
    (pre : β → Except ε κ) (post : β → Except ε Unit) (s : State ε κ β)
    (x : β) (xs : List β) :
    best merge r pre post s (x :: xs) =
      best merge r pre post (bestStep merge r pre post s x) xs := rfl

/-- What one round can do to the state: it merges the rejection of `x`, or it
passes `x` over, or it takes `x` with its key. -/
theorem bestStep_cases (merge : ε → ε → ε) (r : Ranking κ)
    (pre : β → Except ε κ) (post : β → Except ε Unit) (s : State ε κ β)
    (x : β) :
    (∃ e, candidate pre post x = .error e ∧
      bestStep merge r pre post s x = { s with error := merge s.error e }) ∨
    (∃ k, pre x = .ok k ∧ r.skip k s.best = true ∧
      bestStep merge r pre post s x = s) ∨
    (∃ k, candidate pre post x = .ok k ∧ r.skip k s.best = false ∧
      bestStep merge r pre post s x =
        { s with best := k, chosen := some x }) := by
  cases hpre : pre x with
  | error e => exact .inl ⟨e, by simp [candidate, hpre], by simp [bestStep, hpre]⟩
  | ok k =>
      cases hskip : r.skip k s.best with
      | true =>
          exact .inr (.inl ⟨k, rfl, hskip, by simp [bestStep, hpre, hskip]⟩)
      | false =>
          cases hpost : post x with
          | error e =>
              exact .inl ⟨e, by simp [candidate, hpre, hpost],
                by simp [bestStep, hpre, hpost, hskip]⟩
          | ok u =>
              exact .inr (.inr ⟨k, by simp [candidate, hpre, hpost], hskip,
                by simp [bestStep, hpre, hpost, hskip]⟩)

theorem pre_of_candidate {pre : β → Except ε κ} {post : β → Except ε Unit}
    {x : β} {k : κ} (h : candidate pre post x = .ok k) : pre x = .ok k := by
  cases hpre : pre x with
  | error e => simp [candidate, hpre] at h
  | ok k' =>
      cases hpost : post x with
      | error e => simp [candidate, hpre, hpost] at h
      | ok u => simpa [candidate, hpre, hpost] using h

theorem best_atLeast (merge : ε → ε → ε) (r : Ranking κ)
    (pre : β → Except ε κ) (post : β → Except ε Unit) (s : State ε κ β)
    (xs : List β) :
    r.atLeast (best merge r pre post s xs).best s.best := by
  induction xs generalizing s with
  | nil => exact r.refl _
  | cons x xs ih =>
      rw [best_cons]
      refine r.trans (ih _) ?_
      rcases bestStep_cases merge r pre post s x with
        ⟨e, _, hs⟩ | ⟨k, _, _, hs⟩ | ⟨k, _, hk, hs⟩
      · rw [hs]
        exact r.refl _
      · rw [hs]
        exact r.refl _
      · rw [hs]
        exact r.of_keep hk

theorem best_atLeast_candidate (merge : ε → ε → ε) (r : Ranking κ)
    (pre : β → Except ε κ) (post : β → Except ε Unit) (s : State ε κ β)
    {xs : List β} {x : β} (hx : x ∈ xs) {k : κ}
    (hk : candidate pre post x = .ok k) :
    r.atLeast (best merge r pre post s xs).best k := by
  induction xs generalizing s with
  | nil => simp at hx
  | cons y ys ih =>
      rw [best_cons]
      rcases List.mem_cons.mp hx with rfl | hx
      · refine r.trans (best_atLeast merge r pre post _ ys) ?_
        rcases bestStep_cases merge r pre post s x with
          ⟨e, he, _⟩ | ⟨k', hpre, hskip, hs⟩ | ⟨k', hk', _, hs⟩
        · simp [hk] at he
        · have hkk : k' = k := by
            simpa [hpre] using pre_of_candidate hk
          rw [hs, ← hkk]
          exact r.of_skip hskip
        · have hkk : k' = k := by simpa [hk'] using hk
          rw [hs, hkk]
          exact r.refl _
      · exact ih _ hx

/-- The chosen element is a candidate of the list whose key is the final
optimum, unless the scan started with it. -/
theorem best_chosen (merge : ε → ε → ε) (r : Ranking κ)
    (pre : β → Except ε κ) (post : β → Except ε Unit) (s : State ε κ β)
    {xs : List β} {x : β}
    (h : (best merge r pre post s xs).chosen = some x) :
    (x ∈ xs ∧ candidate pre post x =
      .ok (best merge r pre post s xs).best) ∨
    (s.chosen = some x ∧ (best merge r pre post s xs).best = s.best) := by
  induction xs generalizing s with
  | nil => exact .inr ⟨h, rfl⟩
  | cons y ys ih =>
      rw [best_cons] at h ⊢
      rcases ih _ h with ⟨hmem, hk⟩ | ⟨hc, hb⟩
      · exact .inl ⟨List.mem_cons_of_mem _ hmem, hk⟩
      · rcases bestStep_cases merge r pre post s y with
          ⟨e, _, hs⟩ | ⟨k, _, _, hs⟩ | ⟨k, hk, _, hs⟩
        · rw [hs] at hc hb ⊢
          exact .inr ⟨hc, hb⟩
        · rw [hs] at hc hb ⊢
          exact .inr ⟨hc, hb⟩
        · rw [hs] at hc hb ⊢
          obtain rfl : y = x := by simpa using hc
          exact .inl ⟨List.mem_cons_self, by rw [hb, hk]⟩

theorem best_concat (merge : ε → ε → ε) (r : Ranking κ)
    (pre : β → Except ε κ) (post : β → Except ε Unit) (s : State ε κ β)
    (xs : List β) (x : β) :
    best merge r pre post s (xs ++ [x]) =
      bestStep merge r pre post (best merge r pre post s xs) x := by
  simp [best]

/-- When ties are passed over, the chosen element is the first of those with the final
optimum, and no candidate before it is as good. -/
theorem best_chosen_split (merge : ε → ε → ε) (r : Ranking κ)
    (hties : ∀ {k best}, r.atLeast best k → r.skip k best = true)
    (pre : β → Except ε κ) (post : β → Except ε Unit) (s : State ε κ β)
    (hs : s.chosen = none) {xs : List β} {x : β}
    (h : (best merge r pre post s xs).chosen = some x) :
    ∃ l₁ l₂, xs = l₁ ++ x :: l₂ ∧
      candidate pre post x = .ok (best merge r pre post s xs).best ∧
      ¬ r.atLeast s.best (best merge r pre post s xs).best ∧
      ∀ y ∈ l₁, ∀ k, candidate pre post y = .ok k →
        ¬ r.atLeast k (best merge r pre post s xs).best := by
  induction xs using List.reverseRecOn with
  | nil =>
      rw [best_nil, hs] at h
      cases h
  | append_singleton xs y ih =>
      have hlater : ∀ l₁ l₂, xs = l₁ ++ x :: l₂ →
          xs ++ [y] = l₁ ++ x :: (l₂ ++ [y]) := by
        rintro l₁ l₂ rfl
        simp
      rw [best_concat] at h ⊢
      rcases bestStep_cases merge r pre post (best merge r pre post s xs) y with
        ⟨e, _, hstep⟩ | ⟨k, _, _, hstep⟩ | ⟨k, hk, hkeep, hstep⟩
      · rw [hstep] at h ⊢
        obtain ⟨l₁, l₂, hxs, hrest⟩ := ih h
        exact ⟨l₁, l₂ ++ [y], hlater l₁ l₂ hxs, hrest⟩
      · rw [hstep] at h ⊢
        obtain ⟨l₁, l₂, hxs, hrest⟩ := ih h
        exact ⟨l₁, l₂ ++ [y], hlater l₁ l₂ hxs, hrest⟩
      · rw [hstep] at h ⊢
        obtain rfl : y = x := Option.some.inj h
        have hbetter : ¬ r.atLeast (best merge r pre post s xs).best k := by
          intro hle
          rw [hties hle] at hkeep
          cases hkeep
        refine ⟨xs, [], rfl, hk, ?_, ?_⟩
        · intro hseed
          exact hbetter (r.trans (best_atLeast merge r pre post s xs) hseed)
        · intro z hz k' hk' hle
          exact hbetter (r.trans
            (best_atLeast_candidate merge r pre post s hz hk') hle)

theorem best_map_chosen {γ : Type*} (merge : ε → ε → ε) (r : Ranking κ)
    (pre : β → Except ε κ) (post : β → Except ε Unit) (f : γ → β) (e : ε) (k : κ)
    (c : Option γ) (xs : List γ) :
    (best merge r pre post ⟨e, k, c.map f⟩ (xs.map f)).chosen =
      (best merge r (pre ∘ f) (post ∘ f) ⟨e, k, c⟩ xs).chosen.map f := by
  induction xs generalizing e k c with
  | nil => rfl
  | cons x xs ih =>
      rw [List.map_cons, best_cons, best_cons]
      simp only [bestStep, Function.comp_apply]
      cases pre (f x) with
      | error e' => exact ih (merge e e') k c
      | ok k' =>
          dsimp only
          split_ifs
          · exact ih e k c
          · cases post (f x) with
            | error e' => exact ih (merge e e') k c
            | ok u => exact ih e k' (some x)

theorem best_of_chosen_none (merge : ε → ε → ε) (r : Ranking κ)
    (pre : β → Except ε κ) (post : β → Except ε Unit) (s : State ε κ β)
    {xs : List β} (h : (best merge r pre post s xs).chosen = none) :
    (best merge r pre post s xs).best = s.best := by
  induction xs using List.reverseRecOn with
  | nil => rfl
  | append_singleton xs y ih =>
      rw [best_concat] at h ⊢
      rcases bestStep_cases merge r pre post (best merge r pre post s xs) y with
        ⟨e, _, hstep⟩ | ⟨k, _, _, hstep⟩ | ⟨k, _, _, hstep⟩
      · rw [hstep] at h ⊢
        exact ih h
      · rw [hstep] at h ⊢
        exact ih h
      · rw [hstep] at h
        cases h

theorem best_chosen_isSome (merge : ε → ε → ε) (r : Ranking κ)
    (pre : β → Except ε κ) (post : β → Except ε Unit) (s : State ε κ β)
    (xs : List β) (h : s.chosen.isSome) :
    (best merge r pre post s xs).chosen.isSome := by
  induction xs generalizing s with
  | nil => exact h
  | cons x xs ih =>
      rw [best_cons]
      apply ih
      rcases bestStep_cases merge r pre post s x with
        ⟨e, _, hs⟩ | ⟨k, _, _, hs⟩ | ⟨k, _, _, hs⟩
      · rw [hs]
        exact h
      · rw [hs]
        exact h
      · rw [hs]
        rfl

/-- With a seed that skips no candidate key, nothing is chosen exactly when
every element is rejected, and then the error is the fold of all rejections. -/
theorem best_eq_none_iff (merge : ε → ε → ε) (r : Ranking κ)
    (pre : β → Except ε κ) (post : β → Except ε Unit) (s : State ε κ β)
    (xs : List β) (hs : s.chosen = none)
    (hseed : ∀ x ∈ xs, ∀ k, pre x = .ok k → r.skip k s.best = false) :
    (best merge r pre post s xs).chosen = none ↔
      ∀ x ∈ xs, ∀ k, candidate pre post x ≠ .ok k := by
  induction xs generalizing s with
  | nil => simpa using hs
  | cons x xs ih =>
      rw [best_cons]
      rcases bestStep_cases merge r pre post s x with
        ⟨e, he, hstep⟩ | ⟨k, hk, hskip, _⟩ | ⟨k, hk, _, hstep⟩
      · have hrest := ih { s with error := merge s.error e } hs
          fun y hy => hseed y (List.mem_cons_of_mem _ hy)
        rw [hstep, hrest]
        simp [he]
      · rw [hseed x List.mem_cons_self k hk] at hskip
        exact absurd hskip (by simp)
      · have hsome := best_chosen_isSome merge r pre post
          { s with best := k, chosen := some x } xs rfl
        rw [hstep]
        constructor
        · intro hnone
          rw [hnone] at hsome
          simp at hsome
        · intro hall
          exact absurd hk (hall x List.mem_cons_self k)

theorem best_error_of_none (merge : ε → ε → ε) (r : Ranking κ)
    (pre : β → Except ε κ) (post : β → Except ε Unit) (s : State ε κ β)
    (xs : List β)
    (hseed : ∀ x ∈ xs, ∀ k, pre x = .ok k → r.skip k s.best = false)
    (h : (best merge r pre post s xs).chosen = none) :
    (best merge r pre post s xs).error =
      reject merge (candidate pre post) s.error xs := by
  induction xs generalizing s with
  | nil => rfl
  | cons x xs ih =>
      rw [best_cons] at h ⊢
      rcases bestStep_cases merge r pre post s x with
        ⟨e, he, hstep⟩ | ⟨k, hk, hskip, _⟩ | ⟨k, _, _, hstep⟩
      · rw [hstep] at h ⊢
        rw [reject_cons_error he]
        exact ih _ (fun y hy => hseed y (List.mem_cons_of_mem _ hy)) h
      · rw [hseed x List.mem_cons_self k hk] at hskip
        exact absurd hskip (by simp)
      · have hsome := best_chosen_isSome merge r pre post
          { s with best := k, chosen := some x } xs rfl
        rw [hstep] at h
        rw [h] at hsome
        simp at hsome

/-- When nothing is tested after the comparison, an element that is passed over is
one the test accepts, and the error is the fold of all rejections. -/
theorem best_error_of_post (merge : ε → ε → ε) (r : Ranking κ)
    (pre : β → Except ε κ) {post : β → Except ε Unit}
    (hpost : ∀ x, post x = .ok ()) (s : State ε κ β) (xs : List β) :
    (best merge r pre post s xs).error =
      reject merge (candidate pre post) s.error xs := by
  induction xs generalizing s with
  | nil => rfl
  | cons x xs ih =>
      rw [best_cons, ih]
      rcases bestStep_cases merge r pre post s x with
        ⟨e, he, hstep⟩ | ⟨k, hk, _, hstep⟩ | ⟨k, hk, _, hstep⟩
      · rw [hstep, reject_cons_error he]
      · have hok : candidate pre post x = .ok k := by
          simp [candidate, hk, hpost]
        rw [hstep, reject_cons_ok hok]
      · rw [hstep, reject_cons_ok hk]

theorem best_of_skip (merge : ε → ε → ε) (r : Ranking κ)
    (pre : β → Except ε κ) (post : β → Except ε Unit) (s : State ε κ β)
    (xs : List β)
    (hskip : ∀ x ∈ xs, ∀ k, pre x = .ok k → r.skip k s.best = true) :
    best merge r pre post s xs =
      { s with error := reject merge pre s.error xs } := by
  induction xs generalizing s with
  | nil => rfl
  | cons x xs ih =>
      have hrest : ∀ y ∈ xs, ∀ k, pre y = .ok k → r.skip k s.best = true :=
        fun y hy => hskip y (List.mem_cons_of_mem _ hy)
      rw [best_cons]
      cases hx : pre x with
      | error e =>
          have hstep : bestStep merge r pre post s x =
              { s with error := merge s.error e } := by
            simp [bestStep, hx]
          rw [hstep, ih { s with error := merge s.error e } hrest,
            reject_cons_error hx]
      | ok k =>
          have hstep : bestStep merge r pre post s x = s := by
            simp [bestStep, hx, hskip x List.mem_cons_self k hx]
          rw [hstep, ih s hrest, reject_cons_ok hx]

theorem findSome?_of_takeWhile {γ : Type*} {f : β → Option γ} {p : β → Bool}
    {y : γ} {xs : List β}
    (hbefore : ∀ x ∈ xs.takeWhile p, p x = true → f x = none)
    (hat : ∀ x, p x = false → f x = some y) (hex : ∃ x ∈ xs, p x = false) :
    xs.findSome? f = some y := by
  induction xs with
  | nil => simp at hex
  | cons x xs ih =>
      cases hx : p x with
      | false => simp [hat x hx]
      | true =>
          rw [List.takeWhile_cons_of_pos hx] at hbefore
          have hnone : f x = none := hbefore x List.mem_cons_self hx
          rw [List.findSome?_cons, hnone]
          refine ih (fun y hy => hbefore y (List.mem_cons_of_mem _ hy)) ?_
          obtain ⟨z, hz, hpz⟩ := hex
          rcases List.mem_cons.mp hz with rfl | hz
          · rw [hx] at hpz
            cases hpz
          · exact ⟨z, hz, hpz⟩

end Scan
