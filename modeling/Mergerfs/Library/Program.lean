import Mathlib.Data.List.Basic

/-!
# Programs that issue calls

A `Program Call Ans α` computes a value of type `α` and on the way issues calls
to an environment it knows nothing about: the call `c` may be answered by any
value of `Ans c`. `Exec p tr a` says that `p` can return `a` after the calls and
answers recorded in `tr`, so a statement quantified over `tr` holds for every
outcome of every call, adaptive environments included.

`run` is the executable form: an oracle answers each call from the events so
far. `Issues P p` is the safety half on its own, read off the program tree: `p`
issues no call outside `P`, whatever the answers.
-/

inductive Program (Call : Type) (Ans : Call → Type) (α : Type) : Type where
  | ret (a : α)
  | issue (c : Call) (k : Ans c → Program Call Ans α)

namespace Program

variable {Call : Type} {Ans : Call → Type} {α β σ ι : Type}

protected def bind : Program Call Ans α → (α → Program Call Ans β) →
    Program Call Ans β
  | ret a, f => f a
  | issue c k, f => issue c fun r => (k r).bind f

instance : Monad (Program Call Ans) where
  pure := ret
  bind := Program.bind

def call (c : Call) : Program Call Ans (Ans c) := issue c ret

abbrev Event (Call : Type) (Ans : Call → Type) := Σ c : Call, Ans c

/-! ## Executions -/

/-- `p` can return `b` after exactly the events of `tr`. -/
def Exec : Program Call Ans α → List (Event Call Ans) → α → Prop
  | ret a, tr, b => tr = [] ∧ b = a
  | issue c k, tr, b => ∃ r tr', tr = ⟨c, r⟩ :: tr' ∧ Exec (k r) tr' b

@[simp] theorem exec_pure {a b : α} {tr : List (Event Call Ans)} :
    Exec (pure a : Program Call Ans α) tr b ↔ tr = [] ∧ b = a := Iff.rfl

@[simp] theorem exec_call {c : Call} {tr : List (Event Call Ans)} {r : Ans c} :
    Exec (call c) tr r ↔ tr = [⟨c, r⟩] := by
  constructor
  · rintro ⟨r', tr', rfl, rfl, rfl⟩
    rfl
  · rintro rfl
    exact ⟨r, [], rfl, rfl, rfl⟩

/-- Sequencing splits the trace at the point where the first program returns. -/
theorem exec_bind {p : Program Call Ans α} {f : α → Program Call Ans β}
    {tr : List (Event Call Ans)} {b : β} :
    Exec (p >>= f) tr b ↔
      ∃ t₁ a t₂, tr = t₁ ++ t₂ ∧ Exec p t₁ a ∧ Exec (f a) t₂ b := by
  induction p generalizing tr with
  | ret a =>
      constructor
      · intro h
        exact ⟨[], a, tr, rfl, ⟨rfl, rfl⟩, h⟩
      · rintro ⟨t₁, a', t₂, rfl, ⟨rfl, rfl⟩, h⟩
        exact h
  | issue c k ih =>
      constructor
      · rintro ⟨r, tr', rfl, h⟩
        obtain ⟨t₁, a, t₂, rfl, h₁, h₂⟩ := (ih r).mp h
        exact ⟨⟨c, r⟩ :: t₁, a, t₂, rfl, ⟨r, t₁, rfl, h₁⟩, h₂⟩
      · rintro ⟨t₁, a, t₂, rfl, ⟨r, t₁', rfl, h₁⟩, h₂⟩
        exact ⟨r, t₁' ++ t₂, rfl, (ih r).mpr ⟨t₁', a, t₂, rfl, h₁, h₂⟩⟩

theorem exec_call_bind {c : Call} {f : Ans c → Program Call Ans β}
    {tr : List (Event Call Ans)} {b : β} :
    Exec (call c >>= f) tr b ↔
      ∃ r tr', tr = ⟨c, r⟩ :: tr' ∧ Exec (f r) tr' b := by
  rw [exec_bind]
  constructor
  · rintro ⟨t₁, r, t₂, rfl, h₁, h₂⟩
    obtain rfl := exec_call.mp h₁
    exact ⟨r, t₂, rfl, h₂⟩
  · rintro ⟨r, tr', rfl, h⟩
    exact ⟨[⟨c, r⟩], r, tr', rfl, exec_call.mpr rfl, h⟩

/-- The rule for a loop that threads a state through a list. The invariant sees
the elements already done, the state and the trace so far. -/
theorem exec_foldlM {f : σ → ι → Program Call Ans σ} {xs : List ι} {s₀ s : σ}
    {tr : List (Event Call Ans)}
    (I : List ι → σ → List (Event Call Ans) → Prop) (h₀ : I [] s₀ [])
    (hstep : ∀ done x rest s s' tr t, xs = done ++ x :: rest → I done s tr →
      Exec (f s x) t s' → I (done ++ [x]) s' (tr ++ t))
    (h : Exec (xs.foldlM f s₀) tr s) : I xs s tr := by
  suffices hgen : ∀ rest done s₁ tr₁ tr₂, xs = done ++ rest → I done s₁ tr₁ →
      Exec (rest.foldlM f s₁) tr₂ s → I xs s (tr₁ ++ tr₂) by
    simpa using hgen xs [] s₀ [] tr rfl h₀ h
  intro rest
  induction rest with
  | nil =>
      intro done s₁ tr₁ tr₂ hxs hI hex
      obtain ⟨rfl, rfl⟩ := exec_pure.mp hex
      simpa [hxs] using hI
  | cons x rest ih =>
      intro done s₁ tr₁ tr₂ hxs hI hex
      rw [List.foldlM_cons, exec_bind] at hex
      obtain ⟨t₁, s₂, t₂, rfl, h₁, h₂⟩ := hex
      have hI' := hstep done x rest s₁ s₂ tr₁ t₁ hxs hI h₁
      have hxs' : xs = (done ++ [x]) ++ rest := by simp [hxs]
      simpa using ih (done ++ [x]) s₂ (tr₁ ++ t₁) t₂ hxs' hI' h₂

/-- An execution is determined by the answers, also as the beginning of a longer
trace. -/
theorem Exec.unique {p : Program Call Ans α} {t t' u u' : List (Event Call Ans)}
    {a a' : α} (h : Exec p t a) (h' : Exec p t' a') (heq : t ++ u = t' ++ u') :
    t = t' ∧ a = a' := by
  induction p generalizing t t' with
  | ret b =>
      obtain ⟨rfl, rfl⟩ := h
      obtain ⟨rfl, rfl⟩ := h'
      exact ⟨rfl, rfl⟩
  | issue c k ih =>
      obtain ⟨r, t, rfl, h⟩ := h
      obtain ⟨r', t', rfl, h'⟩ := h'
      obtain ⟨hev, htail⟩ := List.cons.inj heq
      cases hev
      obtain ⟨rfl, rfl⟩ := ih r h h' htail
      exact ⟨rfl, rfl⟩

/-! ## The results of a loop -/

def collect (p : ι → Program Call Ans α) : List ι → Program Call Ans (List α)
  | [] => pure []
  | x :: xs => do
      let a ← p x
      let as ← collect p xs
      pure (a :: as)

theorem exec_collect_cons {p : ι → Program Call Ans α} {x : ι} {xs : List ι}
    {tr : List (Event Call Ans)} {as : List α} :
    Exec (collect p (x :: xs)) tr as ↔
      ∃ t₁ t₂ a as', tr = t₁ ++ t₂ ∧ as = a :: as' ∧ Exec (p x) t₁ a ∧
        Exec (collect p xs) t₂ as' := by
  rw [collect, exec_bind]
  constructor
  · rintro ⟨t₁, a, t, rfl, h₁, h⟩
    obtain ⟨t₂, as', t₃, rfl, h₂, h₃⟩ := exec_bind.mp h
    obtain ⟨rfl, rfl⟩ := exec_pure.mp h₃
    exact ⟨t₁, t₂, a, as', by rw [List.append_nil], rfl, h₁, h₂⟩
  · rintro ⟨t₁, t₂, a, as', rfl, rfl, h₁, h₂⟩
    exact ⟨t₁, a, t₂, rfl, h₁, exec_bind.mpr
      ⟨t₂, as', [], by rw [List.append_nil], h₂, exec_pure.mpr ⟨rfl, rfl⟩⟩⟩

theorem exec_collect_concat {p : ι → Program Call Ans α} {x : ι} {xs : List ι}
    {tr t : List (Event Call Ans)} {as : List α} {a : α}
    (h : Exec (collect p xs) tr as) (hx : Exec (p x) t a) :
    Exec (collect p (xs ++ [x])) (tr ++ t) (as ++ [a]) := by
  induction xs generalizing tr as with
  | nil =>
      obtain ⟨rfl, rfl⟩ := exec_pure.mp h
      exact exec_collect_cons.mpr ⟨t, [], a, [], by simp, rfl, hx, exec_pure.mpr ⟨rfl, rfl⟩⟩
  | cons y xs ih =>
      obtain ⟨t₁, t₂, b, bs, rfl, rfl, h₁, h₂⟩ := exec_collect_cons.mp h
      exact exec_collect_cons.mpr
        ⟨t₁, t₂ ++ t, b, bs ++ [a], by simp, rfl, h₁, ih h₂⟩

theorem forall_of_exec_collect {P : α → Prop} {p : ι → Program Call Ans α}
    (hp : ∀ x t a, Exec (p x) t a → P a) {xs : List ι} {tr : List (Event Call Ans)}
    {as : List α} (h : Exec (collect p xs) tr as) : ∀ a ∈ as, P a := by
  induction xs generalizing tr as with
  | nil =>
      obtain ⟨rfl, rfl⟩ := exec_pure.mp h
      simp
  | cons x xs ih =>
      obtain ⟨t₁, t₂, a, as', rfl, rfl, h₁, h₂⟩ := exec_collect_cons.mp h
      exact List.forall_mem_cons.mpr ⟨hp x t₁ a h₁, ih h₂⟩

/-- A loop that runs `p` for some of the elements and does nothing for the others,
with a part of its state that is folded from the results of `p`. -/
theorem exec_foldlM_collect {κ τ : Type} {f : σ → ι → Program Call Ans σ}
    (key : ι → κ) (sel : κ → Bool) (p : κ → Program Call Ans α) (part : σ → τ)
    (g : τ → α → τ)
    (hstep : ∀ s x t s', Exec (f s x) t s' →
      if sel (key x) then ∃ a, Exec (p (key x)) t a ∧ part s' = g (part s) a
      else t = [] ∧ part s' = part s)
    {xs : List ι} {s₀ s : σ} {tr : List (Event Call Ans)}
    (h : Exec (xs.foldlM f s₀) tr s) :
    ∃ as, Exec (collect p ((xs.map key).filter sel)) tr as ∧
      part s = as.foldl g (part s₀) := by
  refine exec_foldlM (fun done s tr => ∃ as,
    Exec (collect p ((done.map key).filter sel)) tr as ∧
      part s = as.foldl g (part s₀)) ?_ ?_ h
  · exact ⟨[], exec_pure.mpr ⟨rfl, rfl⟩, rfl⟩
  · rintro done x rest s s' tr t - ⟨as, has, hpart⟩ hex
    have hx := hstep s x t s' hex
    rw [List.map_append, List.filter_append]
    split_ifs at hx with hsel
    · obtain ⟨a, ha, hs'⟩ := hx
      refine ⟨as ++ [a], ?_, by rw [hs', hpart, List.foldl_concat]⟩
      simpa [hsel] using exec_collect_concat has ha
    · obtain ⟨rfl, hs'⟩ := hx
      exact ⟨as, by simpa [hsel] using has, by rw [hs', hpart]⟩

/-! ## Running against an oracle -/

def run (o : List (Event Call Ans) → (c : Call) → Ans c) :
    Program Call Ans α → List (Event Call Ans) → α × List (Event Call Ans)
  | ret a, tr => (a, tr)
  | issue c k, tr => run o (k (o tr c)) (tr ++ [⟨c, o tr c⟩])

theorem exec_run (o : List (Event Call Ans) → (c : Call) → Ans c)
    (p : Program Call Ans α) (tr : List (Event Call Ans)) :
    ∃ t, (run o p tr).2 = tr ++ t ∧ Exec p t (run o p tr).1 := by
  induction p generalizing tr with
  | ret a => exact ⟨[], by simp [run], rfl, rfl⟩
  | issue c k ih =>
      obtain ⟨t, ht, hex⟩ := ih (o tr c) (tr ++ [⟨c, o tr c⟩])
      exact ⟨⟨c, o tr c⟩ :: t, by simp [run, ht], _, t, rfl, hex⟩

theorem exec_run_nil (o : List (Event Call Ans) → (c : Call) → Ans c)
    (p : Program Call Ans α) : Exec p (run o p []).2 (run o p []).1 := by
  obtain ⟨t, ht, hex⟩ := exec_run o p []
  rw [ht]
  exact hex

/-! ## Safety of the calls issued -/

def Issues (P : Call → Prop) : Program Call Ans α → Prop
  | ret _ => True
  | issue c k => P c ∧ ∀ r, Issues P (k r)

@[simp] theorem issues_pure {P : Call → Prop} (a : α) :
    Issues P (pure a : Program Call Ans α) := trivial

@[simp] theorem issues_call {P : Call → Prop} {c : Call} :
    Issues P (call c : Program Call Ans (Ans c)) ↔ P c :=
  ⟨fun h => h.1, fun h => ⟨h, fun _ => trivial⟩⟩

theorem issues_bind {P : Call → Prop} {p : Program Call Ans α}
    {f : α → Program Call Ans β} (hp : Issues P p) (hf : ∀ a, Issues P (f a)) :
    Issues P (p >>= f) := by
  induction p with
  | ret a => exact hf a
  | issue c k ih => exact ⟨hp.1, fun r => ih r (hp.2 r)⟩

theorem issues_foldlM {P : Call → Prop} {f : σ → ι → Program Call Ans σ}
    {xs : List ι} (hf : ∀ s, ∀ x ∈ xs, Issues P (f s x)) (s : σ) :
    Issues P (xs.foldlM f s) := by
  induction xs generalizing s with
  | nil => exact issues_pure s
  | cons x xs ih =>
      rw [List.foldlM_cons]
      apply issues_bind (hf s x List.mem_cons_self)
      intro s'
      exact ih (fun s y hy => hf s y (List.mem_cons_of_mem _ hy)) s'

theorem Issues.mono {P Q : Call → Prop} {p : Program Call Ans α}
    (hp : Issues P p) (h : ∀ c, P c → Q c) : Issues Q p := by
  induction p with
  | ret a => exact trivial
  | issue c k ih => exact ⟨h c hp.1, fun r => ih r (hp.2 r)⟩

theorem Issues.of_exec {P : Call → Prop} {p : Program Call Ans α}
    (hp : Issues P p) {tr : List (Event Call Ans)} {a : α}
    (h : Exec p tr a) : ∀ e ∈ tr, P e.1 := by
  induction p generalizing tr with
  | ret b =>
      obtain ⟨rfl, rfl⟩ := h
      simp
  | issue c k ih =>
      obtain ⟨r, tr', rfl, hex⟩ := h
      intro e he
      rcases List.mem_cons.mp he with rfl | he
      · exact hp.1
      · exact ih r (hp.2 r) hex e he

/-! ## Positions of a trace -/

/-- At every position of the list `P` holds of what comes before, the element and
what comes after. -/
def Everywhere (P : List ι → ι → List ι → Prop) (l : List ι) : Prop :=
  ∀ l₁ a l₂, l = l₁ ++ a :: l₂ → P l₁ a l₂

variable {P Q : List ι → ι → List ι → Prop}

@[simp] theorem everywhere_nil : Everywhere P [] := by
  intro l₁ a l₂ heq
  simp at heq

@[simp] theorem everywhere_cons {a : ι} {l : List ι} :
    Everywhere P (a :: l) ↔ P [] a l ∧ Everywhere (fun l₁ => P (a :: l₁)) l := by
  constructor
  · intro h
    exact ⟨h [] a l rfl, fun l₁ b l₂ heq => h (a :: l₁) b l₂ (by rw [heq]; rfl)⟩
  · rintro ⟨hhead, htail⟩ l₁ b l₂ heq
    cases l₁ with
    | nil =>
        obtain ⟨rfl, rfl⟩ := List.cons.inj heq
        exact hhead
    | cons c l₁ =>
        obtain ⟨rfl, rfl⟩ := List.cons.inj heq
        exact htail l₁ b l₂ rfl

theorem everywhere_append {l l' : List ι} :
    Everywhere P (l ++ l') ↔
      Everywhere (fun l₁ a l₂ => P l₁ a (l₂ ++ l')) l ∧
        Everywhere (fun l₁ => P (l ++ l₁)) l' := by
  induction l generalizing P with
  | nil => simp
  | cons a l ih => simp [ih, and_assoc]

theorem Everywhere.imp (h : ∀ l₁ a l₂, P l₁ a l₂ → Q l₁ a l₂) {l : List ι}
    (hl : Everywhere P l) : Everywhere Q l :=
  fun l₁ a l₂ heq => h l₁ a l₂ (hl l₁ a l₂ heq)

end Program
