import Mathlib.Data.List.Induction

/-!
# Conditions carried along a run

A run of a step function `step : σ → ι → σ` over a list of inputs is the left
fold of the list. `along step C s xs` says that every step of the run meets the
condition `C`, which may look at the input and at the state before the step; the
current state is carried along explicitly. `alongM` is the same for steps that may
have no result; an invariant that is kept by the steps meeting the condition holds at
the end of such a run.
-/

namespace Along

variable {σ ι : Type*}

/-- Every step of the run of `xs` from `s` meets `C`. -/
def along (step : σ → ι → σ) (C : σ → ι → Prop) : σ → List ι → Prop
  | _, [] => True
  | s, x :: xs => C s x ∧ along step C (step s x) xs

@[simp] theorem along_nil (step : σ → ι → σ) (C : σ → ι → Prop) (s : σ) :
    along step C s [] := trivial

theorem along_cons (step : σ → ι → σ) (C : σ → ι → Prop) (s : σ) (x : ι)
    (xs : List ι) :
    along step C s (x :: xs) ↔ C s x ∧ along step C (step s x) xs := Iff.rfl

theorem along_append (step : σ → ι → σ) (C : σ → ι → Prop) (s : σ)
    (xs ys : List ι) :
    along step C s (xs ++ ys) ↔
      along step C s xs ∧ along step C (xs.foldl step s) ys := by
  induction xs generalizing s with
  | nil => simp
  | cons x xs ih => rw [List.cons_append, along_cons, along_cons, ih, and_assoc,
      List.foldl_cons]

/-- A condition along a run is one on every place of the list. -/
theorem along_iff_forall_split (step : σ → ι → σ) (C : σ → ι → Prop) (s : σ)
    (xs : List ι) :
    along step C s xs ↔
      ∀ done x rest, xs = done ++ x :: rest → C (done.foldl step s) x := by
  constructor
  · intro h done x rest heq
    rw [heq, along_append, along_cons] at h
    exact h.2.1
  · intro h
    induction xs generalizing s with
    | nil => exact along_nil step C s
    | cons x xs ih =>
        refine (along_cons step C s x xs).mpr ⟨h [] x xs rfl, ?_⟩
        apply ih
        intro done y rest heq
        exact h (x :: done) y rest (by rw [heq, List.cons_append])

theorem along.and {step : σ → ι → σ} {C D : σ → ι → Prop} {s : σ} {xs : List ι}
    (hC : along step C s xs) (hD : along step D s xs) :
    along step (fun s x => C s x ∧ D s x) s xs := by
  induction xs generalizing s with
  | nil => trivial
  | cons x xs ih => exact ⟨⟨hC.1, hD.1⟩, ih hC.2 hD.2⟩

/-- An invariant of the state and of the inputs so far, kept by every step that
meets `C`, holds at the end of a run all of whose steps meet `C`. -/
theorem along.inv {step : σ → ι → σ} {C : σ → ι → Prop} {I : List ι → σ → Prop}
    (hstep : ∀ done s x, I done s → C s x → I (done ++ [x]) (step s x)) {s : σ}
    (hs : I [] s) {xs : List ι} (h : along step C s xs) :
    I xs (xs.foldl step s) := by
  induction xs using List.reverseRecOn with
  | nil => exact hs
  | append_singleton xs x ih =>
      rw [along_append] at h
      rw [List.foldl_append]
      exact hstep xs _ x (ih h.1) h.2.1

theorem along.inv_split {step : σ → ι → σ} {C : σ → ι → Prop}
    {I : List ι → σ → Prop}
    (hstep : ∀ done s x, I done s → C s x → I (done ++ [x]) (step s x)) {s : σ}
    (hs : I [] s) {xs done rest : List ι} {x : ι} (h : along step C s xs)
    (heq : xs = done ++ x :: rest) :
    I done (done.foldl step s) ∧ C (done.foldl step s) x := by
  rw [heq, along_append] at h
  exact ⟨along.inv hstep hs h.1, h.2.1⟩

/-- If a step brings `P` about exactly when it meets `E`, and otherwise keeps it unless
its input meets `R`, then `P` holds at the end of a run exactly if it held at the start
or was brought about by a step, and no input after that meets `R`. -/
theorem foldl_iff_last {step : σ → ι → σ} {P : σ → Prop} {E : σ → ι → Prop}
    {R : ι → Prop} (hstep : ∀ s x, P (step s x) ↔ E s x ∨ P s ∧ ¬ R x) (s : σ)
    (xs : List ι) :
    P (xs.foldl step s) ↔ (P s ∧ ∀ x ∈ xs, ¬ R x) ∨
      ∃ before x after, xs = before ++ x :: after ∧ E (before.foldl step s) x ∧
        ∀ y ∈ after, ¬ R y := by
  induction xs using List.reverseRecOn with
  | nil => simp
  | append_singleton xs x ih =>
      rw [List.foldl_append, List.foldl_cons, List.foldl_nil, hstep, ih]
      constructor
      · rintro (hE | ⟨⟨hs, hall⟩ | ⟨before, y, after, rfl, hE, hall⟩, hx⟩)
        · exact .inr ⟨xs, x, [], rfl, hE, fun _ h => absurd h List.not_mem_nil⟩
        · exact .inl ⟨hs, List.forall_mem_append.mpr ⟨hall, List.forall_mem_singleton.mpr hx⟩⟩
        · refine .inr ⟨before, y, after ++ [x], by simp, hE, ?_⟩
          exact List.forall_mem_append.mpr ⟨hall, List.forall_mem_singleton.mpr hx⟩
      · rintro (⟨hs, hall⟩ | ⟨before, y, after, heq, hE, hall⟩)
        · obtain ⟨hxs, hx⟩ := List.forall_mem_append.mp hall
          exact .inr ⟨.inl ⟨hs, hxs⟩, hx x List.mem_cons_self⟩
        · -- the step that brought it about is the last one, or an earlier one
          rcases List.eq_nil_or_concat after with rfl | ⟨after, z, rfl⟩
          · obtain ⟨rfl, hxy⟩ := List.append_inj' heq rfl
            obtain rfl := List.singleton_inj.mp hxy
            exact .inl hE
          · rw [List.concat_eq_append, ← List.cons_append, ← List.append_assoc] at heq
            rw [List.concat_eq_append] at hall
            obtain ⟨rfl, hxz⟩ := List.append_inj' heq rfl
            obtain rfl := List.singleton_inj.mp hxz
            obtain ⟨hafter, hx⟩ := List.forall_mem_append.mp hall
            exact .inr ⟨.inr ⟨before, y, after, rfl, hE, hafter⟩, hx x List.mem_cons_self⟩

/-! ## Runs that may have no result -/

/-- Every step of the run of `xs` from `s` meets `C`, as far as the run goes. -/
def alongM (step : σ → ι → Option σ) (C : σ → ι → Prop) : σ → List ι → Prop
  | _, [] => True
  | s, x :: xs => C s x ∧ ∀ s', step s x = some s' → alongM step C s' xs

theorem alongM.and {step : σ → ι → Option σ} {C D : σ → ι → Prop} {s : σ}
    {xs : List ι} (hC : alongM step C s xs) (hD : alongM step D s xs) :
    alongM step (fun s x => C s x ∧ D s x) s xs := by
  induction xs generalizing s with
  | nil => trivial
  | cons x xs ih =>
      refine ⟨⟨hC.1, hD.1⟩, ?_⟩
      intro s' hs'
      exact ih (hC.2 s' hs') (hD.2 s' hs')

theorem alongM_of_forall {step : σ → ι → Option σ} {P : ι → Prop} {s : σ} {xs : List ι}
    (h : ∀ x ∈ xs, P x) : alongM step (fun _ x => P x) s xs := by
  induction xs generalizing s with
  | nil => trivial
  | cons x xs ih =>
      exact ⟨h x List.mem_cons_self, fun _ _ => ih fun y hy => h y (List.mem_cons_of_mem x hy)⟩

theorem foldlM_of_alongM {step : σ → ι → Option σ} {C : σ → ι → Prop}
    {I : σ → Prop}
    (hstep : ∀ s x s', I s → C s x → step s x = some s' → I s') {s s' : σ}
    (hs : I s) {xs : List ι} (h : alongM step C s xs)
    (hrun : xs.foldlM step s = some s') : I s' := by
  induction xs generalizing s with
  | nil =>
      cases hrun
      exact hs
  | cons x xs ih =>
      rw [List.foldlM_cons] at hrun
      obtain ⟨s₁, hs₁, hrest⟩ := Option.bind_eq_some_iff.mp hrun
      exact ih (hstep s x s₁ hs h.1 hs₁) (h.2 s₁ hs₁) hrest

/-- If a step that meets `C` has a result which keeps the invariant, so has a run all of
whose steps meet `C`. -/
theorem exists_foldlM_of_alongM {step : σ → ι → Option σ} {C : σ → ι → Prop}
    {I : σ → Prop} (hstep : ∀ s x, I s → C s x → ∃ s', step s x = some s' ∧ I s')
    {s : σ} (hs : I s) {xs : List ι} (h : alongM step C s xs) :
    ∃ s', xs.foldlM step s = some s' ∧ I s' := by
  induction xs generalizing s with
  | nil => exact ⟨s, rfl, hs⟩
  | cons x xs ih =>
      obtain ⟨s₁, hs₁, hI⟩ := hstep s x hs h.1
      obtain ⟨s', hs', hI'⟩ := ih hI (h.2 s₁ hs₁)
      refine ⟨s', ?_, hI'⟩
      rw [List.foldlM_cons, hs₁]
      exact hs'

instance decidableAlongM (step : σ → ι → Option σ) (C : σ → ι → Prop)
    [∀ s x, Decidable (C s x)] : ∀ s xs, Decidable (alongM step C s xs)
  | _, [] => .isTrue trivial
  | s, x :: xs =>
      match h : step s x with
      | none => decidable_of_iff (C s x) ⟨fun hC => ⟨hC, by simp [h]⟩, And.left⟩
      | some s' =>
          have := decidableAlongM step C s' xs
          decidable_of_iff (C s x ∧ alongM step C s' xs)
            (by simp [alongM, h])

def tryRun (step : σ → ι → Option σ) (C : σ → ι → Prop) [∀ s x, Decidable (C s x)] :
    σ → List ι → Option σ
  | s, [] => some s
  | s, x :: xs => if C s x then (step s x).bind fun s' => tryRun step C s' xs else none

theorem of_tryRun {step : σ → ι → Option σ} {C : σ → ι → Prop} [∀ s x, Decidable (C s x)]
    {s s' : σ} {xs : List ι} (h : tryRun step C s xs = some s') :
    alongM step C s xs ∧ xs.foldlM step s = some s' := by
  induction xs generalizing s with
  | nil => exact ⟨trivial, h⟩
  | cons x xs ih =>
      unfold tryRun at h
      by_cases hC : C s x
      · rw [if_pos hC] at h
        obtain ⟨s₁, hs₁, hrest⟩ := Option.bind_eq_some_iff.mp h
        obtain ⟨halong, hrun⟩ := ih hrest
        refine ⟨⟨hC, fun s₂ hs₂ => ?_⟩, ?_⟩
        · obtain rfl := Option.some.inj (hs₁.symm.trans hs₂)
          exact halong
        · rw [List.foldlM_cons, hs₁]
          exact hrun
      · rw [if_neg hC] at h
        cases h

/-- A checked step has the result of `step` where `C` holds and none elsewhere: then a
run has a result exactly if all its steps meet `C`. -/
theorem isSome_foldlM_iff {step : σ → ι → σ} {checked : σ → ι → Option σ}
    {C : σ → ι → Prop} (hpos : ∀ s x, C s x → checked s x = some (step s x))
    (hneg : ∀ s x, ¬ C s x → checked s x = none) (s : σ) (xs : List ι) :
    (xs.foldlM checked s).isSome = true ↔ along step C s xs := by
  induction xs generalizing s with
  | nil => exact iff_of_true rfl trivial
  | cons x xs ih =>
      rw [List.foldlM_cons, along_cons]
      by_cases h : C s x
      · rw [hpos s x h]
        exact (ih (step s x)).trans (and_iff_right h).symm
      · rw [hneg s x h]
        exact iff_of_false Bool.false_ne_true fun hC => h hC.1

end Along
