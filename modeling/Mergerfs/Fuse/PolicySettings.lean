import Mergerfs.Fuse.Getxattr

/-!
# Setting policies

`Config::set_func_policy` sets the policy of a function, and
`Config::set_category_policy` goes through the table of functions and sets that of
each function in the category. The policies are set by the command line and by
`setxattr` in whatever order, by names that may be wrong; in the end each function has
the policy of the last call that was right and named it or its category.
-/

namespace Mergerfs

open Errno

inductive PolicyCall where
  | func (fusefunc policy : List Char)
  | category (name policy : List Char)

namespace PolicyCall

def apply (s : Settings) : PolicyCall → Except Errno Settings
  | func fusefunc policy => s.setFuncPolicy fusefunc policy
  | category name policy => s.setCategoryPolicy name policy

def step (s : Settings) (call : PolicyCall) : Settings :=
  match call.apply s with
  | .error _ => s
  | .ok s' => s'

def run (s : Settings) (calls : List PolicyCall) : Settings := calls.foldl step s

def constructor : List PolicyCall :=
  [category "action".toList "epall".toList, category "create".toList "epmfs".toList,
    category "search".toList "ff".toList]

/-- The settings of a new `Config`, whose array of policies holds anything at first. -/
def fresh (branches : Branches) (policies : FuseFunc → Policy) : Settings :=
  run { Settings.initial branches with policies := policies } constructor

def policy : PolicyCall → List Char
  | func _ policy => policy
  | category _ policy => policy

def Names (f : FuseFunc) : PolicyCall → Prop
  | func fusefunc _ => f.str = fusefunc
  | category name _ => f.category.str = name

def Known : PolicyCall → Prop
  | func fusefunc policy =>
      (∃ f : FuseFunc, f.str = fusefunc) ∧ ∃ p ≠ Policy.invalid, p.str = policy
  | category name policy =>
      (∃ cat : Category, cat.str = name) ∧ ∃ p ≠ Policy.invalid, p.str = policy

/-- The call is right, and gives the function the policy `p`. -/
structure Gives (f : FuseFunc) (p : Policy) (call : PolicyCall) : Prop where
  names : call.Names f
  valid : p ≠ .invalid
  policy : p.str = call.policy

end PolicyCall

/-! ## The tables -/

theorem Policy.find_eq_some_iff {s : List Char} {p : Policy} :
    Policy.find s = some p ↔ p ≠ .invalid ∧ p.str = s := by
  have hmem : p ∈ policies ↔ p ≠ .invalid := by cases p <;> decide
  rw [Policy.find, findStr_eq_some_iff (by decide), hmem]

theorem FuseFunc.str_injective {f g : FuseFunc} (h : f.str = g.str) : f = g := by
  have hf : FuseFunc.find g.str = some f := FuseFunc.find_eq_some_iff.mpr h
  rw [FuseFunc.find_eq_some_iff.mpr rfl] at hf
  exact (Option.some.inj hf).symm

theorem Category.str_injective {cat cat' : Category} (h : cat.str = cat'.str) :
    cat = cat' := by
  have hcat : Category.find cat'.str = some cat := Category.find_eq_some_iff.mpr h
  rw [Category.find_eq_some_iff.mpr rfl] at hcat
  exact (Option.some.inj hcat).symm

theorem Policy.str_injective {p q : Policy} (hp : p ≠ .invalid) (hq : q ≠ .invalid)
    (h : p.str = q.str) : p = q := by
  have hfind : Policy.find q.str = some p := Policy.find_eq_some_iff.mpr ⟨hp, h⟩
  rw [Policy.find_eq_some_iff.mpr ⟨hq, rfl⟩] at hfind
  exact (Option.some.inj hfind).symm

/-! ## What a call does -/

namespace PolicyCall

theorem setFuncPolicy_ok {s : Settings} {f : FuseFunc} {p : Policy}
    (hp : p ≠ .invalid) :
    s.setFuncPolicy f.str p.str =
      .ok { s with policies := Function.update s.policies f p } := by
  have hfunc : FuseFunc.find f.str = some f := FuseFunc.find_eq_some_iff.mpr rfl
  have hpolicy : Policy.find p.str = some p := Policy.find_eq_some_iff.mpr ⟨hp, rfl⟩
  simp only [Settings.setFuncPolicy, hfunc, hpolicy]

theorem setCategoryPolicy_ok {s : Settings} {cat : Category} {p : Policy}
    (hp : p ≠ .invalid) :
    s.setCategoryPolicy cat.str p.str =
      .ok { s with policies := setPolicies cat p s.policies } := by
  have hcat : Category.find cat.str = some cat := Category.find_eq_some_iff.mpr rfl
  have hpolicy : Policy.find p.str = some p := Policy.find_eq_some_iff.mpr ⟨hp, rfl⟩
  simp only [Settings.setCategoryPolicy, hcat, hpolicy]

theorem find_policy_eq_none {policy : List Char}
    (h : ¬ ∃ p ≠ Policy.invalid, p.str = policy) : Policy.find policy = none := by
  cases hfind : Policy.find policy with
  | none => rfl
  | some p => exact absurd ⟨p, Policy.find_eq_some_iff.mp hfind⟩ h

theorem apply_of_not_known {s : Settings} {call : PolicyCall} (h : ¬ call.Known) :
    ∃ e, call.apply s = .error e := by
  cases call with
  | func fusefunc policy =>
      simp only [apply, Settings.setFuncPolicy]
      cases hfunc : FuseFunc.find fusefunc with
      | none => exact ⟨_, rfl⟩
      | some f =>
          have hnone := find_policy_eq_none fun hp =>
            h ⟨⟨f, FuseFunc.find_eq_some_iff.mp hfunc⟩, hp⟩
          exact ⟨EINVAL, by rw [hnone]⟩
  | category name policy =>
      simp only [apply, Settings.setCategoryPolicy]
      cases hcat : Category.find name with
      | none => exact ⟨_, rfl⟩
      | some cat =>
          have hnone := find_policy_eq_none fun hp =>
            h ⟨⟨cat, Category.find_eq_some_iff.mp hcat⟩, hp⟩
          exact ⟨EINVAL, by rw [hnone]⟩

/-- A call with known names gives its policy to the functions it names, and leaves
everything else. -/
theorem apply_of_known {s : Settings} {call : PolicyCall} (h : call.Known) :
    ∃ policies, call.apply s = .ok { s with policies := policies } ∧
      ∃ p ≠ Policy.invalid, p.str = call.policy ∧
        ∀ f, (call.Names f → policies f = p) ∧
          (¬ call.Names f → policies f = s.policies f) := by
  cases call with
  | func fusefunc policy =>
      obtain ⟨⟨g, rfl⟩, p, hp, rfl⟩ := h
      refine ⟨_, setFuncPolicy_ok hp, p, hp, rfl, ?_⟩
      intro f
      constructor
      · intro hf
        obtain rfl : f = g := FuseFunc.str_injective hf
        exact Function.update_self _ _ _
      · intro hf
        exact Function.update_of_ne (fun heq => hf (congrArg FuseFunc.str heq)) _ _
  | category name policy =>
      obtain ⟨⟨cat, rfl⟩, p, hp, rfl⟩ := h
      refine ⟨_, setCategoryPolicy_ok hp, p, hp, rfl, ?_⟩
      intro f
      rw [setPolicies_eq]
      constructor
      · intro hf
        exact if_pos (Category.str_injective hf)
      · intro hf
        exact if_neg fun heq => hf (congrArg Category.str heq)

theorem Gives.known {f : FuseFunc} {p : Policy} {call : PolicyCall}
    (h : call.Gives f p) : call.Known := by
  cases call with
  | func fusefunc policy => exact ⟨⟨f, h.names⟩, p, h.valid, h.policy⟩
  | category name policy => exact ⟨⟨f.category, h.names⟩, p, h.valid, h.policy⟩

theorem step_of_not_known {s : Settings} {call : PolicyCall} (h : ¬ call.Known) :
    step s call = s := by
  obtain ⟨e, he⟩ := apply_of_not_known (s := s) h
  rw [step, he]

theorem exists_apply_iff (s : Settings) (call : PolicyCall) :
    (∃ s', call.apply s = .ok s') ↔ call.Known := by
  constructor
  · rintro ⟨s', hs'⟩
    by_contra h
    obtain ⟨e, he⟩ := apply_of_not_known (s := s) h
    rw [he] at hs'
    cases hs'
  · intro h
    obtain ⟨policies, hok, -⟩ := apply_of_known (s := s) h
    exact ⟨_, hok⟩

theorem Gives.step_policies {f : FuseFunc} {p : Policy} {call : PolicyCall}
    (h : call.Gives f p) (s : Settings) : (step s call).policies f = p := by
  obtain ⟨policies, hok, q, hq, hqp, hpolicies⟩ := apply_of_known (s := s) h.known
  rw [step, hok]
  exact ((hpolicies f).1 h.names).trans
    (Policy.str_injective hq h.valid (hqp.trans h.policy.symm))

theorem step_policies_of_not_gives {f : FuseFunc} {call : PolicyCall}
    (h : ∀ p, ¬ call.Gives f p) (s : Settings) :
    (step s call).policies f = s.policies f := by
  by_cases hknown : call.Known
  · obtain ⟨policies, hok, p, hp, hpolicy, hpolicies⟩ := apply_of_known (s := s) hknown
    rw [step, hok]
    exact (hpolicies f).2 fun hnames => h p ⟨hnames, hp, hpolicy⟩
  · rw [step_of_not_known hknown]

/-! ## What a run of calls does -/

theorem step_category {cat : Category} {p : Policy} (hp : p ≠ .invalid)
    (s : Settings) :
    step s (category cat.str p.str) =
      { s with policies := setPolicies cat p s.policies } := by
  simp only [step, apply, setCategoryPolicy_ok hp]

theorem fresh_eq (branches : Branches) (policies : FuseFunc → Policy) :
    fresh branches policies = Settings.initial branches := by
  have hcalls : constructor = [category Category.action.str Policy.epall.str,
      category Category.create.str Policy.epmfs.str,
      category Category.search.str Policy.ff.str] := rfl
  have hpolicies : setPolicies .search .ff (setPolicies .create .epmfs
      (setPolicies .action .epall policies)) =
        (Settings.initial branches).policies := by
    funext f
    simp only [setPolicies_eq, Settings.initial]
    cases f.category <;> rfl
  rw [fresh, hcalls, run, List.foldl_cons, List.foldl_cons, List.foldl_cons, List.foldl_nil,
    step_category (by decide), step_category (by decide), step_category (by decide)]
  exact congrArg (fun policies => { Settings.initial branches with policies := policies })
    hpolicies

theorem run_concat (s : Settings) (calls : List PolicyCall) (call : PolicyCall) :
    run s (calls ++ [call]) = step (run s calls) call := by
  rw [run, List.foldl_append]
  rfl

/-- Each function has the policy of the last call that gives it one, and the policy it
had if there is none. -/
theorem run_policies (s : Settings) (calls : List PolicyCall) (f : FuseFunc) :
    (∃ done call rest p, calls = done ++ call :: rest ∧ call.Gives f p ∧
        (∀ c ∈ rest, ∀ q, ¬ c.Gives f q) ∧ (run s calls).policies f = p) ∨
      (∀ c ∈ calls, ∀ q, ¬ c.Gives f q) ∧
        (run s calls).policies f = s.policies f := by
  induction calls using List.reverseRecOn with
  | nil => exact .inr ⟨by simp, rfl⟩
  | append_singleton calls call ih =>
      rw [run_concat]
      by_cases hgives : ∃ p, call.Gives f p
      · obtain ⟨p, hp⟩ := hgives
        exact .inl ⟨calls, call, [], p, rfl, hp, by simp, hp.step_policies _⟩
      · have hnone : ∀ p, ¬ call.Gives f p := fun p hp => hgives ⟨p, hp⟩
        rw [step_policies_of_not_gives hnone]
        rcases ih with ⟨done, c, rest, p, rfl, hp, hrest, hpolicy⟩ | ⟨hall, hpolicy⟩
        · refine .inl ⟨done, c, rest ++ [call], p, by simp, hp, ?_, hpolicy⟩
          intro d hd
          rcases List.mem_append.mp hd with hd | hd
          · exact hrest d hd
          · exact List.mem_singleton.mp hd ▸ hnone
        · refine .inr ⟨?_, hpolicy⟩
          intro d hd
          rcases List.mem_append.mp hd with hd | hd
          · exact hall d hd
          · exact List.mem_singleton.mp hd ▸ hnone

end PolicyCall

/-! ## Reading a category -/

theorem strLe_total (s t : List Char) : strLe s t = true ∨ strLe t s = true := by
  induction s generalizing t with
  | nil => exact .inl rfl
  | cons a s ih =>
      cases t with
      | nil => exact .inr rfl
      | cons b t =>
          rcases Nat.lt_trichotomy a.toNat b.toNat with hlt | heq | hgt
          · simp [strLe, hlt]
          · obtain rfl := Char.toNat_inj.mp heq
            simpa [strLe] using ih t
          · simp [strLe, hgt]

theorem strLe_trans {s t u : List Char} (hst : strLe s t = true)
    (htu : strLe t u = true) : strLe s u = true := by
  induction s generalizing t u with
  | nil => rfl
  | cons a s ih =>
      cases t with
      | nil => cases hst
      | cons b t =>
          cases u with
          | nil => cases htu
          | cons c u =>
              simp only [strLe, Bool.or_eq_true, Bool.and_eq_true,
                decide_eq_true_eq] at hst htu ⊢
              rcases hst with hab | ⟨rfl, hst⟩
              · rcases htu with hbc | ⟨rfl, -⟩
                · exact .inl (Nat.lt_trans hab hbc)
                · exact .inl hab
              · rcases htu with hbc | ⟨rfl, htu⟩
                · exact .inl hbc
                · exact .inr ⟨rfl, ih hst htu⟩

theorem strLe_antisymm {s t : List Char} (hst : strLe s t = true)
    (hts : strLe t s = true) : s = t := by
  induction s generalizing t with
  | nil =>
      cases t with
      | nil => rfl
      | cons b t => cases hts
  | cons a s ih =>
      cases t with
      | nil => cases hst
      | cons b t =>
          simp only [strLe, Bool.or_eq_true, Bool.and_eq_true,
            decide_eq_true_eq] at hst hts
          rcases hst with hab | ⟨rfl, hst⟩
          · rcases hts with hba | ⟨rfl, -⟩
            · exact absurd hab (Nat.lt_asymm hba)
            · exact absurd hab (Nat.lt_irrefl _)
          · rcases hts with hba | ⟨-, hts⟩
            · exact absurd hba (Nat.lt_irrefl _)
            · rw [ih hst hts]

def StrictlySorted (strs : List (List Char)) : Prop :=
  strs.Pairwise fun s t => strLe s t = true ∧ s ≠ t

theorem sortUnique_eq_dedup (strs : List (List Char)) :
    sortUnique strs = (strs.insertionSort fun s t => strLe s t = true).dedup := by
  have : Std.Total fun s t : List Char => strLe s t = true := ⟨strLe_total⟩
  have : IsTrans (List Char) fun s t => strLe s t = true := ⟨fun _ _ _ => strLe_trans⟩
  have : Std.Antisymm fun s t : List Char => strLe s t = true :=
    ⟨fun _ _ => strLe_antisymm⟩
  exact (List.pairwise_insertionSort (fun s t => strLe s t = true)
    strs).destutter_eq_dedup

theorem mem_sortUnique {strs : List (List Char)} {str : List Char} :
    str ∈ sortUnique strs ↔ str ∈ strs := by
  rw [sortUnique_eq_dedup, List.mem_dedup]
  exact List.mem_insertionSort _

theorem strictlySorted_sortUnique (strs : List (List Char)) :
    StrictlySorted (sortUnique strs) := by
  have : Std.Total fun s t : List Char => strLe s t = true := ⟨strLe_total⟩
  have : IsTrans (List Char) fun s t => strLe s t = true := ⟨fun _ _ _ => strLe_trans⟩
  rw [sortUnique_eq_dedup]
  have hsorted := (List.pairwise_insertionSort (fun s t => strLe s t = true)
    strs).sublist (List.dedup_sublist _)
  exact hsorted.and (List.nodup_dedup _)

theorem Policy.str_ne_nil (p : Policy) : p.str ≠ [] := by
  cases p <;> decide

theorem join_ne_nil {sep : Char} {vec : List (List Char)} (hne : vec ≠ [])
    (h : ∀ p ∈ vec, p ≠ []) : join sep vec ≠ [] := by
  obtain ⟨p, ps, rfl⟩ := List.exists_cons_of_ne_nil hne
  have hp : p ≠ [] := h p List.mem_cons_self
  cases ps with
  | nil => simpa [join] using hp
  | cons q qs => simp [join]

theorem getxattrControlfile_name (env : ControlEnv) (c : Control) (k : Key)
    (count : ℕ) (h : getxattrControlfileValue env c.settings k.segments ≠ []) :
    getxattrControlfile env c k.name count =
      getxattrFromString count (getxattrControlfileValue env c.settings k.segments) := by
  have huser : ¬ ("user".toList ≠ "user".toList ∨
      "mergerfs".toList ≠ "mergerfs".toList) := by decide
  unfold getxattrControlfile
  rw [k.split_name]
  simp only [if_neg huser, if_neg h]
  rfl

theorem Key.name_category (cat : Category) :
    (Key.category cat).name = "user.mergerfs.category.".toList ++ cat.str := by
  cases cat <;> decide

theorem getxattrControlfile_category (env : ControlEnv) (c : Control)
    (cat : Category) (count : ℕ) :
    ∃ strs, StrictlySorted strs ∧
      (∀ str, str ∈ strs ↔
        ∃ f : FuseFunc, f.category = cat ∧ (c.settings.policies f).str = str) ∧
      getxattrControlfile env c ("user.mergerfs.category.".toList ++ cat.str) count =
        getxattrFromString count (join ',' strs) := by
  let funcs := FuseFunc.fusefuncs.filter fun f => decide (f.category = cat)
  let strs := sortUnique (funcs.map fun f => (c.settings.policies f).str)
  have hmem : ∀ str, str ∈ strs ↔
      ∃ f : FuseFunc, f.category = cat ∧ (c.settings.policies f).str = str := by
    intro str
    rw [mem_sortUnique, List.mem_map]
    simp [funcs, FuseFunc.mem_fusefuncs]
  have hfind : Category.find cat.str = some cat := Category.find_eq_some_iff.mpr rfl
  have hvalue : getxattrControlfileValue env c.settings (Key.category cat).segments =
      join ',' strs := by
    change getxattrControlfileCategoryPolicy c.settings cat.str = _
    simp only [getxattrControlfileCategoryPolicy, hfind]
    rfl
  have hfunc : ∃ f : FuseFunc, f.category = cat := by
    cases cat with
    | action => exact ⟨.chmod, rfl⟩
    | create => exact ⟨.create, rfl⟩
    | search => exact ⟨.access, rfl⟩
  have hne : join ',' strs ≠ [] := by
    obtain ⟨f, hf⟩ := hfunc
    apply join_ne_nil
    · exact List.ne_nil_of_mem ((hmem _).mpr ⟨f, hf, rfl⟩)
    · intro str hstr
      obtain ⟨g, -, rfl⟩ := (hmem str).mp hstr
      exact Policy.str_ne_nil _
  refine ⟨strs, strictlySorted_sortUnique _, hmem, ?_⟩
  rw [← Key.name_category, getxattrControlfile_name env c _ count (hvalue ▸ hne), hvalue]

/-- From a new `Config` on, a call succeeds exactly when both of its names are known,
and changes nothing otherwise; each function has the policy of the last call that gave
it one, or the default of its category; and a category reads as the strictly sorted
list of the policies of its functions. -/
theorem policies_last_call (branches : Branches) (policies : FuseFunc → Policy)
    (calls : List PolicyCall) :
    (∀ done call rest, calls = done ++ call :: rest →
      ((∃ s, call.apply (PolicyCall.run (PolicyCall.fresh branches policies) done) = .ok s) ↔
        call.Known) ∧
      (¬ call.Known → PolicyCall.run (PolicyCall.fresh branches policies) (done ++ [call]) =
        PolicyCall.run (PolicyCall.fresh branches policies) done)) ∧
    (∀ f : FuseFunc,
      (∃ done call rest p, calls = done ++ call :: rest ∧ call.Gives f p ∧
          (∀ c ∈ rest, ∀ q, ¬ c.Gives f q) ∧
          (PolicyCall.run (PolicyCall.fresh branches policies) calls).policies f = p) ∨
        (∀ c ∈ calls, ∀ q, ¬ c.Gives f q) ∧
          (PolicyCall.run (PolicyCall.fresh branches policies) calls).policies f =
            match f.category with
            | .action => .epall
            | .create => .epmfs
            | .search => .ff) ∧
    ∀ (env : ControlEnv) (openCache : PolicyCache) (cat : Category) (count : ℕ),
      ∃ strs, StrictlySorted strs ∧
        (∀ str, str ∈ strs ↔ ∃ f : FuseFunc, f.category = cat ∧
          ((PolicyCall.run (PolicyCall.fresh branches policies) calls).policies f).str = str) ∧
        getxattrControlfile env
            ⟨PolicyCall.run (PolicyCall.fresh branches policies) calls, openCache⟩
            ("user.mergerfs.category.".toList ++ cat.str) count =
          getxattrFromString count (join ',' strs) := by
  refine ⟨?_, ?_, ?_⟩
  · intro done call rest _
    refine ⟨call.exists_apply_iff _, ?_⟩
    intro hunknown
    rw [PolicyCall.run_concat, PolicyCall.step_of_not_known hunknown]
  · intro f
    have hrun := PolicyCall.run_policies (PolicyCall.fresh branches policies) calls f
    rwa [PolicyCall.fresh_eq] at hrun ⊢
  · intro env openCache cat count
    exact getxattrControlfile_category env ⟨_, openCache⟩ cat count

end Mergerfs
