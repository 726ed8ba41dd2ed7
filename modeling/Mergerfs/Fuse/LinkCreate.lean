import Mergerfs.Fuse.Link

/-!
# Links that create paths

The mode that creates paths asks the create policy in the place of the link policy
and the link policy in the place of the search policy. `Creates` describes the calls
of its loop. What they have to do with the calls asked for is a matter of what the
four policies return, and with the mode that preserves paths this says when a link
obeys its policies.
-/

namespace Mergerfs

open Errno Program

section Create

variable {cfg : Config} {oldpath newpath : FusePath} {basepaths : List Path}
  {base src : Path} {search : Probe} {tr t : Trace}

def CreateStep (oldpath newpath : FusePath) (src : Path) (basepaths : List Path)
    (t₁ : Trace) (e : Event Call Ans) (_ : Trace) : Prop :=
  match e with
  | ⟨.clonepath fromsrc tosrc relative, _⟩ =>
      fromsrc = src ∧ tosrc ∈ basepaths ∧ relative = dirname newpath.path ∧
        relative ≠ []
  | ⟨.link oldfullpath newfullpath, _⟩ =>
      ∃ b ∈ basepaths, oldfullpath = make b oldpath.path ∧
        newfullpath = make b newpath.path ∧
        (dirname newpath.path = [] ∨ src = b ∨
          t₁.getLast? =
            some ⟨.clonepath src b (dirname newpath.path), .ok ()⟩)
  | ⟨.probe _ _, _⟩ => False
  | _ => True

theorem CreateStep.mono {basepaths' : List Path} {t₁ t₂ t₃ : Trace}
    {e : Event Call Ans} (tr : Trace) (hsub : ∀ b ∈ basepaths, b ∈ basepaths')
    (h : CreateStep oldpath newpath src basepaths t₁ e t₂) :
    CreateStep oldpath newpath src basepaths' (tr ++ t₁) e t₃ := by
  obtain ⟨c, rv⟩ := e
  cases c with
  | clonepath fromsrc tosrc relative =>
      exact ⟨h.1, hsub _ h.2.1, h.2.2⟩
  | link oldfullpath newfullpath =>
      obtain ⟨b, hb, hold, hnew, hprep⟩ := h
      refine ⟨b, hsub b hb, hold, hnew, hprep.imp_right (Or.imp_right ?_)⟩
      intro hlast
      simp [List.getLast?_append, hlast]
  | probe type fusepath => exact h
  | _ => trivial

structure Creates (oldpath newpath : FusePath) (src : Path)
    (basepaths : List Path) (tr : Trace) : Prop where
  complete : ∀ b ∈ basepaths, TriedOn oldpath newpath b tr ∨ b ∈ notClonedTo tr
  steps : Everywhere (CreateStep oldpath newpath src basepaths) tr

theorem Creates.append {basepaths' : List Path}
    (h : Creates oldpath newpath src basepaths tr)
    (h' : Creates oldpath newpath src basepaths' t) :
    Creates oldpath newpath src (basepaths ++ basepaths') (tr ++ t) where
  complete b hb := by
    rw [triedOn_append, notClonedTo, List.filterMap_append, List.mem_append]
    rcases List.mem_append.mp hb with hb | hb
    · exact (h.complete b hb).imp .inl .inl
    · exact (h'.complete b hb).imp .inr .inr
  steps := by
    rw [everywhere_append]
    refine ⟨h.steps.imp fun t₁ e t₂ hstep => ?_,
      h'.steps.imp fun t₁ e t₂ hstep => ?_⟩
    · exact hstep.mono [] (by simp +contextual)
    · exact hstep.mono tr (by simp +contextual)

theorem exec_linkCloneThen {rv : Rv}
    (h : Exec (cloneThen src base (dirname newpath.path)
      (sys (.link (make base oldpath.path) (make base newpath.path)))) t rv) :
    Creates oldpath newpath src [base] t := by
  obtain ⟨t₁, rv₁, t₂, rfl, h₁, h₂⟩ := exec_bind.mp h
  rcases exec_issue (c := ⟨src, base, dirname newpath.path⟩) h₁ with
    ⟨hpass, rfl, rfl⟩ | ⟨hpass, rfl⟩
  · obtain rfl := exec_call.mp h₂
    refine ⟨by simp, ?_⟩
    simp only [List.nil_append, everywhere_cons]
    refine ⟨⟨base, List.mem_singleton_self base, rfl, rfl, ?_⟩, everywhere_nil⟩
    by_contra hne
    simp_all [passedOn]
  · have hdir : dirname newpath.path ≠ [] := by
      intro hdir
      simp [passedOn, hdir] at hpass
    have hclone : ∀ rv t₂, CreateStep oldpath newpath src [base] []
        ⟨.clonepath src base (dirname newpath.path), rv⟩ t₂ :=
      fun _ _ => ⟨rfl, List.mem_singleton_self base, rfl, hdir⟩
    cases rv₁ with
    | error e =>
        obtain ⟨rfl, rfl⟩ := exec_pure.mp h₂
        refine ⟨by simp [notClonedTo], ?_⟩
        simp only [List.append_nil, everywhere_cons]
        exact ⟨hclone _ _, everywhere_nil⟩
    | ok u =>
        obtain rfl := exec_call.mp h₂
        refine ⟨by simp, ?_⟩
        simp only [List.cons_append, List.nil_append, everywhere_cons]
        exact ⟨hclone _ _, ⟨base, List.mem_singleton_self base, rfl, rfl,
          .inr (.inr rfl)⟩, everywhere_nil⟩

theorem exec_linkCreateLoop {r : ℤ}
    (h : Exec (callLoop basepaths fun b =>
      cloneThen src b (dirname newpath.path)
        (sys (.link (make b oldpath.path) (make b newpath.path)))) t r) :
    Creates oldpath newpath src basepaths t :=
  exec_callLoop (Creates oldpath newpath src) ⟨by simp, by simp⟩
    (fun _ _ _ _ _ hI hcore => hI.append (exec_linkCloneThen hcore)) h

theorem exists_link_of_triedOn {b : Path} (h : TriedOn oldpath newpath b tr) :
    ∃ t₁ rv t₂, tr =
      t₁ ++ ⟨.link (make b oldpath.path) (make b newpath.path), rv⟩ :: t₂ := by
  obtain ⟨⟨c, rv⟩, hmem, heq⟩ := List.mem_filterMap.mp h
  cases c <;> simp at heq
  obtain ⟨rfl, rfl⟩ := heq
  obtain ⟨t₁, t₂, htr⟩ := List.append_of_mem hmem
  exact ⟨t₁, rv, t₂, htr⟩

theorem exists_clonepath_of_notClonedTo {b : Path} (h : b ∈ notClonedTo tr) :
    ∃ t₁ fromsrc relative rv t₂,
      tr = t₁ ++ ⟨.clonepath fromsrc b relative, rv⟩ :: t₂ := by
  obtain ⟨e, hmem, heq⟩ := List.mem_filterMap.mp h
  split at heq
  · obtain rfl := Option.some.inj heq
    obtain ⟨t₁, t₂, htr⟩ := List.append_of_mem hmem
    exact ⟨t₁, _, _, _, t₂, htr⟩
  · cases heq

/-- The only search is the one before the loop. -/
theorem Creates.lastSearch_cons {dir : Path} {t₁ t₂ : Trace}
    (h : Creates oldpath newpath src basepaths t) (heq : t = t₁ ++ t₂) :
    lastSearch (⟨.probe .search dir, search⟩ :: t₁) = some search := by
  have hnone : t₁.filterMap searchRead = [] := by
    rw [List.filterMap_eq_nil_iff]
    rintro ⟨c, rv⟩ hmem
    obtain ⟨l, l', rfl⟩ := List.append_of_mem hmem
    have hstep := h.steps l ⟨c, rv⟩ (l' ++ t₂) (by simp [heq])
    cases c with
    | probe type fusepath => exact hstep.elim
    | _ => rfl
  simp [lastSearch, searchRead, hnone]

theorem Creates.mem_of_triedOn {b : Path}
    (h : Creates oldpath newpath src basepaths tr)
    (hb : TriedOn oldpath newpath b tr) : b ∈ basepaths := by
  obtain ⟨t₁, rv, t₂, heq⟩ := exists_link_of_triedOn hb
  obtain ⟨c, hc, hold, _⟩ := h.steps _ _ _ heq
  rwa [make_left_injective _ hold]

theorem Creates.mem_of_notClonedTo {b : Path}
    (h : Creates oldpath newpath src basepaths tr) (hb : b ∈ notClonedTo tr) :
    b ∈ basepaths := by
  obtain ⟨t₁, _, _, rv, t₂, heq⟩ := exists_clonepath_of_notClonedTo hb
  exact (h.steps _ _ _ heq).2.1

theorem LinksOn.of_creates {selected : List Path}
    (hmode : preservesPath cfg = false)
    (h : Creates oldpath newpath src basepaths t)
    (hlinks : LinksOn cfg oldpath newpath selected
      (⟨.probe .search (dirname newpath.path), search⟩ :: t))
    {b : Path} (hb : b ∈ basepaths) :
    b ∈ selected ∧ (searched cfg (dirname newpath.path) search []).1 = .ok () ∧
      (dirname newpath.path = [] ∨
        Picks cfg (dirname newpath.path) search src) := by
  -- a clone anywhere in the loop is from `src`, which has to be the pick
  have hsource : ∀ t₁ fromsrc tosrc relative rv t₂,
      t = t₁ ++ ⟨.clonepath fromsrc tosrc relative, rv⟩ :: t₂ →
        tosrc ∈ selected ∧ Picks cfg (dirname newpath.path) search src := by
    intro t₁ fromsrc tosrc relative rv t₂ heq
    obtain ⟨_, hsel, env, henv, hpick⟩ := hlinks.source
      (⟨.probe .search (dirname newpath.path), search⟩ :: t₁) fromsrc tosrc
      relative rv t₂ (by rw [heq]; rfl)
    rw [h.lastSearch_cons heq] at henv
    obtain rfl := Option.some.inj henv
    rw [(h.steps _ _ _ heq).1] at hpick
    exact ⟨hsel, hpick⟩
  rcases h.complete b hb with htried | hfailed
  · have hsel : b ∈ selected := hlinks.tried b htried
    obtain ⟨t₁, rv, t₂, heq⟩ := exists_link_of_triedOn htried
    obtain ⟨env, pick, henv, hpick, hprep⟩ := hlinks.prepared hmode
      (⟨.probe .search (dirname newpath.path), search⟩ :: t₁) b rv t₂
      (by rw [heq]; rfl)
    rw [h.lastSearch_cons heq] at henv
    obtain rfl := Option.some.inj henv
    refine ⟨hsel, hpick.1, ?_⟩
    rcases hprep with hdir | rfl | hlast
    · exact .inl hdir
    · obtain ⟨b, _, hold, _, hstep⟩ := h.steps _ _ _ heq
      obtain rfl := make_left_injective _ hold
      rcases hstep with hdir | rfl | hlast
      · exact .inl hdir
      · exact .inr hpick
      · obtain ⟨ys, rfl⟩ := List.getLast?_eq_some_iff.mp hlast
        exact .inr (hsource ys _ _ _ _ _ (by rw [heq, List.append_assoc]; rfl)).2
    · obtain ⟨ys, hys⟩ := List.getLast?_eq_some_iff.mp hlast
      cases ys with
      | nil => cases hys
      | cons y ys =>
          rw [List.cons_append] at hys
          obtain ⟨_, rfl⟩ := List.cons.inj hys
          exact .inr (hsource ys _ _ _ _ _
            (by rw [heq, List.append_assoc]; rfl)).2
  · obtain ⟨t₁, _, _, rv, t₂, heq⟩ := exists_clonepath_of_notClonedTo hfailed
    obtain ⟨hsel, hpick⟩ := hsource _ _ _ _ _ _ heq
    exact ⟨hsel, hpick.1, .inr hpick⟩

/-- The loop of the mode that creates paths does what is asked for when its branches
are the selected ones and its source is the pick. -/
theorem Creates.linksOn_iff {selected : List Path}
    (hmode : preservesPath cfg = false) (hne : basepaths ≠ [])
    (h : Creates oldpath newpath src basepaths t) :
    LinksOn cfg oldpath newpath selected
        (⟨.probe .search (dirname newpath.path), search⟩ :: t) ↔
      (searched cfg (dirname newpath.path) search []).1 = .ok () ∧
        (∀ b, b ∈ basepaths ↔ b ∈ selected) ∧
        (dirname newpath.path = [] ∨
          src = front (searched cfg (dirname newpath.path) search []).2) := by
  have hlast : lastSearch
      (⟨.probe .search (dirname newpath.path), search⟩ :: t) = some search :=
    h.lastSearch_cons (List.append_nil t).symm
  constructor
  · intro hlinks
    obtain ⟨b₀, hb₀⟩ := List.exists_mem_of_ne_nil _ hne
    obtain ⟨_, hs, hsrc⟩ := hlinks.of_creates hmode h hb₀
    refine ⟨hs, fun b => ⟨fun hb => (hlinks.of_creates hmode h hb).1, ?_⟩,
      hsrc.imp_right fun hpick => hpick.2.symm⟩
    intro hb
    rcases hlinks.complete b hb with htried | hfailed | ⟨_, env, henv, hfail⟩
    · exact h.mem_of_triedOn htried
    · exact h.mem_of_notClonedTo hfailed
    · rw [hlast] at henv
      obtain rfl := Option.some.inj henv
      exact absurd hs hfail
  · rintro ⟨hs, hsame, hsrc⟩
    refine ⟨fun b hb => (hsame b).mp (h.mem_of_triedOn hb), fun b hb =>
      (h.complete b ((hsame b).mpr hb)).imp_right .inl, ?_, by simp [hmode], ?_⟩
    · intro t₁ fromsrc tosrc relative rv t₂ heq
      cases t₁ with
      | nil => cases heq
      | cons e t₁ =>
          rw [List.cons_append] at heq
          obtain ⟨rfl, htail⟩ := List.cons.inj heq
          obtain ⟨rfl, hto, rfl, hdir⟩ := h.steps _ _ _ htail
          exact ⟨rfl, (hsame _).mp hto, search, h.lastSearch_cons htail, hs,
            (hsrc.resolve_left hdir).symm⟩
    · intro _ t₁ b rv t₂ heq
      cases t₁ with
      | nil => cases heq
      | cons e t₁ =>
          rw [List.cons_append] at heq
          obtain ⟨rfl, htail⟩ := List.cons.inj heq
          obtain ⟨c, _, hold, _, hstep⟩ := h.steps _ _ _ htail
          obtain rfl := make_left_injective _ hold
          refine ⟨search, _, h.lastSearch_cons htail, ⟨hs, rfl⟩, ?_⟩
          rcases hsrc with hdir | rfl
          · exact .inl hdir
          · refine hstep.imp_right (Or.imp_right ?_)
            intro hlast
            simp [List.getLast?_cons, hlast]

end Create

/-! ## Both modes -/

/-- In the mode that creates paths the create policy selects the branches the link
policy selects, and the link policy picks the source the search policy picks. -/
def CreateAgrees (cfg : Config) (oldpath newpath : FusePath) (env : Probe)
    (t : Trace) : Prop :=
  if (acted cfg cfg.create oldpath env).1 = .ok () then
    ∃ search t', t = ⟨.probe .search (dirname newpath.path), search⟩ :: t' ∧
      if (cfg.link.func search .search cfg.branches (dirname newpath.path)
          cfg.minfreespace []).1 = .ok () then
        (searched cfg (dirname newpath.path) search []).1 = .ok () ∧
          (∀ b, b ∈ (acted cfg cfg.create oldpath env).2 ↔
            b ∈ (acted cfg cfg.link oldpath env).2) ∧
          (dirname newpath.path = [] ∨
            front (cfg.link.func search .search cfg.branches
              (dirname newpath.path) cfg.minfreespace []).2 =
                front (searched cfg (dirname newpath.path) search []).2)
      else
        (acted cfg cfg.link oldpath env).2 = [] ∨
          (searched cfg (dirname newpath.path) search []).1 ≠ .ok ()
  else (acted cfg cfg.link oldpath env).2 = []

/-- In the mode that preserves paths no clone is displaced by what the create policy
returned; in the mode that creates paths the policies asked agree with those that
should have been. -/
def PoliciesAgree (cfg : Config) (oldpath newpath : FusePath) (tr : Trace) :
    Prop :=
  ∃ env t, tr = ⟨.probe .action oldpath.path, env⟩ :: t ∧
    if preservesPath cfg then
      ∀ t₁ b create search t₂,
        t = t₁ ++ (missing oldpath newpath b create search ++ t₂) →
          KeepsClone cfg b (dirname newpath.path) create search
    else CreateAgrees cfg oldpath newpath env t

section Modes

variable {cfg : Config} {oldpath newpath : FusePath} {selected : List Path}

theorem linksOn_nil :
    LinksOn cfg oldpath newpath selected [] ↔ selected = [] := by
  constructor
  · intro h
    rw [List.eq_nil_iff_forall_not_mem]
    intro b hb
    rcases h.complete b hb with h | h | ⟨_, env, henv, _⟩
    · exact triedOn_nil h
    · simp [notClonedTo] at h
    · simp [lastSearch] at henv
  · rintro rfl
    constructor <;> simp [missing]

theorem linksOn_search {search : Probe} (hmode : preservesPath cfg = false) :
    LinksOn cfg oldpath newpath selected
        [⟨.probe .search (dirname newpath.path), search⟩] ↔
      selected = [] ∨
        (searched cfg (dirname newpath.path) search []).1 ≠ .ok () := by
  have hsingle : ∀ {e e' : Event Call Ans} {t₁ t₂ : Trace},
      [e] = t₁ ++ e' :: t₂ → e = e' := by
    intro e e' t₁ t₂ heq
    have hmem : e' ∈ [e] := by simp [heq]
    exact (List.mem_singleton.mp hmem).symm
  constructor
  · intro h
    rw [or_iff_not_imp_right, not_not, List.eq_nil_iff_forall_not_mem]
    intro hs b hb
    rcases h.complete b hb with h | h | ⟨_, env, henv, hfail⟩
    · simp at h
    · simp [notClonedTo] at h
    · obtain rfl := Option.some.inj henv
      exact hfail hs
  · intro h
    refine ⟨by simp, fun b hb => .inr (.inr ⟨hmode, search, rfl, ?_⟩), ?_,
      by simp [hmode], ?_⟩
    · rcases h with rfl | h
      · cases hb
      · exact h
    · intro t₁ fromsrc tosrc relative rv t₂ heq
      cases hsingle heq
    · intro _ t₁ b rv t₂ heq
      cases hsingle heq

theorem exec_linkPreservePath {tr : Trace} {rv : ℤ}
    (hmode : preservesPath cfg = true)
    (h : Exec (linkPreservePath cfg oldpath newpath) tr rv) :
    ∃ env t, tr = ⟨.probe .action oldpath.path, env⟩ :: t ∧
      (LinksOn cfg oldpath newpath (acted cfg cfg.link oldpath env).2 t ↔
        ∀ t₁ b create search t₂,
          t = t₁ ++ (missing oldpath newpath b create search ++ t₂) →
            KeepsClone cfg b (dirname newpath.path) create search) := by
  obtain ⟨env, t, rfl, hcont⟩ := exec_withPaths h
  refine ⟨env, t, rfl, ?_⟩
  rcases hcont with ⟨rfl, e, herr, _⟩ | ⟨_, hloop⟩
  · have hnil : (acted cfg cfg.link oldpath env).2 = [] := Policy.func_eq_nil herr
    simp [linksOn_nil, hnil, missing]
  · exact (exec_linkPreserveLoop hloop).linksOn_iff hmode

theorem exec_linkCreatePath {tr : Trace} {rv : ℤ}
    (hmode : preservesPath cfg = false)
    (h : Exec (linkCreatePath cfg oldpath newpath) tr rv) :
    ∃ env t, tr = ⟨.probe .action oldpath.path, env⟩ :: t ∧
      (LinksOn cfg oldpath newpath (acted cfg cfg.link oldpath env).2 t ↔
        CreateAgrees cfg oldpath newpath env t) := by
  obtain ⟨env, t, rfl, hcont⟩ := exec_withPaths h
  refine ⟨env, t, rfl, ?_⟩
  rcases hcont with ⟨rfl, e, herr, _⟩ | ⟨hok, hcont⟩
  · have hfail : (acted cfg cfg.create oldpath env).1 ≠ .ok () := by
      rw [acted, herr]
      simp
    rw [linksOn_nil, CreateAgrees, if_neg hfail]
  · obtain ⟨search, t, rfl, hsearch⟩ := exec_withPaths hcont
    have hagree : ∀ P : Probe → Prop, (∃ search' t',
        ⟨.probe .search (dirname newpath.path), search⟩ :: t =
          (⟨.probe .search (dirname newpath.path), search'⟩ :: t' : Trace) ∧
        P search') ↔ P search := by
      intro P
      constructor
      · rintro ⟨search', t', heq, hP⟩
        cases heq
        exact hP
      · intro hP
        exact ⟨search, t, rfl, hP⟩
    have hacted : (acted cfg cfg.create oldpath env).1 = .ok () := hok
    rw [CreateAgrees, if_pos hacted, hagree]
    rcases hsearch with ⟨rfl, e, herr, _⟩ | ⟨hlink, hloop⟩
    · rw [linksOn_search hmode, if_neg (by rw [herr]; simp)]
    · rw [if_pos hlink]
      exact (exec_linkCreateLoop hloop).linksOn_iff hmode
        (Policy.func_ne_nil hok)

end Modes

/-- A link acts on the branches the link policy selects, and clones from the pick of
the search policy, exactly when the policies agree. -/
theorem link_obeys_iff (cfg : Config) (oldpath newpath : FusePath) (tr : Trace)
    (rv : ℤ) (h : Exec (link cfg oldpath newpath) tr rv) :
    LinkObeys cfg oldpath newpath tr ↔ PoliciesAgree cfg oldpath newpath tr := by
  obtain ⟨env, t, rfl, hiff⟩ : ∃ env t,
      tr = ⟨.probe .action oldpath.path, env⟩ :: t ∧
        (LinksOn cfg oldpath newpath (acted cfg cfg.link oldpath env).2 t ↔
          if preservesPath cfg then
            ∀ t₁ b create search t₂,
              t = t₁ ++ (missing oldpath newpath b create search ++ t₂) →
                KeepsClone cfg b (dirname newpath.path) create search
          else CreateAgrees cfg oldpath newpath env t) := by
    unfold link at h
    split_ifs at h ⊢ with hmode
    · exact exec_linkPreservePath hmode h
    · exact exec_linkCreatePath (by simpa using hmode) h
  constructor
  · rintro ⟨env', t', heq, hlinks⟩
    cases heq
    exact ⟨env, t, rfl, hiff.mp hlinks⟩
  · rintro ⟨env', t', heq, hagree⟩
    cases heq
    exact ⟨env, t, rfl, hiff.mpr hagree⟩

/-- When the file and the directory are on one branch only, all policies agree. -/
theorem link_obeys_iff_succeeding :
    LinkObeys { Config.initial twoBranches with ignorepponrename := true }
      fileX fileY (Program.run succeeding (link { Config.initial twoBranches with
        ignorepponrename := true } fileX fileY) []).2 := by
  refine (link_obeys_iff _ _ _ _ _ (exec_run_nil succeeding _)).mpr
    ⟨_, _, rfl, ?_⟩
  rw [if_neg (by decide), CreateAgrees, if_pos (by decide)]
  refine ⟨_, _, rfl, ?_⟩
  rw [if_pos (by decide)]
  exact ⟨rfl, fun _ => Iff.rfl, .inr rfl⟩

def bothServe (rv : Call → Rv) : Trace → (c : Call) → Ans c :=
  answers (fun _ _ => holding [['/', 'a', '/', 'x'], ['/', 'b', '/', 'x'],
    ['/', 'a', '/', 'd'], ['/', 'b', '/', 'd']]) rv

/-- With `mfs` as the create policy the link is made on the branch that policy
picks, and not on the other one the link policy selects. With the default policies
and a kernel that cannot link, the parent is not cloned from the branch the search
finds. -/
theorem link_disobeys :
    (∃ tr, Exec (link { Config.initial twoBranches with create := .mfs } fileX
        fileY) tr 0 ∧ linkedPaths tr = [(['/', 'b', '/', 'x'],
          ['/', 'b', '/', 'd', '/', 'y'])] ∧
      ¬ LinkObeys { Config.initial twoBranches with create := .mfs } fileX fileY
        tr) ∧
    ∃ tr rv, Exec (link (Config.initial twoBranches) fileX fileY) tr rv ∧
      ¬ LinkObeys (Config.initial twoBranches) fileX fileY tr := by
  constructor
  · refine ⟨_, exec_run_nil (bothServe fun _ => .ok ()) _, rfl, ?_⟩
    rintro ⟨env, t, heq, hlinks⟩
    cases heq
    rcases hlinks.complete ['/', 'a'] (by decide) with h | h | ⟨_, env, henv, h⟩
    · exact absurd h (by change _ ∉ _; decide)
    · exact absurd h (by decide)
    · cases henv
      exact h rfl
  · refine ⟨_, _, exec_run_nil (bothServe fun _ => .error ENOENT) _, ?_⟩
    rintro ⟨env, t, heq, hlinks⟩
    cases heq
    -- the second branch is the one the create policy picks
    rcases hlinks.retried rfl [_, _] ['/', 'b'] _ _ _ rfl ['/', 'a'] ⟨rfl, rfl⟩
      with h | h | h
    · exact absurd h (by decide)
    · exact absurd h (by decide)
    · cases h

end Mergerfs
