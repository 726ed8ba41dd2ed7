import Mergerfs.Fuse.Clone

/-!
# Links

A link should act like a rename without the removals: the branches are those the
link policy selects in the action category for the old name, and where the parent
of the new name has to be cloned it is cloned from the branch the search policy
picks. `LinkObeys` says this of the trace of a link.

The mode that preserves paths tries the selected branches, but clones from the
first path of a vector the create policy has filled. `Preserves` describes its
calls, one branch after the other, and `Preserves.linksOn_iff` says when they are
the ones asked for.
-/

namespace Mergerfs

open Errno Program

/-! ## Reading a trace -/

def linkedPaths (tr : Trace) : List (Path × Path) :=
  tr.filterMap fun
    | ⟨.link oldpath newpath, _⟩ => some (oldpath, newpath)
    | _ => none

def notClonedTo (tr : Trace) : List Path :=
  tr.filterMap fun
    | ⟨.clonepath _ tosrc _, .error _⟩ => some tosrc
    | _ => none

def searchRead : Event Call Ans → Option Probe
  | ⟨.probe .search _, env⟩ => some env
  | _ => none

def lastSearch (tr : Trace) : Option Probe := (tr.filterMap searchRead).getLast?

def nextClone : Trace → Option CloneCall
  | ⟨.clonepath fromsrc tosrc relative, _⟩ :: _ =>
      some ⟨fromsrc, tosrc, relative⟩
  | _ => none

def TriedOn (oldpath newpath : FusePath) (base : Path) (tr : Trace) : Prop :=
  (make base oldpath.path, make base newpath.path) ∈ linkedPaths tr

/-- A link failed with `ENOENT`, and the create policy and the search policy were
asked for the parent. -/
def missing (oldpath newpath : FusePath) (base : Path) (create search : Probe) :
    Trace :=
  [⟨.link (make base oldpath.path) (make base newpath.path), .error ENOENT⟩,
    ⟨.probe .create (dirname newpath.path), create⟩,
    ⟨.probe .search (dirname newpath.path), search⟩]

/-! ## What the policies ask for -/

def Picks (cfg : Config) (dir : Path) (env : Probe) (src : Path) : Prop :=
  (searched cfg dir env []).1 = .ok () ∧ front (searched cfg dir env []).2 = src

/-- The calls `tr` are those of a link on the branches `basepaths`, with the parent
cloned from the pick of the search policy. -/
structure LinksOn (cfg : Config) (oldpath newpath : FusePath)
    (basepaths : List Path) (tr : Trace) : Prop where
  tried : ∀ b, TriedOn oldpath newpath b tr → b ∈ basepaths
  complete : ∀ b ∈ basepaths, TriedOn oldpath newpath b tr ∨ b ∈ notClonedTo tr ∨
    preservesPath cfg = false ∧ ∃ env, lastSearch tr = some env ∧
      (searched cfg (dirname newpath.path) env []).1 ≠ .ok ()
  /-- What is cloned is the parent, to one of the branches and from the pick. -/
  source : ∀ t₁ fromsrc tosrc relative rv t₂,
    tr = t₁ ++ ⟨.clonepath fromsrc tosrc relative, rv⟩ :: t₂ →
      relative = dirname newpath.path ∧ tosrc ∈ basepaths ∧
        ∃ env, lastSearch t₁ = some env ∧
          Picks cfg (dirname newpath.path) env fromsrc
  /-- In the mode that preserves paths a missing parent is cloned. -/
  retried : preservesPath cfg = true → ∀ t₁ b create search t₂,
    tr = t₁ ++ (missing oldpath newpath b create search ++ t₂) →
      ∀ src, Picks cfg (dirname newpath.path) search src →
        dirname newpath.path = [] ∨ src = b ∨
          nextClone t₂ = some ⟨src, b, dirname newpath.path⟩
  /-- In the mode that creates paths the parent is cloned before each link. -/
  prepared : preservesPath cfg = false → ∀ t₁ b rv t₂,
    tr = t₁ ++ ⟨.link (make b oldpath.path) (make b newpath.path), rv⟩ :: t₂ →
      ∃ env src, lastSearch t₁ = some env ∧
        Picks cfg (dirname newpath.path) env src ∧
        (dirname newpath.path = [] ∨ src = b ∨
          t₁.getLast? =
            some ⟨.clonepath src b (dirname newpath.path), .ok ()⟩)

def acted (cfg : Config) (p : Policy) (oldpath : FusePath) (env : Probe) :
    Policy.Result :=
  p.func env .action cfg.branches oldpath.path cfg.minfreespace []

/-- The link acts on the branches the link policy selects. -/
def LinkObeys (cfg : Config) (oldpath newpath : FusePath) (tr : Trace) : Prop :=
  ∃ env t, tr = ⟨.probe .action oldpath.path, env⟩ :: t ∧
    LinksOn cfg oldpath newpath (acted cfg cfg.link oldpath env).2 t

/-! ## The mode that preserves paths -/

def passedOn (c : Option CloneCall) : Option CloneCall :=
  c.filter fun c => c.relative ≠ [] ∧ c.fromsrc ≠ c.tosrc

theorem exec_issue {c : CloneCall} {t : Trace} {rv : Rv} (h : Exec c.issue t rv) :
    (passedOn (some c) = none ∧ t = [] ∧ rv = .ok ()) ∨
      (passedOn (some c) = some c ∧
        t = [⟨.clonepath c.fromsrc c.tosrc c.relative, rv⟩]) := by
  unfold CloneCall.issue clonepathAsRoot at h
  split_ifs at h with hrel hsame
  · exact .inl ⟨by simp [passedOn, hrel], exec_pure.mp h⟩
  · exact .inl ⟨by simp [passedOn, hsame], exec_pure.mp h⟩
  · exact .inr ⟨by simp [passedOn, hrel, hsame], exec_call.mp h⟩

/-- The rule for a loop over the branches: the invariant sees the branches done and
the trace so far. -/
theorem exec_callLoop {core : Path → Prog Rv} {basepaths : List Path}
    {tr : Trace} {r : ℤ} (I : List Path → Trace → Prop) (h₀ : I [] [])
    (hstep : ∀ done b tr t rv, I done tr → Exec (core b) t rv →
      I (done ++ [b]) (tr ++ t))
    (h : Exec (callLoop basepaths core) tr r) : I basepaths tr := by
  obtain ⟨t₁, error, t₂, rfl, h₁, h₂⟩ := exec_bind.mp h
  obtain ⟨rfl, rfl⟩ := exec_pure.mp h₂
  rw [List.append_nil]
  refine exec_foldlM (fun done _ tr => I done tr) h₀ ?_ h₁
  intro done b rest s s' tr t _ hI hex
  obtain ⟨t₁, rv, t₂, rfl, hcore, hret⟩ := exec_bind.mp hex
  obtain ⟨rfl, rfl⟩ := exec_pure.mp hret
  rw [List.append_nil]
  exact hstep done b tr t₁ rv hI hcore

section Preserve

variable {cfg : Config} {oldpath newpath : FusePath} {basepaths : List Path}
  {base : Path} {tr t : Trace}

/-- What the position of a clone and that of a search say about the calls around
them, in the links tried on `basepaths`. -/
def PreserveStep (cfg : Config) (oldpath newpath : FusePath)
    (basepaths : List Path) (t₁ : Trace) (e : Event Call Ans) (t₂ : Trace) :
    Prop :=
  match e with
  | ⟨.clonepath fromsrc tosrc relative, _⟩ =>
      ∃ b ∈ basepaths, ∃ t₀ create search,
        t₁ = t₀ ++ missing oldpath newpath b create search ∧
        WouldCreate cfg b (dirname newpath.path) create ∧
        passedOn (linkCloneCall cfg b (dirname newpath.path) create search) =
          some ⟨fromsrc, tosrc, relative⟩
  | ⟨.probe .search _, search⟩ =>
      ∃ b t₀ create,
        t₁ ++ [e] = t₀ ++ missing oldpath newpath b create search ∧
        WouldCreate cfg b (dirname newpath.path) create ∧
        nextClone t₂ =
          passedOn (linkCloneCall cfg b (dirname newpath.path) create search)
  | _ => True

theorem nextClone_append (ht : nextClone t = none) (t₂ : Trace) :
    nextClone (t₂ ++ t) = nextClone t₂ := by
  cases t₂ with
  | nil => simpa [nextClone] using ht
  | cons e t₂ =>
      obtain ⟨c, rv⟩ := e
      cases c <;> rfl

theorem PreserveStep.mono {basepaths' : List Path} {t₁ t₂ : Trace}
    {e : Event Call Ans} (tr : Trace) (hsub : ∀ b ∈ basepaths, b ∈ basepaths')
    (ht : nextClone t = none)
    (h : PreserveStep cfg oldpath newpath basepaths t₁ e t₂) :
    PreserveStep cfg oldpath newpath basepaths' (tr ++ t₁) e (t₂ ++ t) := by
  obtain ⟨c, rv⟩ := e
  cases c with
  | clonepath fromsrc tosrc relative =>
      obtain ⟨b, hb, t₀, create, search, rfl, hw, hcall⟩ := h
      exact ⟨b, hsub b hb, tr ++ t₀, create, search, by simp, hw, hcall⟩
  | probe type fusepath =>
      cases type with
      | search =>
          obtain ⟨b, t₀, create, heq, hw, hnext⟩ := h
          exact ⟨b, tr ++ t₀, create, by simp [heq], hw,
            by rw [nextClone_append ht, hnext]⟩
      | _ => trivial
  | _ => trivial

theorem triedOn_append {b : Path} :
    TriedOn oldpath newpath b (tr ++ t) ↔
      TriedOn oldpath newpath b tr ∨ TriedOn oldpath newpath b t := by
  simp [TriedOn, linkedPaths]

@[simp] theorem triedOn_nil {b : Path} : ¬ TriedOn oldpath newpath b [] := by
  simp [TriedOn, linkedPaths]

@[simp] theorem triedOn_link {b : Path} {rv : Rv} :
    TriedOn oldpath newpath b
        (⟨.link (make base oldpath.path) (make base newpath.path), rv⟩ :: t) ↔
      b = base ∨ TriedOn oldpath newpath b t := by
  simp only [TriedOn, linkedPaths, List.filterMap_cons, List.mem_cons]
  constructor
  · intro h
    exact h.imp_left fun heq => make_left_injective _ (Prod.ext_iff.mp heq).1
  · intro h
    exact h.imp_left fun heq => by rw [heq]

@[simp] theorem triedOn_probe {b : Path} {type : Category} {fusepath : Path}
    {env : Probe} :
    TriedOn oldpath newpath b (⟨.probe type fusepath, env⟩ :: t) ↔
      TriedOn oldpath newpath b t := Iff.rfl

@[simp] theorem triedOn_clonepath {b fromsrc tosrc relative : Path} {rv : Rv} :
    TriedOn oldpath newpath b
        (⟨.clonepath fromsrc tosrc relative, rv⟩ :: t) ↔
      TriedOn oldpath newpath b t := Iff.rfl

structure Preserves (cfg : Config) (oldpath newpath : FusePath)
    (basepaths : List Path) (tr : Trace) : Prop where
  triedOn_iff : ∀ b, TriedOn oldpath newpath b tr ↔ b ∈ basepaths
  noClone : nextClone tr = none
  steps : Everywhere (PreserveStep cfg oldpath newpath basepaths) tr

theorem Preserves.append {basepaths' : List Path}
    (h : Preserves cfg oldpath newpath basepaths tr)
    (h' : Preserves cfg oldpath newpath basepaths' t) :
    Preserves cfg oldpath newpath (basepaths ++ basepaths') (tr ++ t) where
  triedOn_iff b := by
    rw [triedOn_append, h.triedOn_iff, h'.triedOn_iff, List.mem_append]
  noClone := by rw [nextClone_append h'.noClone, h.noClone]
  steps := by
    rw [everywhere_append]
    refine ⟨h.steps.imp fun t₁ e t₂ hstep => ?_,
      h'.steps.imp fun t₁ e t₂ hstep => ?_⟩
    · exact hstep.mono [] (by simp +contextual) h'.noClone
    · simpa using hstep.mono tr (t := []) (by simp +contextual) rfl

theorem Preserves.congr {basepaths' : List Path}
    (hmem : ∀ b, b ∈ basepaths ↔ b ∈ basepaths')
    (h : Preserves cfg oldpath newpath basepaths tr) :
    Preserves cfg oldpath newpath basepaths' tr where
  triedOn_iff b := by rw [h.triedOn_iff, hmem]
  noClone := h.noClone
  steps := h.steps.imp fun t₁ e t₂ hstep => by
    simpa using hstep.mono [] (t := []) (fun b => (hmem b).mp) rfl

theorem preserves_link (rv : Rv) :
    Preserves cfg oldpath newpath [base]
      [⟨.link (make base oldpath.path) (make base newpath.path), rv⟩] :=
  ⟨by simp, rfl, by simp [PreserveStep]⟩

theorem preserves_helps {v : Option Rv}
    (h : Helps cfg base (dirname newpath.path)
      (linkCloneCall cfg base (dirname newpath.path)) t v) :
    Preserves cfg oldpath newpath [base]
      (⟨.link (make base oldpath.path) (make base newpath.path),
        .error ENOENT⟩ :: t) := by
  cases h with
  | elsewhere create hcreate => exact ⟨by simp, rfl, by simp [PreserveStep]⟩
  | unfound create search hcreate hcall =>
      refine ⟨by simp, rfl, ?_⟩
      simp only [everywhere_cons]
      exact ⟨trivial, trivial,
        ⟨base, [], create, rfl, hcreate, by rw [hcall]; rfl⟩, everywhere_nil⟩
  | cloned create search c tc rvc hcreate hcall hexec =>
      rcases exec_issue hexec with ⟨hpass, rfl, rfl⟩ | ⟨hpass, rfl⟩
      · refine ⟨by simp, rfl, ?_⟩
        simp only [everywhere_cons]
        exact ⟨trivial, trivial,
          ⟨base, [], create, rfl, hcreate, by rw [hcall, hpass]; rfl⟩,
          everywhere_nil⟩
      · refine ⟨by simp, rfl, ?_⟩
        simp only [everywhere_cons]
        exact ⟨trivial, trivial,
          ⟨base, [], create, rfl, hcreate, by rw [hcall, hpass]; rfl⟩,
          ⟨base, List.mem_singleton_self base, [], create, search, rfl, hcreate,
            by rw [hcall, hpass]⟩, everywhere_nil⟩

theorem exec_linkPreservePathCore {rv : Rv}
    (h : Exec (linkPreservePathCore cfg oldpath newpath base) t rv) :
    Preserves cfg oldpath newpath [base] t := by
  obtain ⟨rv₁, t', rfl, hcont⟩ := exec_sys_bind.mp h
  split_ifs at hcont with hrv
  · subst hrv
    obtain ⟨t₁, rv₂, t₂, rfl, h₁, h₂⟩ := exec_bind.mp hcont
    obtain ⟨v, hhelps, _⟩ := exec_linkClonepathIfWouldCreate h₁
    cases rv₂ with
    | error e =>
        obtain ⟨rfl, rfl⟩ := exec_pure.mp h₂
        rw [List.append_nil]
        exact preserves_helps hhelps
    | ok u =>
        obtain rfl := exec_call.mp h₂
        exact ((preserves_helps hhelps).append (preserves_link rv)).congr
          (by simp)
  · obtain ⟨rfl, rfl⟩ := exec_pure.mp hcont
    exact preserves_link rv

theorem exec_linkPreserveLoop {r : ℤ}
    (h : Exec (callLoop basepaths (linkPreservePathCore cfg oldpath newpath)) t
      r) :
    Preserves cfg oldpath newpath basepaths t :=
  exec_callLoop (Preserves cfg oldpath newpath) ⟨by simp, rfl, by simp⟩
    (fun _ _ _ _ _ hI hcore => hI.append (exec_linkPreservePathCore hcore)) h

/-! ### The source of a clone -/

def pickOr (cfg : Config) (dir : Path) (search : Probe) (base : Path) : Path :=
  if (searched cfg dir search []).1 = .ok () then
    front (searched cfg dir search []).2
  else base

/-- The paths the create policy has left in the vector do not change from where the
parent is cloned. -/
def KeepsClone (cfg : Config) (base dir : Path) (create search : Probe) : Prop :=
  dir = [] ∨
    match cfg.getattr with
    | .rand | .eprand =>
        front (search.randomShuffle ((created cfg dir create).2 ++
          (Policy.epallSearch search cfg.branches dir []).2)) =
            pickOr cfg dir search base
    | _ => base = pickOr cfg dir search base

def FromPick (cfg : Config) (base dir : Path) (search : Probe)
    (c : Option CloneCall) : Prop :=
  (∀ d, passedOn c = some d → Picks cfg dir search d.fromsrc) ∧
    ∀ src, Picks cfg dir search src →
      dir = [] ∨ src = base ∨ passedOn c = some ⟨src, base, dir⟩

theorem fromPick_none {dir : Path} {search : Probe}
    (hs : (searched cfg dir search []).1 ≠ .ok ()) :
    FromPick cfg base dir search none :=
  ⟨by simp [passedOn], fun _ hpick => absurd hpick.1 hs⟩

theorem fromPick_some {dir src : Path} {search : Probe} :
    FromPick cfg base dir search (some ⟨src, base, dir⟩) ↔
      dir = [] ∨ src = pickOr cfg dir search base := by
  by_cases hdir : dir = []
  · simp [FromPick, passedOn, hdir]
  simp only [hdir, false_or]
  by_cases hsrc : src = base
  · -- nothing is cloned, so the pick has to be the branch itself
    have hnone : passedOn (some ⟨src, base, dir⟩) = none := by
      simp [passedOn, hsrc]
    simp only [FromPick, hnone, reduceCtorEq, false_implies, implies_true,
      true_and, or_false, hdir, false_or, pickOr]
    split_ifs with hs
    · simp [Picks, hs, hsrc, eq_comm]
    · simp [Picks, hs, hsrc]
  · have hsome : passedOn (some ⟨src, base, dir⟩) =
        some ⟨src, base, dir⟩ := by
      simp [passedOn, hsrc, hdir]
    simp only [FromPick, hsome, Option.some.injEq, forall_eq', hdir, false_or,
      pickOr]
    split_ifs with hs
    · constructor
      · intro h
        exact h.1.2.symm
      · intro h
        exact ⟨⟨hs, h.symm⟩, fun p hp => .inr (by rw [h, hp.2])⟩
    · simp [Picks, hs, hsrc]

theorem fromPick_linkCloneCall {dir : Path} {create search : Probe}
    (hw : WouldCreate cfg base dir create) :
    FromPick cfg base dir search (linkCloneCall cfg base dir create search) ↔
      KeepsClone cfg base dir create search := by
  rw [linkCloneCall_eq hw]
  unfold KeepsClone
  cases cfg.getattr with
  | rand | eprand | all | epall => exact fromPick_some
  | _ =>
      by_cases hs : (searched cfg dir search []).1 = .ok ()
      · simp only [if_pos hs]
        exact fromPick_some
      · simp [fromPick_none hs, pickOr, hs]

theorem passedOn_cloneCall {dir : Path} {paths : List Path}
    {create search : Probe} {c : CloneCall}
    (h : passedOn (cloneCall cfg base dir paths create search) = some c) :
    c.tosrc = base ∧ c.relative = dir := by
  have hc := (Option.filter_eq_some_iff.mp h).1
  unfold cloneCall at hc
  split_ifs at hc
  cases hc
  exact ⟨rfl, rfl⟩

theorem eq_of_nextClone {c : CloneCall} (h : nextClone t = some c) :
    ∃ rv t', t = ⟨.clonepath c.fromsrc c.tosrc c.relative, rv⟩ :: t' := by
  unfold nextClone at h
  split at h
  · cases h
    exact ⟨_, _, rfl⟩
  · cases h

@[simp] theorem lastSearch_missing {b : Path} {create search : Probe} :
    lastSearch (tr ++ missing oldpath newpath b create search) = some search := by
  rw [lastSearch, List.filterMap_append, List.getLast?_append]
  rfl

theorem missing_injective {b : Path} {create create' search : Probe}
    (h : missing oldpath newpath base create search =
      missing oldpath newpath b create' search) : base = b ∧ create = create' := by
  simp only [missing, List.cons.injEq, Sigma.mk.injEq, Call.link.injEq,
    true_and, heq_eq_eq, and_true] at h
  exact ⟨make_left_injective _ h.1.1, h.2⟩

/-- Where the parent was missing, the create policy had picked the branch, and the
clone that follows is that of the call. -/
theorem Preserves.of_missing {create search : Probe} {t₁ t₂ : Trace}
    (h : Preserves cfg oldpath newpath basepaths
      (t₁ ++ (missing oldpath newpath base create search ++ t₂))) :
    WouldCreate cfg base (dirname newpath.path) create ∧
      nextClone t₂ = passedOn
        (linkCloneCall cfg base (dirname newpath.path) create search) := by
  obtain ⟨b, t₀, create', heq, hw, hnext⟩ :=
    h.steps (t₁ ++ (missing oldpath newpath base create search).take 2)
      ⟨.probe .search (dirname newpath.path), search⟩ t₂ (by simp [missing])
  have hcut : t₁ ++ missing oldpath newpath base create search =
      t₀ ++ missing oldpath newpath b create' search := by
    rw [← heq]
    simp [missing]
  obtain ⟨rfl, rfl⟩ := missing_injective (List.append_inj_right' hcut rfl)
  exact ⟨hw, hnext⟩

/-- In the mode that preserves paths the right branches are tried, and the parent
is cloned from the pick when the create policy does not stand in its way. -/
theorem Preserves.linksOn_iff (hmode : preservesPath cfg = true)
    (h : Preserves cfg oldpath newpath basepaths t) :
    LinksOn cfg oldpath newpath basepaths t ↔
      ∀ t₁ b create search t₂,
        t = t₁ ++ (missing oldpath newpath b create search ++ t₂) →
          KeepsClone cfg b (dirname newpath.path) create search := by
  constructor
  · intro hlinks t₁ b create search t₂ heq
    obtain ⟨hw, hnext⟩ := (heq ▸ h).of_missing
    rw [← fromPick_linkCloneCall hw]
    refine ⟨fun d hd => ?_, fun src hsrc => ?_⟩
    · obtain ⟨rv, t', rfl⟩ := eq_of_nextClone (hnext.trans hd)
      obtain ⟨_, _, env, henv, hpick⟩ :=
        hlinks.source (t₁ ++ missing oldpath newpath b create search) _ _ _ rv t'
          (by rw [heq, List.append_assoc])
      obtain rfl := Option.some.inj (lastSearch_missing.symm.trans henv)
      exact hpick
    · rw [← hnext]
      exact hlinks.retried hmode t₁ b create search t₂ heq src hsrc
  · intro hkeeps
    have hfrom : ∀ t₁ b create search t₂,
        t = t₁ ++ (missing oldpath newpath b create search ++ t₂) →
          FromPick cfg b (dirname newpath.path) search
            (linkCloneCall cfg b (dirname newpath.path) create search) := by
      intro t₁ b create search t₂ heq
      exact (fromPick_linkCloneCall (heq ▸ h).of_missing.1).mpr
        (hkeeps t₁ b create search t₂ heq)
    refine ⟨fun b => (h.triedOn_iff b).mp, fun b hb =>
      .inl ((h.triedOn_iff b).mpr hb), ?_, ?_, by simp [hmode]⟩
    · intro t₁ fromsrc tosrc relative rv t₂ heq
      obtain ⟨b, hb, t₀, create, search, rfl, hw, hcall⟩ :=
        h.steps _ _ _ heq
      obtain ⟨rfl, rfl⟩ := passedOn_cloneCall hcall
      exact ⟨rfl, hb, search, lastSearch_missing,
        (hfrom t₀ _ create search _ (by rw [heq, List.append_assoc])).1 _ hcall⟩
    · intro _ t₁ b create search t₂ heq src hsrc
      obtain ⟨_, hnext⟩ := (heq ▸ h).of_missing
      rw [hnext]
      exact (hfrom t₁ b create search t₂ heq).2 src hsrc

end Preserve

end Mergerfs
