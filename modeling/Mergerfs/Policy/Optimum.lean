import Mergerfs.Policy.Search

/-!
# The branch a policy picks

In the create and action categories the policies `ff`, `lfs`, `lus`, `mfs`, their
`ep` counterparts and `newest` return one branch. `Optimal` says which: the first of
the branches that may be used, or one whose figure no other branch that may be used
beats. It speaks of the answers of the kernel only, so that the seeds of the loops
and the place of their comparisons do not enter.

A create policy that fails names one reason for all the branches it turned down. The
reason it names is the worst by `calcError`, where a read-only branch counts for
more than a full one.
-/

namespace Mergerfs

namespace Policy

open Errno

def picksOne : Policy → Bool
  | .ff | .epff | .lfs | .eplfs | .lus | .eplus | .mfs | .epmfs | .newest => true
  | _ => false

def Eligible (env : Probe) (p : Policy) (type : Category) (fusepath : Path)
    (minfreespace : UInt64) (b : Branch) : Prop :=
  match type with
  | .create => CreateUsable env p.needsPath fusepath minfreespace b
  | .action => ActionUsable env fusepath b
  | .search => Candidate env p fusepath b

/-- The branch is the one a policy that picks one is for, among the branches with
the property `P`. -/
def Optimal (env : Probe) (p : Policy) (fusepath : Path) (P : Branch → Prop)
    (branches : Branches) (b : Branch) : Prop :=
  match p with
  | .ff | .epff => IsFirst P branches b
  | .mfs | .epmfs =>
      IsBest P (· ≥ ·) (fun c => env.statvfsCacheSpaceavail c.path) branches b
  | .lfs | .eplfs =>
      IsBest P (· ≤ ·) (fun c => env.statvfsCacheSpaceavail c.path) branches b
  | .lus | .eplus =>
      IsBest P (· ≤ ·) (fun c => env.statvfsCacheSpaceused c.path) branches b
  | .newest => IsBest P (· ≥ ·) (mtime env fusepath) branches b
  | _ => False

section Loops

variable {env : Probe} {fusepath : Path} {branches : Branches}
  {rej : Branch → Option Errno}

theorem pushOne_eq_singleton {chosen : Except Errno Branch} {q : Path}
    (h : (pushOne chosen []).2.head? = some q) :
    (pushOne chosen []).2 = [q] := by
  cases chosen with
  | error e => simp [pushOne] at h
  | ok b => simpa [pushOne] using h

theorem candidate_iff {κ : Type} {pre : Branch → Except Errno κ}
    {post : Branch → Except Errno Unit} {figure : Branch → Option κ}
    (h : Decides (Scan.candidate pre post) rej)
    (hfigure : ∀ b k, pre b = .ok k → figure b = some k) (c : Branch) (k : κ) :
    Scan.candidate pre post c = .ok k ↔ rej c = none ∧ figure c = some k := by
  constructor
  · intro hk
    exact ⟨(h.exists_ok_iff c).mp ⟨k, hk⟩,
      hfigure c k (Scan.pre_of_candidate hk)⟩
  · rintro ⟨hrej, hk⟩
    obtain ⟨k', hk'⟩ := (h.exists_ok_iff c).mpr hrej
    have hfig := hfigure c k' (Scan.pre_of_candidate hk')
    cases hk.symm.trans hfig
    exact hk'

/-- A running optimum that succeeds returns one branch, which is best among those
that are not turned down, whatever the seed. -/
theorem pushBest_optimum {κ : Type} {r : Scan.Ranking κ} {seed : κ}
    {pre : Branch → Except Errno κ} {post : Branch → Except Errno Unit}
    {figure : Branch → Option κ}
    (h : Decides (Scan.candidate pre post) rej)
    (hfigure : ∀ b k, pre b = .ok k → figure b = some k)
    (hok : (pushBest r seed pre post branches []).1 = .ok ()) :
    ∃ b ∈ branches, (pushBest r seed pre post branches []).2 = [b.path] ∧
      rej b = none ∧ IsBest (rej · = none) r.atLeast figure branches b := by
  obtain ⟨b, hb, hhead, hrej, hbest⟩ :=
    pushBest_best (candidate_iff h hfigure) hok
  exact ⟨b, hb, pushOne_eq_singleton hhead, hrej, hbest⟩

theorem pushFirst_optimum {α : Type} {test : Branch → Except Errno α}
    (h : Decides test rej) (hok : (pushFirst test branches []).1 = .ok ()) :
    ∃ b ∈ branches, (pushFirst test branches []).2 = [b.path] ∧
      rej b = none ∧ IsFirst (rej · = none) branches b := by
  obtain ⟨b, hhead, hfirst⟩ := pushFirst_first h hok
  exact ⟨b, hfirst.mem.1, pushOne_eq_singleton hhead, hfirst.mem.2, hfirst⟩

/-- Stopping at the first branch that passes returns the head of what keeping every
branch that passes returns, and fails as it does. -/
theorem pushFirst_eq_take {α : Type} {test : Branch → Except Errno α}
    (h : Decides test rej) (hrej : ∀ b e, rej b = some e → PolicyError e) :
    pushFirst test branches [] =
      ((pushAll test branches []).1, (pushAll test branches []).2.take 1) := by
  have hfirst := Scan.first_eq_head? calcError test ENOENT branches
  rw [h.filter_eq, reject_eq_worst h hrej] at hfirst
  rw [pushAll_eq h hrej, pushFirst, hfirst]
  cases hf : branches.filter fun b => rej b = none with
  | nil => simp [pushOne, toPaths]
  | cons b bs => simp [pushOne, toPaths]

/-! ### The figures -/

theorem spaceavail_of_keyed {test : Branch → Except Errno Info}
    (htest : ∀ b info, test b = .ok info → env.info b.path = some info)
    (b : Branch) (k : UInt64) (hk : keyed Info.spaceavail test b = .ok k) :
    env.statvfsCacheSpaceavail b.path = some k := by
  cases ht : test b with
  | error e => simp [keyed, ht, Except.map] at hk
  | ok info =>
      have hinfo := congrArg (Option.map Info.spaceavail) (htest b info ht)
      have hkey : info.spaceavail = k := by
        simpa [keyed, ht, Except.map] using hk
      simpa [Probe.info, Probe.statvfsCacheSpaceavail, hkey] using hinfo

theorem spaceused_of_keyed {test : Branch → Except Errno Info}
    (htest : ∀ b info, test b = .ok info → env.info b.path = some info)
    (b : Branch) (k : UInt64) (hk : keyed Info.spaceused test b = .ok k) :
    env.statvfsCacheSpaceused b.path = some k := by
  cases ht : test b with
  | error e => simp [keyed, ht, Except.map] at hk
  | ok info =>
      have hinfo := congrArg (Option.map Info.spaceused) (htest b info ht)
      have hkey : info.spaceused = k := by
        simpa [keyed, ht, Except.map] using hk
      simpa [Probe.info, Probe.statvfsCacheSpaceused, hkey] using hinfo

theorem mtime_of_newestPre {excluded : Branch → Bool} (b : Branch) (k : Int64)
    (hk : newestPre env fusepath excluded b = .ok k) :
    mtime env fusepath b = some k := by
  unfold newestPre at hk
  cases hst : env.existsStat b.path fusepath with
  | none => simp [hst] at hk
  | some st =>
      simp only [hst] at hk
      split_ifs at hk
      simpa [mtime, hst] using hk

end Loops

/-! ## The optimum -/

section Optimum

variable {env : Probe} {p : Policy} {branches : Branches} {fusepath : Path}
  {minfreespace : UInt64}

theorem eligible_create_eq (env : Probe) (p : Policy) (fusepath : Path)
    (minfreespace : UInt64) :
    (createRejection env p.needsPath fusepath minfreespace · = none) =
      Eligible env p .create fusepath minfreespace :=
  funext fun b => propext
    (createRejection_eq_none_iff env p.needsPath fusepath minfreespace b)

theorem eligible_action_eq (env : Probe) (p : Policy) (fusepath : Path)
    (minfreespace : UInt64) :
    (actionRejection env fusepath · = none) =
      Eligible env p .action fusepath minfreespace :=
  funext fun b => propext (actionRejection_eq_none_iff env fusepath b)

theorem func_create_optimum (hp : p.picksOne = true)
    (hok : (p.func env .create branches fusepath minfreespace []).1 = .ok ()) :
    ∃ b ∈ branches,
      (p.func env .create branches fusepath minfreespace []).2 = [b.path] ∧
      createRejection env p.needsPath fusepath minfreespace b = none ∧
      Optimal env p fusepath
        (createRejection env p.needsPath fusepath minfreespace · = none)
        branches b := by
  have hc := decides_createTest env fusepath minfreespace
  have hep := decides_epCreateTest env fusepath minfreespace
  cases p with
  | ff => exact pushFirst_optimum hc hok
  | epff => exact pushFirst_optimum hep hok
  | lfs | mfs =>
      exact pushBest_optimum (hc.keyed _)
        (spaceavail_of_keyed fun _ _ => info_of_createTest) hok
  | eplfs | epmfs =>
      exact pushBest_optimum (hep.keyed _)
        (spaceavail_of_keyed fun _ _ => info_of_epCreateTest) hok
  | lus =>
      exact pushBest_optimum (hc.keyed _)
        (spaceused_of_keyed fun _ _ => info_of_createTest) hok
  | eplus =>
      exact pushBest_optimum (hep.keyed _)
        (spaceused_of_keyed fun _ _ => info_of_epCreateTest) hok
  | newest =>
      exact pushBest_optimum (decides_newestCreate env fusepath minfreespace)
        mtime_of_newestPre hok
  | _ => cases hp

theorem func_action_optimum (hp : p.picksOne = true)
    (hok : (p.func env .action branches fusepath minfreespace []).1 = .ok ()) :
    ∃ b ∈ branches,
      (p.func env .action branches fusepath minfreespace []).2 = [b.path] ∧
      actionRejection env fusepath b = none ∧
      Optimal env p fusepath (actionRejection env fusepath · = none)
        branches b := by
  have ht := decides_actionTest env fusepath
  have hi := decides_actionInfoTest env fusepath
  cases p with
  | ff | epff => exact pushFirst_optimum ht hok
  | lfs | eplfs | mfs | epmfs =>
      exact pushBest_optimum (hi.keyed _)
        (spaceavail_of_keyed fun _ _ => info_of_actionInfoTest) hok
  | lus | eplus =>
      exact pushBest_optimum (hi.keyed _)
        (spaceused_of_keyed fun _ _ => info_of_actionInfoTest) hok
  | newest =>
      exact pushBest_optimum (decides_newestAction env fusepath)
        mtime_of_newestPre hok
  | _ => cases hp

theorem func_ff_eq_take {type : Category} (htype : type ≠ .search) :
    Policy.ff.func env type branches fusepath minfreespace [] =
      ((Policy.all.func env type branches fusepath minfreespace []).1,
        (Policy.all.func env type branches fusepath minfreespace []).2.take 1) := by
  cases type with
  | search => exact absurd rfl htype
  | create =>
      exact pushFirst_eq_take (decides_createTest env fusepath minfreespace)
        fun _ _ => policyError_of_createRejection
  | action =>
      exact pushFirst_eq_take (decides_actionTest env fusepath)
        fun _ _ => policyError_of_actionRejection

theorem func_epff_eq_take {type : Category} (htype : type ≠ .search) :
    Policy.epff.func env type branches fusepath minfreespace [] =
      ((Policy.epall.func env type branches fusepath minfreespace []).1,
        (Policy.epall.func env type branches fusepath minfreespace []).2.take
          1) := by
  cases type with
  | search => exact absurd rfl htype
  | create =>
      exact pushFirst_eq_take (decides_epCreateTest env fusepath minfreespace)
        fun _ _ => policyError_of_createRejection
  | action =>
      exact pushFirst_eq_take (decides_actionTest env fusepath)
        fun _ _ => policyError_of_actionRejection

end Optimum

/-- A policy that picks one branch, when it succeeds, returns the optimum of the
eligible branches and nothing else; and `ff` and `epff` return the head of what `all`
and `epall` return, with their errors. -/
theorem func_optimum (env : Probe) (type : Category) (branches : Branches)
    (fusepath : Path) (minfreespace : UInt64) (htype : type ≠ .search) :
    (∀ p : Policy, p.picksOne = true →
      (p.func env type branches fusepath minfreespace []).1 = .ok () →
      ∃ b ∈ branches,
        (p.func env type branches fusepath minfreespace []).2 = [b.path] ∧
        Eligible env p type fusepath minfreespace b ∧
        Optimal env p fusepath (Eligible env p type fusepath minfreespace)
          branches b) ∧
    Policy.ff.func env type branches fusepath minfreespace [] =
      ((Policy.all.func env type branches fusepath minfreespace []).1,
        (Policy.all.func env type branches fusepath minfreespace []).2.take 1) ∧
    Policy.epff.func env type branches fusepath minfreespace [] =
      ((Policy.epall.func env type branches fusepath minfreespace []).1,
        (Policy.epall.func env type branches fusepath minfreespace []).2.take
          1) := by
  refine ⟨?_, func_ff_eq_take htype, func_epff_eq_take htype⟩
  intro p hp hok
  cases type with
  | search => exact absurd rfl htype
  | create =>
      obtain ⟨b, hb, hpath, hrej, hopt⟩ := func_create_optimum hp hok
      rw [eligible_create_eq] at hopt
      exact ⟨b, hb, hpath, (createRejection_eq_none_iff env _ fusepath
        minfreespace b).mp hrej, hopt⟩
  | action =>
      obtain ⟨b, hb, hpath, hrej, hopt⟩ := func_action_optimum hp hok
      rw [eligible_action_eq env p fusepath minfreespace] at hopt
      exact ⟨b, hb, hpath, (actionRejection_eq_none_iff env fusepath b).mp hrej,
        hopt⟩

def roomier : Probe :=
  Probe.unshuffled (fun _ => some ⟨0, 1, 0, 5⟩) fun q =>
    if q = ['/', 'a'] then some ⟨1, 10, 4, 0⟩ else some ⟨1, 10, 6, 0⟩

theorem func_optimum_mfs :
    Policy.mfs.func roomier .create [⟨.RW, ['/', 'a']⟩, ⟨.RW, ['/', 'b']⟩]
        ['/', 'f'] 2 [] = (.ok (), [['/', 'b']]) ∧
    ∃ b ∈ ([⟨.RW, ['/', 'a']⟩, ⟨.RW, ['/', 'b']⟩] : Branches),
      [['/', 'b']] = [b.path] ∧
      Optimal roomier .mfs ['/', 'f']
        (Eligible roomier .mfs .create ['/', 'f'] 2)
        [⟨.RW, ['/', 'a']⟩, ⟨.RW, ['/', 'b']⟩] b := by
  refine ⟨by decide, ?_⟩
  obtain ⟨b, hb, hpath, _, hopt⟩ := (func_optimum roomier .create
    [⟨.RW, ['/', 'a']⟩, ⟨.RW, ['/', 'b']⟩] ['/', 'f'] 2 (by decide)).1 .mfs rfl
    (by decide)
  exact ⟨b, hb, hpath, hopt⟩

/-! ## The reason a create policy names -/

structure Full (env : Probe) (ep : Bool) (fusepath : Path)
    (minfreespace : UInt64) (b : Branch) : Prop where
  path : ep = true → Holds env fusepath b
  not_ro : b.mode ≠ .RO
  not_nc : b.mode ≠ .NC
  status : ∃ st, env.statvfsCache b.path = some st ∧ st.readonly = false ∧
    st.spaceavail < minfreespace

structure Readonly (env : Probe) (ep : Bool) (fusepath : Path) (b : Branch) :
    Prop where
  path : ep = true → Holds env fusepath b
  mode : b.mode = .RO ∨ b.mode = .NC ∨
    ∃ st, env.statvfsCache b.path = some st ∧ st.readonly = true

theorem createRejection_eq_ENOSPC_iff (env : Probe) (ep : Bool)
    (fusepath : Path) (minfreespace : UInt64) (b : Branch) :
    createRejection env ep fusepath minfreespace b = some ENOSPC ↔
      Full env ep fusepath minfreespace b := by
  have h₁ : ENOENT ≠ ENOSPC := by decide
  have h₂ : EROFS ≠ ENOSPC := by decide
  constructor
  · intro h
    unfold createRejection at h
    split_ifs at h with hpath hmode
    · exact absurd (Option.some.inj h) h₁
    · exact absurd (Option.some.inj h) h₂
    · cases hst : env.statvfsCache b.path with
      | none =>
          simp only [hst] at h
          exact absurd (Option.some.inj h) h₁
      | some st =>
          simp only [hst] at h
          split_ifs at h with hro hspace
          · exact absurd (Option.some.inj h) h₂
          · refine ⟨?_, fun hr => hmode (.inl hr), fun hn => hmode (.inr hn),
              st, hst, by simpa using hro, hspace⟩
            intro hep
            rw [holds_iff]
            simpa [hep] using hpath
  · intro h
    obtain ⟨st, hst, hro, hspace⟩ := h.status
    have hpath : ¬ (ep && (env.existsStat b.path fusepath).isNone) = true := by
      intro hand
      rw [Bool.and_eq_true] at hand
      obtain ⟨st', hst'⟩ := h.path hand.1
      simp [hst'] at hand
    simp [createRejection, hpath, h.not_ro, h.not_nc, hst, hro, hspace]

theorem createRejection_eq_EROFS_iff (env : Probe) (ep : Bool)
    (fusepath : Path) (minfreespace : UInt64) (b : Branch) :
    createRejection env ep fusepath minfreespace b = some EROFS ↔
      Readonly env ep fusepath b := by
  have h₁ : ENOENT ≠ EROFS := by decide
  have h₂ : ENOSPC ≠ EROFS := by decide
  have hpath_iff : ¬ (ep && (env.existsStat b.path fusepath).isNone) = true ↔
      (ep = true → Holds env fusepath b) := by
    rw [holds_iff]
    cases ep <;> simp
  constructor
  · intro h
    unfold createRejection at h
    split_ifs at h with hpath hmode
    · exact absurd (Option.some.inj h) h₁
    · refine ⟨hpath_iff.mp hpath, ?_⟩
      rcases hmode with hr | hn
      · exact .inl hr
      · exact .inr (.inl hn)
    · cases hst : env.statvfsCache b.path with
      | none =>
          simp only [hst] at h
          exact absurd (Option.some.inj h) h₁
      | some st =>
          simp only [hst] at h
          split_ifs at h with hro hspace
          · exact ⟨hpath_iff.mp hpath, .inr (.inr ⟨st, hst, hro⟩)⟩
          · exact absurd (Option.some.inj h) h₂
  · intro h
    have hpath := hpath_iff.mpr h.path
    unfold createRejection
    rw [if_neg hpath]
    rcases h.mode with hr | hn | ⟨st, hst, hro⟩
    · rw [if_pos (.inl hr)]
    · rw [if_pos (.inr hn)]
    · split_ifs
      · rfl
      · simp [hst, hro]

/-- Nothing is tested after the comparison, so that a branch passed over for its
figure leaves no reason behind. -/
theorem bestBranch_error_of_post {κ : Type} {r : Scan.Ranking κ} {seed : κ}
    {pre : Branch → Except Errno κ} {rej : Branch → Option Errno}
    {branches : Branches} (h : Decides (Scan.candidate pre noTest) rej)
    (hrej : ∀ b e, rej b = some e → PolicyError e) {e : Errno}
    (herr : (pushBest r seed pre noTest branches []).1 = .error e) :
    e = worst (reasons rej branches) := by
  have hpost : ∀ b, noTest b = .ok () := fun _ => rfl
  have hbest := Scan.best_error_of_post calcError r pre hpost
    ⟨ENOENT, seed, none⟩ branches
  rw [reject_eq_worst h hrej] at hbest
  unfold pushBest bestBranch at herr
  cases hc : (Scan.best calcError r pre noTest ⟨ENOENT, seed, none⟩
      branches).chosen with
  | some b => simp [hc, pushOne] at herr
  | none =>
      rw [← hbest]
      simpa [hc, pushOne] using herr.symm

theorem func_create_error {env : Probe} {p : Policy} {branches : Branches}
    {fusepath : Path} {minfreespace : UInt64} {e : Errno}
    (hp : p ≠ .invalid ∧ p ≠ .erofs)
    (h : (p.func env .create branches fusepath minfreespace []).1 = .error e) :
    e = worst (reasons (createRejection env p.needsPath fusepath minfreespace)
      branches) := by
  have hc := decides_createTest env fusepath minfreespace
  have hep := decides_epCreateTest env fusepath minfreespace
  cases p with
  | lus =>
      exact bestBranch_error_of_post (hc.keyed _)
        (fun _ _ => policyError_of_createRejection) h
  | eplus =>
      exact bestBranch_error_of_post (hep.keyed _)
        (fun _ _ => policyError_of_createRejection) h
  | _ => exact ((func_create_agrees hp (by simp)).of_error e h).2

theorem worst_eq_ENOSPC_iff {m : Multiset Errno} (h : ENOSPC ∈ m) :
    worst m = ENOSPC ↔ EROFS ∉ m := by
  have hne : EROFS ≠ ENOSPC := by decide
  unfold worst
  split_ifs with hro
  · simp [hro, hne]
  · simp [hro]

theorem mem_reasons {rej : Branch → Option Errno} {branches : Branches}
    {e : Errno} :
    e ∈ reasons rej branches ↔ ∃ b ∈ branches, rej b = some e := by
  simp [reasons]

/-- A create policy that fails with some branch turned down for want of space says
`ENOSPC` exactly when none was turned down as read-only. -/
theorem func_create_enospc_iff (env : Probe) (p : Policy) (branches : Branches)
    (fusepath : Path) (minfreespace : UInt64) (e : Errno)
    (hp : p ≠ .invalid ∧ p ≠ .erofs)
    (herr : (p.func env .create branches fusepath minfreespace []).1 = .error e)
    (hfull : ∃ b ∈ branches, Full env p.needsPath fusepath minfreespace b) :
    e = ENOSPC ↔ ∀ b ∈ branches, ¬ Readonly env p.needsPath fusepath b := by
  have hspace : ENOSPC ∈ reasons
      (createRejection env p.needsPath fusepath minfreespace) branches := by
    obtain ⟨b, hb, hbfull⟩ := hfull
    exact mem_reasons.mpr
      ⟨b, hb, (createRejection_eq_ENOSPC_iff env _ _ _ b).mpr hbfull⟩
  rw [func_create_error hp herr, worst_eq_ENOSPC_iff hspace, mem_reasons]
  simp only [createRejection_eq_EROFS_iff, not_exists, not_and]

/-- Both branches are full, and neither is read-only. -/
theorem func_create_enospc_iff_full :
    (Policy.mfs.func roomier .create [⟨.RW, ['/', 'a']⟩, ⟨.RW, ['/', 'b']⟩]
      ['/', 'f'] 7 []).1 = .error ENOSPC ∧
    ∀ b ∈ ([⟨.RW, ['/', 'a']⟩, ⟨.RW, ['/', 'b']⟩] : Branches),
      ¬ Readonly roomier Policy.mfs.needsPath ['/', 'f'] b := by
  have herr : (Policy.mfs.func roomier .create
      [⟨.RW, ['/', 'a']⟩, ⟨.RW, ['/', 'b']⟩] ['/', 'f'] 7 []).1 =
      .error ENOSPC := by decide
  have hfull : Full roomier Policy.mfs.needsPath ['/', 'f'] 7
      ⟨.RW, ['/', 'a']⟩ :=
    (createRejection_eq_ENOSPC_iff _ _ _ _ _).mp (by decide)
  exact ⟨herr, (func_create_enospc_iff roomier .mfs
    [⟨.RW, ['/', 'a']⟩, ⟨.RW, ['/', 'b']⟩] ['/', 'f'] 7 ENOSPC (by decide) herr
    ⟨_, by simp, hfull⟩).mp rfl⟩

/-- A branch with too little space beside a read-only one. -/
theorem func_create_erofs :
    (Policy.mfs.func roomier .create [⟨.RW, ['/', 'a']⟩, ⟨.RO, ['/', 'b']⟩]
      ['/', 'f'] 5 []).1 = .error EROFS ∧
    Full roomier Policy.mfs.needsPath ['/', 'f'] 5 ⟨.RW, ['/', 'a']⟩ :=
  ⟨by decide, (createRejection_eq_ENOSPC_iff _ _ _ _ _).mp (by decide)⟩

end Policy

end Mergerfs
