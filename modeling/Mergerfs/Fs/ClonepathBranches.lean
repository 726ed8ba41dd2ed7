import Mergerfs.Fs.Clonepath

/-!
# Branches of one file system

`fs::clonepath` puts the path of a branch before the relative path, and what it works on
is the file system. A branch is what lies below its path there. As long as no branch is
in another one and the relative path does not leave its branch, what the code does to
the file system is, branch by branch, what `clonepath` does to trees of their own.
-/

namespace Mergerfs

open Errno

/-! ## Relative paths -/

/-- A relative path as the operations pass it on: it is empty, or it starts with a slash
and no `..` in it goes above the branch. -/
def IsRelative (p : Path) : Prop :=
  p = [] ∨ p.head? = some '/' ∧ DirTree.descends 0 (components p) = true

instance (p : Path) : Decidable (IsRelative p) := inferInstanceAs (Decidable (_ ∨ _ ∧ _))

theorem IsRelative.descends {p : Path} (h : IsRelative p) :
    DirTree.descends 0 (components p) = true := by
  rcases h with rfl | ⟨_, h⟩
  · rfl
  · exact h

theorem IsRelative.ancestor {p q : Path} (h : IsRelative p) (hq : AncestorOrSelf q p) :
    IsRelative q := by
  cases hcons : q with
  | nil => exact .inl rfl
  | cons c cs =>
      rw [← hcons]
      obtain ⟨s, hs⟩ := hq.string
      obtain ⟨ds, hds⟩ := hq.components
      have hdesc := h.descends
      rw [← hds] at hdesc
      rcases h with rfl | ⟨hhead, _⟩
      · exact .inl (List.prefix_nil.mp hq.string)
      · rw [← hs, hcons] at hhead
        rw [hcons] at hdesc ⊢
        exact .inr ⟨hhead, DirTree.descends_append hdesc⟩

theorem FusePath.isRelative_dirname (p : FusePath)
    (h : DirTree.Component.parent ∉ components p.path) : IsRelative (dirname p.path) := by
  have hp : IsRelative p.path := .inr ⟨p.abs, DirTree.descends_of_notMem h 0⟩
  exact hp.ancestor (ancestorOrSelf_dirname p.path)

theorem IsRelative.components_make {p : Path} (h : IsRelative p) (base : Path) :
    components (make base p) = components base ++ components p := by
  rcases h with rfl | ⟨hhead, _⟩
  · rw [make, List.append_nil]
    exact (List.append_nil _).symm
  · cases p with
    | nil => cases hhead
    | cons c p =>
        obtain rfl : c = '/' := Option.some.inj hhead
        have hp : components ('/' :: p) = components p := components_append_cons [] p
        rw [make, components_append_cons, hp]

theorem IsRelative.location_make {p : Path} (h : IsRelative p) (base : Path) :
    location (make base p) = location base ++ location p := by
  have hfold := DirTree.foldl_apply_append (location base) (l := []) h.descends
  rw [List.append_nil] at hfold
  rw [location, DirTree.locate, h.components_make, List.foldl_append]
  exact hfold

def Leads (t : BranchTree) (p : Path) : Prop :=
  t.walk [] (components p) = .ok (location p)

/-! ## One level -/

section Calls

variable {t : BranchTree} {base p : Path}

theorem Leads.walk_make (h : Leads t base) (hp : IsRelative p) :
    t.walk [] (components (make base p)) =
      ((t.rebase (location base)).walk [] (components p)).map (location base ++ ·) := by
  have hwalk := t.walk_rebase (location base) (l := []) hp.descends
  rw [List.append_nil] at hwalk
  rw [hp.components_make, DirTree.Tree.walk_append h, hwalk]

theorem Leads.statPath_make (h : Leads t base) (hp : IsRelative p) (ans : Rv) :
    statPath ans t (make base p) = statPath ans (t.rebase (location base)) p := by
  unfold statPath
  rw [h.walk_make hp]
  cases ans with
  | error e => rfl
  | ok u =>
      cases (t.rebase (location base)).walk [] (components p) with
      | error stop => rfl
      | ok l => rfl

theorem Leads.mkdirPath_make (h : Leads t base) (hp : IsRelative p) (ans : LevelAnswers)
    (mode : UInt32) :
    (∀ e, mkdirPath ans mode (t.rebase (location base)) p = .error e →
      mkdirPath ans mode t (make base p) = .error e) ∧
    ∀ l t₁, mkdirPath ans mode (t.rebase (location base)) p = .ok (l, t₁) →
      ∃ t', mkdirPath ans mode t (make base p) = .ok (location base ++ l, t') := by
  obtain ⟨herror, hok⟩ := DirTree.Tree.mkdir_rebase (newMetadata ans mode)
    (Metadata.touch ans.now) h hp.descends
  rw [← hp.components_make] at herror hok
  unfold mkdirPath
  cases ans.mkdir with
  | some e =>
      refine ⟨fun _ he => he, ?_⟩
      intro l t₁ he
      cases he
  | none =>
      dsimp only
      cases hr : (t.rebase (location base)).mkdir (newMetadata ans mode)
          (Metadata.touch ans.now) (components p) with
      | error stop =>
          rw [herror stop hr]
          refine ⟨fun _ he => he, ?_⟩
          intro l t₁ he
          cases he
      | ok r =>
          obtain ⟨t', ht'⟩ := hok r.1 r.2 hr
          rw [ht']
          constructor
          · intro e he
            cases he
          · intro l t₁ he
            cases he
            exact ⟨t', rfl⟩

end Calls

section Level

variable {B : Type*}

def BasesApart (base : B → Path) : Prop :=
  ∀ b b', b ≠ b' → ¬ location (base b) <+: location (base b')

def FsState.branches (base : B → Path) (s : FsState) : CloneState B where
  tree b := s.tree.rebase (location (base b))
  made := s.made

theorem BasesApart.not_prefix {base : B → Path} (h : BasesApart base) {b b' : B} (hne : b ≠ b')
    (l : List Path) : ¬ location (base b) <+: location (base b') ++ l := by
  intro hpre
  rcases List.prefix_or_prefix_of_prefix hpre (List.prefix_append _ l) with hb | hb
  · exact h b b' hne hb
  · exact h b' b hne.symm hb

theorem cloneLevelWith_map {σ τ : Type*} (g : σ → τ) {ans : LevelAnswers}
    {returnMetadataErrors : Bool} {stat : Except Errno BranchNode}
    {mkdir : UInt32 → Except Errno (Metadata → σ)}
    {mkdir' : UInt32 → Except Errno (Metadata → τ)}
    (h : ∀ mode, mkdir' mode = (mkdir mode).map fun new m => g (new m)) (s : σ) :
    cloneLevelWith ans returnMetadataErrors stat mkdir' (g s) =
      Prod.map id g (cloneLevelWith ans returnMetadataErrors stat mkdir s) := by
  unfold cloneLevelWith
  cases stat with
  | error e => rfl
  | ok st =>
      dsimp only
      rw [h st.data.mode]
      cases mkdir st.data.mode with
      | error e =>
          dsimp only [Except.map]
          split_ifs <;> rfl
      | ok new =>
          dsimp only [Except.map]
          split_ifs <;> rfl

variable [DecidableEq B] {base : B → Path} {fromsrc tosrc : B} {relative : Path}
  {s : FsState}

theorem BasesApart.branches_grown (h : BasesApart base) {t' : BranchTree} {l : List Path}
    {made : List Path} {m : Metadata} {touch : Metadata → Metadata} {t₁ : BranchTree}
    (hgrown : DirTree.Tree.Grown s.tree t' (location (base tosrc) ++ l) m touch)
    (hgrown₁ : DirTree.Tree.Grown (s.tree.rebase (location (base tosrc))) t₁ l m touch) :
    FsState.branches base ⟨t', made⟩ =
      ⟨Function.update (s.branches base).tree tosrc t₁, made⟩ := by
  have htree : (FsState.branches base ⟨t', made⟩).tree =
      Function.update (s.branches base).tree tosrc t₁ := by
    funext b
    by_cases hb : b = tosrc
    · rw [hb, Function.update_self]
      exact hgrown.rebase.unique hgrown₁
    · rw [Function.update_of_ne hb]
      exact hgrown.rebase_eq (h.not_prefix hb l)
  rw [← htree]
  rfl

/-- On each branch a level does what it does to trees of their own. -/
theorem cloneLevel_branches (h : BasesApart base) (hrel : IsRelative relative)
    (hfrom : Leads s.tree (base fromsrc)) (hto : Leads s.tree (base tosrc))
    (ans : LevelAnswers) (returnMetadataErrors : Bool) :
    cloneLevel ans fromsrc tosrc relative returnMetadataErrors (s.branches base) =
      Prod.map id (FsState.branches base) (Fs.cloneLevel ans (base fromsrc) (base tosrc)
        relative returnMetadataErrors s) := by
  unfold cloneLevel Fs.cloneLevel
  rw [hfrom.statPath_make hrel]
  refine cloneLevelWith_map (FsState.branches base) ?_ s
  intro mode
  obtain ⟨herror, hok⟩ := hto.mkdirPath_make hrel ans mode
  change Except.map _ (mkdirPath ans mode (s.tree.rebase (location (base tosrc))) relative)
    = _
  cases hr : mkdirPath ans mode (s.tree.rebase (location (base tosrc))) relative with
  | error e =>
      rw [herror e hr]
      rfl
  | ok r =>
      obtain ⟨l, t₁⟩ := r
      obtain ⟨t', ht'⟩ := hok l t₁ hr
      obtain ⟨-, hgrown₁, -⟩ := mkdirPath_eq_ok hr
      obtain ⟨-, hgrown, -⟩ := mkdirPath_eq_ok ht'
      rw [ht']
      dsimp only [Except.map]
      refine congrArg Except.ok (funext fun m => ?_)
      exact (h.branches_grown (hgrown.modify m) (hgrown₁.modify m)).symm

theorem Fs.cloneLevel_grown {src dst : Path} {ans : LevelAnswers}
    {returnMetadataErrors : Bool} {rv : Rv} {s' : FsState}
    (h : Fs.cloneLevel ans src dst relative returnMetadataErrors s = (rv, s')) :
    s' = s ∨ ∃ m, DirTree.Tree.Grown s.tree s'.tree (location (make dst relative)) m
      (Metadata.touch ans.now) := by
  rcases cloneLevelWith_cases h with ⟨rfl, _⟩ | ⟨st, new, _, _, hnew, _, rfl⟩
  · exact .inl rfl
  · cases hr : mkdirPath ans st.data.mode s.tree (make dst relative) with
    | error e =>
        rw [hr] at hnew
        cases hnew
    | ok r =>
        obtain ⟨l, t⟩ := r
        rw [hr] at hnew
        obtain ⟨rfl, hgrown, -⟩ := mkdirPath_eq_ok hr
        cases hnew
        exact .inr ⟨_, hgrown.modify _⟩

end Level

/-! ## Whole paths -/

section Run

/-- Two ways to go on at each level that agree, on states that meet `I` and paths that
meet `R`, agree on whole paths. -/
theorem clonepathWith_map {σ τ : Type*} (g : σ → τ) {level : Path → Bool → σ → Rv × σ}
    {level' : Path → Bool → τ → Rv × τ} {R : Path → Prop}
    (hdir : ∀ p, R p → R (dirname p)) {I : σ → Prop}
    (hkeep : ∀ p returnMetadataErrors s, I s → I (level p returnMetadataErrors s).2)
    (hlevel : ∀ p returnMetadataErrors s, R p → I s →
      level' p returnMetadataErrors (g s) =
        Prod.map id g (level p returnMetadataErrors s))
    {p : Path} (hp : R p) (returnMetadataErrors : Bool) {s : σ} (hs : I s) :
    I (clonepathWith level p returnMetadataErrors s).2 ∧
      clonepathWith level' p returnMetadataErrors (g s) =
        Prod.map id g (clonepathWith level p returnMetadataErrors s) := by
  induction hlen : p.length using Nat.strong_induction_on
    generalizing p returnMetadataErrors with
  | _ n ih =>
      by_cases hne : p = []
      · rw [hne, clonepathWith_nil, clonepathWith_nil]
        exact ⟨hs, rfl⟩
      · have hlt : (dirname p).length < n := by
          rw [← hlen]
          exact length_dirname_lt hne
        obtain ⟨hI, heq⟩ := ih _ hlt (hdir p hp) false rfl
        rw [clonepathWith_of_ne hne, clonepathWith_of_ne hne, heq]
        rcases hr : clonepathWith level (dirname p) false s with ⟨e | u, s₁⟩
        · rw [hr] at hI
          exact ⟨hI, rfl⟩
        · rw [hr] at hI
          exact ⟨hkeep p returnMetadataErrors s₁ hI, hlevel p returnMetadataErrors s₁ hp hI⟩

theorem Leads.grown {t t' : BranchTree} {p : Path} (h : Leads t p) {l : List Path}
    {m : Metadata} {touch : Metadata → Metadata}
    (hgrown : DirTree.Tree.Grown t t' l m touch) : Leads t' p := by
  refine DirTree.Tree.walk_eq_ok_of_dirs ?_ h
  intro l' n hn hdir
  refine ⟨_, hgrown.kept l' n hn, ?_⟩
  split_ifs
  · exact hdir
  · exact hdir

variable {B : Type*} [DecidableEq B] {base : B → Path} {fromsrc tosrc : B}
  {relative : Path} {s : FsState}

theorem clonepath_branches (ans : Path → LevelAnswers) (h : BasesApart base)
    (hrel : IsRelative relative)
    (hfrom : Leads s.tree (base fromsrc)) (hto : Leads s.tree (base tosrc))
    (returnMetadataErrors : Bool) :
    clonepath ans fromsrc tosrc relative returnMetadataErrors (s.branches base) =
      Prod.map id (FsState.branches base) (Fs.clonepath ans (base fromsrc) (base tosrc)
        relative returnMetadataErrors s) := by
  have hkeep : ∀ p returnMetadataErrors (s : FsState),
      (Leads s.tree (base fromsrc) ∧ Leads s.tree (base tosrc)) →
      (Leads (Fs.cloneLevel (ans p) (base fromsrc) (base tosrc) p returnMetadataErrors
          s).2.tree (base fromsrc) ∧
        Leads (Fs.cloneLevel (ans p) (base fromsrc) (base tosrc) p returnMetadataErrors
          s).2.tree (base tosrc)) := by
    rintro p rme s ⟨hfrom, hto⟩
    rcases hr : Fs.cloneLevel (ans p) (base fromsrc) (base tosrc) p rme s with ⟨rv, s'⟩
    rcases Fs.cloneLevel_grown hr with rfl | ⟨m, hgrown⟩
    · exact ⟨hfrom, hto⟩
    · exact ⟨hfrom.grown hgrown, hto.grown hgrown⟩
  exact (clonepathWith_map (FsState.branches base)
    (fun p hp => hp.ancestor (ancestorOrSelf_dirname p)) hkeep
    (fun p rme s hp hs => cloneLevel_branches h hp hs.1 hs.2 (ans p) rme) hrel
    returnMetadataErrors ⟨hfrom, hto⟩).2

/-- What lies outside of the branch `tosrc` stays as it is, but for the time of the last
change of the directory the branch is in. -/
theorem Fs.clonepath_outside {ans : Path → LevelAnswers} {src dst : Path}
    (hrel : IsRelative relative)
    {returnMetadataErrors : Bool} {rv : Rv} {s' : FsState}
    (h : Fs.clonepath ans src dst relative returnMetadataErrors s = (rv, s'))
    {l : List Path} (hl : ¬ location dst <+: l) :
    (s.tree.entry l = none → s'.tree.entry l = none) ∧
      ∀ n, s.tree.entry l = some n →
        ∃ t, s'.tree.entry l = some (n.map (Metadata.touch t)) := by
  revert hrel
  refine clonepathWith_induction (motive := fun p _ s' => IsRelative p →
    (s.tree.entry l = none → s'.tree.entry l = none) ∧
      ∀ n, s.tree.entry l = some n →
        ∃ t, s'.tree.entry l = some (n.map (Metadata.touch t))) ?_ ?_ ?_ h
  · exact fun _ => ⟨id, fun n hn => ⟨n.data.times.mtime, hn⟩⟩
  · intro p e s₁ _ ih hp
    exact ih (hp.ancestor (ancestorOrSelf_dirname p))
  · intro p rme rv₁ s₁ s₂ _ ih hlevel hp
    obtain ⟨hnone, hkept⟩ := ih (hp.ancestor (ancestorOrSelf_dirname p))
    rcases Fs.cloneLevel_grown hlevel with rfl | ⟨m, hgrown⟩
    · exact ⟨hnone, hkept⟩
    · rw [hp.location_make] at hgrown
      have hne : l ≠ location dst ++ location p := by
        rintro rfl
        exact hl (List.prefix_append _ _)
      refine ⟨fun hn => hgrown.none l hne (hnone hn), ?_⟩
      intro n hn
      obtain ⟨t, ht⟩ := hkept n hn
      have hnext := hgrown.kept l _ ht
      split_ifs at hnext
      · exact ⟨_, hnext⟩
      · exact ⟨t, hnext⟩

end Run

/-- Cloning a relative path from one branch to another adds directories of the path,
downwards and without gaps, that are directories on the branch it clones from; it leaves
what was there, the other branches and what is in no branch alone; and when it succeeds
the whole path is there. -/
theorem clonepath_adds {B : Type*} [DecidableEq B] (ans : Path → LevelAnswers)
    {base : B → Path} (hbase : BasesApart base) {fromsrc tosrc : B} (hne : fromsrc ≠ tosrc)
    {relative : Path} (hrel : IsRelative relative) (returnMetadataErrors : Bool)
    {s : FsState} (hfrom : Leads s.tree (base fromsrc))
    (hto : Leads s.tree (base tosrc)) :
    (∃ qs, Added fromsrc tosrc relative (s.branches base)
      ((Fs.clonepath ans (base fromsrc) (base tosrc) relative returnMetadataErrors
        s).2.branches base) qs) ∧
    (∀ l, location (base fromsrc) <+: l →
      (Fs.clonepath ans (base fromsrc) (base tosrc) relative returnMetadataErrors
        s).2.tree.entry l = s.tree.entry l) ∧
    (∀ l, ¬ location (base tosrc) <+: l →
      (s.tree.entry l = none →
        (Fs.clonepath ans (base fromsrc) (base tosrc) relative returnMetadataErrors
          s).2.tree.entry l = none) ∧
      ∀ n, s.tree.entry l = some n → ∃ t,
        (Fs.clonepath ans (base fromsrc) (base tosrc) relative returnMetadataErrors
          s).2.tree.entry l = some (n.map (Metadata.touch t))) ∧
    ((Fs.clonepath ans (base fromsrc) (base tosrc) relative returnMetadataErrors s).1 =
        .ok () →
      ∀ q, q ≠ [] → AncestorOrSelf q relative →
        ((Fs.clonepath ans (base fromsrc) (base tosrc) relative returnMetadataErrors
          s).2.tree.entry (location (make (base tosrc) q))).isSome) := by
  have hrun := clonepath_branches ans hbase hrel hfrom hto returnMetadataErrors
  rcases hfs : Fs.clonepath ans (base fromsrc) (base tosrc) relative
    returnMetadataErrors s with ⟨rv, s'⟩
  rw [hfs] at hrun
  obtain ⟨qs, hqs⟩ := exists_added_clonepath hne hrun
  refine ⟨⟨qs, hqs⟩, ?_, fun l hl => Fs.clonepath_outside hrel hfs hl, ?_⟩
  · rintro l ⟨l, rfl⟩
    have hsame := congrArg (fun t => DirTree.Tree.entry t l) (hqs.others fromsrc hne)
    exact hsame
  · intro hrv q hq hanc
    have hne : relative ≠ [] := by
      rintro rfl
      exact hq (List.prefix_nil.mp hanc.string)
    have hsome := clonepath_reaches hrun hrv hne _ hanc.components
    rw [(hrel.ancestor hanc).location_make]
    exact hsome

def abTree : FsState where
  tree := directories [[['a'], ['x'], ['y']], [['b']]]
  made := []

def aAndB (b : Bool) : Path := if b then "/a".toList else "/b".toList

theorem clonepath_twoBranches :
    (Fs.clonepath (fun _ => obliging) (aAndB true) (aAndB false) "/x/y".toList false
      abTree).1 = .ok () := by
  have hy : dirname "/x/y".toList = "/x".toList := by decide
  have hx : dirname "/x".toList = [] := by decide
  rw [Fs.clonepath, clonepathWith_of_ne (by decide), hy, clonepathWith_of_ne (by decide),
    hx, clonepathWith_nil]
  rfl

/-- Both directories are made. -/
theorem clonepath_adds_twoBranches :
    (Fs.clonepath (fun _ => obliging) (aAndB true) (aAndB false) "/x/y".toList false
      abTree).1 = .ok () ∧
    ((Fs.clonepath (fun _ => obliging) (aAndB true) (aAndB false) "/x/y".toList false
      abTree).2.tree.entry (location "/b/x/y".toList)).isSome := by
  have hbases : BasesApart aAndB := by
    intro b b' hne
    cases b <;> cases b'
    · exact absurd rfl hne
    · decide
    · decide
    · exact absurd rfl hne
  have hfrom : Leads abTree.tree (aAndB true) := rfl
  have hto : Leads abTree.tree (aAndB false) := rfl
  exact ⟨clonepath_twoBranches, (clonepath_adds _ hbases (by decide) (by decide) false
    hfrom hto).2.2.2 clonepath_twoBranches _ (by decide) (.refl _)⟩

end Mergerfs
