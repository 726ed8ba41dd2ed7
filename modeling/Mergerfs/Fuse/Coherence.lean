import Mergerfs.Fuse.Open
import Mergerfs.Fuse.ReadOnly

/-!
# The open cache and the pool's own changes

`FUSE::unlink` and `FUSE::rename` tell the cache of the open policy that the path they
were called with is no longer where it was. A rename also takes the new name away from
the branches it did not rename on, replaces it on the others and moves whatever lies
below the old name, and the cache is not told of those.

The pool is followed through the names that exist: each call of an operation changes
them as the kernel would, and nothing else does.
-/

namespace Mergerfs

open Errno Program

/-! ## The names that exist -/

abbrev Names := Path → Prop

section Names

variable (within : Path → Path → Prop)

/-- What a call does to the names that exist. `within a p` says that `p` may go when
`a` is renamed, replaced or removed, as `a` itself and what lies below it does. -/
def Changes : Event Call Ans → Names → Names → Prop
  | ⟨.probe _ _, env⟩, s, s' => s' = s ∧ ∀ p, (env.lstat p).isSome ↔ s p
  | ⟨.clonepath _ _ _, _⟩, s, s' => ∀ p, s p → s' p
  | ⟨.rename oldpath newpath, rv⟩, s, s' =>
      match rv with
      | .ok _ => s' newpath ∧
          ∀ p, ¬ within oldpath p → ¬ within newpath p → (s' p ↔ s p)
      | .error _ => s' = s
  | ⟨.remove path, rv⟩, s, s' | ⟨.unlink path, rv⟩, s, s' =>
      match rv with
      | .ok _ => path ≠ [] ∧ ∀ p, ¬ within path p → (s' p ↔ s p)
      | .error _ => s' = s
  | _, _, _ => True

def Runs : Trace → Names → Names → Prop
  | [], s, s' => s' = s
  | e :: tr, s, s' => ∃ s₁, Changes within e s s₁ ∧ Runs tr s₁ s'

def Spares (p : Path) : Call → Prop
  | .probe _ _ | .clonepath _ _ _ => True
  | .rename oldpath newpath =>
      newpath = p ∨ ¬ within oldpath p ∧ ¬ within newpath p
  | .remove path | .unlink path => path = [] ∨ ¬ within path p
  | _ => False

variable {within} {p : Path} {s s' : Names} {tr : Trace}

theorem Changes.spares {e : Event Call Ans} (h : Changes within e s s')
    (hp : Spares within p e.1) (hs : s p) : s' p := by
  obtain ⟨c, rv⟩ := e
  cases c with
  | probe type fusepath => exact h.1 ▸ hs
  | clonepath fromsrc tosrc relative => exact h p hs
  | rename oldpath newpath =>
      cases rv with
      | error e => exact h ▸ hs
      | ok u =>
          rcases hp with rfl | ⟨hold, hnew⟩
          · exact h.1
          · exact (h.2 p hold hnew).mpr hs
  | remove path | unlink path =>
      cases rv with
      | error e => exact h ▸ hs
      | ok u => exact (h.2 p (hp.resolve_left h.1)).mpr hs
  | _ => exact hp.elim

theorem Runs.spares (h : Runs within tr s s')
    (hp : ∀ e ∈ tr, Spares within p e.1) (hs : s p) : s' p := by
  induction tr generalizing s with
  | nil => exact h ▸ hs
  | cons e tr ih =>
      obtain ⟨s₁, he, htr⟩ := h
      exact ih htr (fun e' he' => hp e' (List.mem_cons_of_mem _ he'))
        (he.spares (hp e List.mem_cons_self) hs)

/-- A name that was renamed to and is not taken away exists. -/
theorem Runs.renamed (h : Runs within tr s s')
    (hp : ∀ e ∈ tr, Spares within p e.1) {oldpath : Path}
    (hmem : ⟨.rename oldpath p, .ok ()⟩ ∈ tr) : s' p := by
  induction tr generalizing s with
  | nil => cases hmem
  | cons e tr ih =>
      obtain ⟨s₁, he, htr⟩ := h
      have htail : ∀ e ∈ tr, Spares within p e.1 :=
        fun e' he' => hp e' (List.mem_cons_of_mem _ he')
      rcases List.mem_cons.mp hmem with rfl | hmem
      · exact htr.spares htail he.1
      · exact ih htr htail hmem

end Names

/-! ## The calls of the operations -/

section Calls

variable {cfg : Config} {oldpath newpath : FusePath} {tr : Trace} {rv : ℤ}

theorem issues_unlink {P : Call → Prop} {fusepath : FusePath}
    (hprobe : ∀ type p, P (.probe type p))
    (hunlink : ∀ base, Open cfg base → P (.unlink (make base fusepath.path))) :
    Issues P (unlink cfg fusepath) := by
  unfold unlink actionOn
  apply issues_withPaths (hprobe _ _)
  intro paths _ hopen
  apply issues_callLoop
  intro base hbase
  exact issues_sys (hunlink base (hopen (by decide) base hbase))

theorem removedPaths_rename (h : Exec (rename cfg oldpath newpath) tr rv)
    {path : Path} (hp : path ∈ removedPaths tr) :
    path = [] ∨ ∃ b ∈ cfg.branches, path = make b.path oldpath.path ∨
      path = make b.path newpath.path ∧ b.path ∉ selected cfg oldpath tr := by
  rcases exec_rename h with ⟨_, hrem, _⟩ | ⟨steps, s, hsteps, hout, _, hrem⟩
  · rw [hrem] at hp
    cases hp
  · rw [hrem] at hp
    split_ifs at hp with hs
    · rcases (hout.mem_toremove_iff path).mp hp with
        ⟨c, hc, rfl⟩ | ⟨c, hc, rfl⟩ | ⟨rfl, _⟩
      · obtain ⟨b, hb, rfl⟩ := mem_branches_of_mem_steps hsteps hc
        exact .inr ⟨b, hb, .inr ⟨rfl, (hout.skipped_iff _ hc).mp rfl⟩⟩
      · obtain ⟨b, hb, rfl⟩ := mem_branches_of_mem_steps hsteps hc
        exact .inr ⟨b, hb, .inl rfl⟩
      · exact .inl rfl
    · cases hp

theorem mem_selected_of_renamedOn (h : Exec (rename cfg oldpath newpath) tr rv)
    {base : Path} (hbase : RenamedOn oldpath newpath base tr) :
    base ∈ selected cfg oldpath tr := by
  by_contra hno
  rcases exec_rename h with ⟨_, _, hout⟩ | ⟨steps, s, _, hout, _, _⟩
  · cases (hout.renamedOn_iff base).mp hbase
  · have hmem := (hout.renamedOn_iff base).mp hbase
    cases (hout.skipped_iff _ hmem).mpr hno

/-- A rename spares a name that is at or below neither name on any branch, or is the
new one on a selected branch. -/
theorem spares_rename {within : Path → Path → Prop} {p : Path}
    (h : Exec (rename cfg oldpath newpath) tr rv)
    (hold : ∀ b ∈ cfg.branches, ¬ within (make b.path oldpath.path) p)
    (hnew : ∀ b ∈ cfg.branches, ¬ within (make b.path newpath.path) p ∨
      make b.path newpath.path = p ∧ b.path ∈ selected cfg oldpath tr) :
    ∀ e ∈ tr, Spares within p e.1 := by
  have hissues : Issues (fun c => (∃ path, c = .remove path) ∨ Spares within p c)
      (rename cfg oldpath newpath) := by
    refine issues_rename_of ⟨fun _ _ => .inr trivial, fun _ _ _ _ => .inr trivial,
      ?_, fun path => .inl ⟨path, rfl⟩⟩
    rintro base ⟨b, hb, rfl, _⟩
    rcases hnew b hb with hno | ⟨heq, _⟩
    · exact .inr (.inr ⟨hold b hb, hno⟩)
    · exact .inr (.inl heq)
  intro e he
  rcases hissues.of_exec h e he with ⟨path, hpath⟩ | hspares
  · obtain ⟨c, rvc⟩ := e
    subst hpath
    rcases removedPaths_rename h (mem_removedPaths_iff.mpr ⟨rvc, he⟩) with
      rfl | ⟨b, hb, rfl | ⟨rfl, hsel⟩⟩
    · exact .inl rfl
    · exact .inr (hold b hb)
    · exact .inr ((hnew b hb).resolve_right fun hyes => hsel hyes.2)
  · exact hspares

end Calls

/-! ## Runs -/

structure NamedPool where
  cache : PolicyCache
  names : Names

/-- An operation, with the calls it made, what it returned and the names after it. -/
inductive PoolOp where
  | open (c : OpenCall)
  | unlink (fusepath : FusePath) (tr : Trace) (rv : ℤ) (after : Names)
  | rename (oldpath newpath : FusePath) (tr : Trace) (rv : ℤ) (after : Names)

namespace NamedPool

variable (within : Path → Path → Prop) (cfg : Config)

/-- The operations as far as the cache and the names go: each of the two that change
names erases one path. -/
def step (s : NamedPool) : PoolOp → NamedPool
  | .open c => { s with cache := (openBranch cfg.branches s.cache c).1 }
  | .unlink fusepath _ _ after => ⟨s.cache.erase fusepath.path, after⟩
  | .rename oldpath _ _ _ after => ⟨s.cache.erase oldpath.path, after⟩

/-- The operation is one of the code, on a pool nothing else changes. -/
def Possible (s : NamedPool) : PoolOp → Prop
  | .open c => ∀ p, (c.env.lstat p).isSome ↔ s.names p
  | .unlink fusepath tr rv after =>
      Exec (unlink cfg fusepath) tr rv ∧ Runs within tr s.names after
  | .rename oldpath newpath tr rv after =>
      Exec (rename cfg oldpath newpath) tr rv ∧ Runs within tr s.names after

/-- The open resolves to a branch that has the path, and fails only if none has. -/
def Resolves (s : NamedPool) (c : OpenCall) : Prop :=
  match (openBranch cfg.branches s.cache c).2 with
  | .ok basepath => basepath ∈ toPaths cfg.branches ∧
      s.names (make basepath c.fusepath.path)
  | .error _ => ∀ b ∈ cfg.branches, ¬ s.names (make b.path c.fusepath.path)

structure Able (c : OpenCall) : Prop where
  policy : c.policy ≠ .invalid ∧ c.policy ≠ .erofs
  search : c.policy ≠ .lus ∧ c.policy ≠ .eplus
  status : c.policy.asksSpace = true →
    ∀ b ∈ cfg.branches, (c.env.statvfsCache b.path).isSome

def Other (s : NamedPool) (fusepath q : Path) (v : Timed.Entry Path) : Prop :=
  s.cache q = some v ∧ v ≠ PolicyCache.value ∧ q ≠ fusepath

def Separate (oldpath newpath : FusePath) : Prop :=
  ∀ b ∈ cfg.branches, ∀ c ∈ cfg.branches,
    ¬ within (make c.path oldpath.path) (make b.path newpath.path) ∧
      (c.path ≠ b.path →
        ¬ within (make c.path newpath.path) (make b.path newpath.path))

/-- The operation does not take away what another entry of the cache names. For a
rename this is asked of the new name as well, unless it is renamed to on the branch
the entry names. -/
def Spared (s : NamedPool) : PoolOp → Prop
  | .open c => Able cfg c ∧ s.cache.ClockReached c.timeout c.now c.fusepath.path
  | .unlink fusepath _ _ _ => ∀ q v, s.Other fusepath.path q v →
      ∀ b ∈ cfg.branches, ¬ within (make b.path fusepath.path) (make v.val q)
  | .rename oldpath newpath tr _ _ =>
      (∀ q v, s.Other oldpath.path q v →
        q = newpath.path ∧ RenamedOn oldpath newpath v.val tr ∨
          ∀ b ∈ cfg.branches,
            ¬ within (make b.path oldpath.path) (make v.val q) ∧
              ¬ within (make b.path newpath.path) (make v.val q)) ∧
      (∀ b ∈ cfg.branches, ¬ SearchFailsOn cfg oldpath newpath b.path tr) ∧
      Separate within cfg oldpath newpath

def Coherent (s : NamedPool) : Prop :=
  s.cache.Holds PolicyCache.value fun q v =>
    v.val ∈ toPaths cfg.branches ∧ s.names (make v.val q)

variable {within cfg} {s : NamedPool}

theorem Coherent.erase (h : s.Coherent cfg) {fusepath : Path} {after : Names}
    (hafter : ∀ q v, s.Other fusepath q v → v.val ∈ toPaths cfg.branches →
      s.names (make v.val q) → after (make v.val q)) :
    Coherent cfg ⟨s.cache.erase fusepath, after⟩ := by
  intro q v hv
  obtain ⟨hne, hv⟩ := Timed.Map.eq_of_erase hv
  rw [or_iff_not_imp_left]
  intro hval
  obtain ⟨hmem, hname⟩ := (h q v hv).resolve_left hval
  exact ⟨hmem, hafter q v ⟨hv, hval, hne⟩ hmem hname⟩

theorem names_of_renamedOn {oldpath newpath : FusePath} {tr : Trace} {rv : ℤ}
    {names after : Names} (h : Exec (rename cfg oldpath newpath) tr rv)
    (hrun : Runs within tr names after)
    (hsep : Separate within cfg oldpath newpath) {base : Path}
    (hmem : base ∈ toPaths cfg.branches)
    (hbase : RenamedOn oldpath newpath base tr) :
    after (make base newpath.path) := by
  obtain ⟨b, hb, rfl⟩ := List.mem_map.mp hmem
  have hsel := mem_selected_of_renamedOn h hbase
  refine hrun.renamed (spares_rename h (fun c hc => (hsep b hb c hc).1) ?_)
    (mem_of_mem_renamedPaths hbase)
  intro c hc
  by_cases hcb : c.path = b.path
  · exact .inr ⟨by rw [hcb], by rwa [hcb]⟩
  · exact .inl ((hsep b hb c hc).2 hcb)

theorem Coherent.step (h : s.Coherent cfg) {op : PoolOp}
    (hpossible : s.Possible within cfg op) (hspared : s.Spared within cfg op) :
    (s.step cfg op).Coherent cfg := by
  cases op with
  | «open» c =>
      refine PolicyCache.Holds.call h ?_
      intro basepath _ hsearch
      obtain ⟨hmem, hstat⟩ := searchBranch_eq_ok hsearch
      exact ⟨hmem, (hpossible _).mp hstat⟩
  | unlink fusepath tr rv after =>
      refine Coherent.erase h ?_
      intro q v hother _ hname
      refine hpossible.2.spares (issues_unlink (fun _ _ => trivial) ?_ |>.of_exec
        hpossible.1) hname
      rintro base ⟨b, hb, rfl, _⟩
      exact .inr (hspared q v hother b hb)
  | rename oldpath newpath tr rv after =>
      obtain ⟨hexec, hrun⟩ := hpossible
      obtain ⟨hothers, _, hsep⟩ := hspared
      refine Coherent.erase h ?_
      intro q v hother hmem hname
      rcases hothers q v hother with ⟨rfl, hrenamed⟩ | haway
      · exact names_of_renamedOn hexec hrun hsep hmem hrenamed
      · exact hrun.spares (spares_rename hexec (fun b hb => (haway b hb).1)
          fun b hb => .inl (haway b hb).2) hname

/-- A rename that returns zero has renamed on a branch, unless a search failed. -/
theorem exists_renamedOn {oldpath newpath : FusePath} {tr : Trace}
    (h : Exec (rename cfg oldpath newpath) tr 0)
    (hsearch : ∀ b ∈ cfg.branches, ¬ SearchFailsOn cfg oldpath newpath b.path tr) :
    ∃ b ∈ cfg.branches, RenamedOn oldpath newpath b.path tr := by
  rcases exec_rename h with ⟨hr, _, _⟩ | ⟨steps, st, hsteps, hout, hr, _⟩
  · exact absurd rfl hr
  · rcases (hout.error_iff hsteps).mp (Int.neg_eq_zero.mp hr.symm) with
      hrenamed | ⟨b, hb, hfails⟩
    · exact hrenamed
    · exact absurd hfails (hsearch b hb)

theorem not_names_of_searchBranch {c : OpenCall} (hable : Able cfg c)
    (hpossible : ∀ p, (c.env.lstat p).isSome ↔ s.names p) {e : Errno}
    (h : searchBranch cfg.branches c = .error e) :
    ∀ b ∈ cfg.branches, ¬ s.names (make b.path c.fusepath.path) := by
  intro b hb hname
  have hfinds := Policy.func_search_finds c.env cfg.branches c.fusepath.path
    c.minfreespace hable.policy hable.search
  have hok := hfinds.ok_iff.mpr ⟨b, hb,
    Option.isSome_iff_exists.mp ((hpossible _).mpr hname),
    fun hasks => Option.isSome_iff_exists.mp (hable.status hasks b hb)⟩
  simp [searchBranch, hok] at h

theorem Coherent.resolves (h : s.Coherent cfg) {c : OpenCall}
    (hpossible : s.Possible within cfg (.open c))
    (hspared : s.Spared within cfg (.open c)) : s.Resolves cfg c := by
  obtain ⟨hable, hclock⟩ := hspared
  unfold Resolves
  cases hb : (openBranch cfg.branches s.cache c).2 with
  | ok basepath =>
      refine openBranch_of_holds (P := fun q basepath =>
        basepath ∈ toPaths cfg.branches ∧ s.names (make basepath q)) h hclock ?_ hb
      intro basepath hsearch
      obtain ⟨hmem, hstat⟩ := searchBranch_eq_ok hsearch
      exact ⟨hmem, (hpossible _).mp hstat⟩
  | error e =>
      exact not_names_of_searchBranch hable hpossible (openBranch_eq_error hb)

end NamedPool

/-- In a run whose operations take nothing away that another entry of the cache
names, every open resolves to a branch that has the path, and a rename that returns
zero leaves the new name on a branch and no entry for the old one. -/
theorem open_coherent (within : Path → Path → Prop) (cfg : Config) (names : Names)
    (ops : List PoolOp)
    (hpossible : Along.along (NamedPool.step cfg) (NamedPool.Possible within cfg)
      ⟨Timed.Map.empty, names⟩ ops)
    (hspared : Along.along (NamedPool.step cfg) (NamedPool.Spared within cfg)
      ⟨Timed.Map.empty, names⟩ ops) :
    (∀ done c rest, ops = done ++ .open c :: rest →
      (done.foldl (NamedPool.step cfg) ⟨Timed.Map.empty, names⟩).Resolves cfg c) ∧
    ∀ done oldpath newpath tr rv after rest,
      ops = done ++ .rename oldpath newpath tr rv after :: rest →
        (rv = 0 → ∃ b ∈ cfg.branches, after (make b.path newpath.path)) ∧
        ((done ++ [.rename oldpath newpath tr rv after]).foldl
          (NamedPool.step cfg) ⟨Timed.Map.empty, names⟩).cache oldpath.path =
            none := by
  have hsplit : ∀ done op rest, ops = done ++ op :: rest →
      let s := done.foldl (NamedPool.step cfg) ⟨Timed.Map.empty, names⟩
      s.Coherent cfg ∧ s.Possible within cfg op ∧ s.Spared within cfg op :=
    fun done op rest heq => Along.along.inv_split
      (I := fun _ s => s.Coherent cfg)
      (fun _ _ _ hs hop => hs.step hop.1 hop.2) Timed.Map.holds_empty
      (hpossible.and hspared) heq
  constructor
  · intro done c rest heq
    obtain ⟨hs, hp, hc⟩ := hsplit done (.open c) rest heq
    exact hs.resolves hp hc
  · intro done oldpath newpath tr rv after rest heq
    obtain ⟨_, ⟨hexec, hrun⟩, _, hsearch, hsep⟩ := hsplit done _ rest heq
    refine ⟨?_, by simp [NamedPool.step, Timed.Map.erase]⟩
    rintro rfl
    obtain ⟨b, hb, hrenamed⟩ := NamedPool.exists_renamedOn hexec hsearch
    exact ⟨b, hb, NamedPool.names_of_renamedOn hexec hrun hsep
      (List.mem_map_of_mem hb) hrenamed⟩

def nameY : FusePath := .top ['y']

def openingOf (fusepath : FusePath) (files : List Path) (now : UInt64) :
    OpenCall where
  fusepath := fusepath
  policy := .ff
  env := holding files
  minfreespace := 0
  timeout := 10
  now := now

theorem lstat_holding (files : List Path) (p : Path) :
    ((holding files).lstat p).isSome ↔ p ∈ files := by
  by_cases hp : p ∈ files <;> simp [holding, Probe.unshuffled, hp]

def renamingX (files : List Path) : Trace :=
  (Program.run (answers (fun _ _ => holding files) fun _ => .ok ())
    (rename (Config.initial twoBranches) fileX nameY) []).2

theorem changes_renamingX (rest : List Path) :
    Changes under ⟨.rename ['/', 'a', '/', 'x'] ['/', 'a', '/', 'y'], .ok ()⟩
      (· ∈ ['/', 'a', '/', 'x'] :: rest) (· ∈ ['/', 'a', '/', 'y'] :: rest) := by
  refine ⟨List.mem_cons_self, fun p hold hnew => ?_⟩
  have hx : p ≠ ['/', 'a', '/', 'x'] := fun h => hold (h ▸ under_refl p)
  have hy : p ≠ ['/', 'a', '/', 'y'] := fun h => hnew (h ▸ under_refl p)
  simp [hx, hy]

/-- The run: `/x` is opened, renamed to `/y`, and `/y` is opened. -/
theorem open_coherent_renamed :
    NamedPool.Resolves (Config.initial twoBranches)
      ([PoolOp.open (openingOf fileX [['/', 'a', '/', 'x']] 100),
        .rename fileX nameY (renamingX [['/', 'a', '/', 'x']]) 0
          (· ∈ [['/', 'a', '/', 'y']])].foldl
        (NamedPool.step (Config.initial twoBranches))
        ⟨Timed.Map.empty, (· ∈ [['/', 'a', '/', 'x']])⟩)
      (openingOf nameY [['/', 'a', '/', 'y']] 105) := by
  refine (open_coherent under (Config.initial twoBranches) _
    [.open (openingOf fileX [['/', 'a', '/', 'x']] 100),
      .rename fileX nameY (renamingX [['/', 'a', '/', 'x']]) 0
        (· ∈ [['/', 'a', '/', 'y']]),
      .open (openingOf nameY [['/', 'a', '/', 'y']] 105)] ?_ ?_).1 _ _ [] rfl
  · refine ⟨lstat_holding _, ⟨exec_run_nil _ _, ?_⟩, lstat_holding _, trivial⟩
    exact ⟨_, ⟨rfl, lstat_holding _⟩, _, changes_renamingX [], _,
      ⟨by decide, fun _ _ => Iff.rfl⟩, rfl⟩
  · refine ⟨⟨⟨by decide, by decide, by decide⟩, fun _ _ => by decide⟩,
      ⟨?_, ?_, ?_⟩, ⟨⟨by decide, by decide, by decide⟩, fun _ _ => by decide⟩,
      trivial⟩
    · rintro q v ⟨hv, _, hne⟩
      rcases Timed.Map.eq_of_put hv with ⟨rfl, _⟩ | hv
      · exact absurd rfl hne
      · rcases Timed.Map.eq_of_put hv with ⟨rfl, _⟩ | hv
        · exact absurd rfl hne
        · cases hv
    · rintro b _ ⟨env₁, env₂, hsub, _⟩
      have hmem := hsub.subset (List.mem_cons_of_mem _ List.mem_cons_self)
      have hcall : Call.probe .create (dirname nameY.path) ∈ _ :=
        List.mem_map_of_mem (f := Sigma.fst) hmem
      exact absurd hcall (by decide)
    · simp only [NamedPool.Separate, under]
      decide

/-- The new name was opened on the second branch before: it is removed there, and
still opened there. -/
theorem open_incoherent :
    let ops := [PoolOp.open (openingOf nameY
        [['/', 'a', '/', 'x'], ['/', 'b', '/', 'y']] 100),
      .rename fileX nameY (renamingX [['/', 'a', '/', 'x'], ['/', 'b', '/', 'y']]) 0
        (· ∈ [['/', 'a', '/', 'y']])]
    let c := openingOf nameY [['/', 'a', '/', 'y']] 105
    let s := ops.foldl (NamedPool.step (Config.initial twoBranches))
      ⟨Timed.Map.empty, (· ∈ [['/', 'a', '/', 'x'], ['/', 'b', '/', 'y']])⟩
    Along.along (NamedPool.step (Config.initial twoBranches))
        (NamedPool.Possible under (Config.initial twoBranches))
        ⟨Timed.Map.empty, (· ∈ [['/', 'a', '/', 'x'], ['/', 'b', '/', 'y']])⟩
        (ops ++ [.open c]) ∧
      (openBranch twoBranches s.cache c).2 = .ok ['/', 'b'] ∧
      ¬ s.names ['/', 'b', '/', 'y'] ∧ s.names ['/', 'a', '/', 'y'] := by
  refine ⟨⟨lstat_holding _, ⟨exec_run_nil _ _, ?_⟩, lstat_holding _, trivial⟩, rfl,
    ?_, ?_⟩
  · refine ⟨_, ⟨rfl, lstat_holding _⟩, _, changes_renamingX _, _,
      ⟨by decide, fun p hp => ?_⟩, rfl⟩
    have hne : p ≠ ['/', 'b', '/', 'y'] := fun h => hp (h ▸ under_refl p)
    simp [hne]
  · change ['/', 'b', '/', 'y'] ∉ [['/', 'a', '/', 'y']]
    decide
  · exact List.mem_singleton_self ['/', 'a', '/', 'y']

end Mergerfs
