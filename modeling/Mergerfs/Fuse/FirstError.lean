import Mergerfs.Fuse.LinkCreate

/-!
# The error of a rename or a link

By the documentation a rename or a link that succeeds on no branch returns the first
error encountered. Both fold the results of the branches by `error::calc`, which keeps
the error of the last branch that failed, and both forget the errors once a branch has
ended with anything but `-1`.

`RenameLink.outcomes` is the operation up to the end of its loop, with the result of each
branch: `RenameLink.observed_run` says that every run begins like this, and what is
reported follows from the results alone.
-/

namespace Mergerfs

open Errno Program

/-! ## Results of branches -/

/-- What the loops make of the results, each a return value and an `errno`. -/
def report (results : List (ℤ × ℤ)) : ℤ :=
  -results.foldl (fun error x => errorCalc x.1 error x.2) (-1)

def firstError (results : List (ℤ × ℤ)) : ℤ :=
  if ∃ x ∈ results, x.1 = 0 then 0 else -(results.head?.map Prod.snd).getD 0

theorem foldl_errorCalc_zero (results : List (ℤ × ℤ)) :
    results.foldl (fun error x => errorCalc x.1 error x.2) 0 = 0 := by
  induction results with
  | nil => rfl
  | cons x results ih =>
      have hx : errorCalc x.1 0 x.2 = 0 := by simp [errorCalc]
      rw [List.foldl_cons, hx, ih]

/-- Any value but `-1` clears the error for good. -/
theorem foldl_errorCalc_of_ne {results : List (ℤ × ℤ)} (error : ℤ)
    (h : ∃ x ∈ results, x.1 ≠ -1) :
    results.foldl (fun error x => errorCalc x.1 error x.2) error = 0 := by
  obtain ⟨x, hx, hne⟩ := h
  obtain ⟨l₁, l₂, rfl⟩ := List.append_of_mem hx
  rw [List.foldl_append, List.foldl_cons, errorCalc, if_neg hne, foldl_errorCalc_zero]

theorem foldl_errorCalc_of_eq {results : List (ℤ × ℤ)} {error : ℤ}
    (herror : error ≠ 0) (h : ∀ x ∈ results, x.1 = -1 ∧ x.2 ≠ 0) :
    results.foldl (fun error x => errorCalc x.1 error x.2) error =
      (results.map Prod.snd).getLastD error := by
  induction results generalizing error with
  | nil => rfl
  | cons x results ih =>
      obtain ⟨⟨hrv, herrno⟩, hrest⟩ := List.forall_mem_cons.mp h
      have hx : errorCalc x.1 error x.2 = x.2 := by simp [errorCalc, hrv, herror]
      rw [List.foldl_cons, hx, ih herrno hrest, List.map_cons, List.getLastD_cons]

/-- The first error is reported exactly if a branch succeeded, or all ended with `-1`
and the last with the same error as the first. -/
theorem report_eq_firstError_iff {results : List (ℤ × ℤ)} (hne : results ≠ [])
    (hvalid : ∀ x ∈ results, x.1 = 0 ∨ 0 < x.2) :
    report results = firstError results ↔
      (∃ x ∈ results, x.1 = 0) ∨ ((∀ x ∈ results, x.1 = -1) ∧
        results.getLast?.map Prod.snd = results.head?.map Prod.snd) := by
  obtain ⟨x, rest, rfl⟩ := List.exists_cons_of_ne_nil hne
  unfold report firstError
  by_cases hok : ∃ y ∈ x :: rest, y.1 = 0
  · have hclear : ∃ y ∈ x :: rest, y.1 ≠ -1 := by
      obtain ⟨y, hy, hzero⟩ := hok
      exact ⟨y, hy, by rw [hzero]; decide⟩
    rw [if_pos hok, foldl_errorCalc_of_ne _ hclear, Int.neg_zero]
    exact iff_of_true rfl (.inl hok)
  · have hfail : ∀ y ∈ x :: rest, 0 < y.2 := fun y hy =>
      (hvalid y hy).resolve_left fun h => hok ⟨y, hy, h⟩
    rw [if_neg hok]
    by_cases hall : ∀ y ∈ x :: rest, y.1 = -1
    · rw [foldl_errorCalc_of_eq (by decide)
        fun y hy => ⟨hall y hy, (hfail y hy).ne'⟩]
      rw [or_iff_right hok, and_iff_right hall, List.getLast?_cons, List.map_cons,
        List.getLastD_cons, List.getLastD_eq_getLast?, List.getLast?_map]
      cases rest.getLast? <;> simp
    · have hclear : ∃ y ∈ x :: rest, y.1 ≠ -1 := by
        simp only [not_forall] at hall
        obtain ⟨y, hy, hy'⟩ := hall
        exact ⟨y, hy, hy'⟩
      rw [foldl_errorCalc_of_ne _ hclear]
      have hx := hfail x List.mem_cons_self
      constructor
      · intro heq
        simp at heq
        omega
      · rintro (h | h)
        · exact absurd h hok
        · exact absurd h.1 hall

/-! ## The operations up to the end of their loops -/

inductive RenameLink
  | rename
  | link
deriving DecidableEq

def whenPaths {α : Type} (cfg : Config) (p : Policy) (type : Category)
    (fusepath : Path) (k : List Path → Prog (Option α)) : Prog (Option α) := do
  let r ← ask cfg p type fusepath []
  match r.1 with
  | .error _ => pure none
  | .ok _ => k r.2

theorem exec_whenPaths_some {α : Type} {cfg : Config} {p : Policy} {type : Category}
    {fusepath : Path} {k : List Path → Prog (Option α)} {t : Trace} {a : α}
    (h : Exec (whenPaths cfg p type fusepath k) t (some a)) :
    ∃ paths t', Exec (k paths) t' (some a) := by
  obtain ⟨env, t', rfl, hcont⟩ := exec_ask_bind.mp h
  cases hrv : (p.func env type cfg.branches fusepath cfg.minfreespace []).1 with
  | error e =>
      rw [hrv] at hcont
      cases (exec_pure.mp hcont).2
  | ok u =>
      rw [hrv] at hcont
      exact ⟨_, t', hcont⟩

namespace RenameLink

section Definitions

variable (cfg : Config) (oldpath newpath : FusePath)

def run : RenameLink → Prog ℤ
  | rename => Mergerfs.rename cfg oldpath newpath
  | link => Mergerfs.link cfg oldpath newpath

def actionPolicy : RenameLink → Policy
  | rename => cfg.rename
  | link => if preservesPath cfg then cfg.link else cfg.create

def searchPolicy : RenameLink → Policy
  | rename => cfg.getattr
  | link => cfg.link

def attempt (src : Path) (op : RenameLink) (base : Path) : Prog (ℤ × ℤ) :=
  match op, preservesPath cfg with
  | rename, true => renameOrClone cfg base oldpath newpath
  | rename, false => do
      let r ← cloneAndRename base src oldpath newpath (dirname newpath.path)
      pure (rvErrno r.1)
  | link, true => do
      let rv ← linkPreservePathCore cfg oldpath newpath base
      pure (rvErrno rv)
  | link, false => do
      let rv ← cloneThen src base (dirname newpath.path)
        (sys (.link (make base oldpath.path) (make base newpath.path)))
      pure (rvErrno rv)

def bases (selected : List Path) : RenameLink → List Path
  | rename => (toPaths cfg.branches).filter (member selected)
  | link => selected

def attempts (src : Path) (selected : List Path) (op : RenameLink) :
    Prog (Option (List (ℤ × ℤ))) := do
  let results ← collect (op.attempt cfg oldpath newpath src) (op.bases cfg selected)
  pure (some results)

/-- The results of the branches, unless a policy fails before the loop. -/
def outcomes (op : RenameLink) : Prog (Option (List (ℤ × ℤ))) :=
  whenPaths cfg (op.actionPolicy cfg) .action oldpath.path fun selected =>
    if preservesPath cfg then op.attempts cfg oldpath newpath [] selected
    else whenPaths cfg (op.searchPolicy cfg) .search (dirname newpath.path)
      fun src => op.attempts cfg oldpath newpath (front src) selected

def Attempted (op : RenameLink) (tr : Trace) (results : List (ℤ × ℤ)) : Prop :=
  ∃ t rest, tr = t ++ rest ∧ Exec (op.outcomes cfg oldpath newpath) t (some results)

end Definitions

end RenameLink

/-! ## What is reported -/

/-- Every run of `p` begins with one of `q`, and reports what its results come to. -/
def Observed (p : Prog ℤ) (q : Prog (Option (List (ℤ × ℤ)))) : Prop :=
  ∀ tr r, Exec p tr r → ∃ t rest o, tr = t ++ rest ∧ Exec q t o ∧
    match o with
    | some results => r = report results
    | none => ∃ e : Errno, r = e.neg

theorem observed_withPaths {cfg : Config} {p : Policy} {type : Category}
    {fusepath : Path} {k : List Path → Prog ℤ}
    {k' : List Path → Prog (Option (List (ℤ × ℤ)))}
    (h : ∀ paths, Observed (k paths) (k' paths)) :
    Observed (withPaths cfg p type fusepath k) (whenPaths cfg p type fusepath k') := by
  intro tr r hex
  obtain ⟨env, t, rfl, hcont⟩ := exec_withPaths hex
  rcases hcont with ⟨rfl, e, hrv, rfl⟩ | ⟨hrv, hcont⟩
  · refine ⟨_, [], none, (List.append_nil _).symm, exec_ask_bind.mpr ⟨env, [], rfl, ?_⟩,
      e, rfl⟩
    rw [hrv]
    exact exec_pure.mpr ⟨rfl, rfl⟩
  · obtain ⟨t, rest, o, rfl, hq, ho⟩ := h _ t r hcont
    refine ⟨_, rest, o, rfl, exec_ask_bind.mpr ⟨env, t, rfl, ?_⟩, ho⟩
    rw [hrv]
    exact hq

theorem calcRv_eq (rv : Rv) (error : ℤ) :
    calcRv rv error = errorCalc (rvErrno rv).1 error (rvErrno rv).2 := by
  cases rv <;> rfl

/-- The rule for a loop whose error is folded from the results of its attempts. -/
theorem observed_loop {σ ι : Type} {f : σ → ι → Prog σ} {finish : σ → Prog ℤ} {s₀ : σ}
    (key : ι → Path) (sel : Path → Bool) (attempt : Path → Prog (ℤ × ℤ))
    (error : σ → ℤ) (h₀ : error s₀ = -1)
    (hstep : ∀ s x t s', Exec (f s x) t s' →
      if sel (key x) then ∃ a, Exec (attempt (key x)) t a ∧
        error s' = errorCalc a.1 (error s) a.2
      else t = [] ∧ error s' = error s)
    (hfinish : ∀ s t r, Exec (finish s) t r → r = -error s) (xs : List ι) :
    Observed (xs.foldlM f s₀ >>= finish) (do
      let results ← collect attempt ((xs.map key).filter sel)
      pure (some results)) := by
  intro tr r hex
  obtain ⟨t₁, s, t₂, rfl, h₁, h₂⟩ := exec_bind.mp hex
  obtain ⟨results, hresults, herror⟩ := exec_foldlM_collect key sel attempt error
    (fun error x => errorCalc x.1 error x.2) hstep h₁
  refine ⟨t₁, t₂, some results, rfl, ?_, ?_⟩
  · exact exec_bind.mpr ⟨t₁, results, [], (List.append_nil _).symm, hresults,
      exec_pure.mpr ⟨rfl, rfl⟩⟩
  · show r = report results
    rw [hfinish s t₂ r h₂, herror, h₀, report]

theorem observed_callLoop {core : Path → Prog Rv} (basepaths : List Path) :
    Observed (callLoop basepaths core) (do
      let results ← collect (fun base => do
        let rv ← core base
        pure (rvErrno rv)) basepaths
      pure (some results)) := by
  have hbases : (basepaths.map id).filter (fun _ => true) = basepaths := by simp
  nth_rewrite 2 [← hbases]
  refine observed_loop id (fun _ => true) _ id rfl ?_ ?_ basepaths
  · intro error base t error' hex
    obtain ⟨t₁, rv, t₂, rfl, hcore, hret⟩ := exec_bind.mp hex
    obtain ⟨rfl, rfl⟩ := exec_pure.mp hret
    exact ⟨rvErrno rv, exec_bind.mpr ⟨t₁, rv, [], rfl, hcore,
      exec_pure.mpr ⟨rfl, rfl⟩⟩, calcRv_eq rv error⟩
  · intro error t r hex
    exact (exec_pure.mp hex).2

theorem exec_finishRename {s : RenameState} {t : Trace} {r : ℤ}
    (h : Exec (finishRename s) t r) : r = -s.1 := by
  obtain ⟨t₁, u, t₂, rfl, -, hret⟩ := exec_bind.mp h
  exact (exec_pure.mp hret).2

namespace RenameLink

variable (op : RenameLink) (cfg : Config) (oldpath newpath : FusePath)

theorem observed_renameCreate (hmode : preservesPath cfg = false) (src : Path)
    (selected : List Path) :
    Observed (do
      let s ← cfg.branches.foldlM (renameCreatePathCore selected src oldpath newpath
        (dirname newpath.path)) (-1, [])
      finishRename s) (rename.attempts cfg oldpath newpath src selected) := by
  refine observed_loop Branch.path (member selected) _ Prod.fst rfl ?_
    (fun _ _ _ => exec_finishRename) cfg.branches
  intro s branch t s' hex
  unfold renameCreatePathCore at hex
  split_ifs at hex ⊢ with hsel
  · obtain ⟨t₁, ⟨rv, oldfullpath⟩, t₂, rfl, hcore, hret⟩ := exec_bind.mp hex
    have hs' : t₂ = [] ∧ s'.1 = calcRv rv s.1 := by
      cases rv with
      | ok u | error e =>
          obtain ⟨rfl, rfl⟩ := exec_pure.mp hret
          exact ⟨rfl, rfl⟩
    obtain ⟨rfl, hs'⟩ := hs'
    refine ⟨rvErrno rv, ?_, ?_⟩
    · simp only [attempt, hmode]
      exact exec_bind.mpr ⟨t₁, _, [], rfl, hcore, exec_pure.mpr ⟨rfl, rfl⟩⟩
    · rw [hs', calcRv_eq]
  · obtain ⟨rfl, rfl⟩ := exec_pure.mp hex
    exact ⟨rfl, rfl⟩

theorem observed_renamePreserve (hmode : preservesPath cfg = true)
    (selected : List Path) :
    Observed (do
      let s ← cfg.branches.foldlM (renamePreservePathCore cfg selected oldpath newpath)
        (-1, [])
      finishRename s) (rename.attempts cfg oldpath newpath [] selected) := by
  refine observed_loop Branch.path (member selected) _ Prod.fst rfl ?_
    (fun _ _ _ => exec_finishRename) cfg.branches
  intro s branch t s' hex
  unfold renamePreservePathCore at hex
  split_ifs at hex ⊢ with hsel
  · obtain ⟨t₁, r, t₂, rfl, hcore, hret⟩ := exec_bind.mp hex
    obtain ⟨rfl, rfl⟩ := exec_pure.mp hret
    refine ⟨r, ?_, rfl⟩
    simp only [attempt, hmode]
    rw [List.append_nil]
    exact hcore
  · obtain ⟨rfl, rfl⟩ := exec_pure.mp hex
    exact ⟨rfl, rfl⟩

theorem observed_link {core : Path → Prog Rv} {src : Path}
    (hcore : ∀ base, attempt cfg oldpath newpath src .link base = (do
      let rv ← core base
      pure (rvErrno rv))) (selected : List Path) :
    Observed (callLoop selected core) (link.attempts cfg oldpath newpath src selected) := by
  rw [attempts, funext hcore]
  exact observed_callLoop selected

/-- Every run of the operation begins with the policies and the attempts. -/
theorem observed_run : Observed (op.run cfg oldpath newpath)
    (op.outcomes cfg oldpath newpath) := by
  cases hmode : preservesPath cfg with
  | true =>
      cases op with
      | rename =>
          simp only [run, Mergerfs.rename, outcomes, hmode, if_true]
          exact observed_withPaths fun selected =>
            observed_renamePreserve cfg oldpath newpath hmode selected
      | link =>
          simp only [run, Mergerfs.link, outcomes, actionPolicy, hmode, if_true]
          exact observed_withPaths fun selected => observed_link cfg oldpath newpath
            (fun base => by simp only [attempt, hmode]) selected
  | false =>
      cases op with
      | rename =>
          simp only [run, Mergerfs.rename, outcomes, hmode, Bool.false_eq_true, if_false]
          exact observed_withPaths fun selected => observed_withPaths fun src =>
            observed_renameCreate cfg oldpath newpath hmode (front src) selected
      | link =>
          simp only [run, Mergerfs.link, outcomes, actionPolicy, hmode,
            Bool.false_eq_true, if_false, linkCreatePath]
          exact observed_withPaths fun selected => observed_withPaths fun src =>
            observed_link cfg oldpath newpath
              (fun base => by simp only [attempt, hmode]) selected

/-! ## The errors are numbers -/

theorem valid_rvErrno (rv : Rv) : (rvErrno rv).1 = 0 ∨ 0 < (rvErrno rv).2 := by
  cases rv with
  | ok u => exact .inl rfl
  | error e => exact .inr (Int.natCast_pos.mpr e.pos)

theorem valid_of_exec_attempt {src base : Path} {t : Trace} {x : ℤ × ℤ}
    (h : Exec (op.attempt cfg oldpath newpath src base) t x) :
    x.1 = 0 ∨ 0 < x.2 := by
  unfold attempt at h
  split at h
  case h_1 hmode =>
    obtain ⟨k, hk, -⟩ := exec_renameOrClone hmode (List.mem_singleton_self base) h
    cases hk with
    | renamed e => exact .inl rfl
    | failed e | searchFailed e he => exact .inr (Int.natCast_pos.mpr e.pos)
  all_goals
    obtain ⟨t₁, r, t₂, rfl, -, hret⟩ := exec_bind.mp h
    obtain ⟨rfl, rfl⟩ := exec_pure.mp hret
    exact valid_rvErrno _

theorem valid_of_exec_outcomes {t : Trace} {results : List (ℤ × ℤ)}
    (h : Exec (op.outcomes cfg oldpath newpath) t (some results)) :
    ∀ x ∈ results, x.1 = 0 ∨ 0 < x.2 := by
  have hattempts : ∀ {src : Path} {selected : List Path} {t : Trace},
      Exec (op.attempts cfg oldpath newpath src selected) t (some results) →
        ∀ x ∈ results, x.1 = 0 ∨ 0 < x.2 := by
    intro src selected t h
    obtain ⟨t₁, as, t₂, rfl, hcollect, hret⟩ := exec_bind.mp h
    obtain ⟨-, hsome⟩ := exec_pure.mp hret
    cases hsome
    exact forall_of_exec_collect
      (fun _ _ _ => op.valid_of_exec_attempt cfg oldpath newpath) hcollect
  obtain ⟨selected, t₁, h₁⟩ := exec_whenPaths_some h
  split_ifs at h₁
  · exact hattempts h₁
  · obtain ⟨src, t₂, h₂⟩ := exec_whenPaths_some h₁
    exact hattempts h₂

/-! ## The first error -/

/-- Every run of a rename or a link that comes to its loop returns the first error, or
zero after a success, exactly if a branch succeeded, or all of them ended with `-1` and
the last with the same error as the first. -/
theorem reports_first_iff {tr : Trace} {r : ℤ} {results : List (ℤ × ℤ)}
    (h : Exec (op.run cfg oldpath newpath) tr r)
    (hout : op.Attempted cfg oldpath newpath tr results) (hne : results ≠ []) :
    r = firstError results ↔
      (∃ x ∈ results, x.1 = 0) ∨ ((∀ x ∈ results, x.1 = -1) ∧
        results.getLast?.map Prod.snd = results.head?.map Prod.snd) := by
  obtain ⟨t, rest, heq, ht⟩ := hout
  obtain ⟨t', rest', o, rfl, ht', ho⟩ := observed_run op cfg oldpath newpath tr r h
  obtain ⟨rfl, rfl⟩ := ht.unique ht' heq.symm
  have hr : r = report results := ho
  rw [hr]
  exact report_eq_firstError_iff hne (op.valid_of_exec_outcomes cfg oldpath newpath ht)

def refusingBoth (a b : Errno) : Trace → (c : Call) → Ans c :=
  bothServe fun
    | .rename oldpath _ => if oldpath = ['/', 'a', '/', 'x'] then .error a else .error b
    | _ => .ok ()

/-- Both branches are read-only. -/
theorem reports_first_iff_readonly :
    (Program.run (refusingBoth EROFS EROFS)
      (rename.run (Config.initial twoBranches) fileX fileY) []).1 =
        firstError [(-1, EROFS.val), (-1, EROFS.val)] :=
  (reports_first_iff rename (Config.initial twoBranches) fileX fileY
    (exec_run_nil (refusingBoth EROFS EROFS) _)
    ⟨_, [], (List.append_nil _).symm, exec_run_nil (refusingBoth EROFS EROFS)
      (rename.outcomes (Config.initial twoBranches) fileX fileY)⟩ (by decide)).mpr
    (by decide)

/-- The first branch is read-only and the second on another device: the second error is
returned, on which the caller copies. -/
theorem reports_second_error :
    ∃ tr, Exec (rename.run (Config.initial twoBranches) fileX fileY) tr EXDEV.neg ∧
      rename.Attempted (Config.initial twoBranches) fileX fileY tr
        [(-1, EROFS.val), (-1, EXDEV.val)] ∧
      firstError [(-1, EROFS.val), (-1, EXDEV.val)] = EROFS.neg :=
  ⟨_, exec_run_nil (refusingBoth EROFS EXDEV) _,
    ⟨_, [], (List.append_nil _).symm, exec_run_nil (refusingBoth EROFS EXDEV)
      (rename.outcomes (Config.initial twoBranches) fileX fileY)⟩, by decide⟩

end RenameLink

end Mergerfs
