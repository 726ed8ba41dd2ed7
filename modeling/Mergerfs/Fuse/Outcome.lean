import Mergerfs.Fuse.Segment

/-!
# The outcome of a rename

`Outcome` describes what the loop over the branches has done: one step for each
branch, with the kind of its segment, and from the steps the folded error, the
paths to remove and what can be read in the trace. Both modes have such an outcome
for the whole branch list, or fail before the loop in one of their policies.
-/

namespace Mergerfs

open Errno Program

variable {cfg : Config} {oldpath newpath : FusePath} {oldbasepaths : List Path}

/-- The loop has made the `steps`, its variables are `s` and the trace is `tr`. -/
structure Outcome (cfg : Config) (oldpath newpath : FusePath)
    (oldbasepaths : List Path) (steps : List (Path × Kind)) (s : RenameState)
    (tr : Trace) : Prop where
  error_eq_zero_iff : s.1 = 0 ↔
    ∃ x ∈ steps, x.2 = .renamed ∨ x.2 = .searchFailed
  toremove : s.2 = steps.filterMap fun x => x.2.removal oldpath newpath x.1
  skipped_iff : ∀ x ∈ steps, x.2 = .skipped ↔ x.1 ∉ oldbasepaths
  renamedOn_iff : ∀ b, RenamedOn oldpath newpath b tr ↔ (b, .renamed) ∈ steps
  searchFailsOn_iff : ∀ b, SearchFailsOn cfg oldpath newpath b tr ↔
    (b, .searchFailed) ∈ steps
  cloneErrors_iff : preservesPath cfg = false →
    (cloneErrors tr ≠ [] ↔ ∃ x ∈ steps, x.2 = .cloneFailed)
  cloneFailed : ∀ x ∈ steps, x.2 = .cloneFailed → preservesPath cfg = false

theorem Outcome.nil :
    Outcome cfg oldpath newpath oldbasepaths [] (-1, []) [] := by
  constructor <;> simp [RenamedOn, SearchFailsOn, renamedPaths, cloneErrors]

theorem Kind.error_eq_zero_iff (e : Errno) (prev : ℤ) (k : Kind) :
    k.error e prev = 0 ↔ prev = 0 ∨ k = .renamed ∨ k = .searchFailed := by
  have he : e.val ≠ 0 := Nat.pos_iff_ne_zero.mp e.pos
  cases k <;> simp [Kind.error, errorCalc_neg_one, he]

theorem Outcome.snoc {steps : List (Path × Kind)} {s : RenameState}
    {tr t : Trace} {base : Path} {k : Kind} (e : Errno)
    (h : Outcome cfg oldpath newpath oldbasepaths steps s tr)
    (hseg : Segment cfg oldpath newpath oldbasepaths base k t) :
    Outcome cfg oldpath newpath oldbasepaths (steps ++ [(base, k)])
      (k.apply oldpath newpath base e s) (tr ++ t) where
  error_eq_zero_iff := by
    rw [Kind.apply, Kind.error_eq_zero_iff, h.error_eq_zero_iff]
    simp [or_and_right, exists_or]
  toremove := by
    rw [Kind.apply, h.toremove, List.filterMap_append]
    cases hk : k.removal oldpath newpath base <;> simp [hk]
  skipped_iff := by
    intro x hx
    rcases List.mem_append.mp hx with hx | hx
    · exact h.skipped_iff x hx
    · obtain rfl := List.mem_singleton.mp hx
      exact hseg.skipped_iff
  renamedOn_iff := by
    intro b
    have hstep : RenamedOn oldpath newpath b t ↔ k = .renamed ∧ b = base := by
      rw [RenamedOn, hseg.renamed]
      by_cases hk : k = .renamed
      · rw [if_pos hk, List.mem_singleton]
        constructor
        · intro heq
          exact ⟨hk, make_left_injective _ (Prod.ext_iff.mp heq).1⟩
        · intro hb
          rw [hb.2]
      · simp [hk]
    have happ : RenamedOn oldpath newpath b (tr ++ t) ↔
        RenamedOn oldpath newpath b tr ∨ RenamedOn oldpath newpath b t := by
      rw [RenamedOn, renamedPaths_append, List.mem_append]
      rfl
    rw [happ, h.renamedOn_iff, hstep]
    simp [and_comm, eq_comm]
  searchFailsOn_iff := by
    intro b
    rw [searchFailsOn_append hseg.noProbeFirst, h.searchFailsOn_iff,
      hseg.searchFailsOn_iff]
    simp [and_comm, eq_comm]
  cloneErrors_iff := by
    intro hmode
    have happ : cloneErrors (tr ++ t) ≠ [] ↔
        cloneErrors tr ≠ [] ∨ cloneErrors t ≠ [] := by
      rw [cloneErrors_append, Ne, List.append_eq_nil_iff, not_and_or]
    rw [happ, h.cloneErrors_iff hmode, hseg.cloneErrors_iff hmode]
    simp [or_and_right, exists_or]
  cloneFailed := by
    intro x hx hk
    rcases List.mem_append.mp hx with hx | hx
    · exact h.cloneFailed x hx hk
    · obtain rfl := List.mem_singleton.mp hx
      exact hseg.cloneFailed hk

/-- The run lemma of both loops: a loop whose body makes a segment for every branch
has an outcome with a step for every branch. -/
theorem exec_loop {core : RenameState → Branch → Prog RenameState}
    (hcore : ∀ s b t s', Exec (core s b) t s' →
      ∃ k e, Segment cfg oldpath newpath oldbasepaths b.path k t ∧
        s' = k.apply oldpath newpath b.path e s)
    {branches : Branches} {s : RenameState} {tr : Trace}
    (h : Exec (branches.foldlM core (-1, [])) tr s) :
    removedPaths tr = [] ∧ ∃ steps, steps.map Prod.fst = toPaths branches ∧
      Outcome cfg oldpath newpath oldbasepaths steps s tr := by
  refine exec_foldlM (fun done s tr => removedPaths tr = [] ∧ ∃ steps,
    steps.map Prod.fst = toPaths done ∧
      Outcome cfg oldpath newpath oldbasepaths steps s tr) ?_ ?_ h
  · exact ⟨rfl, [], rfl, .nil⟩
  · intro done b rest s s' tr t _ hdone hex
    obtain ⟨hremoved, steps, hsteps, hout⟩ := hdone
    obtain ⟨k, e, hseg, rfl⟩ := hcore s b t s' hex
    refine ⟨?_, steps ++ [(b.path, k)], ?_, hout.snoc e hseg⟩
    · rw [removedPaths_append, hremoved, hseg.removed, List.append_nil]
    · simp [hsteps, toPaths]

/-! ## Before and after the loop -/

theorem Outcome.cons_probe {steps : List (Path × Kind)} {s : RenameState}
    {tr : Trace} (type : Category) (fusepath : Path) (env : Probe)
    (h : Outcome cfg oldpath newpath oldbasepaths steps s tr) :
    Outcome cfg oldpath newpath oldbasepaths steps s
      (⟨.probe type fusepath, env⟩ :: tr) where
  error_eq_zero_iff := h.error_eq_zero_iff
  toremove := h.toremove
  skipped_iff := h.skipped_iff
  renamedOn_iff := h.renamedOn_iff
  searchFailsOn_iff := by
    intro b
    rw [← h.searchFailsOn_iff]
    simp [SearchFailsOn, List.infix_cons_iff]
  cloneErrors_iff := h.cloneErrors_iff
  cloneFailed := h.cloneFailed

theorem exec_removeAll {toremove : List Path} {tr : Trace}
    (h : Exec (removeAll toremove) tr ()) :
    removedPaths tr = toremove ∧ renamedPaths tr = [] ∧ cloneErrors tr = [] ∧
      ∀ ev ∈ tr, ∃ path rv, ev = ⟨.remove path, rv⟩ := by
  refine exec_foldlM (fun done _ tr => removedPaths tr = done ∧
    renamedPaths tr = [] ∧ cloneErrors tr = [] ∧
      ∀ ev ∈ tr, ∃ path rv, ev = ⟨.remove path, rv⟩) ?_ ?_ h
  · exact ⟨rfl, rfl, rfl, by simp⟩
  · intro done path rest _ _ tr t _ hdone hex
    obtain ⟨hremoved, hrenamed, hclone, hall⟩ := hdone
    obtain ⟨rv, t', rfl, hret⟩ := exec_sys_bind.mp hex
    obtain ⟨rfl, rfl⟩ := exec_pure.mp hret
    refine ⟨?_, ?_, ?_, ?_⟩
    · rw [removedPaths_append, hremoved]
      rfl
    · rw [renamedPaths_append, hrenamed]
      rfl
    · rw [cloneErrors_append, hclone]
      rfl
    · intro ev hev
      rcases List.mem_append.mp hev with hev | hev
      · exact hall ev hev
      · exact ⟨path, rv, List.mem_singleton.mp hev⟩

theorem Outcome.append_removals {steps : List (Path × Kind)} {s : RenameState}
    {tr t : Trace} (h : Outcome cfg oldpath newpath oldbasepaths steps s tr)
    {toremove : List Path} (ht : Exec (removeAll toremove) t ()) :
    Outcome cfg oldpath newpath oldbasepaths steps s (tr ++ t) := by
  obtain ⟨_, hrenamed, hclone, hall⟩ := exec_removeAll ht
  have hfirst : NoProbeFirst t := by
    intro type fusepath env hhead
    obtain ⟨path, rv, hev⟩ := hall _ (List.mem_of_head? hhead)
    cases hev
  refine ⟨h.error_eq_zero_iff, h.toremove, h.skipped_iff, ?_, ?_, ?_,
    h.cloneFailed⟩
  · intro b
    rw [← h.renamedOn_iff, RenamedOn, renamedPaths_append, hrenamed,
      List.append_nil]
    rfl
  · intro b
    rw [searchFailsOn_append hfirst, h.searchFailsOn_iff, or_iff_left]
    intro hfails
    obtain ⟨env₁, env₂, hsub, _⟩ := hfails
    obtain ⟨path, rv, hev⟩ := hall _ (hsub.subset List.mem_cons_self)
    cases hev
  · intro hmode
    rw [cloneErrors_append, hclone, List.append_nil, h.cloneErrors_iff hmode]

theorem exec_loop_finish {core : RenameState → Branch → Prog RenameState}
    (hcore : ∀ s b t s', Exec (core s b) t s' →
      ∃ k e, Segment cfg oldpath newpath oldbasepaths b.path k t ∧
        s' = k.apply oldpath newpath b.path e s)
    {branches : Branches} {tr : Trace} {r : ℤ}
    (h : Exec (branches.foldlM core (-1, []) >>= finishRename) tr r) :
    ∃ steps s, steps.map Prod.fst = toPaths branches ∧
      Outcome cfg oldpath newpath oldbasepaths steps s tr ∧ r = -s.1 ∧
      removedPaths tr = if s.1 = 0 then s.2 else [] := by
  obtain ⟨t₁, s, t₂, rfl, h₁, h₂⟩ := exec_bind.mp h
  obtain ⟨hremoved, steps, hsteps, hout⟩ := exec_loop hcore h₁
  obtain ⟨t₃, _, t₄, rfl, hrem, hret⟩ := exec_bind.mp h₂
  obtain ⟨rfl, rfl⟩ := exec_pure.mp hret
  rw [List.append_nil]
  refine ⟨steps, s, hsteps, hout.append_removals hrem, rfl, ?_⟩
  rw [removedPaths_append, hremoved, (exec_removeAll hrem).1, List.nil_append]

/-! ## The whole operation -/

def selected (cfg : Config) (oldpath : FusePath) : Trace → List Path
  | ⟨.probe .action _, env⟩ :: _ => (cfg.rename.func env .action cfg.branches
      oldpath.path cfg.minfreespace []).2
  | _ => []

/-- A rename either fails in a policy before the loop or goes through every
branch, and then removes the paths to remove if the folded error is zero. -/
theorem exec_rename {tr : Trace} {r : ℤ}
    (h : Exec (rename cfg oldpath newpath) tr r) :
    (r ≠ 0 ∧ removedPaths tr = [] ∧ Outcome cfg oldpath newpath
        (selected cfg oldpath tr) [] (-1, []) tr) ∨
      ∃ steps s, steps.map Prod.fst = toPaths cfg.branches ∧
        Outcome cfg oldpath newpath (selected cfg oldpath tr) steps s tr ∧
        r = -s.1 ∧ removedPaths tr = if s.1 = 0 then s.2 else [] := by
  unfold rename at h
  split_ifs at h with hmode
  · obtain ⟨env, t, rfl, hcont⟩ := exec_withPaths h
    rcases hcont with ⟨rfl, e, _, rfl⟩ | ⟨_, hcont⟩
    · exact .inl ⟨ne_of_lt e.neg_lt_zero, rfl, Outcome.nil.cons_probe _ _ _⟩
    · obtain ⟨steps, s, hsteps, hout, hr, hrem⟩ := exec_loop_finish
        (fun _ _ _ _ => exec_renamePreservePathCore hmode) hcont
      exact .inr ⟨steps, s, hsteps, hout.cons_probe _ _ _, hr, hrem⟩
  · rw [Bool.not_eq_true] at hmode
    obtain ⟨env, t, rfl, hcont⟩ := exec_withPaths h
    rcases hcont with ⟨rfl, e, _, rfl⟩ | ⟨_, hcont⟩
    · exact .inl ⟨ne_of_lt e.neg_lt_zero, rfl, Outcome.nil.cons_probe _ _ _⟩
    · obtain ⟨env', t, rfl, hsearch⟩ := exec_withPaths hcont
      rcases hsearch with ⟨rfl, e, _, rfl⟩ | ⟨_, hloop⟩
      · exact .inl ⟨ne_of_lt e.neg_lt_zero, rfl,
          (Outcome.nil.cons_probe _ _ _).cons_probe _ _ _⟩
      · obtain ⟨steps, s, hsteps, hout, hr, hrem⟩ := exec_loop_finish
          (fun _ _ _ _ => exec_renameCreatePathCore hmode) hloop
        exact .inr ⟨steps, s, hsteps,
          (hout.cons_probe _ _ _).cons_probe _ _ _, hr, hrem⟩

end Mergerfs
