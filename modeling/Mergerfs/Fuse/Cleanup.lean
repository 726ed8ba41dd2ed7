import Mergerfs.Fuse.Outcome

/-!
# The result of a rename and its clean-up

A rename should return zero exactly when some branch was renamed, remove nothing
when it does not, and when it does leave no trace of the old name on the selected
branches and of the new name on the others. The two modes get there by the folded
error and the list of paths to remove, and miss it in the branches whose segment is
`searchFailed` or `cloneFailed`: this module says exactly when.
-/

namespace Mergerfs

open Errno Program

section Result

variable {cfg : Config} {oldpath newpath : FusePath}
  {oldbasepaths : List Path} {steps : List (Path × Kind)} {s : RenameState}
  {tr : Trace}

theorem mem_branches_of_mem_steps
    (hsteps : steps.map Prod.fst = toPaths cfg.branches) {b : Path} {k : Kind}
    (hb : (b, k) ∈ steps) : ∃ c ∈ cfg.branches, c.path = b := by
  have hmem : b ∈ toPaths cfg.branches := by
    rw [← hsteps]
    exact List.mem_map_of_mem hb
  exact List.mem_map.mp hmem

theorem exists_kind_of_mem_branches
    (hsteps : steps.map Prod.fst = toPaths cfg.branches) {c : Branch}
    (hc : c ∈ cfg.branches) : ∃ k, (c.path, k) ∈ steps := by
  have hmem : c.path ∈ steps.map Prod.fst := by
    rw [hsteps]
    exact List.mem_map_of_mem hc
  obtain ⟨⟨b, k⟩, hx, hb⟩ := List.mem_map.mp hmem
  exact ⟨k, by rwa [← hb]⟩

/-- The folded error is zero iff some branch was renamed or had its failed search
taken for a success. -/
theorem Outcome.error_iff
    (h : Outcome cfg oldpath newpath oldbasepaths steps s tr)
    (hsteps : steps.map Prod.fst = toPaths cfg.branches) :
    s.1 = 0 ↔ (∃ b ∈ cfg.branches, RenamedOn oldpath newpath b.path tr) ∨
      ∃ b ∈ cfg.branches, SearchFailsOn cfg oldpath newpath b.path tr := by
  simp only [h.error_eq_zero_iff, h.renamedOn_iff, h.searchFailsOn_iff]
  constructor
  · intro hx
    obtain ⟨⟨b, k⟩, hx, rfl | rfl⟩ := hx
    · obtain ⟨c, hc, rfl⟩ := mem_branches_of_mem_steps hsteps hx
      exact .inl ⟨c, hc, hx⟩
    · obtain ⟨c, hc, rfl⟩ := mem_branches_of_mem_steps hsteps hx
      exact .inr ⟨c, hc, hx⟩
  · intro hx
    rcases hx with ⟨b, _, hb⟩ | ⟨b, _, hb⟩
    · exact ⟨_, hb, .inl rfl⟩
    · exact ⟨_, hb, .inr rfl⟩

/-- `FUSE::rename` reports what it did exactly when a branch was renamed or no
branch had its failed search taken for a success. -/
theorem rename_reports_iff (cfg : Config) (oldpath newpath : FusePath)
    (tr : Trace) (r : ℤ) (h : Exec (rename cfg oldpath newpath) tr r) :
    ((r = 0 ↔ ∃ b ∈ cfg.branches, RenamedOn oldpath newpath b.path tr) ∧
        (r ≠ 0 → removedPaths tr = [])) ↔
      (∃ b ∈ cfg.branches, RenamedOn oldpath newpath b.path tr) ∨
        ∀ b ∈ cfg.branches, ¬ SearchFailsOn cfg oldpath newpath b.path tr := by
  rcases exec_rename h with ⟨hr, hrem, hout⟩ | ⟨steps, s, hsteps, hout, rfl, hrem⟩
  · simp [hr, hrem, hout.renamedOn_iff, hout.searchFailsOn_iff]
  · have hzero := hout.error_iff hsteps
    have hnone : -s.1 ≠ 0 → removedPaths tr = [] := by
      intro hs
      rw [hrem, if_neg (Int.neg_ne_zero.mp hs)]
    rw [Int.neg_eq_zero, hzero, and_iff_left hnone]
    constructor
    · intro hiff
      by_contra hcon
      rw [not_or, not_forall] at hcon
      obtain ⟨hno, b, hb⟩ := hcon
      rw [Classical.not_imp, not_not] at hb
      exact hno (hiff.mp (.inr ⟨b, hb⟩))
    · intro hcond
      constructor
      · intro hx
        rcases hx with hx | ⟨b, hb, hfails⟩
        · exact hx
        · rcases hcond with hren | hno
          · exact hren
          · exact absurd hfails (hno b hb)
      · exact .inl

end Result

def holding (files : List Path) : Probe :=
  Probe.unshuffled
    (fun path => if path ∈ files then some ⟨0, 1, 0, 0⟩ else none)
    fun _ => some ⟨4096, 4194304, 2097152, 0⟩

def fileX : FusePath := .top ['x']

def fileY : FusePath := ⟨['/', 'd', '/', 'y'], rfl⟩

def twoBranches : Branches := [⟨.RW, ['/', 'a']⟩, ⟨.RW, ['/', 'b']⟩]

def succeeding : Trace → (c : Call) → Ans c :=
  answers (fun _ _ => holding [['/', 'a', '/', 'x'], ['/', 'a', '/', 'd']])
    fun _ => .ok ()

/-- When everything succeeds the rename is reported. -/
theorem rename_reports_iff_succeeding :
    let run := Program.run succeeding
      (rename (Config.initial twoBranches) fileX fileY) []
    run.1 = 0 ∧ ((run.1 = 0 ↔ ∃ b ∈ twoBranches, RenamedOn fileX fileY b.path
      run.2) ∧ (run.1 ≠ 0 → removedPaths run.2 = [])) :=
  ⟨rfl, (rename_reports_iff (Config.initial twoBranches) fileX fileY _ _
    (exec_run_nil succeeding _)).mpr (.inl ⟨⟨.RW, ['/', 'a']⟩,
      List.mem_cons_self, List.mem_cons_self⟩)⟩

/-- A kernel on which the directory vanishes between the reads of the create
policy and those of the search policy. -/
def vanishing : Trace → (c : Call) → Ans c :=
  answers
    (fun type _ => match type with
      | .search => holding []
      | _ => holding [['/', 'a', '/', 'x'], ['/', 'a', '/', 'd']])
    fun
      | .rename _ _ => .error ENOENT
      | _ => .ok ()

/-- On that kernel nothing is renamed, but zero is returned and the file with the
new name on the other branch is removed. -/
theorem rename_reports_vanished :
    ∃ tr, Exec (rename (Config.initial twoBranches) fileX fileY) tr 0 ∧
      (¬ ∃ b ∈ twoBranches, RenamedOn fileX fileY b.path tr) ∧
      removedPaths tr = [['/', 'b', '/', 'd', '/', 'y']] := by
  refine ⟨_, exec_run_nil vanishing _, ?_, rfl⟩
  intro h
  obtain ⟨b, _, hb⟩ := h
  cases hb

/-! ## The clean-up -/

/-- A path the documentation says a successful rename removes: the new name on a
branch that was not selected, the old name on a selected branch that was not
renamed. -/
def Leftover (cfg : Config) (oldpath newpath : FusePath) (tr : Trace)
    (p : Path) : Prop :=
  (∃ b ∈ cfg.branches, b.path ∉ selected cfg oldpath tr ∧
      p = make b.path newpath.path) ∨
    ∃ b ∈ cfg.branches, b.path ∈ selected cfg oldpath tr ∧
      ¬ RenamedOn oldpath newpath b.path tr ∧ p = make b.path oldpath.path

section Cleanup

variable {cfg : Config} {oldpath newpath : FusePath}
  {steps : List (Path × Kind)} {s : RenameState} {tr : Trace}

theorem Outcome.mem_toremove_iff {oldbasepaths : List Path}
    (h : Outcome cfg oldpath newpath oldbasepaths steps s tr) (p : Path) :
    p ∈ s.2 ↔
      (∃ b, (b, .skipped) ∈ steps ∧ p = make b newpath.path) ∨
      (∃ b, (b, .failed) ∈ steps ∧ p = make b oldpath.path) ∨
      (p = [] ∧ ∃ b, (b, .cloneFailed) ∈ steps) := by
  rw [h.toremove, List.mem_filterMap]
  constructor
  · intro hx
    obtain ⟨⟨b, k⟩, hmem, hrem⟩ := hx
    cases k with
    | skipped => exact .inl ⟨b, hmem, (Option.some.inj hrem).symm⟩
    | failed => exact .inr (.inl ⟨b, hmem, (Option.some.inj hrem).symm⟩)
    | cloneFailed =>
        exact .inr (.inr ⟨(Option.some.inj hrem).symm, b, hmem⟩)
    | renamed => cases hrem
    | searchFailed => cases hrem
  · intro hx
    rcases hx with ⟨b, hmem, rfl⟩ | ⟨b, hmem, rfl⟩ | ⟨rfl, b, hmem⟩
    · exact ⟨_, hmem, rfl⟩
    · exact ⟨_, hmem, rfl⟩
    · exact ⟨_, hmem, rfl⟩

theorem kind_unique (hsteps : steps.map Prod.fst = toPaths cfg.branches)
    (hnodup : (toPaths cfg.branches).Nodup) {b : Path} {k k' : Kind}
    (hk : (b, k) ∈ steps) (hk' : (b, k') ∈ steps) : k = k' := by
  rw [← hsteps] at hnodup
  exact (Prod.ext_iff.mp (List.inj_on_of_nodup_map hnodup hk hk' rfl)).2

theorem Outcome.leftover_iff
    (h : Outcome cfg oldpath newpath (selected cfg oldpath tr) steps s tr)
    (hsteps : steps.map Prod.fst = toPaths cfg.branches)
    (hnodup : (toPaths cfg.branches).Nodup) (p : Path) :
    Leftover cfg oldpath newpath tr p ↔
      (∃ b, (b, .skipped) ∈ steps ∧ p = make b newpath.path) ∨
      ∃ b k, (b, k) ∈ steps ∧ k ≠ .skipped ∧ k ≠ .renamed ∧
        p = make b oldpath.path := by
  constructor
  · intro hp
    rcases hp with ⟨c, hc, hsel, rfl⟩ | ⟨c, hc, hsel, hren, rfl⟩
    · obtain ⟨k, hk⟩ := exists_kind_of_mem_branches hsteps hc
      obtain rfl := (h.skipped_iff _ hk).mpr hsel
      exact .inl ⟨_, hk, rfl⟩
    · obtain ⟨k, hk⟩ := exists_kind_of_mem_branches hsteps hc
      refine .inr ⟨_, k, hk, ?_, ?_, rfl⟩
      · intro hskip
        exact (h.skipped_iff _ hk).mp hskip hsel
      · intro hrenamed
        subst hrenamed
        exact hren ((h.renamedOn_iff _).mpr hk)
  · intro hp
    rcases hp with ⟨b, hk, rfl⟩ | ⟨b, k, hk, hskip, hren, rfl⟩
    · obtain ⟨c, hc, rfl⟩ := mem_branches_of_mem_steps hsteps hk
      exact .inl ⟨c, hc, (h.skipped_iff _ hk).mp rfl, rfl⟩
    · obtain ⟨c, hc, rfl⟩ := mem_branches_of_mem_steps hsteps hk
      refine .inr ⟨c, hc, ?_, ?_, rfl⟩
      · by_contra hsel
        exact hskip ((h.skipped_iff _ hk).mpr hsel)
      · intro hrenamed
        exact hren (kind_unique hsteps hnodup hk
          ((h.renamedOn_iff _).mp hrenamed))

/-- The clean-up of a successful rename is the documented one exactly when, in the
mode that creates paths, no clone failed, and, in the mode that preserves paths,
every branch whose failed search was taken for a success has its old name removed
as the new name of a branch that was not selected. -/
theorem rename_cleanup_iff (cfg : Config) (oldpath newpath : FusePath)
    (tr : Trace) (hnodup : (toPaths cfg.branches).Nodup)
    (h : Exec (rename cfg oldpath newpath) tr 0) :
    (∀ p, p ∈ removedPaths tr ↔ Leftover cfg oldpath newpath tr p) ↔
      (preservesPath cfg = false → cloneErrors tr = []) ∧
        ∀ b ∈ cfg.branches, SearchFailsOn cfg oldpath newpath b.path tr →
          ∃ c ∈ cfg.branches, c.path ∉ selected cfg oldpath tr ∧
            make c.path newpath.path = make b.path oldpath.path := by
  rcases exec_rename h with ⟨hr, _, _⟩ | ⟨steps, s, hsteps, hout, hr, hrem⟩
  · exact absurd rfl hr
  rw [if_pos (Int.neg_eq_zero.mp hr.symm)] at hrem
  simp only [hrem, hout.mem_toremove_iff, hout.leftover_iff hsteps hnodup]
  constructor
  · intro hall
    constructor
    · intro hmode
      by_contra hclone
      obtain ⟨⟨b, k⟩, hmem, rfl⟩ := (hout.cloneErrors_iff hmode).mp hclone
      rcases (hall []).mp (.inr (.inr ⟨rfl, b, hmem⟩)) with
        ⟨c, _, hc⟩ | ⟨c, _, _, _, _, hc⟩
      · exact make_fusePath_ne_nil c newpath hc.symm
      · exact make_fusePath_ne_nil c oldpath hc.symm
    · intro b hb hfails
      have hmem := (hout.searchFailsOn_iff _).mp hfails
      rcases (hall _).mpr (.inr ⟨_, _, hmem, by simp, by simp, rfl⟩) with
        ⟨c, hc, heq⟩ | ⟨c, hc, heq⟩ | ⟨heq, _⟩
      · obtain ⟨c, hcmem, rfl⟩ := mem_branches_of_mem_steps hsteps hc
        exact ⟨c, hcmem, (hout.skipped_iff _ hc).mp rfl, heq.symm⟩
      · rw [← make_left_injective _ heq] at hc
        cases kind_unique hsteps hnodup hmem hc
      · exact absurd heq (make_fusePath_ne_nil b.path oldpath)
  · intro hcond p
    obtain ⟨hclone, hsearch⟩ := hcond
    have hno : ∀ b, (b, Kind.cloneFailed) ∉ steps := by
      intro b hb
      have hmode := hout.cloneFailed _ hb rfl
      exact (hout.cloneErrors_iff hmode).mpr ⟨_, hb, rfl⟩ (hclone hmode)
    constructor
    · intro hp
      rcases hp with hp | ⟨b, hb, rfl⟩ | ⟨_, b, hb⟩
      · exact .inl hp
      · exact .inr ⟨b, _, hb, by simp, by simp, rfl⟩
      · exact absurd hb (hno b)
    · intro hp
      rcases hp with hp | ⟨b, k, hb, hskip, hren, rfl⟩
      · exact .inl hp
      · cases k with
        | skipped => exact absurd rfl hskip
        | renamed => exact absurd rfl hren
        | failed => exact .inr (.inl ⟨b, hb, rfl⟩)
        | cloneFailed => exact absurd hb (hno b)
        | searchFailed =>
            obtain ⟨c, hc, rfl⟩ := mem_branches_of_mem_steps hsteps hb
            obtain ⟨d, hd, hsel, heq⟩ := hsearch c hc
              ((hout.searchFailsOn_iff _).mpr hb)
            obtain ⟨k, hk⟩ := exists_kind_of_mem_branches hsteps hd
            obtain rfl := (hout.skipped_iff _ hk).mpr hsel
            exact .inl ⟨_, hk, heq.symm⟩

end Cleanup

/-- When everything succeeds the clean-up is the documented one. -/
theorem rename_cleanup_iff_succeeding :
    let tr := (Program.run succeeding
      (rename (Config.initial twoBranches) fileX fileY) []).2
    ∀ p, p ∈ removedPaths tr ↔
      Leftover (Config.initial twoBranches) fileX fileY tr p := by
  refine (rename_cleanup_iff (Config.initial twoBranches) fileX fileY _
    (by decide) (exec_run_nil succeeding _)).mpr ⟨fun _ => rfl, ?_⟩
  intro b _ hfails
  obtain ⟨env₁, env₂, hsub, _⟩ := hfails
  have hmem := hsub.subset (List.mem_cons_of_mem _ List.mem_cons_self)
  have hcall : Call.probe .create (dirname fileY.path) ∈ _ :=
    List.mem_map_of_mem (f := Sigma.fst) hmem
  exact absurd hcall (by decide)

def uncloned : Trace → (c : Call) → Ans c :=
  answers
    (fun _ _ => holding [['/', 'a', '/', 'x'], ['/', 'b', '/', 'x'],
      ['/', 'a', '/', 'd']])
    fun
      | .clonepath _ _ _ => .error EIO
      | _ => .ok ()

/-- On that kernel, when paths are created, the second branch keeps the old name:
the empty path is handed to `fs::remove` in its place. -/
theorem rename_cleanup_uncloned :
    ∃ tr, Exec (rename { Config.initial twoBranches with
        ignorepponrename := true } fileX fileY) tr 0 ∧
      removedPaths tr = [[]] ∧
      Leftover { Config.initial twoBranches with ignorepponrename := true }
        fileX fileY tr ['/', 'b', '/', 'x'] := by
  refine ⟨_, exec_run_nil uncloned _, rfl, .inr ⟨⟨.RW, ['/', 'b']⟩, ?_, ?_, ?_,
    rfl⟩⟩
  · exact List.mem_cons_of_mem _ List.mem_cons_self
  · exact List.mem_cons_of_mem _ List.mem_cons_self
  · change _ ∉ [(['/', 'a', '/', 'x'], ['/', 'a', '/', 'd', '/', 'y'])]
    decide

end Mergerfs
