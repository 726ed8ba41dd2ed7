import Mathlib.Data.List.Pairwise
import Mergerfs.Fuse.Cleanup
import Mergerfs.Fuse.Operation

/-!
# Branches tagged read-only

The mode of a branch is looked at by the create and action policies only, while the
operations add calls of their own: they clone directories, retry, and a rename
removes names on branches no policy has returned. This module follows every call
of every operation: one that changes something names a path below a branch that is
not tagged `RO`, except for the removals of the new name after a rename.
-/

namespace Mergerfs

open Errno Program

def Call.mutated : Call → List Path
  | .probe _ _ => []
  | .clonepath _ tosrc relative => [make tosrc relative]
  | .rename oldpath newpath => [oldpath, newpath]
  | .remove path => [path]
  | .unlink path => [path]
  | .rmdir path => [path]
  | .mkdir path _ => [path]
  | .mknod path _ _ => [path]
  | .symlink _ newpath => [newpath]
  | .link oldpath newpath => [oldpath, newpath]
  | .openCreate path _ _ => [path]
  | .chmod path _ => [path]
  | .lchown path _ _ => [path]
  | .truncate path _ => [path]
  | .lsetxattr path _ _ _ => [path]
  | .lremovexattr path _ => [path]
  | .lutime path _ => [path]
  | .lgetxattr _ _ => []
  | .setxattrControlfile _ _ _ => []

def Open (cfg : Config) (base : Path) : Prop :=
  ∃ b ∈ cfg.branches, b.path = base ∧ b.mode ≠ .RO

def Writable (cfg : Config) (c : Call) : Prop :=
  ∀ p ∈ c.mutated, ∃ base, Open cfg base ∧ under base p

section Rules

variable {cfg : Config} {p : Policy} {fusepath : Path} {α : Type}

theorem writable_probe (type : Category) :
    Writable cfg (.probe type fusepath) := by
  simp [Writable, Call.mutated]

theorem writable_singleton {c : Call} {base : Path} (hbase : Open cfg base)
    {s : FusePath} (hc : c.mutated = [make base s.path]) : Writable cfg c := by
  intro q hq
  rw [hc, List.mem_singleton] at hq
  exact ⟨base, hbase, hq ▸ under_make s.abs⟩

theorem writable_pair {c : Call} {base : Path} (hbase : Open cfg base)
    {s t : FusePath} (hc : c.mutated = [make base s.path, make base t.path]) :
    Writable cfg c := by
  intro q hq
  rw [hc, List.mem_cons, List.mem_singleton] at hq
  rcases hq with rfl | rfl
  · exact ⟨base, hbase, under_make s.abs⟩
  · exact ⟨base, hbase, under_make t.abs⟩

theorem issues_sys {P : Call → Prop} {c : Call} (h : P c) :
    Issues P (sys c) :=
  issues_call.mpr h

theorem open_of_func {env : Probe} {type : Category} (htype : type ≠ .search)
    {q : Path}
    (hq : q ∈ (p.func env type cfg.branches fusepath cfg.minfreespace []).2) :
    Open cfg q := by
  cases type with
  | create =>
      obtain ⟨b, hb, hbq, hu⟩ := Policy.func_create_mem hq
      exact ⟨b, hb, hbq, hu.not_ro⟩
  | action =>
      obtain ⟨b, hb, hbq, hu⟩ := Policy.func_action_mem hq
      exact ⟨b, hb, hbq, hu.not_ro⟩
  | search => exact absurd rfl htype

theorem issues_withPaths {P : Call → Prop} {type : Category}
    {k : List Path → Prog ℤ} (hprobe : P (.probe type fusepath))
    (hk : ∀ paths, paths ≠ [] → (type ≠ .search → ∀ q ∈ paths, Open cfg q) →
      Issues P (k paths)) :
    Issues P (withPaths cfg p type fusepath k) := by
  refine ⟨hprobe, ?_⟩
  intro env
  dsimp only [Program.bind, pure]
  cases hrv : (p.func env type cfg.branches fusepath cfg.minfreespace []).1 with
  | error e => exact issues_pure _
  | ok u =>
      exact hk _ (Policy.func_ne_nil hrv) fun htype _ hq => open_of_func htype hq

theorem issues_ask {P : Call → Prop} {type : Category} {paths : List Path}
    (hprobe : P (.probe type fusepath)) :
    Issues P (ask cfg p type fusepath paths) :=
  issues_bind (issues_sys hprobe) fun _ => issues_pure _

theorem issues_callLoop {P : Call → Prop} {basepaths : List Path}
    {core : Path → Prog Rv} (h : ∀ base ∈ basepaths, Issues P (core base)) :
    Issues P (callLoop basepaths core) := by
  apply issues_bind
  · apply issues_foldlM
    intro error base hbase
    exact issues_bind (h base hbase) fun _ => issues_pure _
  · intro error
    exact issues_pure _

theorem issues_clonepathAsRoot {P : Call → Prop} {src base dir : Path}
    (h : dir ≠ [] → P (.clonepath src base dir)) :
    Issues P (clonepathAsRoot src base dir) := by
  unfold clonepathAsRoot
  split_ifs with hnil hsame
  · exact issues_pure _
  · exact issues_pure _
  · exact issues_sys (h hnil)

theorem writable_clonepath {src base : Path} {s : FusePath}
    (hbase : Open cfg base) (hnil : dirname s.path ≠ []) :
    Writable cfg (.clonepath src base (dirname s.path)) := by
  intro q hq
  rw [Call.mutated, List.mem_singleton] at hq
  refine ⟨base, hbase, hq ▸ under_make ?_⟩
  exact (head?_dirname s).resolve_left hnil

theorem issues_cloneThen {src base : Path} {s : FusePath} {core : Prog Rv}
    (hbase : Open cfg base) (hcore : Issues (Writable cfg) core) :
    Issues (Writable cfg) (cloneThen src base (dirname s.path) core) := by
  apply issues_bind (issues_clonepathAsRoot (writable_clonepath hbase))
  intro rv
  cases rv with
  | error e => exact issues_pure _
  | ok u => exact hcore

theorem issues_maskedMode {fullpath : Path} {mode umask : UInt32}
    {k : UInt32 → Prog α} (hk : ∀ mode, Issues (Writable cfg) (k mode)) :
    Issues (Writable cfg) (maskedMode fullpath mode umask >>= k) := by
  apply issues_bind
  · apply issues_bind
    · apply issues_bind
      · exact issues_sys (by simp [Writable, Call.mutated])
      · intro rv
        exact issues_pure _
    · intro has
      exact issues_pure _
  · exact hk

end Rules

/-! ## The operations -/

section Operations

variable {cfg : Config} {p : Policy} {fusepath oldpath newpath : FusePath}

theorem issues_actionOn {core : Path → Prog Rv}
    (hcore : ∀ path, Issues (fun c => c.mutated = [path]) (core path)) :
    Issues (Writable cfg) (actionOn cfg p fusepath core) := by
  apply issues_withPaths (writable_probe _)
  intro paths _ hopen
  apply issues_callLoop
  intro base hbase
  exact (hcore _).mono fun c hc =>
    writable_singleton (hopen (by decide) base hbase) hc

theorem issues_removexattr {attrname : List Char} :
    Issues (Writable cfg) (removexattr cfg fusepath attrname) := by
  unfold removexattr
  split_ifs
  · exact issues_pure _
  · exact issues_pure _
  · exact issues_actionOn fun path => issues_sys rfl

theorem issues_setxattr {attrname attrval : List Char} {flags : UInt32} :
    Issues (Writable cfg) (setxattr cfg fusepath attrname attrval flags) := by
  unfold setxattr
  split_ifs
  · exact issues_sys (by simp [Writable, Call.mutated])
  · exact issues_pure _
  · exact issues_pure _
  · exact issues_actionOn fun path => issues_sys rfl

theorem issues_withCreatePaths {k : Path → List Path → Prog ℤ}
    (hk : ∀ existingpath createpaths, createpaths ≠ [] →
      (∀ q ∈ createpaths, Open cfg q) →
        Issues (Writable cfg) (k existingpath createpaths)) :
    Issues (Writable cfg) (withCreatePaths cfg p fusepath k) := by
  apply issues_withPaths (writable_probe _)
  intro existingpaths _ _
  apply issues_withPaths (writable_probe _)
  intro createpaths hne hopen
  exact hk _ createpaths hne (hopen (by decide))

theorem issues_createLoop {core : Path → Prog Rv}
    (hcore : ∀ base, Open cfg base → Issues (Writable cfg) (core base)) :
    Issues (Writable cfg) (withCreatePaths cfg p fusepath
      fun existingpath createpaths => callLoop createpaths fun createpath =>
        cloneThen existingpath createpath (dirname fusepath.path)
          (core createpath)) := by
  apply issues_withCreatePaths
  intro existingpath createpaths _ hopen
  apply issues_callLoop
  intro base hbase
  exact issues_cloneThen (hopen base hbase) (hcore base (hopen base hbase))

theorem issues_create {mode umask flags : UInt32} :
    Issues (Writable cfg) (create cfg fusepath mode umask flags) := by
  apply issues_withCreatePaths
  intro existingpath createpaths hne hopen
  have hfront : Open cfg (front createpaths) := by
    cases createpaths with
    | nil => exact absurd rfl hne
    | cons q qs => exact hopen q List.mem_cons_self
  apply issues_bind (issues_clonepathAsRoot (writable_clonepath hfront))
  intro rv
  cases rv with
  | error e => exact issues_pure _
  | ok u =>
      apply issues_maskedMode
      intro mode
      apply issues_bind (issues_sys (writable_singleton hfront rfl))
      intro rv
      cases rv with
      | error e => exact issues_pure _
      | ok fd => exact issues_pure _

theorem issues_linkClonepathIfWouldCreate {oldbasepath : Path}
    (hbase : Open cfg oldbasepath) :
    Issues (Writable cfg)
      (linkClonepathIfWouldCreate cfg oldbasepath newpath) := by
  apply issues_bind (issues_ask (writable_probe _))
  intro r
  cases r.1 with
  | error e => exact issues_pure _
  | ok u =>
      dsimp only
      split_ifs
      · exact issues_pure _
      · apply issues_bind (issues_ask (writable_probe _))
        intro r'
        cases r'.1 with
        | error e => exact issues_pure _
        | ok u => exact issues_clonepathAsRoot (writable_clonepath hbase)

theorem issues_link :
    Issues (Writable cfg) (link cfg oldpath newpath) := by
  unfold link
  split_ifs
  · apply issues_withPaths (writable_probe _)
    intro paths _ hopen
    apply issues_callLoop
    intro base hbase
    have hbase := hopen (by decide) base hbase
    apply issues_bind (issues_sys (writable_pair hbase rfl))
    intro rv
    split_ifs
    · apply issues_bind (issues_linkClonepathIfWouldCreate hbase)
      intro rv
      cases rv with
      | error e => exact issues_pure _
      | ok u => exact issues_sys (writable_pair hbase rfl)
    · exact issues_pure _
  · apply issues_withPaths (writable_probe _)
    intro oldbasepaths _ hopen
    apply issues_withPaths (writable_probe _)
    intro newbasepaths _ _
    apply issues_callLoop
    intro base hbase
    have hbase := hopen (by decide) base hbase
    exact issues_cloneThen hbase (issues_sys (writable_pair hbase rfl))

/-! ### The calls of a rename -/

/-- The calls a rename may issue are in `P`: reads, clones of the parent and renames
on the open branches, and removals. -/
structure RenameCalls (cfg : Config) (oldpath newpath : FusePath)
    (P : Call → Prop) : Prop where
  probe : ∀ type fusepath, P (.probe type fusepath)
  clonepath : ∀ src base, Open cfg base → dirname newpath.path ≠ [] →
    P (.clonepath src base (dirname newpath.path))
  rename : ∀ base, Open cfg base →
    P (.rename (make base oldpath.path) (make base newpath.path))
  remove : ∀ path, P (.remove path)

section Rename

variable {P : Call → Prop} {oldbasepaths : List Path} {base : Path}

theorem issues_renameCreatePathCore (hP : RenameCalls cfg oldpath newpath P)
    (hopen : ∀ q ∈ oldbasepaths, Open cfg q) {newbasepath : Path}
    (s : RenameState) (branch : Branch) :
    Issues P (renameCreatePathCore oldbasepaths newbasepath oldpath newpath
      (dirname newpath.path) s branch) := by
  unfold renameCreatePathCore
  split_ifs with hmem
  · have hbase := hopen branch.path (by simpa using hmem)
    apply issues_bind
    · apply issues_bind (issues_clonepathAsRoot (hP.clonepath _ _ hbase))
      intro rv
      cases rv with
      | error e => exact issues_pure _
      | ok u =>
          apply issues_bind (issues_sys (hP.rename _ hbase))
          intro rv
          exact issues_pure _
    · intro r
      obtain ⟨rv, oldfullpath⟩ := r
      cases rv with
      | error e => exact issues_pure _
      | ok u => exact issues_pure _
  · exact issues_pure _

theorem issues_renameOrClone (hP : RenameCalls cfg oldpath newpath P)
    (hbase : Open cfg base) :
    Issues P (renameOrClone cfg base oldpath newpath) := by
  apply issues_bind (issues_sys (hP.rename _ hbase))
  intro rv
  split_ifs
  · apply issues_bind
    · apply issues_bind (issues_ask (hP.probe _ _))
      intro r
      obtain ⟨rv, newbasepath⟩ := r
      cases rv with
      | error e => exact issues_pure _
      | ok u =>
          dsimp only
          split_ifs
          · apply issues_bind (issues_ask (hP.probe _ _))
            intro r
            obtain ⟨rv, srcbasepath⟩ := r
            cases rv with
            | error e => exact issues_pure _
            | ok u =>
                apply issues_bind
                  (issues_clonepathAsRoot (hP.clonepath _ _ hbase))
                intro _
                exact issues_pure _
          · exact issues_pure _
    · intro r
      split_ifs
      · exact issues_bind (issues_sys (hP.rename _ hbase))
          fun _ => issues_pure _
      · exact issues_pure _
  · exact issues_pure _

theorem issues_renamePreservePathCore (hP : RenameCalls cfg oldpath newpath P)
    (hopen : ∀ q ∈ oldbasepaths, Open cfg q) (s : RenameState)
    (branch : Branch) :
    Issues P (renamePreservePathCore cfg oldbasepaths oldpath newpath s
      branch) := by
  unfold renamePreservePathCore
  split_ifs with hmem
  · exact issues_bind (issues_renameOrClone hP
      (hopen branch.path (by simpa using hmem))) fun _ => issues_pure _
  · exact issues_pure _

theorem issues_rename_of (hP : RenameCalls cfg oldpath newpath P) :
    Issues P (rename cfg oldpath newpath) := by
  have hfinish : ∀ s, Issues P (finishRename s) := by
    intro s
    apply issues_bind
    · apply issues_foldlM
      intro _ path _
      exact issues_bind (issues_sys (hP.remove path)) fun _ => issues_pure _
    · intro _
      exact issues_pure _
  unfold rename
  split_ifs
  · apply issues_withPaths (hP.probe _ _)
    intro oldbasepaths _ hopen
    refine issues_bind (issues_foldlM ?_ _) hfinish
    intro s b _
    exact issues_renamePreservePathCore hP (hopen (by decide)) s b
  · apply issues_withPaths (hP.probe _ _)
    intro oldbasepaths _ hopen
    apply issues_withPaths (hP.probe _ _)
    intro newbasepath _ _
    refine issues_bind (issues_foldlM ?_ _) hfinish
    intro s b _
    exact issues_renameCreatePathCore hP (hopen (by decide)) s b

end Rename

/-- A rename issues its removals, and else calls below open branches only. -/
theorem issues_rename :
    Issues (fun c => (∃ path, c = .remove path) ∨ Writable cfg c)
      (rename cfg oldpath newpath) :=
  issues_rename_of
    { probe := fun type _ => .inr (writable_probe type)
      clonepath := fun _ _ hbase hnil => .inr (writable_clonepath hbase hnil)
      rename := fun _ hbase => .inr (writable_pair hbase rfl)
      remove := fun path => .inl ⟨path, rfl⟩ }

theorem issues_handle {req : Request}
    (hreq : ∀ oldpath newpath, req ≠ .rename oldpath newpath) :
    Issues (Writable cfg) (handle cfg req) := by
  cases req with
  | rename oldpath newpath => exact absurd rfl (hreq oldpath newpath)
  | chmod | chown | rmdir | truncate | unlink | utimens =>
      simp only [handle, chmod, chown, rmdir, truncate, unlink, utimens]
      apply issues_actionOn
      intro path
      exact issues_sys rfl
  | removexattr => exact issues_removexattr
  | setxattr => exact issues_setxattr
  | create => exact issues_create
  | link => exact issues_link
  | mkdir | mknod =>
      apply issues_createLoop
      intro base hbase
      apply issues_maskedMode
      intro mode
      exact issues_sys (writable_singleton hbase rfl)
  | symlink =>
      apply issues_createLoop
      intro base hbase
      exact issues_sys (writable_singleton hbase rfl)

end Operations

/-! ## Sequences of requests -/

/-- The branches have distinct paths and none lies in the tree of another. -/
def Apart (branches : Branches) : Prop :=
  branches.Pairwise fun b c => ¬ under b.path c.path ∧ ¬ under c.path b.path

section Sequences

variable {cfg : Config} {branches : Branches} {b : Branch}

theorem Apart.eq_of_under (h : Apart branches) {c : Branch}
    (hb : b ∈ branches) (hc : c ∈ branches) {p : Path} (hp : under b.path p)
    (hp' : under c.path p) : b = c := by
  have hsymm : Std.Symm fun b c : Branch =>
      ¬ under b.path c.path ∧ ¬ under c.path b.path :=
    ⟨fun _ _ h => ⟨h.2, h.1⟩⟩
  by_contra hne
  obtain ⟨h₁, h₂⟩ := h.forall hb hc hne
  rcases under_or_under hp hp' with h | h
  · exact h₁ h
  · exact h₂ h

/-- A path below a branch tagged `RO` is not below an open one. -/
theorem Apart.not_open (h : Apart branches) (hcfg : cfg.branches = branches)
    (hb : b ∈ branches) (hro : b.mode = .RO) {base p : Path}
    (hbase : Open cfg base) (hp : under b.path p) : ¬ under base p := by
  intro hp'
  obtain ⟨c, hc, rfl, hmode⟩ := hbase
  obtain rfl := h.eq_of_under hb (hcfg ▸ hc) hp hp'
  exact hmode hro

theorem under_refl (base : Path) : under base base :=
  ⟨List.prefix_rfl, .inl rfl⟩

theorem open_of_mem_selected {oldpath : FusePath} {tr : Trace} {q : Path}
    (hq : q ∈ selected cfg oldpath tr) : Open cfg q := by
  unfold selected at hq
  split at hq
  · exact open_of_func (by decide) hq
  · cases hq

/-- One rename: the removals below a branch tagged `RO` are those of the new
name, and they are made whenever the rename returns zero. -/
theorem exec_rename_ro {oldpath newpath : FusePath} {tr : Trace} {r : ℤ}
    (h : Apart branches) (hcfg : cfg.branches = branches) (hb : b ∈ branches)
    (hro : b.mode = .RO) (hex : Exec (rename cfg oldpath newpath) tr r) :
    (∀ p ∈ removedPaths tr, under b.path p →
      r = 0 ∧ p = make b.path newpath.path) ∧
    (r = 0 → make b.path newpath.path ∈ removedPaths tr) := by
  have hnotopen : ∀ {base p}, Open cfg base → under b.path p →
      ¬ under base p := fun hbase hp => h.not_open hcfg hb hro hbase hp
  have hsel : b.path ∉ selected cfg oldpath tr := fun hmem =>
    hnotopen (open_of_mem_selected hmem) (under_refl _) (under_refl _)
  rcases exec_rename hex with ⟨hr, hrem, _⟩ | ⟨steps, s, hsteps, hout, rfl, hrem⟩
  · simp [hr, hrem]
  rw [hrem, Int.neg_eq_zero]
  have hopen : ∀ {c k}, (c, k) ∈ steps → k ≠ .skipped → Open cfg c := by
    intro c k hc hk
    apply open_of_mem_selected
    by_contra hno
    exact hk ((hout.skipped_iff _ hc).mpr hno)
  constructor
  · intro p hp hunder
    split_ifs at hp with hs
    · refine ⟨hs, ?_⟩
      rcases (hout.mem_toremove_iff p).mp hp with
        ⟨c, hc, rfl⟩ | ⟨c, hc, rfl⟩ | ⟨rfl, c, hc⟩
      · obtain ⟨d, hd, rfl⟩ := mem_branches_of_mem_steps hsteps hc
        rw [h.eq_of_under hb (hcfg ▸ hd) hunder (under_make newpath.abs)]
      · exact absurd (under_make oldpath.abs)
          (hnotopen (hopen hc (by simp)) hunder)
      · -- the empty path lies below the empty branch path, as every path does
        have hnil : b.path = [] := List.prefix_nil.mp hunder.1
        have hc' : under b.path c :=
          ⟨hnil ▸ List.nil_prefix, .inr (.inl hnil)⟩
        exact absurd (under_refl c) (hnotopen (hopen hc (by simp)) hc')
    · cases hp
  · intro hs
    rw [if_pos hs, hout.mem_toremove_iff]
    obtain ⟨k, hk⟩ := exists_kind_of_mem_branches hsteps (hcfg ▸ hb)
    obtain rfl := (hout.skipped_iff _ hk).mpr hsel
    exact .inl ⟨_, hk, rfl⟩

theorem exec_handle_ro {req : Request} {tr : Trace} {r : ℤ}
    (h : Apart branches) (hcfg : cfg.branches = branches) (hb : b ∈ branches)
    (hro : b.mode = .RO) (hex : Exec (handle cfg req) tr r) :
    (∀ ev ∈ tr, ∀ p ∈ ev.1.mutated, under b.path p →
      ∃ oldpath newpath, req = .rename oldpath newpath ∧ r = 0 ∧
        ev.1 = .remove (make b.path newpath.path)) ∧
    (∀ oldpath newpath, req = .rename oldpath newpath → r = 0 →
      ∃ rv, ⟨.remove (make b.path newpath.path), rv⟩ ∈ tr) := by
  have hwritable : ∀ c, Writable cfg c → ∀ p ∈ c.mutated,
      ¬ under b.path p := by
    intro c hc p hp hunder
    obtain ⟨base, hbase, hp⟩ := hc p hp
    exact h.not_open hcfg hb hro hbase hunder hp
  by_cases hreq : ∃ oldpath newpath, req = .rename oldpath newpath
  · obtain ⟨oldpath, newpath, rfl⟩ := hreq
    obtain ⟨honly, hall⟩ := exec_rename_ro h hcfg hb hro hex
    constructor
    · intro ev hev p hp hunder
      refine ⟨oldpath, newpath, rfl, ?_⟩
      rcases issues_rename.of_exec hex ev hev with ⟨path, hpath⟩ | hw
      · obtain ⟨c, rv⟩ := ev
        subst hpath
        obtain rfl := List.mem_singleton.mp hp
        obtain ⟨hr, rfl⟩ := honly p (mem_removedPaths_iff.mpr ⟨rv, hev⟩) hunder
        exact ⟨hr, rfl⟩
      · exact absurd hunder (hwritable _ hw p hp)
    · intro old' new' heq hr
      cases heq
      exact mem_removedPaths_iff.mp (hall hr)
  · constructor
    · intro ev hev p hp hunder
      have hw := (issues_handle fun o n heq => hreq ⟨o, n, heq⟩).of_exec hex ev hev
      exact absurd hunder (hwritable _ hw p hp)
    · intro oldpath newpath heq
      exact absurd ⟨oldpath, newpath, heq⟩ hreq

theorem Apart.notMem_func (h : Apart branches) (hb : b ∈ branches) (hro : b.mode = .RO)
    (p : Policy) (env : Probe) {type : Category} (htype : type ≠ .search)
    (fusepath : Path) (minfreespace : UInt64) :
    b.path ∉ (p.func env type branches fusepath minfreespace []).2 := by
  intro hmem
  have hopen : Open { Config.initial branches with minfreespace := minfreespace } b.path :=
    open_of_func htype hmem
  exact h.not_open rfl hb hro hopen (under_refl _) (under_refl _)

end Sequences

/-- Branches tagged `RO` are chosen by no policy to create something or to act on, and
are changed by nothing but the removal of the new name after a rename that returned
zero, and by that always. -/
theorem serve_ro (branches : Branches) (h : Apart branches)
    (reqs : List (Config × Request))
    (hcfg : ∀ x ∈ reqs, x.1.branches = branches) (tr : Trace) (rs : List ℤ)
    (hex : Exec (serve reqs) tr rs) (b : Branch) (hb : b ∈ branches)
    (hro : b.mode = .RO) :
    (∀ (p : Policy) env type fusepath minfreespace, type ≠ .search →
      b.path ∉ (p.func env type branches fusepath minfreespace []).2) ∧
    (∀ ev ∈ tr, ∀ p ∈ ev.1.mutated, under b.path p →
      ∃ cfg oldpath newpath, ((cfg, .rename oldpath newpath), 0) ∈ reqs.zip rs ∧
        ev.1 = .remove (make b.path newpath.path)) ∧
    (∀ cfg oldpath newpath, ((cfg, .rename oldpath newpath), 0) ∈ reqs.zip rs →
      ∃ rv, ⟨.remove (make b.path newpath.path), rv⟩ ∈ tr) := by
  refine ⟨fun p env type fusepath minfreespace htype =>
    h.notMem_func hb hro p env htype fusepath minfreespace, ?_⟩
  induction reqs generalizing tr rs with
  | nil =>
      obtain ⟨rfl, rfl⟩ := exec_pure.mp hex
      simp
  | cons x reqs ih =>
      obtain ⟨cfg, req⟩ := x
      obtain ⟨t₁, r, t₂, rfl, h₁, h₂⟩ := exec_bind.mp hex
      obtain ⟨t₂, rs, t₃, rfl, hserve, hret⟩ := exec_bind.mp h₂
      obtain ⟨rfl, rfl⟩ := exec_pure.mp hret
      have hone := exec_handle_ro h (hcfg _ List.mem_cons_self) hb hro h₁
      have hrest := ih (fun x hx => hcfg x (List.mem_cons_of_mem _ hx)) t₂ rs
        hserve
      rw [List.append_nil]
      constructor
      · intro ev hev p hp hunder
        rcases List.mem_append.mp hev with hev | hev
        · obtain ⟨old, new, rfl, rfl, heq⟩ := hone.1 ev hev p hp hunder
          exact ⟨cfg, old, new, List.mem_cons_self, heq⟩
        · obtain ⟨cfg', old, new, hmem, heq⟩ := hrest.1 ev hev p hp hunder
          exact ⟨cfg', old, new, List.mem_cons_of_mem _ hmem, heq⟩
      · intro cfg' old new hmem
        rcases List.mem_cons.mp hmem with heq | hmem
        · cases heq
          obtain ⟨rv, hrv⟩ := hone.2 old new rfl rfl
          exact ⟨rv, List.mem_append_left _ hrv⟩
        · obtain ⟨rv, hrv⟩ := hrest.2 cfg' old new hmem
          exact ⟨rv, List.mem_append_right _ hrv⟩

def mixedBranches : Branches := [⟨.RW, ['/', 'a']⟩, ⟨.RO, ['/', 'b']⟩]

theorem apart_mixedBranches : Apart mixedBranches := by
  refine List.Pairwise.cons ?_ (List.pairwise_singleton _ _)
  intro c hc
  obtain rfl := List.mem_singleton.mp hc
  constructor
  · intro h
    exact absurd h.1 (by decide)
  · intro h
    exact absurd h.1 (by decide)

/-- After a `chmod` every changed path lies elsewhere. -/
theorem serve_ro_chmod :
    let tr := (Program.run succeeding
      (serve [(Config.initial mixedBranches, .chmod fileX 0)]) []).2
    ∀ ev ∈ tr, ∀ p ∈ ev.1.mutated, ¬ under ['/', 'b'] p := by
  intro tr ev hev p hp hunder
  obtain ⟨cfg, old, new, hmem, _⟩ := (serve_ro mixedBranches apart_mixedBranches
    [(Config.initial mixedBranches, .chmod fileX 0)] (by simp [Config.initial])
    _ _ (exec_run_nil succeeding _) ⟨.RO, ['/', 'b']⟩
    (List.mem_cons_of_mem _ List.mem_cons_self) rfl).2.1 ev hev p hp hunder
  rcases List.mem_cons.mp hmem with heq | hmem
  · cases heq
  · cases hmem

/-- A rename removes a file below the branch tagged `RO`. -/
theorem serve_removes_ro :
    Apart mixedBranches ∧ ⟨.RO, ['/', 'b']⟩ ∈ mixedBranches ∧
    ∃ tr rs, Exec (serve [(Config.initial mixedBranches,
        .rename fileX fileY)]) tr rs ∧
      ⟨.remove ['/', 'b', '/', 'd', '/', 'y'], .ok ()⟩ ∈ tr ∧
      under ['/', 'b'] ['/', 'b', '/', 'd', '/', 'y'] := by
  refine ⟨apart_mixedBranches, List.mem_cons_of_mem _ List.mem_cons_self, _, _,
    exec_run_nil succeeding _, ?_, ?_⟩
  · change _ ∈ _ :: _ :: [_]
    exact List.mem_cons_of_mem _ (List.mem_cons_of_mem _ List.mem_cons_self)
  · exact under_make fileY.abs

end Mergerfs
