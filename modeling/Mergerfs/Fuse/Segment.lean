import Mergerfs.Fuse.Rename
import Mergerfs.Policy.Search

/-!
# What a rename does on one branch

The loops of the two modes treat the branches one after the other, and the calls of
one branch form a segment of the trace. A segment is of one of five kinds: the
branch was not selected, it was renamed, renaming it failed, cloning the target's
directory failed before the rename was tried, or the search for a branch to clone
from failed and the failure was taken for a success. `Segment` records what each
kind leaves in the trace, and `Kind.apply` what it does to the loop's variables.

A loop then is a list of segments, one for each branch in order.
-/

namespace Mergerfs

open Errno Program

/-! ## Reading a trace -/

def renamedPaths (tr : Trace) : List (Path × Path) :=
  tr.filterMap fun
    | ⟨.rename oldpath newpath, .ok _⟩ => some (oldpath, newpath)
    | _ => none

def removedPaths (tr : Trace) : List Path :=
  tr.filterMap fun
    | ⟨.remove path, _⟩ => some path
    | _ => none

def cloneErrors (tr : Trace) : List Errno :=
  tr.filterMap fun
    | ⟨.clonepath _ _ _, .error e⟩ => some e
    | _ => none

theorem renamedPaths_append (tr t : Trace) :
    renamedPaths (tr ++ t) = renamedPaths tr ++ renamedPaths t :=
  List.filterMap_append

theorem removedPaths_append (tr t : Trace) :
    removedPaths (tr ++ t) = removedPaths tr ++ removedPaths t :=
  List.filterMap_append

theorem mem_removedPaths_iff {tr : Trace} {path : Path} :
    path ∈ removedPaths tr ↔ ∃ rv, ⟨.remove path, rv⟩ ∈ tr := by
  rw [removedPaths, List.mem_filterMap]
  constructor
  · intro h
    obtain ⟨⟨c, rv⟩, hmem, heq⟩ := h
    cases c <;> simp at heq
    subst heq
    exact ⟨rv, hmem⟩
  · intro h
    obtain ⟨rv, hmem⟩ := h
    exact ⟨_, hmem, rfl⟩

theorem mem_of_mem_renamedPaths {tr : Trace} {oldpath newpath : Path}
    (h : (oldpath, newpath) ∈ renamedPaths tr) :
    ⟨.rename oldpath newpath, .ok ()⟩ ∈ tr := by
  obtain ⟨e, hmem, heq⟩ := List.mem_filterMap.mp h
  split at heq
  · cases heq
    exact hmem
  · cases heq

theorem cloneErrors_append (tr t : Trace) :
    cloneErrors (tr ++ t) = cloneErrors tr ++ cloneErrors t :=
  List.filterMap_append

def RenamedOn (oldpath newpath : FusePath) (base : Path) (tr : Trace) : Prop :=
  (make base oldpath.path, make base newpath.path) ∈ renamedPaths tr

/-- On the branch path `base` the rename failed with `ENOENT`, the create policy
was asked, and the search policy asked next failed. -/
def SearchFailsOn (cfg : Config) (oldpath newpath : FusePath) (base : Path)
    (tr : Trace) : Prop :=
  ∃ env₁ env₂,
    [⟨.rename (make base oldpath.path) (make base newpath.path),
        .error ENOENT⟩,
      ⟨.probe .create (dirname newpath.path), env₁⟩,
      ⟨.probe .search (dirname newpath.path), env₂⟩] <:+: tr ∧
    (cfg.getattr.func env₂ .search cfg.branches (dirname newpath.path)
      cfg.minfreespace []).1 ≠ .ok ()

def NoProbeFirst (tr : Trace) : Prop :=
  ∀ type fusepath env, tr.head? ≠ some ⟨.probe type fusepath, env⟩

theorem searchFailsOn_append {cfg : Config} {oldpath newpath : FusePath}
    {base : Path} {tr t : Trace} (ht : NoProbeFirst t) :
    SearchFailsOn cfg oldpath newpath base (tr ++ t) ↔
      SearchFailsOn cfg oldpath newpath base tr ∨
        SearchFailsOn cfg oldpath newpath base t := by
  constructor
  · intro h
    obtain ⟨env₁, env₂, hsub, he⟩ := h
    rcases List.infix_append_iff_ne_nil.mp hsub with
      h | h | ⟨l₁, l₂, hl₁, hl₂, heq, hsuf, hpre⟩
    · exact .inl ⟨env₁, env₂, h, he⟩
    · exact .inr ⟨env₁, env₂, h, he⟩
    · -- the pattern would straddle the cut, with a policy's reads right after it
      exfalso
      obtain ⟨rest, rfl⟩ := hpre
      cases l₁ with
      | nil => exact hl₁ rfl
      | cons a l₁ =>
          cases l₁ with
          | nil =>
              obtain ⟨_, rfl⟩ := List.cons.inj heq
              exact ht _ _ _ rfl
          | cons b l₁ =>
              cases l₁ with
              | nil =>
                  obtain ⟨_, htl⟩ := List.cons.inj heq
                  obtain ⟨_, rfl⟩ := List.cons.inj htl
                  exact ht _ _ _ rfl
              | cons c l₁ =>
                  apply hl₂
                  have hlen := congrArg List.length heq
                  simp only [List.length_cons, List.length_append,
                    List.length_nil] at hlen
                  exact List.length_eq_zero_iff.mp (by omega)
  · intro h
    rcases h with ⟨env₁, env₂, h, he⟩ | ⟨env₁, env₂, h, he⟩
    · exact ⟨env₁, env₂, List.infix_append_of_infix_left h, he⟩
    · exact ⟨env₁, env₂, List.infix_append_of_infix_right h, he⟩

/-! ## The kinds of segments -/

inductive Kind where
  | skipped
  | renamed
  | failed
  | cloneFailed
  | searchFailed
deriving DecidableEq

def Kind.removal (oldpath newpath : FusePath) (base : Path) :
    Kind → Option Path
  | .skipped => some (make base newpath.path)
  | .failed => some (make base oldpath.path)
  | .cloneFailed => some []
  | .renamed | .searchFailed => none

def Kind.error (e : Errno) (prev : ℤ) : Kind → ℤ
  | .skipped => prev
  | .failed | .cloneFailed => errorCalc (-1) prev e.val
  | .renamed | .searchFailed => 0

def Kind.apply (oldpath newpath : FusePath) (base : Path) (e : Errno)
    (s : RenameState) (k : Kind) : RenameState :=
  (k.error e s.1, s.2 ++ (k.removal oldpath newpath base).toList)

/-- What a segment of the kind `k` for the branch path `base` leaves in the
trace. -/
structure Segment (cfg : Config) (oldpath newpath : FusePath)
    (oldbasepaths : List Path) (base : Path) (k : Kind) (t : Trace) :
    Prop where
  skipped_iff : k = .skipped ↔ base ∉ oldbasepaths
  noProbeFirst : NoProbeFirst t
  renamed : renamedPaths t = if k = .renamed then
    [(make base oldpath.path, make base newpath.path)] else []
  removed : removedPaths t = []
  searchFailsOn_iff : ∀ b, SearchFailsOn cfg oldpath newpath b t ↔
    k = .searchFailed ∧ base = b
  cloneErrors_iff : preservesPath cfg = false →
    (cloneErrors t ≠ [] ↔ k = .cloneFailed)
  cloneFailed : k = .cloneFailed → preservesPath cfg = false

section Segments

variable {cfg : Config} {oldpath newpath : FusePath} {oldbasepaths : List Path}
  {base : Path} {t : Trace}

theorem segment_skipped (hbase : base ∉ oldbasepaths) :
    Segment cfg oldpath newpath oldbasepaths base .skipped [] := by
  constructor <;> simp [hbase, NoProbeFirst, renamedPaths, removedPaths,
    cloneErrors, SearchFailsOn]

theorem segment_rename (hbase : base ∈ oldbasepaths) (rv : Rv) :
    Segment cfg oldpath newpath oldbasepaths base
      (if rv = .ok () then .renamed else .failed)
      [⟨.rename (make base oldpath.path) (make base newpath.path), rv⟩] := by
  cases rv with
  | ok u => constructor <;> simp [hbase, NoProbeFirst, renamedPaths,
      removedPaths, cloneErrors, SearchFailsOn, List.infix_cons_iff]
  | error e => constructor <;> simp [hbase, NoProbeFirst, renamedPaths,
      removedPaths, cloneErrors, SearchFailsOn, List.infix_cons_iff]

theorem segment_cloneFailed (hmode : preservesPath cfg = false)
    (hbase : base ∈ oldbasepaths) (src dir : Path) (e : Errno) :
    Segment cfg oldpath newpath oldbasepaths base .cloneFailed
      [⟨.clonepath src base dir, .error e⟩] := by
  constructor <;> simp [hbase, hmode, NoProbeFirst, renamedPaths, removedPaths,
    cloneErrors, SearchFailsOn, List.infix_cons_iff]

theorem segment_cloned (hmode : preservesPath cfg = false)
    (hbase : base ∈ oldbasepaths) (src dir : Path) (rv : Rv) :
    Segment cfg oldpath newpath oldbasepaths base
      (if rv = .ok () then .renamed else .failed)
      [⟨.clonepath src base dir, .ok ()⟩,
        ⟨.rename (make base oldpath.path) (make base newpath.path), rv⟩] := by
  cases rv with
  | ok u => constructor <;> simp [hbase, hmode, NoProbeFirst, renamedPaths,
      removedPaths, cloneErrors, SearchFailsOn, List.infix_cons_iff]
  | error e => constructor <;> simp [hbase, hmode, NoProbeFirst, renamedPaths,
      removedPaths, cloneErrors, SearchFailsOn, List.infix_cons_iff]

theorem segment_wouldNotCreate (hmode : preservesPath cfg = true)
    (hbase : base ∈ oldbasepaths) (dir : Path) (env : Probe) :
    Segment cfg oldpath newpath oldbasepaths base .failed
      [⟨.rename (make base oldpath.path) (make base newpath.path),
          .error ENOENT⟩, ⟨.probe .create dir, env⟩] := by
  constructor <;> simp [hbase, hmode, NoProbeFirst, renamedPaths, removedPaths,
    SearchFailsOn, List.infix_cons_iff]

theorem segment_searchFailed (hmode : preservesPath cfg = true)
    (hbase : base ∈ oldbasepaths) (env₁ env₂ : Probe)
    (hsearch : (cfg.getattr.func env₂ .search cfg.branches
      (dirname newpath.path) cfg.minfreespace []).1 ≠ .ok ()) :
    Segment cfg oldpath newpath oldbasepaths base .searchFailed
      [⟨.rename (make base oldpath.path) (make base newpath.path),
          .error ENOENT⟩, ⟨.probe .create (dirname newpath.path), env₁⟩,
        ⟨.probe .search (dirname newpath.path), env₂⟩] := by
  constructor <;> simp [hbase, hmode, NoProbeFirst, renamedPaths, removedPaths,
    SearchFailsOn, List.infix_cons_iff, hsearch]
  intro b
  constructor
  · intro h
    exact (make_left_injective _ h.1).symm
  · intro h
    simp [h]

/-- In the mode that preserves paths, the retry after a search that succeeded.
The clone in between is one call or none. -/
theorem segment_retried (hmode : preservesPath cfg = true)
    (hbase : base ∈ oldbasepaths) (env₁ env₂ : Probe)
    (hsearch : (cfg.getattr.func env₂ .search cfg.branches
      (dirname newpath.path) cfg.minfreespace []).1 = .ok ())
    {src dir : Path} {rvc : Rv} {tc : Trace}
    (htc : tc = [] ∨ tc = [⟨.clonepath src base dir, rvc⟩]) (rv : Rv) :
    Segment cfg oldpath newpath oldbasepaths base
      (if rv = .ok () then .renamed else .failed)
      (⟨.rename (make base oldpath.path) (make base newpath.path),
          .error ENOENT⟩ :: ⟨.probe .create (dirname newpath.path), env₁⟩ ::
        ⟨.probe .search (dirname newpath.path), env₂⟩ :: (tc ++
        [⟨.rename (make base oldpath.path) (make base newpath.path), rv⟩])) := by
  rcases htc with rfl | rfl
  · cases rv with
    | ok u => constructor <;> simp [hbase, hmode, NoProbeFirst, renamedPaths,
        removedPaths, SearchFailsOn, List.infix_cons_iff, hsearch]
    | error e => constructor <;> simp [hbase, hmode, NoProbeFirst, renamedPaths,
        removedPaths, SearchFailsOn, List.infix_cons_iff, hsearch]
  · cases rv with
    | ok u => constructor <;> simp [hbase, hmode, NoProbeFirst, renamedPaths,
        removedPaths, SearchFailsOn, List.infix_cons_iff, hsearch]
    | error e => constructor <;> simp [hbase, hmode, NoProbeFirst, renamedPaths,
        removedPaths, SearchFailsOn, List.infix_cons_iff, hsearch]

/-! ## The cores of the loops make segments -/

theorem exec_cloneAndRename {src dir : Path} {r : Rv × Path}
    (hmode : preservesPath cfg = false) (hbase : base ∈ oldbasepaths)
    (h : Exec (cloneAndRename base src oldpath newpath dir) t r) :
    (∃ e, r = (.error e, []) ∧
        Segment cfg oldpath newpath oldbasepaths base .cloneFailed t) ∨
      r.2 = make base oldpath.path ∧
        Segment cfg oldpath newpath oldbasepaths base
          (if r.1 = .ok () then .renamed else .failed) t := by
  rw [cloneAndRename, exec_bind] at h
  obtain ⟨t₁, rv, t₂, rfl, h₁, h₂⟩ := h
  cases rv with
  | error e =>
      obtain ⟨rfl, rfl⟩ := exec_pure.mp h₂
      rcases exec_clonepathAsRoot h₁ with ⟨_, hrv⟩ | ⟨_, rfl⟩
      · cases hrv
      · exact .inl ⟨e, rfl, segment_cloneFailed hmode hbase src dir e⟩
  | ok u =>
      obtain ⟨rv, t₃, rfl, hret⟩ := exec_sys_bind.mp h₂
      obtain ⟨rfl, rfl⟩ := exec_pure.mp hret
      refine .inr ⟨rfl, ?_⟩
      rcases exec_clonepathAsRoot h₁ with ⟨rfl, _⟩ | ⟨_, rfl⟩
      · exact segment_rename hbase rv
      · exact segment_cloned hmode hbase src dir rv

theorem exec_renameCreatePathCore {newbasepath : Path} {s s' : RenameState}
    {branch : Branch} (hmode : preservesPath cfg = false)
    (h : Exec (renameCreatePathCore oldbasepaths newbasepath oldpath newpath
      (dirname newpath.path) s branch) t s') :
    ∃ k e, Segment cfg oldpath newpath oldbasepaths branch.path k t ∧
      s' = k.apply oldpath newpath branch.path e s := by
  unfold renameCreatePathCore at h
  by_cases hbase : branch.path ∈ oldbasepaths
  · rw [if_pos (by simpa using hbase), exec_bind] at h
    obtain ⟨t₁, ⟨rv, oldfullpath⟩, t₂, rfl, h₁, h₂⟩ := h
    rcases exec_cloneAndRename hmode hbase h₁ with ⟨e, hr, hseg⟩ | ⟨hr, hseg⟩
    · cases hr
      obtain ⟨rfl, rfl⟩ := exec_pure.mp h₂
      exact ⟨.cloneFailed, e, by simpa using hseg, rfl⟩
    · cases hr
      cases rv with
      | ok u =>
          obtain ⟨rfl, rfl⟩ := exec_pure.mp h₂
          exact ⟨.renamed, ENOENT, by simpa using hseg, by
            simp [Kind.apply, Kind.error, Kind.removal, calcRv, errorCalc]⟩
      | error e =>
          obtain ⟨rfl, rfl⟩ := exec_pure.mp h₂
          exact ⟨.failed, e, by simpa using hseg, rfl⟩
  · rw [if_neg (by simpa using hbase)] at h
    obtain ⟨rfl, rfl⟩ := exec_pure.mp h
    exact ⟨.skipped, ENOENT, segment_skipped hbase, rfl⟩

inductive Returns : Kind → ℤ × ℤ → Prop
  | renamed (e : ℤ) : Returns .renamed (0, e)
  | failed (e : Errno) : Returns .failed (-1, e.val)
  | searchFailed (e : Errno) (he : e ≠ EPERM) :
      Returns .searchFailed (e.neg, e.val)

theorem returns_rvErrno (rv : Rv) :
    Returns (if rv = .ok () then .renamed else .failed) (rvErrno rv) := by
  cases rv with
  | ok u => exact .renamed 0
  | error e => exact .failed e

/-- `_clonepath` asks the search policy and clones when it succeeds. A failure is
never `-1`, since no search fails with `EPERM`. -/
theorem exec_clonepathFromSearch {dir : Path} {r : ℤ × ℤ}
    (h : Exec (clonepathFromSearch cfg base dir) t r) :
    ∃ env tc, t = ⟨.probe .search dir, env⟩ :: tc ∧
      ((cfg.getattr.func env .search cfg.branches dir cfg.minfreespace []).1 ≠
          .ok () ∧ tc = [] ∧ (∃ e : Errno, e ≠ EPERM ∧ r = (e.neg, (e.val : ℤ))) ∨
        (cfg.getattr.func env .search cfg.branches dir cfg.minfreespace []).1 =
          .ok () ∧ r = (0, 0) ∧
          ∃ src rvc, tc = [] ∨ tc = [⟨.clonepath src base dir, rvc⟩]) := by
  obtain ⟨env, tc, rfl, hcont⟩ := exec_ask_bind.mp h
  refine ⟨env, tc, rfl, ?_⟩
  cases hrv : (cfg.getattr.func env .search cfg.branches dir cfg.minfreespace
    []).1 with
  | error e =>
      simp only [hrv] at hcont
      obtain ⟨rfl, rfl⟩ := exec_pure.mp hcont
      refine .inl ⟨by simp, rfl, e, ?_, rfl⟩
      rcases Policy.func_search_error env cfg.branches dir cfg.minfreespace hrv
        with rfl | rfl | rfl <;> decide
  | ok u =>
      simp only [hrv, exec_bind] at hcont
      obtain ⟨t₁, rvc, t₂, rfl, h₁, h₂⟩ := hcont
      obtain ⟨rfl, rfl⟩ := exec_pure.mp h₂
      refine .inr ⟨rfl, rfl, front (cfg.getattr.func env .search cfg.branches dir
        cfg.minfreespace []).2, rvc, ?_⟩
      rw [List.append_nil]
      exact (exec_clonepathAsRoot h₁).imp And.left And.right

theorem exec_renameOrClone {r : ℤ × ℤ} (hmode : preservesPath cfg = true)
    (hbase : base ∈ oldbasepaths)
    (h : Exec (renameOrClone cfg base oldpath newpath) t r) :
    ∃ k, Returns k r ∧ Segment cfg oldpath newpath oldbasepaths base k t := by
  obtain ⟨rv, t', rfl, hcont⟩ := exec_sys_bind.mp h
  by_cases hrv : rv = .error ENOENT
  · subst hrv
    rw [if_pos rfl, exec_bind] at hcont
    obtain ⟨t₁, r₁, t₂, rfl, h₁, h₂⟩ := hcont
    obtain ⟨env₁, t₁, rfl, hwould⟩ := exec_ask_bind.mp h₁
    cases hc : (cfg.create.func env₁ .create cfg.branches
      (dirname newpath.path) cfg.minfreespace []).1 with
    | error e =>
        simp only [hc] at hwould
        obtain ⟨rfl, rfl⟩ := exec_pure.mp hwould
        obtain ⟨rfl, rfl⟩ := exec_pure.mp h₂
        exact ⟨_, .failed e, segment_wouldNotCreate hmode hbase _ env₁⟩
    | ok u =>
        simp only [hc] at hwould
        split_ifs at hwould with hsame
        · obtain ⟨env₂, tc, rfl, hsearch⟩ := exec_clonepathFromSearch hwould
          rcases hsearch with ⟨hs, rfl, e, he, rfl⟩ | ⟨hs, rfl, src, rvc, htc⟩
          · rw [if_neg (ne_of_lt e.neg_lt_zero)] at h₂
            obtain ⟨rfl, rfl⟩ := exec_pure.mp h₂
            exact ⟨_, .searchFailed e he,
              segment_searchFailed hmode hbase env₁ env₂ hs⟩
          · rw [if_pos rfl] at h₂
            obtain ⟨rv, t₃, rfl, hret⟩ := exec_sys_bind.mp h₂
            obtain ⟨rfl, rfl⟩ := exec_pure.mp hret
            exact ⟨_, returns_rvErrno rv,
              segment_retried hmode hbase env₁ env₂ hs htc rv⟩
        · obtain ⟨rfl, rfl⟩ := exec_pure.mp hwould
          obtain ⟨rfl, rfl⟩ := exec_pure.mp h₂
          exact ⟨_, .failed EXDEV, segment_wouldNotCreate hmode hbase _ env₁⟩
  · rw [if_neg hrv] at hcont
    obtain ⟨rfl, rfl⟩ := exec_pure.mp hcont
    exact ⟨_, returns_rvErrno rv, segment_rename hbase rv⟩

theorem exec_renamePreservePathCore {s s' : RenameState} {branch : Branch}
    (hmode : preservesPath cfg = true)
    (h : Exec (renamePreservePathCore cfg oldbasepaths oldpath newpath s
      branch) t s') :
    ∃ k e, Segment cfg oldpath newpath oldbasepaths branch.path k t ∧
      s' = k.apply oldpath newpath branch.path e s := by
  unfold renamePreservePathCore at h
  by_cases hbase : branch.path ∈ oldbasepaths
  · rw [if_pos (by simpa using hbase), exec_bind] at h
    obtain ⟨t₁, r, t₂, rfl, h₁, h₂⟩ := h
    obtain ⟨k, hk, hseg⟩ := exec_renameOrClone hmode hbase h₁
    obtain ⟨rfl, rfl⟩ := exec_pure.mp h₂
    rw [List.append_nil]
    cases hk with
    | renamed e => exact ⟨.renamed, ENOENT, hseg, by
        simp [Kind.apply, Kind.error, Kind.removal, errorCalc]⟩
    | failed e => exact ⟨.failed, e, hseg, rfl⟩
    | searchFailed e he =>
        have hne : e.neg ≠ -1 := fun h => he (e.neg_eq_neg_one_iff.mp h)
        exact ⟨.searchFailed, e, hseg, by
          simp [Kind.apply, Kind.error, Kind.removal, errorCalc, hne]⟩
  · rw [if_neg (by simpa using hbase)] at h
    obtain ⟨rfl, rfl⟩ := exec_pure.mp h
    exact ⟨.skipped, ENOENT, segment_skipped hbase, rfl⟩

end Segments

end Mergerfs
