import Mergerfs.Fuse.Operation
import Mergerfs.Fuse.Cleanup
import Mergerfs.Policy.Vector

/-!
# Cloning the missing parent

When `link` or `rename` finds the parent of the new name missing on a branch and
the create policy would put the name on that branch, the parent is cloned to it
from the branch the search policy picks. The helper of `rename` hands the search an
empty vector. The helper of `link` hands it the vector the create policy has
filled, and a search only appends: the first path of the vector stays the branch
itself unless the search shuffles.

`linkCloneCall` and `renameCloneCall` are the calls of `fs::clonepath_as_root` the
two helpers make, as functions of what their two policies read.
-/

namespace Mergerfs

open Errno Program

structure CloneCall where
  fromsrc : Path
  tosrc : Path
  relative : Path
deriving DecidableEq

def CloneCall.issue (c : CloneCall) : Prog Rv :=
  clonepathAsRoot c.fromsrc c.tosrc c.relative

def created (cfg : Config) (dir : Path) (env : Probe) : Policy.Result :=
  cfg.create.func env .create cfg.branches dir cfg.minfreespace []

def searched (cfg : Config) (dir : Path) (env : Probe) (paths : List Path) :
    Policy.Result :=
  cfg.getattr.func env .search cfg.branches dir cfg.minfreespace paths

def WouldCreate (cfg : Config) (oldbasepath dir : Path) (env : Probe) : Prop :=
  (created cfg dir env).1 = .ok () ∧ oldbasepath = front (created cfg dir env).2

instance (cfg : Config) (oldbasepath dir : Path) (env : Probe) :
    Decidable (WouldCreate cfg oldbasepath dir env) :=
  inferInstanceAs (Decidable (_ ∧ _))

def cloneCall (cfg : Config) (oldbasepath dir : Path) (paths : List Path)
    (create search : Probe) : Option CloneCall :=
  if WouldCreate cfg oldbasepath dir create then
    if (searched cfg dir search paths).1 = .ok () then
      some ⟨front (searched cfg dir search paths).2, oldbasepath, dir⟩
    else none
  else none

def linkCloneCall (cfg : Config) (oldbasepath dir : Path)
    (create search : Probe) : Option CloneCall :=
  cloneCall cfg oldbasepath dir (created cfg dir create).2 create search

def renameCloneCall (cfg : Config) (oldbasepath dir : Path)
    (create search : Probe) : Option CloneCall :=
  cloneCall cfg oldbasepath dir [] create search

/-! ## The helpers make these calls -/

/-- The trace of a helper whose call is `call`, and what the call returned if it
was made. -/
inductive Helps (cfg : Config) (oldbasepath dir : Path)
    (call : Probe → Probe → Option CloneCall) : Trace → Option Rv → Prop
  | elsewhere (create : Probe)
      (hcreate : ¬ WouldCreate cfg oldbasepath dir create) :
      Helps cfg oldbasepath dir call [⟨.probe .create dir, create⟩] none
  | unfound (create search : Probe)
      (hcreate : WouldCreate cfg oldbasepath dir create)
      (hcall : call create search = none) :
      Helps cfg oldbasepath dir call
        [⟨.probe .create dir, create⟩, ⟨.probe .search dir, search⟩] none
  | cloned (create search : Probe) (c : CloneCall) (t : Trace) (rv : Rv)
      (hcreate : WouldCreate cfg oldbasepath dir create)
      (hcall : call create search = some c) (hexec : Exec c.issue t rv) :
      Helps cfg oldbasepath dir call
        (⟨.probe .create dir, create⟩ :: ⟨.probe .search dir, search⟩ :: t)
        (some rv)

section Helpers

variable {cfg : Config} {oldbasepath dir : Path} {newpath : FusePath} {tr : Trace}

theorem exec_created_bind {β : Type} {f : Policy.Result → Prog β} {b : β} :
    Exec (ask cfg cfg.create .create dir [] >>= f) tr b ↔
      ∃ env t, tr = ⟨.probe .create dir, env⟩ :: t ∧
        Exec (f (created cfg dir env)) t b :=
  exec_ask_bind

theorem exec_searched_bind {paths : List Path} {β : Type}
    {f : Policy.Result → Prog β} {b : β} :
    Exec (ask cfg cfg.getattr .search dir paths >>= f) tr b ↔
      ∃ env t, tr = ⟨.probe .search dir, env⟩ :: t ∧
        Exec (f (searched cfg dir env paths)) t b :=
  exec_ask_bind

theorem cloneCall_of_ok {paths : List Path} {create search : Probe}
    (hcreate : WouldCreate cfg oldbasepath dir create)
    (hsearch : (searched cfg dir search paths).1 = .ok ()) :
    cloneCall cfg oldbasepath dir paths create search =
      some ⟨front (searched cfg dir search paths).2, oldbasepath, dir⟩ := by
  rw [cloneCall, if_pos hcreate, if_pos hsearch]

theorem cloneCall_of_error {paths : List Path} {create search : Probe}
    {e : Errno} (hsearch : (searched cfg dir search paths).1 = .error e) :
    cloneCall cfg oldbasepath dir paths create search = none := by
  simp [cloneCall, hsearch]

theorem exec_linkClonepathIfWouldCreate {rv : Rv}
    (h : Exec (linkClonepathIfWouldCreate cfg oldbasepath newpath) tr rv) :
    ∃ v, Helps cfg oldbasepath (dirname newpath.path)
      (linkCloneCall cfg oldbasepath (dirname newpath.path)) tr v ∧
        (rv = .ok () ↔ v = some (.ok ())) := by
  obtain ⟨create, t, rfl, hcreate⟩ := exec_created_bind.mp h
  cases hc : (created cfg (dirname newpath.path) create).1 with
  | error e =>
      simp only [hc] at hcreate
      obtain ⟨rfl, rfl⟩ := exec_pure.mp hcreate
      exact ⟨none, .elsewhere create (by simp [WouldCreate, hc]), by simp⟩
  | ok u =>
      simp only [hc] at hcreate
      split_ifs at hcreate with hpick
      · obtain ⟨rfl, rfl⟩ := exec_pure.mp hcreate
        exact ⟨none, .elsewhere create fun hw => hpick hw.2, by simp⟩
      · have hw : WouldCreate cfg oldbasepath (dirname newpath.path) create :=
          ⟨hc, not_not.mp hpick⟩
        obtain ⟨search, t, rfl, hsearch⟩ := exec_searched_bind.mp hcreate
        cases hs : (searched cfg (dirname newpath.path) search
            (created cfg (dirname newpath.path) create).2).1 with
        | error e =>
            simp only [hs] at hsearch
            obtain ⟨rfl, rfl⟩ := exec_pure.mp hsearch
            exact ⟨none, .unfound create search hw (cloneCall_of_error hs),
              by simp⟩
        | ok u =>
            simp only [hs] at hsearch
            exact ⟨some rv, .cloned create search _ t rv hw
              (cloneCall_of_ok hw hs) hsearch, by simp⟩

/-- The helper of `rename` succeeds whenever it has made the call. -/
theorem exec_clonepathIfWouldCreate {r : ℤ × ℤ}
    (h : Exec (clonepathIfWouldCreate cfg oldbasepath newpath) tr r) :
    ∃ v, Helps cfg oldbasepath (dirname newpath.path)
      (renameCloneCall cfg oldbasepath (dirname newpath.path)) tr v ∧
        (r.1 = 0 ↔ v ≠ none) := by
  obtain ⟨create, t, rfl, hcreate⟩ := exec_created_bind.mp h
  cases hc : (created cfg (dirname newpath.path) create).1 with
  | error e =>
      simp only [hc] at hcreate
      obtain ⟨rfl, rfl⟩ := exec_pure.mp hcreate
      exact ⟨none, .elsewhere create (by simp [WouldCreate, hc]), by simp⟩
  | ok u =>
      simp only [hc] at hcreate
      split_ifs at hcreate with hpick
      · obtain ⟨search, t, rfl, hsearch⟩ := exec_searched_bind.mp hcreate
        cases hs : (searched cfg (dirname newpath.path) search []).1 with
        | error e =>
            simp only [hs] at hsearch
            obtain ⟨rfl, rfl⟩ := exec_pure.mp hsearch
            exact ⟨none, .unfound create search ⟨hc, hpick⟩
              (cloneCall_of_error hs), by simpa using ne_of_lt e.neg_lt_zero⟩
        | ok u =>
            simp only [hs, exec_bind] at hsearch
            obtain ⟨t₁, rv, t₂, rfl, hexec, hret⟩ := hsearch
            obtain ⟨rfl, rfl⟩ := exec_pure.mp hret
            rw [List.append_nil]
            exact ⟨some rv, .cloned create search _ t₁ rv ⟨hc, hpick⟩
              (cloneCall_of_ok ⟨hc, hpick⟩ hs) hexec, by simp⟩
      · obtain ⟨rfl, rfl⟩ := exec_pure.mp hcreate
        exact ⟨none, .elsewhere create fun hw => hpick hw.2, by simp⟩

end Helpers

/-! ## When the two calls are the same -/

theorem front_append {paths : List Path} (h : paths ≠ []) (paths' : List Path) :
    front (paths ++ paths') = front paths := by
  cases paths with
  | nil => exact absurd rfl h
  | cons p paths => rfl

section Same

variable {cfg : Config} {oldbasepath dir : Path} {create search : Probe}

theorem renameCloneCall_eq (hw : WouldCreate cfg oldbasepath dir create) :
    renameCloneCall cfg oldbasepath dir create search =
      if (searched cfg dir search []).1 = .ok () then
        some ⟨front (searched cfg dir search []).2, oldbasepath, dir⟩
      else none := by
  rw [renameCloneCall, cloneCall, if_pos hw]

/-- The helper of `link` clones from the branch to itself if the search picks one
branch or keeps all in order. If it shuffles it takes what then comes first. -/
theorem linkCloneCall_eq (hw : WouldCreate cfg oldbasepath dir create) :
    linkCloneCall cfg oldbasepath dir create search =
      match cfg.getattr with
      | .rand | .eprand =>
          some ⟨front (search.randomShuffle ((created cfg dir create).2 ++
            (Policy.epallSearch search cfg.branches dir []).2)), oldbasepath, dir⟩
      | .all | .epall => some ⟨oldbasepath, oldbasepath, dir⟩
      | _ =>
          if (searched cfg dir search []).1 = .ok () then
            some ⟨oldbasepath, oldbasepath, dir⟩
          else none := by
  have hne : (created cfg dir create).2 ≠ [] := Policy.func_ne_nil hw.1
  have hfront := fun paths => (front_append hne paths).trans hw.2.symm
  rw [linkCloneCall, cloneCall, if_pos hw]
  by_cases hall : cfg.getattr.returnsAll
  · have hvec : searched cfg dir search (created cfg dir create).2 = _ :=
      Policy.func_search_returnsAll search cfg.branches dir cfg.minfreespace
        _ hall hne
    rw [hvec, if_pos rfl]
    rcases hall with hg | hg | hg | hg <;> simp [hg, hfront]
  · have hvec : searched cfg dir search (created cfg dir create).2 =
        ((searched cfg dir search []).1,
          (created cfg dir create).2 ++ (searched cfg dir search []).2) :=
      Policy.func_append search cfg.branches dir cfg.minfreespace _ hall .search
    rw [hvec, hfront]
    -- the first four policies return every branch
    split <;> simp_all [Policy.returnsAll]

end Same

/-- The search on the vector the create policy has filled starts with the branch a
search of its own finds. -/
def KeepsSource (cfg : Config) (oldbasepath dir : Path)
    (create search : Probe) : Prop :=
  match cfg.getattr with
  | .rand | .eprand =>
      (searched cfg dir search []).1 = .ok () ∧
        front (search.randomShuffle ((created cfg dir create).2 ++
          (Policy.epallSearch search cfg.branches dir []).2)) =
            front (searched cfg dir search []).2
  | .all | .epall =>
      (searched cfg dir search []).1 = .ok () ∧
        front (searched cfg dir search []).2 = oldbasepath
  | _ =>
      (searched cfg dir search []).1 = .ok () →
        front (searched cfg dir search []).2 = oldbasepath

/-- `link` and `rename` make the same call to clone the parent, or both none,
exactly when the branch is not the one the create policy picks or the paths the
create policy has left in the vector do not displace the branch the search
finds. -/
theorem linkCloneCall_eq_iff (cfg : Config) (oldbasepath dir : Path)
    (create search : Probe) :
    linkCloneCall cfg oldbasepath dir create search =
        renameCloneCall cfg oldbasepath dir create search ↔
      (WouldCreate cfg oldbasepath dir create →
        KeepsSource cfg oldbasepath dir create search) := by
  by_cases hw : WouldCreate cfg oldbasepath dir create
  · rw [linkCloneCall_eq hw, renameCloneCall_eq hw]
    simp only [hw, true_implies, KeepsSource]
    by_cases hs : (searched cfg dir search []).1 = .ok ()
    · split <;> simp [hs, eq_comm]
    · split <;> simp [hs]
  · simp [hw, linkCloneCall, renameCloneCall, cloneCall]

def bothHold : Probe := holding [['/', 'a', '/', 'd'], ['/', 'b', '/', 'd']]

/-- By default the create policy picks the second of them and the search the first:
`rename` clones from the first, `link` from the branch to itself. -/
theorem linkCloneCall_displaced :
    linkCloneCall (Config.initial twoBranches) ['/', 'b'] (dirname fileY.path)
        bothHold bothHold = some ⟨['/', 'b'], ['/', 'b'], ['/', 'd']⟩ ∧
      renameCloneCall (Config.initial twoBranches) ['/', 'b']
        (dirname fileY.path) bothHold bothHold =
          some ⟨['/', 'a'], ['/', 'b'], ['/', 'd']⟩ := by
  decide

end Mergerfs
