import Mergerfs.Libfuse.TreelockPath

/-!
# Paths that are gone

A directory that was removed keeps its node as long as the kernel knows it or one below
it, but its way up does not lead to the root any more. Nobody has locks there, so a
request for a path through it fails however often it is tried.
-/

namespace Mergerfs.Libfuse

open LockWord (Claim Guards)
open Forest (Walk)

variable {f : Fuse} {ids names : List Ptr} {p q x : Ptr} {l : List Ptr} {word : Ptr → ℤ}
  {claims : List (Claim Ptr)}

/-- The way up from `p` does not lead to the root. -/
def OffRoot (f : Fuse) (p : Ptr) : Prop :=
  ∃ l q, Walk f.parentOf p l q ∧ f.parentOf q = none ∧ f.nodeidOf q ≠ some fuseRootId

namespace OffRoot

theorem relock : OffRoot (f.relock word) p ↔ OffRoot f p := by
  unfold OffRoot
  rw [Fuse.sameNames_relock.parent, Fuse.sameNames_relock.nodeid]

theorem of_walk (h : OffRoot f p) (hwalk : Walk f.parentOf p l x) : OffRoot f x := by
  obtain ⟨_, q, hwalk', hnone, hroot⟩ := h
  obtain ⟨l', hrest⟩ := hwalk.rest hwalk' hnone
  exact ⟨l', q, hrest, hnone, hroot⟩

theorem ne_root (h : OffRoot f p) (hr : AtRest f ids names) (hwalk : Walk f.parentOf p l q) :
    f.nodeidOf q ≠ some fuseRootId := by
  intro hroot
  obtain ⟨_, q', hwalk', hnone, hq'⟩ := h
  obtain ⟨-, rfl⟩ := hwalk.unique hwalk' (hr.parentOf_root hroot) hnone
  exact hq' hroot

end OffRoot

/-- A path is not to be had, now or ever. -/
def Lost (f : Fuse) (t : Target) : Prop :=
  ∃ p, f.nodeidOf p = some t.nodeid ∧ OffRoot f p

theorem Lost.relock {t : Target} : Lost (f.relock word) t ↔ Lost f t := by
  unfold Lost
  rw [Fuse.sameNames_relock.nodeid]
  exact exists_congr fun p => and_congr_right fun _ => OffRoot.relock

def Clear (f : Fuse) (c : Claim Ptr) : Prop :=
  ∀ x b, x ∈ c.reads ∨ c.writes = some x → f.parentOf x = some b → ¬ OffRoot f b

theorem Clear.relock {c : Claim Ptr} : Clear (f.relock word) c ↔ Clear f c := by
  unfold Clear
  rw [Fuse.sameNames_relock.parent]
  exact forall₂_congr fun x b => by rw [OffRoot.relock]

/-- A path that is lost is not waited for. -/
theorem tryGetPath_lost (hr : AtRest f ids names) {t : Target} (hlost : Lost f t)
    (hg : Guards treelockWaitOffset f.word claims)
    (hbound : (claims.length : ℤ) + 2 < -treelockWaitOffset)
    (hclear : ∀ c ∈ claims, Clear f c) :
    ∃ f', tryGetPath f t = some (f', .error .noent) := by
  obtain ⟨p, hbase, hoff⟩ := hlost
  obtain ⟨f', result, htry, htried⟩ := tryGetPath_spec hr t hbase hg hbound
  cases htried with
  | ok word held l r _ hgranted _ _ _ _ =>
      exact absurd hgranted.root (hoff.ne_root hr hgranted.walk)
  | again word x b l hx hb hwalk _ _ =>
      obtain ⟨c, hc, htouch⟩ := hg.exists_claim hx
      exact absurd (hoff.of_walk hwalk) (hclear c hc x b htouch hb)
  | noent => exact ⟨_, htry⟩

end Mergerfs.Libfuse
