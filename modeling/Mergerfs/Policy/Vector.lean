import Mergerfs.Policy.Optimum

/-!
# Policies on a vector that already holds paths

A policy appends what it finds to a vector of its caller's. A loop that picks one
branch remembers it in a variable of its own, and what the vector held before makes
no difference. The loops of `all` and `epall` ask at their end whether the vector is
empty, so that they cannot fail on one that is not: `func_append_iff` says when this
shows.
-/

namespace Mergerfs

namespace Policy

open Errno

variable (env : Probe) (branches : Branches) (fusepath : Path)
  (minfreespace : UInt64) (paths : List Path)

theorem pushOne_eq_append (chosen : Except Errno Branch) :
    pushOne chosen paths =
      ((pushOne chosen []).1, paths ++ (pushOne chosen []).2) := by
  cases chosen with
  | error e => simp [pushOne]
  | ok b => rfl

theorem pushAll_eq_append {α : Type} (test : Branch → Except Errno α)
    (hpaths : paths ≠ []) :
    pushAll test branches paths =
      (.ok (), paths ++ (pushAll test branches []).2) := by
  have hsnd : (pushAll test branches []).2 =
      toPaths (Scan.collect calcError test (ENOENT, []) branches).2 := by
    simp only [pushAll, List.nil_append]
    split_ifs <;> rfl
  rw [hsnd]
  simp [pushAll, hpaths]

/-- The policies that pick one branch append it, or fail, whatever the vector
holds. -/
theorem func_append {p : Policy} (hp : ¬ p.returnsAll) (type : Category) :
    p.func env type branches fusepath minfreespace paths =
      ((p.func env type branches fusepath minfreespace []).1,
        paths ++ (p.func env type branches fusepath minfreespace []).2) := by
  cases p with
  | invalid | erofs => simp [func]
  | all | epall | rand | eprand => simp [returnsAll] at hp
  | _ => cases type <;> exact pushOne_eq_append paths _

/-- The two policies that keep every branch cannot fail on a vector that holds
something. -/
theorem func_append_of_ne_nil {p : Policy} (hp : p = .all ∨ p = .epall)
    (type : Category) (hpaths : paths ≠ []) :
    p.func env type branches fusepath minfreespace paths =
      (.ok (), paths ++ (p.func env type branches fusepath minfreespace []).2) := by
  rcases hp with rfl | rfl
  all_goals cases type <;> exact pushAll_eq_append branches paths _ hpaths

theorem func_search_returnsAll {p : Policy} (hp : p.returnsAll)
    (hpaths : paths ≠ []) :
    p.func env .search branches fusepath minfreespace paths =
      (.ok (), (if p = .rand ∨ p = .eprand then env.randomShuffle else id)
        (paths ++ (epallSearch env branches fusepath []).2)) := by
  have hpush := pushAll_eq_append branches paths (searchTest env fusepath) hpaths
  rcases hp with rfl | rfl | rfl | rfl
  · simp [func, allFunc, epallFunc, epallSearch, hpush]
  · simp [func, epallFunc, epallSearch, hpush]
  · simp [func, randFunc, allFunc, epallFunc, shuffled, epallSearch, hpush]
  · simp [func, eprandFunc, epallFunc, shuffled, epallSearch, hpush]

theorem func_ok_iff_eligible {p : Policy} (hp : p = .all ∨ p = .epall)
    (type : Category) :
    (p.func env type branches fusepath minfreespace []).1 = .ok () ↔
      ∃ b ∈ branches, Eligible env p type fusepath minfreespace b := by
  have hvalid : p ≠ .invalid ∧ p ≠ .erofs := by rcases hp with rfl | rfl <;> decide
  have hlus : ¬ (p = .lus ∨ p = .eplus) := by rcases hp with rfl | rfl <;> decide
  cases type with
  | create => exact (func_create_agrees hvalid fun h => absurd h hlus).ok_iff
  | action => exact (func_action_agrees hvalid fun h => absurd h hlus).ok_iff
  | search =>
      exact (func_search_finds env branches fusepath minfreespace hvalid
        (not_or.mp hlus)).ok_iff

/-- The verdict of a policy does not depend on what the vector holds, and the policy
appends the same, exactly if the vector is empty, or the policy is neither `all` nor
`epall`, or there is a branch to be found. -/
theorem func_append_iff (type : Category) {p : Policy}
    (hp : p ≠ .rand ∧ p ≠ .eprand) :
    p.func env type branches fusepath minfreespace paths =
        ((p.func env type branches fusepath minfreespace []).1,
          paths ++ (p.func env type branches fusepath minfreespace []).2) ↔
      paths = [] ∨ (p ≠ .all ∧ p ≠ .epall) ∨
        ∃ b ∈ branches, Eligible env p type fusepath minfreespace b := by
  by_cases hall : p = .all ∨ p = .epall
  · have hne : ¬ (p ≠ .all ∧ p ≠ .epall) := by tauto
    by_cases hpaths : paths = []
    · simp [hpaths]
    · rw [func_append_of_ne_nil env branches fusepath minfreespace paths hall type
        hpaths, Prod.mk.injEq, ← func_ok_iff_eligible env branches fusepath
        minfreespace hall type]
      simp [hpaths, hne, eq_comm]
  · have hret : ¬ p.returnsAll := by
      rintro (h | h | h | h)
      exacts [hall (.inl h), hall (.inr h), hp.1 h, hp.2 h]
    constructor
    · intro _
      exact .inr (.inl (not_or.mp hall))
    · intro _
      exact func_append env branches fusepath minfreespace paths hret type

/-- A search of `epff` for a path no branch has, on a vector that holds one. -/
theorem func_append_iff_epff :
    Policy.epff.func (Probe.unshuffled (fun _ => none) fun _ => none) .search
        [⟨.RW, ['/', 'a']⟩] ['/', 'f'] 0 [['/', 'b']] =
      (.error ENOENT, [['/', 'b']]) :=
  (func_append_iff (Probe.unshuffled (fun _ => none) fun _ => none)
    [⟨.RW, ['/', 'a']⟩] ['/', 'f'] 0 [['/', 'b']] .search (p := .epff)
    (by decide)).mpr (.inr (.inl (by decide)))

/-- The same search of `epall` fails on an empty vector only. -/
theorem epall_succeeds_on_held :
    Policy.epall.func (Probe.unshuffled (fun _ => none) fun _ => none) .search
        [⟨.RW, ['/', 'a']⟩] ['/', 'f'] 0 [] = (.error ENOENT, []) ∧
    Policy.epall.func (Probe.unshuffled (fun _ => none) fun _ => none) .search
        [⟨.RW, ['/', 'a']⟩] ['/', 'f'] 0 [['/', 'b']] = (.ok (), [['/', 'b']]) := by
  constructor <;> rfl

end Policy

end Mergerfs
