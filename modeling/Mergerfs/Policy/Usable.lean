import Mergerfs.Policy.Definitions

/-!
# The branches a policy may use

Whether a branch may be used for creating or for changing something is said here
without reference to any loop: `CreateUsable` and `ActionUsable` are conditions on
the mode of the branch and on the answers of the kernel, and `createRejection` and
`actionRejection` name the reason for which a branch is turned down. The tests of
every create and action loop decide these predicates, `newest` with its tests in
two parts included.
-/

namespace Mergerfs

namespace Policy

open Errno

def Holds (env : Probe) (fusepath : Path) (b : Branch) : Prop :=
  ∃ st, env.existsStat b.path fusepath = some st

theorem holds_iff (env : Probe) (fusepath : Path) (b : Branch) :
    Holds env fusepath b ↔ env.existsStat b.path fusepath ≠ none :=
  Option.ne_none_iff_exists'.symm

/-- The branch may receive a new entry; `ep` asks for the path as well. -/
structure CreateUsable (env : Probe) (ep : Bool) (fusepath : Path)
    (minfreespace : UInt64) (b : Branch) : Prop where
  not_ro : b.mode ≠ .RO
  not_nc : b.mode ≠ .NC
  status : ∃ st, env.statvfsCache b.path = some st ∧ st.readonly = false ∧
    minfreespace ≤ st.spaceavail
  path : ep = true → Holds env fusepath b

/-- What the branch holds at the path may be changed. -/
structure ActionUsable (env : Probe) (fusepath : Path) (b : Branch) :
    Prop where
  path : Holds env fusepath b
  not_ro : b.mode ≠ .RO
  status : ∃ st, env.statvfsCache b.path = some st ∧ st.readonly = false

/-! ## The reasons for turning a branch down -/

def createRejection (env : Probe) (ep : Bool) (fusepath : Path)
    (minfreespace : UInt64) (b : Branch) : Option Errno :=
  if ep && (env.existsStat b.path fusepath).isNone then some ENOENT
  else if b.mode = .RO ∨ b.mode = .NC then some EROFS
  else match env.statvfsCache b.path with
    | none => some ENOENT
    | some st =>
        if st.readonly then some EROFS
        else if st.spaceavail < minfreespace then some ENOSPC
        else none

def actionRejection (env : Probe) (fusepath : Path) (b : Branch) :
    Option Errno :=
  if (env.existsStat b.path fusepath).isNone then some ENOENT
  else if b.mode = .RO then some EROFS
  else match env.statvfsCache b.path with
    | none => some ENOENT
    | some st => if st.readonly then some EROFS else none

theorem createRejection_eq_none_iff (env : Probe) (ep : Bool) (fusepath : Path)
    (minfreespace : UInt64) (b : Branch) :
    createRejection env ep fusepath minfreespace b = none ↔
      CreateUsable env ep fusepath minfreespace b := by
  constructor
  · intro h
    unfold createRejection at h
    split_ifs at h with hpath hmode
    cases hst : env.statvfsCache b.path with
    | none => simp [hst] at h
    | some st =>
        simp only [hst] at h
        split_ifs at h with hro hspace
        refine ⟨fun hr => hmode (.inl hr), fun hn => hmode (.inr hn),
          ⟨st, hst, by simpa using hro, UInt64.not_lt.mp hspace⟩, ?_⟩
        intro hep
        rw [holds_iff]
        simpa [hep] using hpath
  · intro h
    obtain ⟨st, hst, hro, hspace⟩ := h.status
    have hpath : ¬ (ep && (env.existsStat b.path fusepath).isNone) = true := by
      intro hand
      rw [Bool.and_eq_true] at hand
      obtain ⟨st', hst'⟩ := h.path hand.1
      simp [hst'] at hand
    have hmode : ¬ (b.mode = .RO ∨ b.mode = .NC) := by
      simp [h.not_ro, h.not_nc]
    simp [createRejection, hpath, hmode, hst, hro, UInt64.not_lt.mpr hspace]

theorem actionRejection_eq_none_iff (env : Probe) (fusepath : Path)
    (b : Branch) :
    actionRejection env fusepath b = none ↔ ActionUsable env fusepath b := by
  constructor
  · intro h
    unfold actionRejection at h
    split_ifs at h with hpath hmode
    cases hst : env.statvfsCache b.path with
    | none => simp [hst] at h
    | some st =>
        simp only [hst] at h
        split_ifs at h with hro
        refine ⟨?_, hmode, ⟨st, hst, by simpa using hro⟩⟩
        rw [holds_iff]
        simpa using hpath
  · intro h
    obtain ⟨st, hst, hro⟩ := h.status
    obtain ⟨st', hst'⟩ := h.path
    simp [actionRejection, hst', h.not_ro, hst, hro]

instance (env : Probe) (ep : Bool) (fusepath : Path) (minfreespace : UInt64) :
    DecidablePred (CreateUsable env ep fusepath minfreespace) :=
  fun b => decidable_of_iff _
    (createRejection_eq_none_iff env ep fusepath minfreespace b)

instance (env : Probe) (fusepath : Path) :
    DecidablePred (ActionUsable env fusepath) :=
  fun b => decidable_of_iff _ (actionRejection_eq_none_iff env fusepath b)

theorem policyError_of_createRejection {env : Probe} {ep : Bool}
    {fusepath : Path} {minfreespace : UInt64} {b : Branch} {e : Errno}
    (h : createRejection env ep fusepath minfreespace b = some e) :
    PolicyError e := by
  unfold createRejection at h
  split at h
  · exact .inl (Option.some.inj h).symm
  split at h
  · exact .inr (.inr (Option.some.inj h).symm)
  split at h
  · exact .inl (Option.some.inj h).symm
  split at h
  · exact .inr (.inr (Option.some.inj h).symm)
  split at h
  · exact .inr (.inl (Option.some.inj h).symm)
  · exact absurd h (by simp)

theorem policyError_of_actionRejection {env : Probe} {fusepath : Path}
    {b : Branch} {e : Errno} (h : actionRejection env fusepath b = some e) :
    PolicyError e := by
  unfold actionRejection at h
  split at h
  · exact .inl (Option.some.inj h).symm
  split at h
  · exact .inr (.inr (Option.some.inj h).symm)
  split at h
  · exact .inl (Option.some.inj h).symm
  split at h
  · exact .inr (.inr (Option.some.inj h).symm)
  · exact absurd h (by simp)

/-! ## The tests of the loops name these reasons -/

/-- A test turns down exactly the branches `rej` turns down, for its reasons. -/
def Decides {α : Type} (test : Branch → Except Errno α)
    (rej : Branch → Option Errno) : Prop :=
  ∀ b e, test b = .error e ↔ rej b = some e

theorem Decides.isOk_iff {α : Type} {test : Branch → Except Errno α}
    {rej : Branch → Option Errno} (h : Decides test rej) (b : Branch) :
    (test b).isOk = true ↔ rej b = none := by
  cases ht : test b with
  | error e => simp [(h b e).mp ht, Except.isOk, Except.toBool]
  | ok a =>
      cases hr : rej b with
      | none => simp [Except.isOk, Except.toBool]
      | some e => simp [(h b e).mpr hr] at ht

theorem Decides.exists_ok_iff {α : Type} {test : Branch → Except Errno α}
    {rej : Branch → Option Errno} (h : Decides test rej) (b : Branch) :
    (∃ a, test b = .ok a) ↔ rej b = none := by
  rw [← h.isOk_iff b]
  cases ht : test b with
  | error e => simp [Except.isOk, Except.toBool]
  | ok a => simp [Except.isOk, Except.toBool]

theorem Decides.keyed {κ : Type} {test : Branch → Except Errno Info}
    {rej : Branch → Option Errno} (h : Decides test rej) (key : Info → κ) :
    Decides (Scan.candidate (Policy.keyed key test) noTest) rej := by
  intro b e
  rw [← h b e]
  cases ht : test b with
  | error e' => simp [Scan.candidate, Policy.keyed, ht, Except.map]
  | ok i => simp [Scan.candidate, Policy.keyed, ht, noTest, Except.map]

theorem decides_createTest (env : Probe) (fusepath : Path)
    (minfreespace : UInt64) :
    Decides (createTest env minfreespace)
      (createRejection env false fusepath minfreespace) := by
  intro b e
  cases hst : env.statvfsCache b.path with
  | none => by_cases hm : b.mode = .RO ∨ b.mode = .NC <;>
      simp [createTest, createRejection, Branch.roOrNc, Probe.info, hst, hm]
  | some st =>
      by_cases hm : b.mode = .RO ∨ b.mode = .NC
      · simp [createTest, createRejection, Branch.roOrNc, hm]
      · by_cases hro : st.readonly = true
        · simp [createTest, createRejection, Branch.roOrNc, Probe.info, hst,
            hm, hro]
        · by_cases hs : st.spaceavail < minfreespace <;>
            simp [createTest, createRejection, Branch.roOrNc, Probe.info, hst,
              hm, hro, hs]

theorem decides_epCreateTest (env : Probe) (fusepath : Path)
    (minfreespace : UInt64) :
    Decides (epCreateTest env fusepath minfreespace)
      (createRejection env true fusepath minfreespace) := by
  intro b e
  cases hp : env.existsStat b.path fusepath with
  | none => simp [epCreateTest, createRejection, hp]
  | some st =>
      have h := decides_createTest env fusepath minfreespace b e
      simpa [epCreateTest, createRejection, hp] using h

theorem decides_actionInfoTest (env : Probe) (fusepath : Path) :
    Decides (actionInfoTest env fusepath) (actionRejection env fusepath) := by
  intro b e
  cases hp : env.existsStat b.path fusepath with
  | none => simp [actionInfoTest, actionRejection, hp]
  | some st =>
      by_cases hm : b.mode = .RO
      · simp [actionInfoTest, actionRejection, Branch.ro, hp, hm]
      · cases hst : env.statvfsCache b.path with
        | none => simp [actionInfoTest, actionRejection, Branch.ro, Probe.info,
            hp, hm, hst]
        | some sv =>
            by_cases hro : sv.readonly = true <;>
              simp [actionInfoTest, actionRejection, Branch.ro, Probe.info, hp,
                hm, hst, hro]

theorem decides_actionTest (env : Probe) (fusepath : Path) :
    Decides (actionTest env fusepath) (actionRejection env fusepath) := by
  intro b e
  cases hp : env.existsStat b.path fusepath with
  | none => simp [actionTest, actionRejection, hp]
  | some st =>
      by_cases hm : b.mode = .RO
      · simp [actionTest, actionRejection, Branch.ro, hp, hm]
      · cases hst : env.statvfsCache b.path with
        | none => simp [actionTest, actionRejection, Branch.ro,
            Probe.statvfsCacheReadonly, hp, hm, hst]
        | some sv =>
            by_cases hro : sv.readonly = true <;>
              simp [actionTest, actionRejection, Branch.ro,
                Probe.statvfsCacheReadonly, hp, hm, hst, hro]

/-! ## What an accepted branch's status is -/

theorem info_of_createTest {env : Probe} {minfreespace : UInt64} {b : Branch}
    {info : Info} (h : createTest env minfreespace b = .ok info) :
    env.info b.path = some info := by
  unfold createTest at h
  split_ifs at h with hm
  cases hi : env.info b.path with
  | none => simp [hi] at h
  | some i =>
      simp only [hi] at h
      split_ifs at h
      simpa using h

theorem info_of_epCreateTest {env : Probe} {fusepath : Path}
    {minfreespace : UInt64} {b : Branch} {info : Info}
    (h : epCreateTest env fusepath minfreespace b = .ok info) :
    env.info b.path = some info := by
  unfold epCreateTest at h
  cases hp : env.existsStat b.path fusepath with
  | none => simp [hp] at h
  | some st =>
      simp only [hp] at h
      exact info_of_createTest h

theorem info_of_actionInfoTest {env : Probe} {fusepath : Path} {b : Branch}
    {info : Info} (h : actionInfoTest env fusepath b = .ok info) :
    env.info b.path = some info := by
  unfold actionInfoTest at h
  cases hp : env.existsStat b.path fusepath with
  | none => simp [hp] at h
  | some st =>
      simp only [hp] at h
      split_ifs at h with hm
      cases hi : env.info b.path with
      | none => simp [hi] at h
      | some i =>
          simp only [hi] at h
          split_ifs at h
          simpa using h

theorem decides_newestCreate (env : Probe) (fusepath : Path)
    (minfreespace : UInt64) :
    Decides (Scan.candidate (newestPre env fusepath Branch.roOrNc)
        (newestCreatePost env minfreespace))
      (createRejection env true fusepath minfreespace) := by
  intro b e
  rw [← decides_epCreateTest env fusepath minfreespace b e]
  cases hp : env.existsStat b.path fusepath with
  | none => simp [Scan.candidate, newestPre, epCreateTest, hp]
  | some st =>
      by_cases hm : b.roOrNc = true
      · simp [Scan.candidate, newestPre, epCreateTest, createTest, hp, hm]
      · cases hst : env.info b.path with
        | none => simp [Scan.candidate, newestPre, newestCreatePost,
            epCreateTest, createTest, hp, hm, hst]
        | some info =>
            by_cases hro : info.readonly = true
            · simp [Scan.candidate, newestPre, newestCreatePost, epCreateTest,
                createTest, hp, hm, hst, hro]
            · by_cases hs : info.spaceavail < minfreespace <;>
                simp [Scan.candidate, newestPre, newestCreatePost,
                  epCreateTest, createTest, hp, hm, hst, hro, hs]

theorem decides_newestAction (env : Probe) (fusepath : Path) :
    Decides (Scan.candidate (newestPre env fusepath Branch.ro)
        (newestActionPost env)) (actionRejection env fusepath) := by
  intro b e
  rw [← decides_actionTest env fusepath b e]
  cases hp : env.existsStat b.path fusepath with
  | none => simp [Scan.candidate, newestPre, actionTest, hp]
  | some st =>
      by_cases hm : b.ro = true
      · simp [Scan.candidate, newestPre, actionTest, hp, hm]
      · cases hst : env.statvfsCacheReadonly b.path with
        | none => simp [Scan.candidate, newestPre, newestActionPost,
            actionTest, hp, hm, hst]
        | some ro =>
            by_cases hro : ro = true <;>
              simp [Scan.candidate, newestPre, newestActionPost, actionTest,
                hp, hm, hst, hro]

end Policy

end Mergerfs
