import Mergerfs.Library.Scan
import Mergerfs.Basic.Branch

/-!
# The policies

A policy is called in one of three categories on a branch list, a path and
`minfreespace`; it appends the paths of the branches it picks to the vector it is
given and returns `0`, or returns `-1` with `errno` set. The loops of the policies
are the three scans of `Scan` under different tests: `all` and `epall` keep every
branch that passes, `ff` and `epff` stop at the first one, the others keep a
running optimum with its own seed and its own comparison.

The tests of a loop are written once for the policies that share them, in the
order the loop makes them. `newest` compares before it asks for the file system's
status, so its tests come in two parts.
-/

namespace Mergerfs

open Errno

inductive Category where
  | action
  | create
  | search
deriving DecidableEq

inductive Policy where
  | invalid
  | all
  | epall
  | epff
  | eplfs
  | eplus
  | epmfs
  | eprand
  | erofs
  | ff
  | lfs
  | lus
  | mfs
  | newest
  | rand
deriving DecidableEq

namespace Policy

abbrev Result := Rv × List Path

/-! ## The tests of the loops -/

def createTest (env : Probe) (minfreespace : UInt64) (b : Branch) :
    Except Errno Info :=
  if b.roOrNc then .error EROFS
  else match env.info b.path with
    | none => .error ENOENT
    | some info =>
        if info.readonly then .error EROFS
        else if info.spaceavail < minfreespace then .error ENOSPC
        else .ok info

def epCreateTest (env : Probe) (fusepath : Path) (minfreespace : UInt64)
    (b : Branch) : Except Errno Info :=
  match env.existsStat b.path fusepath with
  | none => .error ENOENT
  | some _ => createTest env minfreespace b

/-- The tests of the action loops of `epall` and `epff`. -/
def actionTest (env : Probe) (fusepath : Path) (b : Branch) :
    Except Errno Unit :=
  match env.existsStat b.path fusepath with
  | none => .error ENOENT
  | some _ =>
      if b.ro then .error EROFS
      else match env.statvfsCacheReadonly b.path with
        | none => .error ENOENT
        | some readonly => if readonly then .error EROFS else .ok ()

/-- The tests of the action loops of `eplfs`, `eplus` and `epmfs`. -/
def actionInfoTest (env : Probe) (fusepath : Path) (b : Branch) :
    Except Errno Info :=
  match env.existsStat b.path fusepath with
  | none => .error ENOENT
  | some _ =>
      if b.ro then .error EROFS
      else match env.info b.path with
        | none => .error ENOENT
        | some info => if info.readonly then .error EROFS else .ok info

/-- The test of the search loops of `epall` and `epff`. A search loop passes a
branch over without recording why and fails with `ENOENT`, which is what
recording `ENOENT` for each branch comes to. -/
def searchTest (env : Probe) (fusepath : Path) (b : Branch) :
    Except Errno Stat :=
  match env.existsStat b.path fusepath with
  | none => .error ENOENT
  | some st => .ok st

def searchSpaceTest (space : Path → Option UInt64) (env : Probe)
    (fusepath : Path) (b : Branch) : Except Errno UInt64 :=
  match env.existsStat b.path fusepath with
  | none => .error ENOENT
  | some _ => match space b.path with
    | none => .error ENOENT
    | some n => .ok n

/-! ## The comparisons of the loops -/

/-- `if(info.spaceavail > lfs) continue;` -/
def least : Scan.Ranking UInt64 where
  atLeast k k' := k ≤ k'
  skip k best := decide (k > best)
  refl := UInt64.le_refl
  trans := UInt64.le_trans
  of_skip h := by
    rw [decide_eq_true_iff] at h
    exact UInt64.le_of_lt h
  of_keep h := by
    rw [decide_eq_false_iff_not] at h
    exact UInt64.not_lt.mp h

/-- `if(info.spaceused >= lus) continue;` -/
def leastStrict : Scan.Ranking UInt64 where
  atLeast k k' := k ≤ k'
  skip k best := decide (k ≥ best)
  refl := UInt64.le_refl
  trans := UInt64.le_trans
  of_skip h := by
    rw [decide_eq_true_iff] at h
    exact h
  of_keep h := by
    rw [decide_eq_false_iff_not] at h
    exact UInt64.le_of_lt (UInt64.not_le.mp h)

/-- `if(info.spaceavail < mfs) continue;` -/
def most : Scan.Ranking UInt64 where
  atLeast k k' := k' ≤ k
  skip k best := decide (k < best)
  refl := UInt64.le_refl
  trans hab hbc := UInt64.le_trans hbc hab
  of_skip h := by
    rw [decide_eq_true_iff] at h
    exact UInt64.le_of_lt h
  of_keep h := by
    rw [decide_eq_false_iff_not] at h
    exact UInt64.not_lt.mp h

/-- `if(st.st_mtime < newest) continue;` -/
def latest : Scan.Ranking Int64 where
  atLeast k k' := k' ≤ k
  skip k best := decide (k < best)
  refl := Int64.le_refl
  trans hab hbc := Int64.le_trans hbc hab
  of_skip h := by
    rw [decide_eq_true_iff] at h
    exact Int64.le_of_lt h
  of_keep h := by
    rw [decide_eq_false_iff_not] at h
    exact Int64.not_lt.mp h

def maxUInt64 : UInt64 := 18446744073709551615

/-! ## The three loops -/

/-- The loop that appends every branch that passes, and its final test of the
whole vector. -/
def pushAll {α : Type} (test : Branch → Except Errno α) (branches : Branches)
    (paths : List Path) : Result :=
  let r := Scan.collect calcError test (ENOENT, []) branches
  let paths' := paths ++ toPaths r.2
  if paths'.isEmpty then (.error r.1, paths') else (.ok (), paths')

def pushOne (chosen : Except Errno Branch) (paths : List Path) : Result :=
  match chosen with
  | .error e => (.error e, paths)
  | .ok b => (.ok (), paths ++ [b.path])

def pushFirst {α : Type} (test : Branch → Except Errno α) (branches : Branches)
    (paths : List Path) : Result :=
  pushOne (Scan.first calcError test ENOENT branches) paths

def bestBranch {κ : Type} (r : Scan.Ranking κ) (seed : κ)
    (pre : Branch → Except Errno κ) (post : Branch → Except Errno Unit)
    (branches : Branches) : Except Errno Branch :=
  let s := Scan.best calcError r pre post ⟨ENOENT, seed, none⟩ branches
  match s.chosen with
  | none => .error s.error
  | some b => .ok b

def pushBest {κ : Type} (r : Scan.Ranking κ) (seed : κ)
    (pre : Branch → Except Errno κ) (post : Branch → Except Errno Unit)
    (branches : Branches) (paths : List Path) : Result :=
  pushOne (bestBranch r seed pre post branches) paths

def keyed {κ : Type} (key : Info → κ) (test : Branch → Except Errno Info)
    (b : Branch) : Except Errno κ :=
  (test b).map key

def noTest (_ : Branch) : Except Errno Unit := .ok ()

/-! ## The functions of each policy -/

section Functions

variable (env : Probe) (branches : Branches) (fusepath : Path)
  (minfreespace : UInt64) (paths : List Path)

def allCreate : Result :=
  pushAll (createTest env minfreespace) branches paths

def epallCreate : Result :=
  pushAll (epCreateTest env fusepath minfreespace) branches paths

def epallAction : Result :=
  pushAll (actionTest env fusepath) branches paths

def epallSearch : Result :=
  pushAll (searchTest env fusepath) branches paths

def ffCreate : Result :=
  pushFirst (createTest env minfreespace) branches paths

def epffCreate : Result :=
  pushFirst (epCreateTest env fusepath minfreespace) branches paths

def epffAction : Result :=
  pushFirst (actionTest env fusepath) branches paths

def epffSearch : Result :=
  pushFirst (searchTest env fusepath) branches paths

def lfsCreate : Result :=
  pushBest least maxUInt64
    (keyed Info.spaceavail (createTest env minfreespace)) noTest branches paths

def eplfsCreate : Result :=
  pushBest least maxUInt64
    (keyed Info.spaceavail (epCreateTest env fusepath minfreespace)) noTest
    branches paths

def eplfsAction : Result :=
  pushBest least maxUInt64
    (keyed Info.spaceavail (actionInfoTest env fusepath)) noTest branches paths

def eplfsSearch : Result :=
  pushBest least maxUInt64
    (searchSpaceTest env.statvfsCacheSpaceavail env fusepath) noTest
    branches paths

def lusCreate : Result :=
  pushBest leastStrict maxUInt64
    (keyed Info.spaceused (createTest env minfreespace)) noTest branches paths

def eplusCreate : Result :=
  pushBest leastStrict maxUInt64
    (keyed Info.spaceused (epCreateTest env fusepath minfreespace)) noTest
    branches paths

def eplusAction : Result :=
  pushBest leastStrict maxUInt64
    (keyed Info.spaceused (actionInfoTest env fusepath)) noTest branches paths

/-- The seed of this loop is `0`, unlike that of the other two. -/
def eplusSearch : Result :=
  pushBest leastStrict 0
    (searchSpaceTest env.statvfsCacheSpaceused env fusepath) noTest
    branches paths

def mfsCreate : Result :=
  pushBest most 0
    (keyed Info.spaceavail (createTest env minfreespace)) noTest branches paths

def epmfsCreate : Result :=
  pushBest most 0
    (keyed Info.spaceavail (epCreateTest env fusepath minfreespace)) noTest
    branches paths

def epmfsAction : Result :=
  pushBest most 0
    (keyed Info.spaceavail (actionInfoTest env fusepath)) noTest branches paths

def epmfsSearch : Result :=
  pushBest most 0
    (searchSpaceTest env.statvfsCacheSpaceavail env fusepath) noTest
    branches paths

/-- The tests `newest` makes before it compares: the path and the mode of the
branch, which is `ro_or_nc()` for create and `ro()` for action. -/
def newestPre (excluded : Branch → Bool) (b : Branch) : Except Errno Int64 :=
  match env.existsStat b.path fusepath with
  | none => .error ENOENT
  | some st => if excluded b then .error EROFS else .ok st.st_mtime

def newestCreatePost (b : Branch) : Except Errno Unit :=
  match env.info b.path with
  | none => .error ENOENT
  | some info =>
      if info.readonly then .error EROFS
      else if info.spaceavail < minfreespace then .error ENOSPC
      else .ok ()

def newestActionPost (b : Branch) : Except Errno Unit :=
  match env.statvfsCacheReadonly b.path with
  | none => .error ENOENT
  | some readonly => if readonly then .error EROFS else .ok ()

def newestCreate : Result :=
  pushBest latest Int64.minValue (newestPre env fusepath Branch.roOrNc)
    (newestCreatePost env minfreespace) branches paths

def newestAction : Result :=
  pushBest latest Int64.minValue (newestPre env fusepath Branch.ro)
    (newestActionPost env) branches paths

def newestSearch : Result :=
  pushBest latest Int64.minValue
    (newestPre env fusepath fun _ => false) noTest branches paths

end Functions

/-! ## Dispatch on the category -/

/-- `std::random_shuffle` of the whole vector, on success. -/
def shuffled (env : Probe) (r : Result) : Result :=
  match r.1 with
  | .ok _ => (r.1, env.randomShuffle r.2)
  | .error _ => r

section Dispatch

variable (env : Probe) (type : Category) (branches : Branches)
  (fusepath : Path) (minfreespace : UInt64) (paths : List Path)

def epallFunc : Result :=
  match type with
  | .create => epallCreate env branches fusepath minfreespace paths
  | .action => epallAction env branches fusepath paths
  | .search => epallSearch env branches fusepath paths

def epffFunc : Result :=
  match type with
  | .create => epffCreate env branches fusepath minfreespace paths
  | .action => epffAction env branches fusepath paths
  | .search => epffSearch env branches fusepath paths

def eplfsFunc : Result :=
  match type with
  | .create => eplfsCreate env branches fusepath minfreespace paths
  | .action => eplfsAction env branches fusepath paths
  | .search => eplfsSearch env branches fusepath paths

def eplusFunc : Result :=
  match type with
  | .create => eplusCreate env branches fusepath minfreespace paths
  | .action => eplusAction env branches fusepath paths
  | .search => eplusSearch env branches fusepath paths

def epmfsFunc : Result :=
  match type with
  | .create => epmfsCreate env branches fusepath minfreespace paths
  | .action => epmfsAction env branches fusepath paths
  | .search => epmfsSearch env branches fusepath paths

def newestFunc : Result :=
  match type with
  | .create => newestCreate env branches fusepath minfreespace paths
  | .action => newestAction env branches fusepath paths
  | .search => newestSearch env branches fusepath paths

def allFunc : Result :=
  match type with
  | .create => allCreate env branches minfreespace paths
  | type => epallFunc env type branches fusepath minfreespace paths

def ffFunc : Result :=
  match type with
  | .create => ffCreate env branches minfreespace paths
  | type => epffFunc env type branches fusepath minfreespace paths

def lfsFunc : Result :=
  match type with
  | .create => lfsCreate env branches minfreespace paths
  | type => eplfsFunc env type branches fusepath minfreespace paths

def lusFunc : Result :=
  match type with
  | .create => lusCreate env branches minfreespace paths
  | type => eplusFunc env type branches fusepath minfreespace paths

def mfsFunc : Result :=
  match type with
  | .create => mfsCreate env branches minfreespace paths
  | type => epmfsFunc env type branches fusepath minfreespace paths

def randFunc : Result :=
  shuffled env (allFunc env type branches fusepath minfreespace paths)

def eprandFunc : Result :=
  shuffled env (epallFunc env type branches fusepath minfreespace paths)

def func (p : Policy) : Result :=
  match p with
  | .invalid => (.error EINVAL, paths)
  | .all => allFunc env type branches fusepath minfreespace paths
  | .epall => epallFunc env type branches fusepath minfreespace paths
  | .epff => epffFunc env type branches fusepath minfreespace paths
  | .eplfs => eplfsFunc env type branches fusepath minfreespace paths
  | .eplus => eplusFunc env type branches fusepath minfreespace paths
  | .epmfs => epmfsFunc env type branches fusepath minfreespace paths
  | .eprand => eprandFunc env type branches fusepath minfreespace paths
  | .erofs => (.error EROFS, paths)
  | .ff => ffFunc env type branches fusepath minfreespace paths
  | .lfs => lfsFunc env type branches fusepath minfreespace paths
  | .lus => lusFunc env type branches fusepath minfreespace paths
  | .mfs => mfsFunc env type branches fusepath minfreespace paths
  | .newest => newestFunc env type branches fusepath minfreespace paths
  | .rand => randFunc env type branches fusepath minfreespace paths

end Dispatch

def pathPreserving : Policy → Bool
  | .epall | .epff | .eplfs | .eplus | .epmfs | .eprand => true
  | _ => false

end Policy

end Mergerfs
