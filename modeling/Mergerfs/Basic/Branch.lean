import Mergerfs.Basic.Errno
import Mergerfs.Basic.Path

/-!
# Branches and what is known of them

A pool is a list of branches, each a path with a mode. Of a branch a policy
learns what `lstat` answers for a path on it and what `statvfs` answers for the
branch itself; `Probe` collects these answers for one call of a policy, together
with the permutation `std::random_shuffle` applies.
-/

namespace Mergerfs

inductive Mode where
  | INVALID
  | RO
  | RW
  | NC
deriving DecidableEq

structure Branch where
  mode : Mode
  path : Path
deriving DecidableEq

abbrev Branches := List Branch

namespace Branch

def ro (b : Branch) : Bool := b.mode == .RO

def nc (b : Branch) : Bool := b.mode == .NC

def roOrNc (b : Branch) : Bool := b.mode == .RO || b.mode == .NC

end Branch

def toPaths (branches : Branches) : List Path := branches.map Branch.path

/-! ## Answers of the kernel -/

/-- The fields of `struct stat` the program reads. -/
structure Stat where
  st_dev : ℕ
  st_ino : ℕ
  st_size : ℕ
  st_mtime : Int64
deriving DecidableEq

structure StatVFS where
  f_frsize : UInt64
  f_blocks : UInt64
  f_bavail : UInt64
  f_flag : UInt64
deriving DecidableEq

namespace StatVFS

def ST_RDONLY : UInt64 := 1

def readonly (st : StatVFS) : Bool := st.f_flag &&& ST_RDONLY != 0

/-- The product wraps at 64 bits. -/
def spaceavail (st : StatVFS) : UInt64 := st.f_frsize * st.f_bavail

def spaceused (st : StatVFS) : UInt64 :=
  st.f_frsize * (st.f_blocks - st.f_bavail)

end StatVFS

structure Info where
  readonly : Bool
  spaceavail : UInt64
  spaceused : UInt64
deriving DecidableEq

/-- What one call of a policy can observe: the answers of `lstat` and of
`fs::statvfs_cache`, fixed for the call, and the order `std::random_shuffle`
leaves a list in. -/
structure Probe where
  lstat : Path → Option Stat
  statvfsCache : Path → Option StatVFS
  randomShuffle : List Path → List Path
  randomShuffle_perm : ∀ l, (randomShuffle l).Perm l

namespace Probe

def unshuffled (lstat : Path → Option Stat)
    (statvfsCache : Path → Option StatVFS) : Probe where
  lstat := lstat
  statvfsCache := statvfsCache
  randomShuffle := id
  randomShuffle_perm l := List.Perm.refl l

/-- `fs::exists` with the `struct stat` it fills. -/
def existsStat (env : Probe) (basepath relpath : Path) : Option Stat :=
  env.lstat (make basepath relpath)

def info (env : Probe) (path : Path) : Option Info :=
  (env.statvfsCache path).map fun st =>
    { readonly := st.readonly
      spaceavail := st.spaceavail
      spaceused := st.spaceused }

def statvfsCacheReadonly (env : Probe) (path : Path) : Option Bool :=
  (env.statvfsCache path).map StatVFS.readonly

def statvfsCacheSpaceavail (env : Probe) (path : Path) : Option UInt64 :=
  (env.statvfsCache path).map StatVFS.spaceavail

def statvfsCacheSpaceused (env : Probe) (path : Path) : Option UInt64 :=
  (env.statvfsCache path).map StatVFS.spaceused

end Probe

end Mergerfs
