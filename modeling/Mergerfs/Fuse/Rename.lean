import Mergerfs.Fuse.Call

/-!
# Renaming

`FUSE::rename` in its two modes. The mode that creates paths clones the target's
directory to every branch the rename policy selects and renames there. The mode
that preserves paths renames first, and clones the directory only when the create
policy would have put the target on the same branch. Both fold the results of the
branches into one error and, when it is zero, remove what the rename left behind.

The state of a loop is the folded error and the list of paths to remove. A local
variable that is not assigned on some way through the code has its initial value
there: `oldfullpath` is empty when cloning failed.
-/

namespace Mergerfs

open Errno

/-- The variables `error` and `toremove` of the loops. -/
abbrev RenameState := ℤ × List Path

/-- `_remove`. -/
def removeAll (toremove : List Path) : Prog Unit :=
  toremove.foldlM (fun _ path => do
    let _ ← sys (.remove path)
    pure ()) ()

/-! ## The mode that creates paths -/

def cloneAndRename (oldbasepath newbasepath : Path)
    (oldfusepath newfusepath : FusePath) (newfusedirpath : Path) :
    Prog (Rv × Path) := do
  let rv ← clonepathAsRoot newbasepath oldbasepath newfusedirpath
  match rv with
  | .error e => pure (.error e, [])
  | .ok _ => do
      let rv ← sys (.rename (make oldbasepath oldfusepath.path)
        (make oldbasepath newfusepath.path))
      pure (rv, make oldbasepath oldfusepath.path)

def renameCreatePathCore (oldbasepaths : List Path) (newbasepath : Path)
    (oldfusepath newfusepath : FusePath) (newfusedirpath : Path)
    (s : RenameState) (branch : Branch) : Prog RenameState :=
  if member oldbasepaths branch.path then do
    let (rv, oldfullpath) ← cloneAndRename branch.path newbasepath oldfusepath
      newfusepath newfusedirpath
    match rv with
    | .ok _ => pure (calcRv rv s.1, s.2)
    | .error _ => pure (calcRv rv s.1, s.2 ++ [oldfullpath])
  else
    pure (s.1, s.2 ++ [make branch.path newfusepath.path])

def finishRename (s : RenameState) : Prog ℤ := do
  removeAll (if s.1 = 0 then s.2 else [])
  pure (-s.1)

def renameCreatePath (cfg : Config) (oldfusepath newfusepath : FusePath) :
    Prog ℤ :=
  withPaths cfg cfg.rename .action oldfusepath.path fun oldbasepaths =>
    withPaths cfg cfg.getattr .search (dirname newfusepath.path)
      fun newbasepath => do
        let s ← cfg.branches.foldlM
          (renameCreatePathCore oldbasepaths (front newbasepath) oldfusepath
            newfusepath (dirname newfusepath.path)) (-1, [])
        finishRename s

/-! ## The mode that preserves paths -/

/-- `_clonepath`: `0`, or `-errno` when the search fails. What cloning returns is
not looked at. -/
def clonepathFromSearch (cfg : Config) (dstbasepath fusedirpath : Path) :
    Prog (ℤ × ℤ) := do
  let (rv, srcbasepath) ← ask cfg cfg.getattr .search fusedirpath []
  match rv with
  | .error e => pure (e.neg, e.val)
  | .ok _ => do
      let _ ← clonepathAsRoot (front srcbasepath) dstbasepath fusedirpath
      pure (0, 0)

/-- `_clonepath_if_would_create`, with the value of `errno` it leaves: `-1` when
the create policy fails or picks another branch, else the value of
`_clonepath`. -/
def clonepathIfWouldCreate (cfg : Config) (oldbasepath : Path)
    (newfusepath : FusePath) : Prog (ℤ × ℤ) := do
  let newfusedirpath := dirname newfusepath.path
  let (rv, newbasepath) ← ask cfg cfg.create .create newfusedirpath []
  match rv with
  | .error e => pure (-1, e.val)
  | .ok _ =>
      if oldbasepath = front newbasepath then
        clonepathFromSearch cfg oldbasepath newfusedirpath
      else pure (-1, EXDEV.val)

def rvErrno : Rv → ℤ × ℤ
  | .ok _ => (0, 0)
  | .error e => (-1, e.val)

def renameOrClone (cfg : Config) (oldbasepath : Path)
    (oldfusepath newfusepath : FusePath) : Prog (ℤ × ℤ) := do
  let rv ← sys (.rename (make oldbasepath oldfusepath.path)
    (make oldbasepath newfusepath.path))
  if rv = .error ENOENT then do
    let r ← clonepathIfWouldCreate cfg oldbasepath newfusepath
    if r.1 = 0 then do
      let rv ← sys (.rename (make oldbasepath oldfusepath.path)
        (make oldbasepath newfusepath.path))
      pure (rvErrno rv)
    else pure r
  else pure (rvErrno rv)

def renamePreservePathCore (cfg : Config) (oldbasepaths : List Path)
    (oldfusepath newfusepath : FusePath) (s : RenameState) (branch : Branch) :
    Prog RenameState :=
  if member oldbasepaths branch.path then do
    let r ← renameOrClone cfg branch.path oldfusepath newfusepath
    pure (errorCalc r.1 s.1 r.2,
      if r.1 = -1 then s.2 ++ [make branch.path oldfusepath.path] else s.2)
  else
    pure (s.1, s.2 ++ [make branch.path newfusepath.path])

def renamePreservePath (cfg : Config) (oldfusepath newfusepath : FusePath) :
    Prog ℤ :=
  withPaths cfg cfg.rename .action oldfusepath.path fun oldbasepaths => do
    let s ← cfg.branches.foldlM
      (renamePreservePathCore cfg oldbasepaths oldfusepath newfusepath)
      (-1, [])
    finishRename s

def preservesPath (cfg : Config) : Bool :=
  cfg.create.pathPreserving && !cfg.ignorepponrename

def rename (cfg : Config) (oldpath newpath : FusePath) : Prog ℤ :=
  if preservesPath cfg then renamePreservePath cfg oldpath newpath
  else renameCreatePath cfg oldpath newpath

end Mergerfs
