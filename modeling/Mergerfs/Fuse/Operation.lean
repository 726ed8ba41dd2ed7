import Mergerfs.Fuse.Rename

/-!
# The path based operations

Fourteen operations find their branches through policies. Eight act on every
branch an action policy returns; `mkdir`, `mknod` and `symlink` clone the parent
directory to every branch a create policy returns and make the entry there, and
`create` does so on the first of them; `link` and `rename` have the two modes.

`handle` answers one request and `serve` a sequence of them.
-/

namespace Mergerfs

open Errno

/-- The loops of the operations: one call for each path, folded by
`error::calc`. -/
def callLoop (basepaths : List Path) (core : Path → Prog Rv) : Prog ℤ := do
  let error ← basepaths.foldlM (fun error basepath => do
    let rv ← core basepath
    pure (calcRv rv error)) (-1)
  pure (-error)

/-! ## The operations under an action policy -/

def actionOn (cfg : Config) (p : Policy) (fusepath : FusePath)
    (core : Path → Prog Rv) : Prog ℤ :=
  withPaths cfg p .action fusepath.path fun basepaths =>
    callLoop basepaths fun basepath => core (make basepath fusepath.path)

def chmod (cfg : Config) (fusepath : FusePath) (mode : UInt32) : Prog ℤ :=
  actionOn cfg cfg.chmod fusepath fun fullpath => sys (.chmod fullpath mode)

def chown (cfg : Config) (fusepath : FusePath) (uid gid : UInt32) : Prog ℤ :=
  actionOn cfg cfg.chown fusepath fun fullpath => sys (.lchown fullpath uid gid)

def rmdir (cfg : Config) (fusepath : FusePath) : Prog ℤ :=
  actionOn cfg cfg.rmdir fusepath fun fullpath => sys (.rmdir fullpath)

def truncate (cfg : Config) (fusepath : FusePath) (size : Int64) : Prog ℤ :=
  actionOn cfg cfg.truncate fusepath fun fullpath =>
    sys (.truncate fullpath size)

def unlink (cfg : Config) (fusepath : FusePath) : Prog ℤ :=
  actionOn cfg cfg.unlink fusepath fun fullpath => sys (.unlink fullpath)

def utimens (cfg : Config) (fusepath : FusePath) (ts : Timespec × Timespec) :
    Prog ℤ :=
  actionOn cfg cfg.utimens fusepath fun fullpath => sys (.lutime fullpath ts)

def removexattr (cfg : Config) (fusepath : FusePath) (attrname : List Char) :
    Prog ℤ :=
  if fusepath.path = cfg.controlfile then pure ENOATTR.neg
  else if cfg.xattr ≠ 0 then pure (-cfg.xattr)
  else actionOn cfg cfg.removexattr fusepath fun fullpath =>
    sys (.lremovexattr fullpath attrname)

def isAttrnameSecurityCapability (attrname : List Char) : Bool :=
  attrname == "security.capability".toList

def setxattr (cfg : Config) (fusepath : FusePath)
    (attrname attrval : List Char) (flags : UInt32) : Prog ℤ :=
  if fusepath.path = cfg.controlfile then
    sys (.setxattrControlfile attrname attrval flags)
  else if !cfg.securityCapability && isAttrnameSecurityCapability attrname then
    pure ENOATTR.neg
  else if cfg.xattr ≠ 0 then pure (-cfg.xattr)
  else actionOn cfg cfg.setxattr fusepath fun fullpath =>
    sys (.lsetxattr fullpath attrname attrval flags)

/-! ## The operations under a create policy -/

def dirHasDefaults (fullpath : Path) : Prog Bool := do
  let rv ← sys (.lgetxattr (dirname fullpath)
    "system.posix_acl_default".toList)
  pure rv.isOk

/-- The mode of a new entry: the umask applies unless the directory has
defaults of its own. -/
def maskedMode (fullpath : Path) (mode umask : UInt32) : Prog UInt32 := do
  let has ← dirHasDefaults fullpath
  pure (if has then mode else mode &&& ~~~umask)

def withCreatePaths (cfg : Config) (p : Policy) (fusepath : FusePath)
    (k : Path → List Path → Prog ℤ) : Prog ℤ :=
  withPaths cfg cfg.getattr .search (dirname fusepath.path) fun existingpaths =>
    withPaths cfg p .create (dirname fusepath.path) fun createpaths =>
      k (front existingpaths) createpaths

def cloneThen (existingpath createpath fusedirpath : Path)
    (core : Prog Rv) : Prog Rv := do
  let rv ← clonepathAsRoot existingpath createpath fusedirpath
  match rv with
  | .error e => pure (.error e)
  | .ok _ => core

def mkdir (cfg : Config) (fusepath : FusePath) (mode umask : UInt32) :
    Prog ℤ :=
  withCreatePaths cfg cfg.mkdir fusepath fun existingpath createpaths =>
    callLoop createpaths fun createpath =>
      cloneThen existingpath createpath (dirname fusepath.path) do
        let fullpath := make createpath fusepath.path
        let mode ← maskedMode fullpath mode umask
        sys (.mkdir fullpath mode)

def mknod (cfg : Config) (fusepath : FusePath) (mode umask : UInt32)
    (dev : UInt64) : Prog ℤ :=
  withCreatePaths cfg cfg.mknod fusepath fun existingpath createpaths =>
    callLoop createpaths fun createpath =>
      cloneThen existingpath createpath (dirname fusepath.path) do
        let fullpath := make createpath fusepath.path
        let mode ← maskedMode fullpath mode umask
        sys (.mknod fullpath mode dev)

def symlink (cfg : Config) (oldpath : Path) (newpath : FusePath) : Prog ℤ :=
  withCreatePaths cfg cfg.symlink newpath fun existingpath newbasepaths =>
    callLoop newbasepaths fun newbasepath =>
      cloneThen existingpath newbasepath (dirname newpath.path)
        (sys (.symlink oldpath (make newbasepath newpath.path)))

/-- `FUSE::create`, which uses the first path of the create policy only. The
descriptor it opens goes into the handle, which is not modelled here. -/
def create (cfg : Config) (fusepath : FusePath) (mode umask flags : UInt32) :
    Prog ℤ :=
  withCreatePaths cfg cfg.create fusepath fun existingpath createpaths => do
    let rv ← clonepathAsRoot existingpath (front createpaths)
      (dirname fusepath.path)
    match rv with
    | .error e => pure e.neg
    | .ok _ => do
        let fullpath := make (front createpaths) fusepath.path
        let mode ← maskedMode fullpath mode umask
        let rv ← sys (.openCreate fullpath flags mode)
        match rv with
        | .error e => pure e.neg
        | .ok _ => pure 0

/-! ## Links -/

/-- `l::link_create_path`: here the create policy is asked in the action
category and the link policy in the search category. -/
def linkCreatePath (cfg : Config) (oldfusepath newfusepath : FusePath) :
    Prog ℤ :=
  withPaths cfg cfg.create .action oldfusepath.path fun oldbasepaths =>
    withPaths cfg cfg.link .search (dirname newfusepath.path)
      fun newbasepaths =>
        callLoop oldbasepaths fun oldbasepath =>
          cloneThen (front newbasepaths) oldbasepath (dirname newfusepath.path)
            (sys (.link (make oldbasepath oldfusepath.path)
              (make oldbasepath newfusepath.path)))

/-- `l::clonepath_if_would_create`. The search appends to the vector the create
policy has filled. -/
def linkClonepathIfWouldCreate (cfg : Config) (oldbasepath : Path)
    (newfusepath : FusePath) : Prog Rv := do
  let newfusedirpath := dirname newfusepath.path
  let r ← ask cfg cfg.create .create newfusedirpath []
  match r.1 with
  | .error e => pure (.error e)
  | .ok _ =>
      if oldbasepath ≠ front r.2 then pure (.error EXDEV)
      else do
        let r ← ask cfg cfg.getattr .search newfusedirpath r.2
        match r.1 with
        | .error e => pure (.error e)
        | .ok _ => clonepathAsRoot (front r.2) oldbasepath newfusedirpath

def linkPreservePathCore (cfg : Config) (oldfusepath newfusepath : FusePath)
    (oldbasepath : Path) : Prog Rv := do
  let rv ← sys (.link (make oldbasepath oldfusepath.path)
    (make oldbasepath newfusepath.path))
  if rv = .error ENOENT then do
    let rv ← linkClonepathIfWouldCreate cfg oldbasepath newfusepath
    match rv with
    | .error e => pure (.error e)
    | .ok _ => sys (.link (make oldbasepath oldfusepath.path)
        (make oldbasepath newfusepath.path))
  else pure rv

def linkPreservePath (cfg : Config) (oldfusepath newfusepath : FusePath) :
    Prog ℤ :=
  withPaths cfg cfg.link .action oldfusepath.path fun oldbasepaths =>
    callLoop oldbasepaths (linkPreservePathCore cfg oldfusepath newfusepath)

def link (cfg : Config) (oldpath newpath : FusePath) : Prog ℤ :=
  if preservesPath cfg then linkPreservePath cfg oldpath newpath
  else linkCreatePath cfg oldpath newpath

/-! ## Requests -/

inductive Request where
  | chmod (fusepath : FusePath) (mode : UInt32)
  | chown (fusepath : FusePath) (uid gid : UInt32)
  | create (fusepath : FusePath) (mode umask flags : UInt32)
  | link (oldpath newpath : FusePath)
  | mkdir (fusepath : FusePath) (mode umask : UInt32)
  | mknod (fusepath : FusePath) (mode umask : UInt32) (dev : UInt64)
  | removexattr (fusepath : FusePath) (attrname : List Char)
  | rename (oldpath newpath : FusePath)
  | rmdir (fusepath : FusePath)
  | setxattr (fusepath : FusePath) (attrname attrval : List Char)
      (flags : UInt32)
  | symlink (oldpath : Path) (newpath : FusePath)
  | truncate (fusepath : FusePath) (size : Int64)
  | unlink (fusepath : FusePath)
  | utimens (fusepath : FusePath) (ts : Timespec × Timespec)

def handle (cfg : Config) : Request → Prog ℤ
  | .chmod fusepath mode => chmod cfg fusepath mode
  | .chown fusepath uid gid => chown cfg fusepath uid gid
  | .create fusepath mode umask flags => create cfg fusepath mode umask flags
  | .link oldpath newpath => link cfg oldpath newpath
  | .mkdir fusepath mode umask => mkdir cfg fusepath mode umask
  | .mknod fusepath mode umask dev => mknod cfg fusepath mode umask dev
  | .removexattr fusepath attrname => removexattr cfg fusepath attrname
  | .rename oldpath newpath => rename cfg oldpath newpath
  | .rmdir fusepath => rmdir cfg fusepath
  | .setxattr fusepath attrname attrval flags =>
      setxattr cfg fusepath attrname attrval flags
  | .symlink oldpath newpath => symlink cfg oldpath newpath
  | .truncate fusepath size => truncate cfg fusepath size
  | .unlink fusepath => unlink cfg fusepath
  | .utimens fusepath ts => utimens cfg fusepath ts

/-- A sequence of requests, each under the configuration of its moment, and what
they return. -/
def serve : List (Config × Request) → Prog (List ℤ)
  | [] => pure []
  | (cfg, req) :: rest => do
      let r ← handle cfg req
      let rs ← serve rest
      pure (r :: rs)

end Mergerfs
