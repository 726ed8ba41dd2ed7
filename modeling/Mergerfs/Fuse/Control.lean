import Mathlib.Data.List.Destutter
import Mathlib.Data.List.Sort
import Mergerfs.Basic.Num
import Mergerfs.Fs.Copy
import Mergerfs.Fuse.Call
import Mergerfs.Fuse.Srcmounts
import Mergerfs.Policy.Cache

/-!
# The control file

The configuration of a mounted file system is read by `getxattr` and changed by
`setxattr` of the control file. Both take the name of the attribute apart at its dots
and go through the keys they know; `setxattr` never looks at the first two parts.

`Settings` is what the keys read and change: the members of `Config`, the timeouts
`libfuse` keeps, and that of the cache of `statvfs`. The entries of the cache of the
open policy are no setting, but some changes drop them. A `double` is its bits: how one
is read from a string and printed is up to the system.
-/

namespace Mergerfs

open Errno

/-! ## Names -/

inductive FuseFunc where
  | access
  | chmod
  | chown
  | create
  | getattr
  | getxattr
  | link
  | listxattr
  | mkdir
  | mknod
  | open
  | readlink
  | removexattr
  | rename
  | rmdir
  | setxattr
  | symlink
  | truncate
  | unlink
  | utimens
deriving DecidableEq

namespace FuseFunc

def fusefuncs : List FuseFunc :=
  [access, chmod, chown, create, getattr, getxattr, link, listxattr, mkdir, mknod,
    .open, readlink, removexattr, rename, rmdir, setxattr, symlink, truncate, unlink,
    utimens]

def str : FuseFunc → List Char
  | access => "access".toList
  | chmod => "chmod".toList
  | chown => "chown".toList
  | create => "create".toList
  | getattr => "getattr".toList
  | getxattr => "getxattr".toList
  | link => "link".toList
  | listxattr => "listxattr".toList
  | mkdir => "mkdir".toList
  | mknod => "mknod".toList
  | .open => "open".toList
  | readlink => "readlink".toList
  | removexattr => "removexattr".toList
  | rename => "rename".toList
  | rmdir => "rmdir".toList
  | setxattr => "setxattr".toList
  | symlink => "symlink".toList
  | truncate => "truncate".toList
  | unlink => "unlink".toList
  | utimens => "utimens".toList

def category : FuseFunc → Category
  | access | getattr | getxattr | listxattr | .open | readlink => .search
  | create | mkdir | mknod | symlink => .create
  | chmod | chown | link | removexattr | rename | rmdir | setxattr | truncate | unlink
  | utimens => .action

def find : List Char → Option FuseFunc := findStr str fusefuncs

end FuseFunc

namespace Category

def categories : List Category := [action, create, search]

def str : Category → List Char
  | action => "action".toList
  | create => "create".toList
  | search => "search".toList

def find : List Char → Option Category := findStr str categories

end Category

namespace Policy

def policies : List Policy :=
  [all, epall, epff, eplfs, eplus, epmfs, eprand, erofs, ff, lfs, lus, mfs, newest,
    rand]

def str : Policy → List Char
  | invalid => "invalid".toList
  | all => "all".toList
  | epall => "epall".toList
  | epff => "epff".toList
  | eplfs => "eplfs".toList
  | eplus => "eplus".toList
  | epmfs => "epmfs".toList
  | eprand => "eprand".toList
  | erofs => "erofs".toList
  | ff => "ff".toList
  | lfs => "lfs".toList
  | lus => "lus".toList
  | mfs => "mfs".toList
  | newest => "newest".toList
  | rand => "rand".toList

def find : List Char → Option Policy := findStr str policies

end Policy

/-! ## The settings -/

inductive StatFS where
  | BASE
  | FULL
deriving DecidableEq

inductive StatFSIgnore where
  | NONE
  | RO
  | NC
deriving DecidableEq

/-- The bits of a `double`. -/
structure Double where
  bits : UInt64
deriving DecidableEq

structure Settings where
  branches : Branches
  minfreespace : UInt64
  moveonenospc : Bool
  directIo : Bool
  dropcacheonclose : Bool
  symlinkify : Bool
  symlinkifyTimeout : ℤ
  nullrw : Bool
  ignorepponrename : Bool
  securityCapability : Bool
  linkCow : Bool
  /-- `0`, or the error number every xattr call is refused with. -/
  xattr : ℤ
  statfs : StatFS
  statfsIgnore : StatFSIgnore
  policies : FuseFunc → Policy
  /-- `open_cache.timeout`. -/
  openTimeout : UInt64
  /-- `fs::statvfs_cache_timeout`. -/
  statvfsTimeout : UInt64
  attrTimeout : Double
  entryTimeout : Double
  negativeTimeout : Double

structure Control where
  settings : Settings
  openCache : PolicyCache

structure ControlEnv extends PathEnv where
  /-- `strtod(str,&endptr)`: the number, and the string at `endptr`. -/
  strtod : List Char → Double × List Char
  /-- `os << d`. -/
  showDouble : Double → List Char
  /-- `MERGERFS_VERSION`. -/
  version : List Char
  pid : ℕ

def Settings.setFuncPolicy (s : Settings) (fusefunc policy : List Char) :
    Except Errno Settings :=
  match FuseFunc.find fusefunc with
  | none => .error ENODATA
  | some f =>
      match Policy.find policy with
      | none => .error EINVAL
      | some p => .ok { s with policies := Function.update s.policies f p }

/-- The loop of `Config::set_category_policy` over the table of functions. -/
def setPolicies (cat : Category) (p : Policy) (policies : FuseFunc → Policy) :
    FuseFunc → Policy :=
  FuseFunc.fusefuncs.foldl (fun policies f =>
    if f.category = cat then Function.update policies f p else policies) policies

def Settings.setCategoryPolicy (s : Settings) (category policy : List Char) :
    Except Errno Settings :=
  match Category.find category with
  | none => .error ENODATA
  | some c =>
      match Policy.find policy with
      | none => .error EINVAL
      | some p => .ok { s with policies := setPolicies c p s.policies }

/-- What `Config::Config()` and `libfuse` leave, with the branches given. -/
def Settings.initial (branches : Branches) : Settings where
  branches := branches
  minfreespace := 4294967295
  moveonenospc := false
  directIo := false
  dropcacheonclose := false
  symlinkify := false
  symlinkifyTimeout := 3600
  nullrw := false
  ignorepponrename := false
  securityCapability := true
  linkCow := false
  xattr := 0
  statfs := .BASE
  statfsIgnore := .NONE
  policies := fun f => match f.category with
    | .action => .epall
    | .create => .epmfs
    | .search => .ff
  openTimeout := 0
  statvfsTimeout := 0
  attrTimeout := ⟨0x3ff0000000000000⟩
  entryTimeout := ⟨0x3ff0000000000000⟩
  negativeTimeout := ⟨0⟩

def Settings.toConfig (s : Settings) : Config where
  branches := s.branches
  minfreespace := s.minfreespace
  moveonenospc := s.moveonenospc
  ignorepponrename := s.ignorepponrename
  securityCapability := s.securityCapability
  xattr := s.xattr
  controlfile := "/.mergerfs".toList
  chmod := s.policies .chmod
  chown := s.policies .chown
  create := s.policies .create
  getattr := s.policies .getattr
  link := s.policies .link
  mkdir := s.policies .mkdir
  mknod := s.policies .mknod
  removexattr := s.policies .removexattr
  rename := s.policies .rename
  rmdir := s.policies .rmdir
  setxattr := s.policies .setxattr
  symlink := s.policies .symlink
  truncate := s.policies .truncate
  unlink := s.policies .unlink
  utimens := s.policies .utimens

theorem Settings.toConfig_initial (branches : Branches) :
    (initial branches).toConfig = Config.initial branches := by
  simp [toConfig, initial, Config.initial, FuseFunc.category]

/-! ## Changing a setting -/

/-- The helpers that parse a value and store it: what they return, and what the
variable holds then. -/
def setxattrValue {α : Type*} (parse : List Char → Option α) (attrval : List Char)
    (flags : UInt32) (value : α) : ℤ × α :=
  if flags &&& XATTR_CREATE = XATTR_CREATE then (EEXIST.neg, value)
  else match parse attrval with
    | none => (EINVAL.neg, value)
    | some v => (0, v)

def toDouble (env : ControlEnv) (str : List Char) : Option Double :=
  if (env.strtod str).2 ≠ [] then none else some (env.strtod str).1

def parseBool (attrval : List Char) : Option Bool :=
  if attrval = "false".toList then some false
  else if attrval = "true".toList then some true
  else none

def parseStatfs (attrval : List Char) : Option StatFS :=
  if attrval = "base".toList then some .BASE
  else if attrval = "full".toList then some .FULL
  else none

def parseStatfsignore (attrval : List Char) : Option StatFSIgnore :=
  if attrval = "none".toList then some .NONE
  else if attrval = "ro".toList then some .RO
  else if attrval = "nc".toList then some .NC
  else none

def setxattrUint64T := setxattrValue toUint64T
def setxattrDouble (env : ControlEnv) := setxattrValue (toDouble env)
def setxattrTimeT := setxattrValue toTimeT
def setxattrBool := setxattrValue parseBool
def setxattrStatfs := setxattrValue parseStatfs
def setxattrStatfsignore := setxattrValue parseStatfsignore

/-- `l::setxattr_xattr`, which has the variable by value: what it assigns to `xattr_` is
gone when it returns. -/
def setxattrXattr (attrval : List Char) (flags : UInt32) (_xattr : ℤ) : ℤ :=
  if flags &&& XATTR_CREATE = XATTR_CREATE then EEXIST.neg
  else if attrval = "passthrough".toList then 0
  else if attrval = "noattr".toList then 0
  else if attrval = "nosys".toList then 0
  else EINVAL.neg

/-- The helpers that set policies by the name of a function or of a category. For the
name `clearing` the cache is dropped, before anything is known of the policy. -/
def setxattrControlfilePolicy (clearing : List Char)
    (set : Settings → List Char → List Char → Except Errno Settings) (c : Control)
    (name attrval : List Char) (flags : UInt32) : ℤ × Control :=
  if flags &&& XATTR_CREATE = XATTR_CREATE then (EEXIST.neg, c)
  else
    let c' := if name = clearing then
      { c with openCache := c.openCache.clear } else c
    match set c'.settings name attrval with
    | .error e => (e.neg, c')
    | .ok s => (0, { c' with settings := s })

def setxattrControlfileFuncPolicy :=
  setxattrControlfilePolicy "open".toList Settings.setFuncPolicy

def setxattrControlfileCategoryPolicy :=
  setxattrControlfilePolicy "search".toList Settings.setCategoryPolicy

/-- The helpers that parse into a variable of their own, which holds anything before,
and hand it on if that went well. -/
def setxattrVia {α : Type*} (r : ℤ × α) (old : α) : ℤ × α :=
  (r.1, if 0 ≤ r.1 then r.2 else old)

def setxattrStatfsTimeout (attrval : List Char) (flags : UInt32) (old : UInt64) :
    ℤ × UInt64 :=
  setxattrVia (setxattrUint64T attrval flags 0) old

/-- `l::setxattr_controlfile_cache_attr`, and its like for the other two timeouts of
`libfuse`. -/
def setxattrControlfileCacheTimeout (env : ControlEnv) (attrval : List Char)
    (flags : UInt32) (old : Double) : ℤ × Double :=
  setxattrVia (setxattrDouble env attrval flags ⟨0⟩) old

def Control.assign {α : Type*} (c : Control) (r : ℤ × α)
    (store : Settings → α → Settings) : ℤ × Control :=
  (r.1, { c with settings := store c.settings r.2 })

def setxattrControlfile (env : ControlEnv) (c : Control) (attrname attrval : List Char)
    (flags : UInt32) : ℤ × Control :=
  let s := c.settings
  match split '.' attrname with
  | [_, _, attr2] =>
      if attr2 = "srcmounts".toList then
        c.assign (setxattrSrcmounts env.toPathEnv attrval flags s.branches)
          fun s v => { s with branches := v }
      else if attr2 = "branches".toList then
        c.assign (setxattrSrcmounts env.toPathEnv attrval flags s.branches)
          fun s v => { s with branches := v }
      else if attr2 = "minfreespace".toList then
        c.assign (setxattrUint64T attrval flags s.minfreespace)
          fun s v => { s with minfreespace := v }
      else if attr2 = "moveonenospc".toList then
        c.assign (setxattrBool attrval flags s.moveonenospc)
          fun s v => { s with moveonenospc := v }
      else if attr2 = "dropcacheonclose".toList then
        c.assign (setxattrBool attrval flags s.dropcacheonclose)
          fun s v => { s with dropcacheonclose := v }
      else if attr2 = "symlinkify".toList then
        c.assign (setxattrBool attrval flags s.symlinkify)
          fun s v => { s with symlinkify := v }
      else if attr2 = "symlinkify_timeout".toList then
        c.assign (setxattrTimeT attrval flags s.symlinkifyTimeout)
          fun s v => { s with symlinkifyTimeout := v }
      else if attr2 = "ignorepponrename".toList then
        c.assign (setxattrBool attrval flags s.ignorepponrename)
          fun s v => { s with ignorepponrename := v }
      else if attr2 = "security_capability".toList then
        c.assign (setxattrBool attrval flags s.securityCapability)
          fun s v => { s with securityCapability := v }
      else if attr2 = "xattr".toList then
        (setxattrXattr attrval flags s.xattr, c)
      else if attr2 = "link_cow".toList then
        c.assign (setxattrBool attrval flags s.linkCow)
          fun s v => { s with linkCow := v }
      else if attr2 = "statfs".toList then
        c.assign (setxattrStatfs attrval flags s.statfs)
          fun s v => { s with statfs := v }
      else if attr2 = "statfs_ignore".toList then
        c.assign (setxattrStatfsignore attrval flags s.statfsIgnore)
          fun s v => { s with statfsIgnore := v }
      else if attr2 = "direct_io".toList then
        c.assign (setxattrBool attrval flags s.directIo)
          fun s v => { s with directIo := v }
      else (EINVAL.neg, c)
  | [_, _, attr2, attr3] =>
      if attr2 = "category".toList then
        setxattrControlfileCategoryPolicy c attr3 attrval flags
      else if attr2 = "func".toList then
        setxattrControlfileFuncPolicy c attr3 attrval flags
      else if attr2 = "cache".toList ∧ attr3 = "open".toList then
        c.assign (setxattrUint64T attrval flags s.openTimeout)
          fun s v => { s with openTimeout := v }
      else if attr2 = "cache".toList ∧ attr3 = "statfs".toList then
        c.assign (setxattrStatfsTimeout attrval flags s.statvfsTimeout)
          fun s v => { s with statvfsTimeout := v }
      else if attr2 = "cache".toList ∧ attr3 = "attr".toList then
        c.assign (setxattrControlfileCacheTimeout env attrval flags s.attrTimeout)
          fun s v => { s with attrTimeout := v }
      else if attr2 = "cache".toList ∧ attr3 = "entry".toList then
        c.assign (setxattrControlfileCacheTimeout env attrval flags s.entryTimeout)
          fun s v => { s with entryTimeout := v }
      else if attr2 = "cache".toList ∧ attr3 = "negative_entry".toList then
        c.assign (setxattrControlfileCacheTimeout env attrval flags s.negativeTimeout)
          fun s v => { s with negativeTimeout := v }
      else (EINVAL.neg, c)
  | _ => (EINVAL.neg, c)

/-! ## Reading a setting -/

def Mode.str : Mode → List Char
  | .RO => "RO".toList
  | .NC => "NC".toList
  | .RW | .INVALID => "RW".toList

/-- `Branches::to_string`. It looks at the last character of what it has, of which
there is none if there are no branches. -/
def Branches.toString (branches : Branches) (mode : Bool) : List Char :=
  let tmp := branches.flatMap fun b =>
    b.path ++ (if mode then '=' :: b.mode.str else []) ++ [':']
  if tmp.getLast? = some ':' then tmp.dropLast else tmp

def showBool (b : Bool) : List Char :=
  if b then "true".toList else "false".toList

/-- `l::getxattr_controlfile_errno`. -/
def showErrno (e : ℤ) : List Char :=
  if e = 0 then "passthrough".toList
  else if e = ENOATTR.val then "noattr".toList
  else if e = ENOSYS.val then "nosys".toList
  else "ERROR".toList

def StatFS.str : StatFS → List Char
  | .BASE => "base".toList
  | .FULL => "full".toList

def StatFSIgnore.str : StatFSIgnore → List Char
  | .NONE => "none".toList
  | .RO => "ro".toList
  | .NC => "nc".toList

def getxattrControlfileFusefuncPolicy (s : Settings) (attr : List Char) : List Char :=
  match FuseFunc.find attr with
  | none => []
  | some f => (s.policies f).str

def strLe : List Char → List Char → Bool
  | [], _ => true
  | _ :: _, [] => false
  | a :: s, b :: t => decide (a.toNat < b.toNat) || (decide (a = b) && strLe s t)

def sortUnique (strs : List (List Char)) : List (List Char) :=
  (strs.insertionSort fun s t => strLe s t = true).destutter (· ≠ ·)

def getxattrControlfileCategoryPolicy (s : Settings) (attr : List Char) : List Char :=
  match Category.find attr with
  | none => []
  | some cat =>
      let funcs := FuseFunc.fusefuncs.filter fun f => decide (f.category = cat)
      join ',' (sortUnique (funcs.map fun f => (s.policies f).str))

def getxattrControlfileVersion (env : ControlEnv) : List Char :=
  if env.version = [] then "unknown_possible_problem_with_build".toList
  else env.version

/-- The value of the attribute, empty if there is none, given the parts of the name
after the first two. -/
def getxattrControlfileValue (env : ControlEnv) (s : Settings) :
    List (List Char) → List Char
  | [attr2] =>
      if attr2 = "srcmounts".toList then s.branches.toString false
      else if attr2 = "branches".toList then s.branches.toString true
      else if attr2 = "minfreespace".toList then showNat s.minfreespace.toNat
      else if attr2 = "moveonenospc".toList then showBool s.moveonenospc
      else if attr2 = "dropcacheonclose".toList then showBool s.dropcacheonclose
      else if attr2 = "symlinkify".toList then showBool s.symlinkify
      else if attr2 = "symlinkify_timeout".toList then showInt s.symlinkifyTimeout
      else if attr2 = "nullrw".toList then showBool s.nullrw
      else if attr2 = "ignorepponrename".toList then showBool s.ignorepponrename
      else if attr2 = "security_capability".toList then showBool s.securityCapability
      else if attr2 = "xattr".toList then showErrno s.xattr
      else if attr2 = "link_cow".toList then showBool s.linkCow
      else if attr2 = "statfs".toList then s.statfs.str
      else if attr2 = "statfs_ignore".toList then s.statfsIgnore.str
      else if attr2 = "policies".toList then join ',' (Policy.policies.map Policy.str)
      else if attr2 = "version".toList then getxattrControlfileVersion env
      else if attr2 = "pid".toList then showNat env.pid
      else if attr2 = "direct_io".toList then showBool s.directIo
      else []
  | [attr2, attr3] =>
      if attr2 = "category".toList then getxattrControlfileCategoryPolicy s attr3
      else if attr2 = "func".toList then getxattrControlfileFusefuncPolicy s attr3
      else if attr2 = "cache".toList ∧ attr3 = "open".toList then
        showNat s.openTimeout.toNat
      else if attr2 = "cache".toList ∧ attr3 = "statfs".toList then
        showNat s.statvfsTimeout.toNat
      else if attr2 = "cache".toList ∧ attr3 = "attr".toList then
        env.showDouble s.attrTimeout
      else if attr2 = "cache".toList ∧ attr3 = "entry".toList then
        env.showDouble s.entryTimeout
      else if attr2 = "cache".toList ∧ attr3 = "negative_entry".toList then
        env.showDouble s.negativeTimeout
      else []
  | _ => []

/-- `l::getxattr_controlfile`: what it returns, and what it copies to the buffer of
`count` bytes. -/
def getxattrControlfile (env : ControlEnv) (c : Control) (attrname : List Char)
    (count : ℕ) : ℤ × List Char :=
  match split '.' attrname with
  | attr0 :: attr1 :: attr =>
      if attr0 ≠ "user".toList ∨ attr1 ≠ "mergerfs".toList then (ENOATTR.neg, [])
      else
        let attrvalue := getxattrControlfileValue env c.settings attr
        if attrvalue = [] then (ENOATTR.neg, [])
        else if count = 0 then (toInt attrvalue.length, [])
        else if count < attrvalue.length then (ERANGE.neg, [])
        else (toInt attrvalue.length, attrvalue)
  -- the code compares `attr[0]` and `attr[1]` here too, beyond the end of the vector
  | _ => (ENOATTR.neg, [])

end Mergerfs
