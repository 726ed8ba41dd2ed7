import Mergerfs.Library.Program
import Mergerfs.Policy.Definitions

/-!
# The calls an operation makes

An operation of the file system is a program over the calls below: the system
calls it issues through the `fs::` wrappers, `fs::clonepath`, and the reads of a
policy, which are answered together by the `Probe` the policy sees. What the calls
return is up to the kernel.

`Config` holds the part of the configuration the path based operations read.
-/

namespace Mergerfs

structure Timespec where
  tv_sec : Int64
  tv_nsec : Int64
deriving DecidableEq

inductive Call where
  /-- The reads of a policy called in the category `type` on `fusepath`. -/
  | probe (type : Category) (fusepath : Path)
  | clonepath (fromsrc tosrc relative : Path)
  | rename (oldpath newpath : Path)
  | remove (path : Path)
  | unlink (path : Path)
  | rmdir (path : Path)
  | mkdir (path : Path) (mode : UInt32)
  | mknod (path : Path) (mode : UInt32) (dev : UInt64)
  | symlink (oldpath newpath : Path)
  | link (oldpath newpath : Path)
  | openCreate (path : Path) (flags mode : UInt32)
  | chmod (path : Path) (mode : UInt32)
  | lchown (path : Path) (uid gid : UInt32)
  | truncate (path : Path) (size : Int64)
  | lsetxattr (path : Path) (name value : List Char) (flags : UInt32)
  | lremovexattr (path : Path) (name : List Char)
  | lutime (path : Path) (ts : Timespec × Timespec)
  | lgetxattr (path : Path) (name : List Char)
  /-- `l::setxattr_controlfile`, which changes the configuration. -/
  | setxattrControlfile (name value : List Char) (flags : UInt32)
deriving DecidableEq

@[reducible] def Ans : Call → Type
  | .probe _ _ => Probe
  | .openCreate _ _ _ => Except Errno ℕ
  | .setxattrControlfile _ _ _ => ℤ
  | _ => Rv

abbrev Prog := Program Call Ans

abbrev Trace := List (Program.Event Call Ans)

/-- The part of `Config` the path based operations read. -/
structure Config where
  branches : Branches
  minfreespace : UInt64
  moveonenospc : Bool
  ignorepponrename : Bool
  securityCapability : Bool
  /-- `0`, or the error number every xattr call is refused with. -/
  xattr : ℤ
  controlfile : Path
  chmod : Policy
  chown : Policy
  create : Policy
  getattr : Policy
  link : Policy
  mkdir : Policy
  mknod : Policy
  removexattr : Policy
  rename : Policy
  rmdir : Policy
  setxattr : Policy
  symlink : Policy
  truncate : Policy
  unlink : Policy
  utimens : Policy

def Config.initial (branches : Branches) : Config where
  branches := branches
  minfreespace := 4294967295
  moveonenospc := false
  ignorepponrename := false
  securityCapability := true
  xattr := 0
  controlfile := ['/', '.', 'm', 'e', 'r', 'g', 'e', 'r', 'f', 's']
  chmod := .epall
  chown := .epall
  create := .epmfs
  getattr := .ff
  link := .epall
  mkdir := .epmfs
  mknod := .epmfs
  removexattr := .epall
  rename := .epall
  rmdir := .epall
  setxattr := .epall
  symlink := .epmfs
  truncate := .epall
  unlink := .epall
  utimens := .epall

def sys (c : Call) : Prog (Ans c) := Program.call c

theorem exec_sys_bind {c : Call} {β : Type} {f : Ans c → Prog β} {tr : Trace}
    {b : β} :
    Program.Exec (sys c >>= f) tr b ↔
      ∃ r tr', tr = ⟨c, r⟩ :: tr' ∧ Program.Exec (f r) tr' b :=
  Program.exec_call_bind

def answers (probe : Category → Path → Probe) (rv : Call → Rv) (_ : Trace) :
    (c : Call) → Ans c
  | .probe type fusepath => probe type fusepath
  | .openCreate path flags mode => (rv (.openCreate path flags mode)).map fun _ => 3
  | .setxattrControlfile _ _ _ => 0
  | .clonepath fromsrc tosrc relative => rv (.clonepath fromsrc tosrc relative)
  | .rename oldpath newpath => rv (.rename oldpath newpath)
  | .remove path => rv (.remove path)
  | .unlink path => rv (.unlink path)
  | .rmdir path => rv (.rmdir path)
  | .mkdir path mode => rv (.mkdir path mode)
  | .mknod path mode dev => rv (.mknod path mode dev)
  | .symlink oldpath newpath => rv (.symlink oldpath newpath)
  | .link oldpath newpath => rv (.link oldpath newpath)
  | .chmod path mode => rv (.chmod path mode)
  | .lchown path uid gid => rv (.lchown path uid gid)
  | .truncate path size => rv (.truncate path size)
  | .lsetxattr path name value flags => rv (.lsetxattr path name value flags)
  | .lremovexattr path name => rv (.lremovexattr path name)
  | .lutime path ts => rv (.lutime path ts)
  | .lgetxattr path name => rv (.lgetxattr path name)

/-- A call of the policy `p` in the category `type`, with the vector it
appends to. -/
def ask (cfg : Config) (p : Policy) (type : Category) (fusepath : Path)
    (paths : List Path) : Prog Policy.Result := do
  let env ← sys (.probe type fusepath)
  pure (p.func env type cfg.branches fusepath cfg.minfreespace paths)

/-- A call of a policy at the start of an operation, which returns `-errno` when
the policy fails and else goes on with the paths. -/
def withPaths (cfg : Config) (p : Policy) (type : Category) (fusepath : Path)
    (k : List Path → Prog ℤ) : Prog ℤ := do
  let r ← ask cfg p type fusepath []
  match r.1 with
  | .error e => pure e.neg
  | .ok _ => k r.2

def clonepathAsRoot (fromsrc tosrc relative : Path) : Prog Rv :=
  if relative = [] then pure (.ok ())
  else if fromsrc = tosrc then pure (.ok ())
  else sys (.clonepath fromsrc tosrc relative)

theorem exec_ask_bind {cfg : Config} {p : Policy} {type : Category}
    {fusepath : Path} {paths : List Path} {β : Type}
    {f : Policy.Result → Prog β} {tr : Trace} {b : β} :
    Program.Exec (ask cfg p type fusepath paths >>= f) tr b ↔
      ∃ env tr', tr = ⟨.probe type fusepath, env⟩ :: tr' ∧
        Program.Exec (f (p.func env type cfg.branches fusepath
          cfg.minfreespace paths)) tr' b := by
  rw [ask, Program.exec_bind]
  constructor
  · intro h
    obtain ⟨t₁, a, t₂, rfl, h₁, h₂⟩ := h
    obtain ⟨env, tr', rfl, hret⟩ := exec_sys_bind.mp h₁
    obtain ⟨rfl, rfl⟩ := Program.exec_pure.mp hret
    exact ⟨env, t₂, rfl, h₂⟩
  · intro h
    obtain ⟨env, tr', rfl, h⟩ := h
    exact ⟨_, _, tr', rfl,
      exec_sys_bind.mpr ⟨env, [], rfl, Program.exec_pure.mpr ⟨rfl, rfl⟩⟩, h⟩

theorem exec_withPaths {cfg : Config} {p : Policy} {type : Category}
    {fusepath : Path} {k : List Path → Prog ℤ} {tr : Trace} {r : ℤ}
    (h : Program.Exec (withPaths cfg p type fusepath k) tr r) :
    ∃ env t, tr = ⟨.probe type fusepath, env⟩ :: t ∧
      ((t = [] ∧ ∃ e : Errno, (p.func env type cfg.branches fusepath
          cfg.minfreespace []).1 = .error e ∧ r = e.neg) ∨
        (p.func env type cfg.branches fusepath cfg.minfreespace []).1 = .ok () ∧
          Program.Exec (k (p.func env type cfg.branches fusepath
            cfg.minfreespace []).2) t r) := by
  obtain ⟨env, t, rfl, hcont⟩ := exec_ask_bind.mp h
  refine ⟨env, t, rfl, ?_⟩
  cases hrv : (p.func env type cfg.branches fusepath cfg.minfreespace []).1 with
  | error e =>
      rw [hrv] at hcont
      obtain ⟨rfl, rfl⟩ := Program.exec_pure.mp hcont
      exact .inl ⟨rfl, e, rfl, rfl⟩
  | ok u =>
      rw [hrv] at hcont
      exact .inr ⟨rfl, hcont⟩

/-- Cloning a path is one call at most; it is none when there is nothing to
clone or the branches are the same. -/
theorem exec_clonepathAsRoot {fromsrc tosrc relative : Path} {tr : Trace}
    {rv : Rv}
    (h : Program.Exec (clonepathAsRoot fromsrc tosrc relative) tr rv) :
    (tr = [] ∧ rv = .ok ()) ∨
      (relative ≠ [] ∧ tr = [⟨.clonepath fromsrc tosrc relative, rv⟩]) := by
  unfold clonepathAsRoot at h
  split_ifs at h with hrel hsame
  · exact .inl (Program.exec_pure.mp h)
  · exact .inl (Program.exec_pure.mp h)
  · exact .inr ⟨hrel, Program.exec_call.mp h⟩

/-- `error::calc(rv,error,errno)` for a call that just returned `rv`. -/
def calcRv (rv : Rv) (error : ℤ) : ℤ :=
  match rv with
  | .ok _ => errorCalc 0 error 0
  | .error e => errorCalc (-1) error e.val

/-- `*paths[0]` of a vector a policy has just succeeded on. -/
def front (paths : List Path) : Path := paths.headD []

def member (haystack : List Path) (needle : Path) : Bool :=
  haystack.contains needle

@[simp] theorem member_iff (haystack : List Path) (needle : Path) :
    member haystack needle = true ↔ needle ∈ haystack := by
  simp [member]

end Mergerfs
