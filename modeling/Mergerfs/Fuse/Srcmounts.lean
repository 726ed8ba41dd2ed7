import Mergerfs.Basic.Branch
import Mergerfs.Basic.Str

/-!
# Changing the branch list at runtime

`setxattr` of `user.mergerfs.branches`, or `srcmounts`, takes an instruction and a
list of patterns. What `glob`, `realpath` and `fnmatch` answer is up to the system.
-/

namespace Mergerfs

open Errno

structure PathEnv where
  glob : Path → List Path
  realpath : Path → Option Path
  fnmatch : Path → Path → Bool

def plainPaths : PathEnv where
  glob p := [cstr p]
  realpath := some
  fnmatch pat p := decide (pat = p)

def parseMode (s : List Char) : Mode × List Char :=
  if "=RO".toList <:+ s then (.RO, s.take (s.length - 3))
  else if "=RW".toList <:+ s then (.RW, s.take (s.length - 3))
  else if "=NC".toList <:+ s then (.NC, s.take (s.length - 3))
  else (.RW, s)

namespace Branches

variable (env : PathEnv)

def parse (s : List Char) : Branches :=
  (env.glob (parseMode s).2).map fun p =>
    ⟨(parseMode s).1, (env.realpath p).getD p⟩

def set (s : List Char) : Branches := (split ':' s).flatMap (parse env)

/-- Each pattern goes before those that came before it. -/
def addBegin (branches : Branches) (s : List Char) : Branches :=
  (split ':' s).foldl (fun bs p => parse env p ++ bs) branches

def addEnd (branches : Branches) (s : List Char) : Branches :=
  branches ++ (split ':' s).flatMap (parse env)

/-- `erase_begin`, which has no defined effect on an empty list. -/
def eraseBegin (branches : Branches) : Branches := branches.tail

def eraseEnd (branches : Branches) : Branches := branches.dropLast

def eraseFnmatch (branches : Branches) (s : List Char) : Branches :=
  branches.filter fun b => !(split ':' s).any fun pat => env.fnmatch pat b.path

end Branches

def splitAttrval (attrval : List Char) : List Char × List Char :=
  (attrval.takeWhile (· != '/'), attrval.dropWhile (· != '/'))

def XATTR_CREATE : UInt32 := 1

/-- The body of `l::setxattr_srcmounts`. The erasing of the first or the last branch is
`begun` or `ended`, and the other results are made by `ret`. -/
def setxattrSrcmountsWith {ρ : Type*} (ret : ℤ → Branches → ρ) (begun ended : ρ)
    (env : PathEnv) (attrval : List Char) (flags : UInt32) (branches : Branches) : ρ :=
  if flags &&& XATTR_CREATE = XATTR_CREATE then ret EEXIST.neg branches
  else
    let instruction := (splitAttrval attrval).1
    let values := (splitAttrval attrval).2
    if instruction = "+".toList then ret 0 (branches.addEnd env values)
    else if instruction = "+<".toList then ret 0 (branches.addBegin env values)
    else if instruction = "+>".toList then ret 0 (branches.addEnd env values)
    else if instruction = "-".toList then ret 0 (branches.eraseFnmatch env values)
    else if instruction = "-<".toList then begun
    else if instruction = "->".toList then ended
    else if instruction = "=".toList then ret 0 (Branches.set env values)
    else if instruction = [] then ret 0 (Branches.set env values)
    else ret EINVAL.neg branches

def setxattrSrcmounts (env : PathEnv) (attrval : List Char) (flags : UInt32)
    (branches : Branches) : ℤ × Branches :=
  setxattrSrcmountsWith Prod.mk (0, branches.eraseBegin) (0, branches.eraseEnd) env
    attrval flags branches

end Mergerfs
