import Mergerfs.Fuse.ControlRequest
import Mergerfs.Fuse.Operation
import Mergerfs.Policy.Agreement

/-!
# The parts of an attribute name

`FUSE::getxattr` takes the name of an attribute apart at the dots, on the control file
and, for the names that start with `user.mergerfs.`, on other files. `str::split` does
not yield an empty part at the end, and the code reads the first parts before it asks
how many there are.

The functions of `Checked` are those of the code with no result when a part that is
not there is read.
-/

namespace Mergerfs

open Errno

structure GetxattrEnv extends ControlEnv where
  probe : Probe
  /-- `l::lgetxattr`: what it returns, and what is in the buffer then. -/
  lgetxattr : Path → List Char → ℕ → ℤ × List Char

def isprefix (s0 s1 : List Char) : Bool := s1.isPrefixOf s0

def findallfiles (env : Probe) (basepaths : List Path) (fusepath : Path) :
    List Path :=
  (basepaths.map fun b => make b fusepath).filter fun p => (env.lstat p).isSome

/-- `l::getxattr_from_string`, and the end of `l::getxattr_controlfile`. -/
def getxattrFromString (count : ℕ) (src : List Char) : ℤ × List Char :=
  if count = 0 then (toInt src.length, [])
  else if count < src.length then (ERANGE.neg, [])
  else (toInt src.length, src)

namespace Checked

/-- The value `l::getxattr_controlfile` finds, by the number of parts. -/
def attrvalue (env : ControlEnv) (s : Settings) (attr : List (List Char)) :
    Option (List Char) :=
  match attr.length with
  | 3 => attr[2]?.map fun attr2 => getxattrControlfileValue env s [attr2]
  | 4 => attr[2]?.bind fun attr2 => attr[3]?.map fun attr3 =>
      getxattrControlfileValue env s [attr2, attr3]
  | _ => some []

def getxattrControlfile (env : ControlEnv) (c : Control) (attrname : List Char)
    (count : ℕ) : Option (ℤ × List Char) :=
  let attr := split '.' attrname
  attr[0]?.bind fun attr0 =>
    if attr0 ≠ "user".toList then some (ENOATTR.neg, [])
    else attr[1]?.bind fun attr1 =>
      if attr1 ≠ "mergerfs".toList then some (ENOATTR.neg, [])
      else (attrvalue env c.settings attr).map fun attrvalue =>
        if attrvalue = [] then (ENOATTR.neg, [])
        else getxattrFromString count attrvalue

def getxattrUserMergerfs (env : GetxattrEnv) (basepath fusepath fullpath : Path)
    (branches : Branches) (attrname : List Char) (count : ℕ) :
    Option (ℤ × List Char) :=
  (split '.' attrname)[2]?.map fun attr2 =>
    if attr2 = "basepath".toList then getxattrFromString count basepath
    else if attr2 = "relpath".toList then getxattrFromString count fusepath
    else if attr2 = "fullpath".toList then getxattrFromString count fullpath
    else if attr2 = "allpaths".toList then
      getxattrFromString count (join nul
        (findallfiles env.probe (branches.map Branch.path) fusepath))
    else (ENOATTR.neg, [])

/-- `l::getxattr`. -/
def getxattrFile (env : GetxattrEnv) (s : Settings) (fusepath : Path)
    (attrname : List Char) (count : ℕ) : Option (ℤ × List Char) :=
  match (s.policies .getxattr).func env.probe .search s.branches fusepath
    s.minfreespace [] with
  | (.error e, _) => some (e.neg, [])
  | (.ok _, basepaths) => basepaths[0]?.bind fun basepath =>
      let fullpath := make basepath fusepath
      if isprefix (cstr attrname) "user.mergerfs.".toList then
        getxattrUserMergerfs env basepath fusepath fullpath s.branches attrname count
      else some (env.lgetxattr fullpath (cstr attrname) count)

def getxattr (env : GetxattrEnv) (c : Control) (fusepath : Path)
    (attrname : List Char) (count : ℕ) : Option (ℤ × List Char) :=
  let s := c.settings
  if fusepath = s.toConfig.controlfile then
    getxattrControlfile env.toControlEnv c attrname count
  else if !s.securityCapability && isAttrnameSecurityCapability (cstr attrname) then
    some (ENOATTR.neg, [])
  else if s.xattr ≠ 0 then some (-s.xattr, [])
  else getxattrFile env s fusepath attrname count

end Checked

/-! ## Names whose parts are all there -/

section Controlfile

variable (env : ControlEnv) (c : Control) {attrname : List Char} (count : ℕ)

theorem Checked.attrvalue_cons_cons (s : Settings) (attr0 attr1 : List Char)
    (attr : List (List Char)) :
    Checked.attrvalue env s (attr0 :: attr1 :: attr) =
      some (getxattrControlfileValue env s attr) := by
  match attr with
  | [] => rfl
  | [attr2] => rfl
  | [attr2, attr3] => rfl
  | _ :: _ :: _ :: _ => rfl

theorem Checked.getxattrControlfile_of_cons_cons {attr0 attr1 : List Char}
    {attr : List (List Char)} (h : split '.' attrname = attr0 :: attr1 :: attr) :
    Checked.getxattrControlfile env c attrname count =
      some (Mergerfs.getxattrControlfile env c attrname count) := by
  simp only [Checked.getxattrControlfile, Mergerfs.getxattrControlfile, h,
    List.getElem?_cons_zero, List.getElem?_cons_succ, Option.bind_some,
    Checked.attrvalue_cons_cons, Option.map_some]
  by_cases h0 : attr0 ≠ "user".toList
  · rw [if_pos h0, if_pos (.inl h0)]
  · by_cases h1 : attr1 ≠ "mergerfs".toList
    · rw [if_neg h0, if_pos h1, if_pos (.inr h1)]
    · rw [if_neg h0, if_neg h1, if_neg (not_or.mpr ⟨h0, h1⟩)]
      rfl

theorem Checked.getxattrControlfile_nil (h : split '.' attrname = []) :
    Checked.getxattrControlfile env c attrname count = none := by
  simp only [Checked.getxattrControlfile, h, List.getElem?_nil, Option.bind_none]

theorem Checked.getxattrControlfile_singleton {attr0 : List Char}
    (h : split '.' attrname = [attr0]) :
    Checked.getxattrControlfile env c attrname count =
      if attr0 ≠ "user".toList then some (ENOATTR.neg, []) else none := by
  simp only [Checked.getxattrControlfile, h, List.getElem?_cons_zero,
    List.getElem?_cons_succ, List.getElem?_nil, Option.bind_some, Option.bind_none]

/-- A name without a part, and `user` alone, make the code read a part that is not
there. -/
theorem Checked.isSome_getxattrControlfile_iff :
    (Checked.getxattrControlfile env c attrname count).isSome ↔
      cstr attrname ∉ ["".toList, "user".toList, "user.".toList] := by
  have hname : cstr attrname ∈ ["".toList, "user".toList, "user.".toList] ↔
      split '.' attrname = [] ∨ split '.' attrname = ["user".toList] := by
    rw [split_eq_nil_iff, split_eq_singleton_iff (by decide) (by decide),
      List.mem_cons, List.mem_cons, List.mem_singleton]
    rfl
  rw [hname]
  match hattr : split '.' attrname with
  | [] =>
      rw [Checked.getxattrControlfile_nil env c count hattr]
      simp
  | [attr0] =>
      rw [Checked.getxattrControlfile_singleton env c count hattr]
      by_cases h0 : attr0 = "user".toList
      · rw [if_neg (not_not.mpr h0), h0]
        simp
      · rw [if_pos h0]
        simpa using h0
  | attr0 :: attr1 :: attr =>
      rw [Checked.getxattrControlfile_of_cons_cons env c count hattr]
      simp

end Controlfile

theorem isSome_third_part_iff {attrname : List Char}
    (h : isprefix (cstr attrname) "user.mergerfs.".toList = true) :
    (split '.' attrname)[2]?.isSome ↔ cstr attrname ≠ "user.mergerfs.".toList := by
  obtain ⟨r, hr⟩ := List.isPrefixOf_iff_prefix.mp h
  have hnul := nul_notMem_cstr attrname
  rw [← hr] at hnul
  have hrest : nul ∉ "mergerfs".toList ++ '.' :: r :=
    fun hmem => hnul (List.mem_append_right "user.".toList hmem)
  have hsplit : split '.' attrname =
      "user".toList :: "mergerfs".toList :: split '.' r :=
    calc split '.' attrname
      _ = split '.' ("user".toList ++ '.' :: ("mergerfs".toList ++ '.' :: r)) := by
          rw [← split_cstr, ← hr]
          rfl
      _ = "user".toList :: split '.' ("mergerfs".toList ++ '.' :: r) :=
          split_append_cons (by decide) hnul
      _ = "user".toList :: "mergerfs".toList :: split '.' r := by
          rw [split_append_cons (by decide) hrest]
  have hr' : nul ∉ r := fun hmem => hnul (List.mem_append_right _ hmem)
  have hthird : (split '.' attrname)[2]?.isSome ↔ split '.' r ≠ [] := by
    rw [hsplit]
    cases split '.' r <;> simp
  rw [hthird, ne_eq, split_eq_nil_iff, cstr_eq_self hr', ← hr, ne_eq,
    List.append_right_eq_self]

/-- On a file that is not found nothing is read of the name; on one that is found
`user.mergerfs.` alone lacks a part. -/
theorem Checked.isSome_getxattrFile_iff (env : GetxattrEnv) (s : Settings)
    (fusepath : Path) (attrname : List Char) (count : ℕ) :
    (Checked.getxattrFile env s fusepath attrname count).isSome ↔
      (((s.policies .getxattr).func env.probe .search s.branches fusepath
          s.minfreespace []).1 = .ok () →
        cstr attrname ≠ "user.mergerfs.".toList) := by
  unfold Checked.getxattrFile
  cases hsearch : (s.policies .getxattr).func env.probe .search s.branches fusepath
      s.minfreespace [] with
  | mk rv basepaths =>
      cases rv with
      | error e =>
          refine iff_of_true rfl ?_
          intro hok
          cases hok
      | ok u =>
          have hne : basepaths ≠ [] := by
            have := Policy.func_ne_nil (congrArg Prod.fst hsearch)
            rwa [hsearch] at this
          obtain ⟨basepath, rest, rfl⟩ := List.exists_cons_of_ne_nil hne
          simp only [List.getElem?_cons_zero, Option.bind_some, forall_const]
          split_ifs with hprefix
          · rw [Checked.getxattrUserMergerfs, Option.isSome_map,
              isSome_third_part_iff hprefix]
          · refine iff_of_true rfl ?_
            intro heq
            rw [heq] at hprefix
            exact hprefix (by decide)

/-- Every part that is read is there exactly when the control file is not asked for a
name without a part or for `user` alone, and no other file that is found for
`user.mergerfs.` alone. -/
theorem getxattr_parts_iff (env : GetxattrEnv) (c : Control) (fusepath : Path)
    (attrname : List Char) (count : ℕ) :
    (Checked.getxattr env c fusepath attrname count).isSome ↔
      (fusepath = c.settings.toConfig.controlfile →
        cstr attrname ∉ ["".toList, "user".toList, "user.".toList]) ∧
      (fusepath ≠ c.settings.toConfig.controlfile → c.settings.xattr = 0 →
        ((c.settings.policies .getxattr).func env.probe .search c.settings.branches
          fusepath c.settings.minfreespace []).1 = .ok () →
        cstr attrname ≠ "user.mergerfs.".toList) := by
  rw [Checked.getxattr]
  by_cases hcontrol : fusepath = c.settings.toConfig.controlfile
  · rw [if_pos hcontrol, Checked.isSome_getxattrControlfile_iff]
    exact ⟨fun h => ⟨fun _ => h, fun hne => absurd hcontrol hne⟩,
      fun h => h.1 hcontrol⟩
  · rw [if_neg hcontrol]
    split_ifs with hcapability hxattr
    · -- the name is another one
      refine iff_of_true rfl ⟨fun h => absurd h hcontrol, ?_⟩
      intro _ _ _ heq
      rw [heq] at hcapability
      have hother : isAttrnameSecurityCapability "user.mergerfs.".toList = false := by
        decide
      rw [hother, Bool.and_false] at hcapability
      cases hcapability
    · exact iff_of_true rfl ⟨fun h => absurd h hcontrol,
        fun _ hzero => absurd hzero hxattr⟩
    · rw [Checked.isSome_getxattrFile_iff]
      exact ⟨fun h => ⟨fun hc => absurd hc hcontrol, fun _ _ => h⟩,
        fun h => h.2 hcontrol (not_not.mp hxattr)⟩

def attributeless : GetxattrEnv where
  toControlEnv := plainEnv
  probe := .unshuffled (fun _ => some ⟨0, 1, 0, 5⟩) fun _ => none
  lgetxattr _ _ _ := (ENOATTR.neg, [])

/-- The name `user` on the control file, and `user.mergerfs.` on any other. -/
theorem getxattr_parts_missing :
    Checked.getxattr attributeless remembering "/.mergerfs".toList "user".toList 64 =
        none ∧
      Checked.getxattr attributeless remembering "/x".toList
        "user.mergerfs.".toList 64 = none := by
  decide

end Mergerfs
