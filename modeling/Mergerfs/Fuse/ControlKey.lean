import Mergerfs.Fuse.Control

/-!
# The keys of the control file

A key is what the parts of an attribute's name after the first two stand for. Setting
one is the same for all keys: `XATTR_CREATE` is refused, the cache of the open policy
is dropped if the key decides that policy, and a value that can be read is stored.
`setxattrControlfile` does this for a name with a key and refuses every other name.
-/

namespace Mergerfs

open Errno

/-! ## Keys -/

inductive Key where
  | srcmounts
  | branches
  | minfreespace
  | moveonenospc
  | dropcacheonclose
  | symlinkify
  | symlinkifyTimeout
  | ignorepponrename
  | securityCapability
  | xattr
  | linkCow
  | statfs
  | statfsIgnore
  | directIo
  | category (cat : Category)
  | func (f : FuseFunc)
  | cacheOpen
  | cacheStatfs
  | cacheAttr
  | cacheEntry
  | cacheNegativeEntry
deriving DecidableEq

def parseXattr (attrval : List Char) : Option ℤ :=
  if attrval = "passthrough".toList then some 0
  else if attrval = "noattr".toList then some ENOATTR.val
  else if attrval = "nosys".toList then some ENOSYS.val
  else none

def instructions : List (List Char) :=
  ["+".toList, "+<".toList, "+>".toList, "-".toList, "-<".toList, "->".toList,
    "=".toList, []]

namespace Key

def segments : Key → List (List Char)
  | srcmounts => ["srcmounts".toList]
  | branches => ["branches".toList]
  | minfreespace => ["minfreespace".toList]
  | moveonenospc => ["moveonenospc".toList]
  | dropcacheonclose => ["dropcacheonclose".toList]
  | symlinkify => ["symlinkify".toList]
  | symlinkifyTimeout => ["symlinkify_timeout".toList]
  | ignorepponrename => ["ignorepponrename".toList]
  | securityCapability => ["security_capability".toList]
  | xattr => ["xattr".toList]
  | linkCow => ["link_cow".toList]
  | statfs => ["statfs".toList]
  | statfsIgnore => ["statfs_ignore".toList]
  | directIo => ["direct_io".toList]
  | category cat => ["category".toList, cat.str]
  | func f => ["func".toList, f.str]
  | cacheOpen => ["cache".toList, "open".toList]
  | cacheStatfs => ["cache".toList, "statfs".toList]
  | cacheAttr => ["cache".toList, "attr".toList]
  | cacheEntry => ["cache".toList, "entry".toList]
  | cacheNegativeEntry => ["cache".toList, "negative_entry".toList]

/-- `user.mergerfs.<key>`. -/
def name (k : Key) : List Char :=
  join '.' ("user".toList :: "mergerfs".toList :: k.segments)

/-- The key decides the policy of `open`. -/
def clears (k : Key) : Bool :=
  decide (k = func .open ∨ k = category .search)

/-- The settings with a value of the key stored, if the value can be read. -/
def update (env : ControlEnv) (attrval : List Char) (s : Settings) :
    Key → Option Settings
  | srcmounts | branches =>
      if (splitAttrval attrval).1 ∈ instructions then
        some { s with
          branches := (setxattrSrcmounts env.toPathEnv attrval 0 s.branches).2 }
      else none
  | minfreespace => (toUint64T attrval).map fun v => { s with minfreespace := v }
  | moveonenospc => (parseBool attrval).map fun v => { s with moveonenospc := v }
  | dropcacheonclose =>
      (parseBool attrval).map fun v => { s with dropcacheonclose := v }
  | symlinkify => (parseBool attrval).map fun v => { s with symlinkify := v }
  | symlinkifyTimeout =>
      (toTimeT attrval).map fun v => { s with symlinkifyTimeout := v }
  | ignorepponrename =>
      (parseBool attrval).map fun v => { s with ignorepponrename := v }
  | securityCapability =>
      (parseBool attrval).map fun v => { s with securityCapability := v }
  -- the number read is not stored
  | xattr => (parseXattr attrval).map fun _ => s
  | linkCow => (parseBool attrval).map fun v => { s with linkCow := v }
  | statfs => (parseStatfs attrval).map fun v => { s with statfs := v }
  | statfsIgnore =>
      (parseStatfsignore attrval).map fun v => { s with statfsIgnore := v }
  | directIo => (parseBool attrval).map fun v => { s with directIo := v }
  | category cat => (Policy.find attrval).map fun p =>
      { s with policies := fun f => if f.category = cat then p else s.policies f }
  | func f => (Policy.find attrval).map fun p =>
      { s with policies := Function.update s.policies f p }
  | cacheOpen => (toUint64T attrval).map fun v => { s with openTimeout := v }
  | cacheStatfs => (toUint64T attrval).map fun v => { s with statvfsTimeout := v }
  | cacheAttr => (toDouble env attrval).map fun v => { s with attrTimeout := v }
  | cacheEntry => (toDouble env attrval).map fun v => { s with entryTimeout := v }
  | cacheNegativeEntry =>
      (toDouble env attrval).map fun v => { s with negativeTimeout := v }

end Key

/-- What becomes of a request with the settings it asks for, `none` if its value
cannot be read. -/
def Control.settle (c : Control) (clears : Bool) (flags : UInt32)
    (o : Option Settings) : ℤ × Control :=
  if flags &&& XATTR_CREATE = XATTR_CREATE then (EEXIST.neg, c)
  else
    let cache := if clears then c.openCache.clear else c.openCache
    match o with
    | none => (EINVAL.neg, ⟨c.settings, cache⟩)
    | some s => (0, ⟨s, cache⟩)

def Key.setxattr (env : ControlEnv) (c : Control) (k : Key) (attrval : List Char)
    (flags : UInt32) : ℤ × Control :=
  c.settle k.clears flags (k.update env attrval c.settings)

/-! ## The tables -/

theorem FuseFunc.mem_fusefuncs (f : FuseFunc) : f ∈ fusefuncs := by
  cases f <;> decide

theorem foldl_setPolicies (cat : Category) (p : Policy) (funcs : List FuseFunc)
    (policies : FuseFunc → Policy) (f : FuseFunc) :
    funcs.foldl (fun policies f =>
        if f.category = cat then Function.update policies f p else policies) policies
      f = if f ∈ funcs ∧ f.category = cat then p else policies f := by
  induction funcs generalizing policies with
  | nil => simp
  | cons g funcs ih =>
      rw [List.foldl_cons, ih]
      by_cases hg : f = g
      · subst hg
        by_cases hf : f.category = cat <;> simp [hf]
      · have hkeep : (if g.category = cat then Function.update policies g p
            else policies) f = policies f := by
          split_ifs
          · exact Function.update_of_ne hg p policies
          · rfl
        simp [hg, hkeep]

/-- The loop sets the policy of each function in the category. -/
theorem setPolicies_eq (cat : Category) (p : Policy) (policies : FuseFunc → Policy) :
    setPolicies cat p policies =
      fun f => if f.category = cat then p else policies f := by
  funext f
  rw [setPolicies, foldl_setPolicies]
  simp [f.mem_fusefuncs]

theorem FuseFunc.find_eq_some_iff {s : List Char} {f : FuseFunc} :
    FuseFunc.find s = some f ↔ f.str = s := by
  rw [FuseFunc.find, findStr_eq_some_iff (by decide)]
  exact and_iff_right f.mem_fusefuncs

theorem Category.find_eq_some_iff {s : List Char} {cat : Category} :
    Category.find s = some cat ↔ cat.str = s := by
  have hmem : cat ∈ categories := by cases cat <;> decide
  rw [Category.find, findStr_eq_some_iff (by decide)]
  exact and_iff_right hmem

/-! ## Every helper settles a request -/

variable {env : ControlEnv} {c : Control} {attrval : List Char} {flags : UInt32}

theorem assign_setxattrValue {α : Type*} (parse : List Char → Option α)
    (store : Settings → α → Settings) (old : α)
    (hstore : store c.settings old = c.settings) :
    c.assign (setxattrValue parse attrval flags old) store =
      c.settle false flags ((parse attrval).map (store c.settings)) := by
  unfold Control.assign setxattrValue Control.settle
  by_cases hcreate : flags &&& XATTR_CREATE = XATTR_CREATE
  · simp only [if_pos hcreate, hstore]
  · cases hparse : parse attrval with
    | none => simp [hcreate, hstore]
    | some v => simp [hcreate]

theorem setxattrVia_setxattrValue {α : Type*} (parse : List Char → Option α)
    (tmp old : α) :
    setxattrVia (setxattrValue parse attrval flags tmp) old =
      setxattrValue parse attrval flags old := by
  have hexist : ¬ 0 ≤ EEXIST.neg := by decide
  have hinval : ¬ 0 ≤ EINVAL.neg := by decide
  unfold setxattrVia setxattrValue
  by_cases hcreate : flags &&& XATTR_CREATE = XATTR_CREATE
  · simp only [if_pos hcreate, if_neg hexist]
  · cases hparse : parse attrval with
    | none => simp only [if_neg hcreate, if_neg hinval]
    | some v => simp [hcreate]

theorem assign_setxattrVia {α : Type*} (parse : List Char → Option α)
    (store : Settings → α → Settings) (tmp old : α)
    (hstore : store c.settings old = c.settings) :
    c.assign (setxattrVia (setxattrValue parse attrval flags tmp) old) store =
      c.settle false flags ((parse attrval).map (store c.settings)) := by
  rw [setxattrVia_setxattrValue]
  exact assign_setxattrValue parse store old hstore

theorem setxattrXattr_settle :
    (setxattrXattr attrval flags c.settings.xattr, c) =
      c.settle false flags ((parseXattr attrval).map fun _ => c.settings) := by
  unfold setxattrXattr parseXattr Control.settle
  by_cases hcreate : flags &&& XATTR_CREATE = XATTR_CREATE
  · simp only [if_pos hcreate]
  · simp only [if_neg hcreate, Bool.false_eq_true, if_false]
    split_ifs <;> rfl

theorem assign_setxattrSrcmounts :
    c.assign (setxattrSrcmounts env.toPathEnv attrval flags c.settings.branches)
        (fun s v => { s with branches := v }) =
      c.settle false flags (Key.branches.update env attrval c.settings) := by
  have hzero : ¬ (0 : UInt32) &&& XATTR_CREATE = XATTR_CREATE := by decide
  by_cases hcreate : flags &&& XATTR_CREATE = XATTR_CREATE
  · simp only [Control.assign, setxattrSrcmounts, setxattrSrcmountsWith, Control.settle,
      if_pos hcreate]
  · simp only [Control.assign, Control.settle, Key.update, setxattrSrcmounts,
      setxattrSrcmountsWith, hcreate, hzero, if_false]
    by_cases hknown : (splitAttrval attrval).1 ∈ instructions
    · rw [if_pos hknown]
      simp only [instructions, List.mem_cons, List.not_mem_nil, or_false] at hknown
      rcases hknown with h | h | h | h | h | h | h | h <;> simp [h]
    · rw [if_neg hknown]
      simp only [instructions, List.mem_cons, List.not_mem_nil, or_false,
        not_or] at hknown
      simp only [hknown, if_false]
      rfl

section Policies

variable {clearing polname : List Char}
  {set : Settings → List Char → List Char → Except Errno Settings}

theorem setxattrControlfilePolicy_settle {clears : Bool} {o : Option Settings}
    (hclears : polname = clearing ↔ clears = true)
    (hset : set c.settings polname attrval = o.elim (.error EINVAL) .ok) :
    setxattrControlfilePolicy clearing set c polname attrval flags =
      c.settle clears flags o := by
  unfold setxattrControlfilePolicy Control.settle
  by_cases hcreate : flags &&& XATTR_CREATE = XATTR_CREATE
  · simp only [if_pos hcreate]
  · simp only [if_neg hcreate, hclears]
    cases clears with
    | true => cases o <;> simp [hset]
    | false => cases o <;> simp [hset]

theorem setxattrControlfilePolicy_unknown (hne : polname ≠ clearing) {e : Errno}
    (hset : set c.settings polname attrval = .error e) :
    ∃ e : Errno, setxattrControlfilePolicy clearing set c polname attrval flags =
      (e.neg, c) := by
  unfold setxattrControlfilePolicy
  by_cases hcreate : flags &&& XATTR_CREATE = XATTR_CREATE
  · exact ⟨EEXIST, if_pos hcreate⟩
  · refine ⟨e, ?_⟩
    simp only [if_neg hcreate, if_neg hne, hset]

end Policies

theorem setxattrControlfileFuncPolicy_settle (f : FuseFunc) :
    setxattrControlfileFuncPolicy c f.str attrval flags =
      c.settle (Key.func f).clears flags
        ((Key.func f).update env attrval c.settings) := by
  have hfind : FuseFunc.find f.str = some f := FuseFunc.find_eq_some_iff.mpr rfl
  refine setxattrControlfilePolicy_settle (by cases f <;> decide) ?_
  simp only [Settings.setFuncPolicy, hfind, Key.update]
  cases Policy.find attrval <;> rfl

theorem setxattrControlfileCategoryPolicy_settle (cat : Category) :
    setxattrControlfileCategoryPolicy c cat.str attrval flags =
      c.settle (Key.category cat).clears flags
        ((Key.category cat).update env attrval c.settings) := by
  have hfind : Category.find cat.str = some cat := Category.find_eq_some_iff.mpr rfl
  refine setxattrControlfilePolicy_settle (by cases cat <;> decide) ?_
  simp only [Settings.setCategoryPolicy, hfind, Key.update, setPolicies_eq]
  cases Policy.find attrval <;> rfl

/-! ## The dispatcher -/

variable {attrname : List Char}

/-- A name with a key sets the key, whatever it starts with. -/
theorem setxattrControlfile_of_key {a b : List Char} {k : Key}
    (h : split '.' attrname = a :: b :: k.segments) :
    setxattrControlfile env c attrname attrval flags =
      k.setxattr env c attrval flags := by
  unfold setxattrControlfile Key.setxattr
  rw [h]
  cases k with
  | srcmounts => exact assign_setxattrSrcmounts
  | branches => exact assign_setxattrSrcmounts
  | minfreespace =>
      exact assign_setxattrValue toUint64T (fun s v => { s with minfreespace := v }) _ rfl
  | moveonenospc =>
      exact assign_setxattrValue parseBool (fun s v => { s with moveonenospc := v }) _ rfl
  | dropcacheonclose =>
      exact assign_setxattrValue parseBool (fun s v => { s with dropcacheonclose := v }) _ rfl
  | symlinkify =>
      exact assign_setxattrValue parseBool (fun s v => { s with symlinkify := v }) _ rfl
  | symlinkifyTimeout =>
      exact assign_setxattrValue toTimeT (fun s v => { s with symlinkifyTimeout := v }) _ rfl
  | ignorepponrename =>
      exact assign_setxattrValue parseBool (fun s v => { s with ignorepponrename := v }) _ rfl
  | securityCapability =>
      exact assign_setxattrValue parseBool (fun s v => { s with securityCapability := v }) _ rfl
  | xattr => exact setxattrXattr_settle
  | linkCow =>
      exact assign_setxattrValue parseBool (fun s v => { s with linkCow := v }) _ rfl
  | statfs =>
      exact assign_setxattrValue parseStatfs (fun s v => { s with statfs := v }) _ rfl
  | statfsIgnore =>
      exact assign_setxattrValue parseStatfsignore (fun s v => { s with statfsIgnore := v }) _ rfl
  | directIo =>
      exact assign_setxattrValue parseBool (fun s v => { s with directIo := v }) _ rfl
  | category cat => exact setxattrControlfileCategoryPolicy_settle cat
  | func f => exact setxattrControlfileFuncPolicy_settle f
  | cacheOpen =>
      exact assign_setxattrValue toUint64T (fun s v => { s with openTimeout := v }) _ rfl
  | cacheStatfs =>
      exact assign_setxattrVia toUint64T (fun s v => { s with statvfsTimeout := v }) 0 _ rfl
  | cacheAttr =>
      exact assign_setxattrVia (toDouble env) (fun s v => { s with attrTimeout := v }) ⟨0⟩ _ rfl
  | cacheEntry =>
      exact assign_setxattrVia (toDouble env) (fun s v => { s with entryTimeout := v }) ⟨0⟩ _ rfl
  | cacheNegativeEntry =>
      exact assign_setxattrVia (toDouble env) (fun s v => { s with negativeTimeout := v }) ⟨0⟩ _ rfl

theorem setxattrControlfileFuncPolicy_unknown {funcname : List Char}
    (h : ∀ f : FuseFunc, f.str ≠ funcname) :
    ∃ e : Errno, setxattrControlfileFuncPolicy c funcname attrval flags =
      (e.neg, c) := by
  have hfind : FuseFunc.find funcname = none := by
    cases hf : FuseFunc.find funcname with
    | none => rfl
    | some f => exact absurd (FuseFunc.find_eq_some_iff.mp hf) (h f)
  refine setxattrControlfilePolicy_unknown (fun heq => h .open heq.symm) (e := ENODATA) ?_
  simp only [Settings.setFuncPolicy, hfind]

theorem setxattrControlfileCategoryPolicy_unknown {categoryname : List Char}
    (h : ∀ cat : Category, cat.str ≠ categoryname) :
    ∃ e : Errno, setxattrControlfileCategoryPolicy c categoryname attrval flags =
      (e.neg, c) := by
  have hfind : Category.find categoryname = none := by
    cases hf : Category.find categoryname with
    | none => rfl
    | some cat => exact absurd (Category.find_eq_some_iff.mp hf) (h cat)
  refine setxattrControlfilePolicy_unknown (fun heq => h .search heq.symm)
    (e := ENODATA) ?_
  simp only [Settings.setCategoryPolicy, hfind]

theorem setxattrControlfile_of_no_key
    (h : ∀ (a b : List Char) (k : Key), split '.' attrname ≠ a :: b :: k.segments) :
    ∃ e : Errno, setxattrControlfile env c attrname attrval flags = (e.neg, c) := by
  unfold setxattrControlfile
  split
  case h_1 a b attr2 heq =>
    have hne (k : Key) (str : List Char) (hk : k.segments = [str]) :
        attr2 ≠ str := by
      rintro rfl
      exact h a b k (by rw [heq, hk])
    simp only [if_neg (hne .srcmounts _ rfl), if_neg (hne .branches _ rfl),
      if_neg (hne .minfreespace _ rfl), if_neg (hne .moveonenospc _ rfl),
      if_neg (hne .dropcacheonclose _ rfl), if_neg (hne .symlinkify _ rfl),
      if_neg (hne .symlinkifyTimeout _ rfl), if_neg (hne .ignorepponrename _ rfl),
      if_neg (hne .securityCapability _ rfl), if_neg (hne .xattr _ rfl),
      if_neg (hne .linkCow _ rfl), if_neg (hne .statfs _ rfl),
      if_neg (hne .statfsIgnore _ rfl), if_neg (hne .directIo _ rfl)]
    exact ⟨EINVAL, rfl⟩
  case h_2 a b attr2 attr3 heq =>
    have hne (k : Key) (str str' : List Char) (hk : k.segments = [str, str']) :
        ¬ (attr2 = str ∧ attr3 = str') := by
      rintro ⟨rfl, rfl⟩
      exact h a b k (by rw [heq, hk])
    by_cases hcat : attr2 = "category".toList
    · rw [if_pos hcat]
      exact setxattrControlfileCategoryPolicy_unknown fun cat hstr =>
        hne (.category cat) _ _ rfl ⟨hcat, hstr.symm⟩
    · rw [if_neg hcat]
      by_cases hfunc : attr2 = "func".toList
      · rw [if_pos hfunc]
        exact setxattrControlfileFuncPolicy_unknown fun f hstr =>
          hne (.func f) _ _ rfl ⟨hfunc, hstr.symm⟩
      · simp only [if_neg hfunc, if_neg (hne .cacheOpen _ _ rfl),
          if_neg (hne .cacheStatfs _ _ rfl), if_neg (hne .cacheAttr _ _ rfl),
          if_neg (hne .cacheEntry _ _ rfl),
          if_neg (hne .cacheNegativeEntry _ _ rfl)]
        exact ⟨EINVAL, rfl⟩
  case h_3 => exact ⟨EINVAL, rfl⟩

/-! ## What a request changes -/

/-- A member of `Settings`; each function has its own policy. -/
inductive Field where
  | branches
  | minfreespace
  | moveonenospc
  | directIo
  | dropcacheonclose
  | symlinkify
  | symlinkifyTimeout
  | nullrw
  | ignorepponrename
  | securityCapability
  | linkCow
  | xattr
  | statfs
  | statfsIgnore
  | policy (f : FuseFunc)
  | openTimeout
  | statvfsTimeout
  | attrTimeout
  | entryTimeout
  | negativeTimeout
deriving DecidableEq

@[reducible] def Field.Val : Field → Type
  | branches => Branches
  | minfreespace | openTimeout | statvfsTimeout => UInt64
  | moveonenospc | directIo | dropcacheonclose | symlinkify | nullrw
  | ignorepponrename | securityCapability | linkCow => Bool
  | symlinkifyTimeout | xattr => ℤ
  | statfs => StatFS
  | statfsIgnore => StatFSIgnore
  | policy _ => Policy
  | attrTimeout | entryTimeout | negativeTimeout => Double

def Settings.get (s : Settings) : (field : Field) → field.Val
  | .branches => s.branches
  | .minfreespace => s.minfreespace
  | .moveonenospc => s.moveonenospc
  | .directIo => s.directIo
  | .dropcacheonclose => s.dropcacheonclose
  | .symlinkify => s.symlinkify
  | .symlinkifyTimeout => s.symlinkifyTimeout
  | .nullrw => s.nullrw
  | .ignorepponrename => s.ignorepponrename
  | .securityCapability => s.securityCapability
  | .linkCow => s.linkCow
  | .xattr => s.xattr
  | .statfs => s.statfs
  | .statfsIgnore => s.statfsIgnore
  | .policy f => s.policies f
  | .openTimeout => s.openTimeout
  | .statvfsTimeout => s.statvfsTimeout
  | .attrTimeout => s.attrTimeout
  | .entryTimeout => s.entryTimeout
  | .negativeTimeout => s.negativeTimeout

def Key.fields : Key → List Field
  | srcmounts | branches => [.branches]
  | minfreespace => [.minfreespace]
  | moveonenospc => [.moveonenospc]
  | dropcacheonclose => [.dropcacheonclose]
  | symlinkify => [.symlinkify]
  | symlinkifyTimeout => [.symlinkifyTimeout]
  | ignorepponrename => [.ignorepponrename]
  | securityCapability => [.securityCapability]
  | xattr => [.xattr]
  | linkCow => [.linkCow]
  | statfs => [.statfs]
  | statfsIgnore => [.statfsIgnore]
  | directIo => [.directIo]
  | category cat =>
      (FuseFunc.fusefuncs.filter fun f => decide (f.category = cat)).map .policy
  | func f => [.policy f]
  | cacheOpen => [.openTimeout]
  | cacheStatfs => [.statvfsTimeout]
  | cacheAttr => [.attrTimeout]
  | cacheEntry => [.entryTimeout]
  | cacheNegativeEntry => [.negativeTimeout]

/-- Storing a value leaves every member the key does not name. -/
theorem Key.get_update {k : Key} {s s' : Settings}
    (h : k.update env attrval s = some s') (field : Field) (hfield : field ∉ k.fields) :
    s'.get field = s.get field := by
  cases k with
  | srcmounts | branches =>
      simp only [update, Option.ite_none_right_eq_some, Option.some.injEq] at h
      obtain ⟨_, rfl⟩ := h
      cases field <;> first | rfl | exact absurd List.mem_cons_self hfield
  | category cat =>
      obtain ⟨p, _, rfl⟩ := Option.map_eq_some_iff.mp h
      cases field with
      | policy f =>
          have hcat : f.category ≠ cat := by
            intro hcat
            refine hfield (List.mem_map_of_mem ?_)
            exact List.mem_filter.mpr ⟨f.mem_fusefuncs, decide_eq_true hcat⟩
          exact if_neg hcat
      | _ => rfl
  | func f =>
      obtain ⟨p, _, rfl⟩ := Option.map_eq_some_iff.mp h
      cases field with
      | policy f' =>
          have hne : f' ≠ f := by
            rintro rfl
            exact hfield List.mem_cons_self
          exact Function.update_of_ne hne p s.policies
      | _ => rfl
  | xattr =>
      obtain ⟨v, _, rfl⟩ := Option.map_eq_some_iff.mp h
      rfl
  | _ =>
      obtain ⟨v, _, rfl⟩ := Option.map_eq_some_iff.mp h
      cases field <;> first | rfl | exact absurd List.mem_cons_self hfield

end Mergerfs
