import Mergerfs.Fuse.ControlKey

/-!
# Requests to the control file

What a `setxattr` of the control file changes, which names it answers to, and what a
`getxattr` of the same name reads afterwards. `setxattrControlfile_cases` says all a
request can do, and everything else follows from it.
-/

namespace Mergerfs

open Errno

variable (env : ControlEnv) (c : Control) (attrname attrval : List Char)
  (flags : UInt32)

/-! ## What one request does -/

def HasKey (attrname : List Char) (k : Key) : Prop :=
  ∃ a b, split '.' attrname = a :: b :: k.segments

def Key.cache (k : Key) (cache : PolicyCache) : PolicyCache :=
  if k.clears then cache.clear else cache

/-- A request is turned down at once, or its value cannot be read, or it is stored. -/
theorem setxattrControlfile_cases :
    (((∀ k, ¬ HasKey attrname k) ∨ flags &&& XATTR_CREATE = XATTR_CREATE) ∧
      ∃ e : Errno, setxattrControlfile env c attrname attrval flags = (e.neg, c)) ∨
    ∃ k, HasKey attrname k ∧ ¬ flags &&& XATTR_CREATE = XATTR_CREATE ∧
      (k.update env attrval c.settings = none ∧
        setxattrControlfile env c attrname attrval flags =
          (EINVAL.neg, ⟨c.settings, k.cache c.openCache⟩) ∨
      ∃ s, k.update env attrval c.settings = some s ∧
        setxattrControlfile env c attrname attrval flags =
          (0, ⟨s, k.cache c.openCache⟩)) := by
  by_cases hkey : ∃ k, HasKey attrname k
  · obtain ⟨k, a, b, hsplit⟩ := hkey
    rw [setxattrControlfile_of_key hsplit, Key.setxattr, Control.settle]
    by_cases hcreate : flags &&& XATTR_CREATE = XATTR_CREATE
    · exact .inl ⟨.inr hcreate, EEXIST, if_pos hcreate⟩
    · refine .inr ⟨k, ⟨a, b, hsplit⟩, hcreate, ?_⟩
      rw [if_neg hcreate]
      cases hupdate : k.update env attrval c.settings with
      | none => exact .inl ⟨rfl, rfl⟩
      | some s => exact .inr ⟨s, rfl, rfl⟩
  · have hno : ∀ k, ¬ HasKey attrname k := fun k hk => hkey ⟨k, hk⟩
    exact .inl ⟨.inl hno,
      setxattrControlfile_of_no_key fun a b k hsplit => hno k ⟨a, b, hsplit⟩⟩

def plainEnv : ControlEnv where
  toPathEnv := plainPaths
  strtod str := (⟨0⟩, str)
  showDouble _ := ['0']
  version := []
  pid := 1

def remembering : Control where
  settings := .initial [⟨.RW, ['/', 'a']⟩, ⟨.RW, ['/', 'b']⟩]
  openCache := Timed.Map.empty.put ['/', 'f'] ⟨1, ['/', 'a']⟩

/-! ## What changes -/

/-- A request that could change the open policy, and is not turned down for its
flags. -/
def CouldReopen (attrname : List Char) (flags : UInt32) : Prop :=
  ¬ flags &&& XATTR_CREATE = XATTR_CREATE ∧
    (HasKey attrname (.func .open) ∨ HasKey attrname (.category .search))

theorem Key.clears_congr {k k' : Key} (h : k.segments = k'.segments)
    (hk' : k'.clears = true) : k.clears = true := by
  obtain rfl | rfl : k' = .func .open ∨ k' = .category .search := of_decide_eq_true hk'
  all_goals
    revert h
    cases k with
    | category cat => cases cat <;> decide
    | func f => cases f <;> decide
    | _ => decide

/-- A name has one key at most, so whether the cache is dropped can be told from any. -/
theorem HasKey.clears_iff {k : Key} (hk : HasKey attrname k) :
    k.clears = true ↔ HasKey attrname (.func .open) ∨ HasKey attrname (.category .search) := by
  constructor
  · intro h
    rcases of_decide_eq_true h with rfl | rfl
    · exact .inl hk
    · exact .inr hk
  · obtain ⟨a, b, hsplit⟩ := hk
    have hsame : ∀ k' : Key, HasKey attrname k' → k.segments = k'.segments := by
      rintro k' ⟨a', b', hsplit'⟩
      rw [hsplit] at hsplit'
      exact (List.cons.inj (List.cons.inj hsplit').2).2
    rintro (h | h)
    · exact Key.clears_congr (hsame _ h) rfl
    · exact Key.clears_congr (hsame _ h) rfl

theorem HasKey.cache_eq {k : Key} (hk : HasKey attrname k)
    (hflags : ¬ flags &&& XATTR_CREATE = XATTR_CREATE) (cache : PolicyCache) :
    (CouldReopen attrname flags → k.cache cache = cache.clear) ∧
      (¬ CouldReopen attrname flags → k.cache cache = cache) := by
  have hiff : k.clears = true ↔ CouldReopen attrname flags := by
    rw [hk.clears_iff attrname, CouldReopen, and_iff_right hflags]
  exact ⟨fun h => if_pos (hiff.mpr h), fun h => if_neg (mt hiff.mp h)⟩

/-- A refused request leaves every setting, an accepted one every setting its key does
not name; and the entries of the cache of the open policy are all dropped by a request
that could change that policy, and kept by every other. -/
theorem setxattrControlfile_changes :
    ((setxattrControlfile env c attrname attrval flags).1 < 0 →
      (setxattrControlfile env c attrname attrval flags).2.settings = c.settings) ∧
    (0 ≤ (setxattrControlfile env c attrname attrval flags).1 →
      (setxattrControlfile env c attrname attrval flags).1 = 0 ∧
      ∃ k, HasKey attrname k ∧ ∀ field, field ∉ k.fields →
        (setxattrControlfile env c attrname attrval flags).2.settings.get field =
          c.settings.get field) ∧
    (CouldReopen attrname flags →
      (setxattrControlfile env c attrname attrval flags).2.openCache =
        c.openCache.clear) ∧
    (¬ CouldReopen attrname flags →
      (setxattrControlfile env c attrname attrval flags).2.openCache =
        c.openCache) := by
  rcases setxattrControlfile_cases env c attrname attrval flags with
    ⟨hturned, e, he⟩ | ⟨k, hk, hcreate, ⟨_, he⟩ | ⟨s, hupdate, he⟩⟩
  · rw [he]
    refine ⟨fun _ => rfl, fun h => absurd h (not_le.mpr e.neg_lt_zero), ?_, fun _ => rfl⟩
    rintro ⟨hflags, hkey⟩
    rcases hturned with hno | hcreate
    · exact absurd hkey (not_or.mpr ⟨hno _, hno _⟩)
    · exact absurd hcreate hflags
  · rw [he]
    exact ⟨fun _ => rfl, fun h => absurd h (not_le.mpr EINVAL.neg_lt_zero),
      hk.cache_eq attrname flags hcreate c.openCache⟩
  · rw [he]
    exact ⟨fun h => absurd h (lt_irrefl 0),
      fun _ => ⟨rfl, k, hk, fun field hfield => Key.get_update hupdate field hfield⟩,
      hk.cache_eq attrname flags hcreate c.openCache⟩

/-- A policy there is not is refused, and the entry is gone. -/
theorem setxattrControlfile_refused_clears :
    (setxattrControlfile plainEnv remembering "user.mergerfs.func.open".toList
      "bogus".toList 0).1 = EINVAL.neg ∧
    (setxattrControlfile plainEnv remembering "user.mergerfs.func.open".toList
      "bogus".toList 0).2.openCache ['/', 'f'] = none ∧
    remembering.openCache ['/', 'f'] = some ⟨1, ['/', 'a']⟩ := by
  refine ⟨?_, ?_, ?_⟩ <;> decide

/-! ## Which names are answered to -/

def ControlName (attrname : List Char) : Prop :=
  ∃ k : Key, split '.' attrname = "user".toList :: "mergerfs".toList :: k.segments

def Key.accepts (env : ControlEnv) (attrval : List Char) : Key → Bool
  | srcmounts | branches => decide ((splitAttrval attrval).1 ∈ instructions)
  | minfreespace | cacheOpen | cacheStatfs => (toUint64T attrval).isSome
  | moveonenospc | dropcacheonclose | symlinkify | ignorepponrename
  | securityCapability | linkCow | directIo => (parseBool attrval).isSome
  | symlinkifyTimeout => (toTimeT attrval).isSome
  | xattr => (parseXattr attrval).isSome
  | statfs => (parseStatfs attrval).isSome
  | statfsIgnore => (parseStatfsignore attrval).isSome
  | category _ | func _ => (Policy.find attrval).isSome
  | cacheAttr | cacheEntry | cacheNegativeEntry => (toDouble env attrval).isSome

theorem Key.isSome_update (k : Key) (s : Settings) :
    (k.update env attrval s).isSome = k.accepts env attrval := by
  cases k with
  | srcmounts | branches =>
      simp only [update, accepts]
      split_ifs with h <;> simp [h]
  | _ => exact Option.isSome_map

theorem getxattrControlfile_of_foreign (count : ℕ)
    (h : ∀ attr, split '.' attrname ≠ "user".toList :: "mergerfs".toList :: attr) :
    getxattrControlfile env c attrname count = (ENOATTR.neg, []) := by
  unfold getxattrControlfile
  split
  case h_1 attr0 attr1 attr heq =>
    refine if_pos ?_
    by_contra hboth
    obtain ⟨h0, h1⟩ := not_or.mp hboth
    exact h attr (by rw [heq, not_not.mp h0, not_not.mp h1])
  case h_2 => rfl

/-- Only control names are accepted and all others are refused without effect, exactly
if a name that has a key but another start comes with `XATTR_CREATE`, or with a value
the key does not take while there is no entry of the open policy to drop. -/
theorem setxattrControlfile_namespace_iff :
    (((setxattrControlfile env c attrname attrval flags).1 = 0 →
        ControlName attrname) ∧
      (¬ ControlName attrname →
        (setxattrControlfile env c attrname attrval flags).1 < 0 ∧
        (setxattrControlfile env c attrname attrval flags).2 = c)) ↔
    ∀ k, HasKey attrname k → ControlName attrname ∨
      flags &&& XATTR_CREATE = XATTR_CREATE ∨
      k.accepts env attrval = false ∧
        (k.clears = true → c.openCache.clear = c.openCache) := by
  constructor
  · rintro ⟨_, hother⟩ k ⟨a, b, hsplit⟩
    by_cases hname : ControlName attrname
    · exact .inl hname
    · refine .inr ?_
      by_cases hcreate : flags &&& XATTR_CREATE = XATTR_CREATE
      · exact .inl hcreate
      · refine .inr ?_
        obtain ⟨hneg, hsame⟩ := hother hname
        rw [setxattrControlfile_of_key hsplit, Key.setxattr, Control.settle,
          if_neg hcreate] at hneg hsame
        rw [← k.isSome_update env attrval c.settings]
        cases hupdate : k.update env attrval c.settings with
        | none =>
            rw [hupdate] at hsame
            refine ⟨rfl, fun hclears => ?_⟩
            have hcache := congrArg Control.openCache hsame
            simpa [hclears] using hcache
        | some s =>
            rw [hupdate] at hneg
            exact absurd hneg (lt_irrefl 0)
  · intro hcond
    rcases setxattrControlfile_cases env c attrname attrval flags with
      ⟨_, e, he⟩ | ⟨k, hk, hcreate, hrest⟩
    · rw [he]
      exact ⟨fun h => absurd h (ne_of_lt e.neg_lt_zero),
        fun _ => ⟨e.neg_lt_zero, rfl⟩⟩
    · rcases hcond k hk with hname | hcreate' | ⟨haccepts, hclear⟩
      · exact ⟨fun _ => hname, fun hno => absurd hname hno⟩
      · exact absurd hcreate' hcreate
      · rw [← k.isSome_update env attrval c.settings] at haccepts
        rcases hrest with ⟨_, he⟩ | ⟨s, hupdate, _⟩
        · have hcache : k.cache c.openCache = c.openCache := by
            unfold Key.cache
            split_ifs with hclears
            · exact hclear hclears
            · rfl
          rw [he, hcache]
          exact ⟨fun h => absurd h (ne_of_lt EINVAL.neg_lt_zero),
            fun _ => ⟨EINVAL.neg_lt_zero, rfl⟩⟩
        · rw [hupdate] at haccepts
          cases haccepts

/-- Another name than that of the key sets it, though it cannot be read by that name. -/
theorem setxattrControlfile_foreign :
    (setxattrControlfile plainEnv remembering "user.foo.moveonenospc".toList
      "true".toList 0).1 = 0 ∧
    remembering.settings.moveonenospc = false ∧
    (setxattrControlfile plainEnv remembering "user.foo.moveonenospc".toList
      "true".toList 0).2.settings.moveonenospc = true ∧
    ¬ ControlName "user.foo.moveonenospc".toList ∧
    ∀ count, getxattrControlfile plainEnv remembering "user.foo.moveonenospc".toList
      count = (ENOATTR.neg, []) := by
  have hsplit : split '.' "user.foo.moveonenospc".toList =
      ["user".toList, "foo".toList, "moveonenospc".toList] := by decide
  have hforeign : ∀ attr, split '.' "user.foo.moveonenospc".toList ≠
      "user".toList :: "mergerfs".toList :: attr := by
    intro attr h
    rw [hsplit] at h
    injection h with _ h
    injection h with h _
    exact absurd h (by decide)
  refine ⟨by decide, by decide, by decide, fun ⟨k, hk⟩ => hforeign _ hk, ?_⟩
  intro count
  exact getxattrControlfile_of_foreign plainEnv remembering _ count hforeign

/-! ## Reading back -/

/-- The keys of one value that is not floating point. -/
def Key.scalar : Key → Bool
  | srcmounts | branches | cacheAttr | cacheEntry | cacheNegativeEntry => false
  | _ => true

/-- The text of the value read from a string, as `getxattr` writes such a value. -/
def Key.canonical (attrval : List Char) : Key → Option (List Char)
  | minfreespace | cacheOpen | cacheStatfs =>
      (toUint64T attrval).map fun v => showNat v.toNat
  | moveonenospc | dropcacheonclose | symlinkify | ignorepponrename
  | securityCapability | linkCow | directIo => (parseBool attrval).map showBool
  | symlinkifyTimeout => (toTimeT attrval).map showInt
  | xattr => (parseXattr attrval).map showErrno
  | statfs => (parseStatfs attrval).map StatFS.str
  | statfsIgnore => (parseStatfsignore attrval).map StatFSIgnore.str
  | category _ | func _ => (Policy.find attrval).map Policy.str
  | srcmounts | branches | cacheAttr | cacheEntry | cacheNegativeEntry => none

theorem strLe_refl (s : List Char) : strLe s s = true := by
  induction s with
  | nil => rfl
  | cons a s ih => simp [strLe, ih]

theorem sortUnique_replicate (n : ℕ) (x : List Char) :
    sortUnique (List.replicate (n + 1) x) = [x] := by
  have hsorted : (List.replicate (n + 1) x).insertionSort
      (fun s t => strLe s t = true) = List.replicate (n + 1) x :=
    List.Pairwise.insertionSort_eq (List.pairwise_replicate.mpr (.inr (strLe_refl x)))
  have hunique : ∀ m, (List.replicate m x).destutter' (· ≠ ·) x = [x] := by
    intro m
    induction m with
    | zero => rfl
    | succ m ih =>
        rw [List.replicate_succ, List.destutter'_cons_neg _ (not_not.mpr rfl), ih]
  rw [sortUnique, hsorted]
  exact hunique n

theorem getxattrControlfileCategoryPolicy_eq {s : Settings} {cat : Category}
    {p : Policy} (h : ∀ f : FuseFunc, f.category = cat → s.policies f = p) :
    getxattrControlfileCategoryPolicy s cat.str = p.str := by
  have hfind : Category.find cat.str = some cat := Category.find_eq_some_iff.mpr rfl
  have hlen : ∃ n, (FuseFunc.fusefuncs.filter fun f =>
      decide (f.category = cat)).length = n + 1 := by
    cases cat <;> exact ⟨_, rfl⟩
  obtain ⟨n, hn⟩ := hlen
  have hmap : ((FuseFunc.fusefuncs.filter fun f => decide (f.category = cat)).map
      fun f => (s.policies f).str) = List.replicate (n + 1) p.str := by
    rw [List.eq_replicate_iff, List.length_map]
    refine ⟨hn, ?_⟩
    intro str hstr
    obtain ⟨f, hf, rfl⟩ := List.mem_map.mp hstr
    rw [h f (of_decide_eq_true (List.mem_filter.mp hf).2)]
  simp only [getxattrControlfileCategoryPolicy, hfind, hmap, sortUnique_replicate]
  simp [join]

theorem parseXattr_showErrno {e : ℤ} (h : showErrno e ≠ "ERROR".toList) :
    parseXattr (showErrno e) = some e := by
  unfold showErrno at h ⊢
  split_ifs at h ⊢ with h₁ h₂ h₃
  · rw [h₁]
    rfl
  · rw [h₂]
    rfl
  · rw [h₃]
    rfl
  · exact absurd rfl h

theorem showErrno_ne_error {v : ℤ} (hv : parseXattr attrval = some v) :
    showErrno v ≠ "ERROR".toList := by
  unfold parseXattr at hv
  split_ifs at hv
  all_goals
    obtain rfl := Option.some.inj hv
    decide

theorem showErrno_eq_iff {v e : ℤ} (hv : parseXattr attrval = some v) :
    showErrno e = showErrno v ↔ e = v := by
  refine ⟨?_, congrArg showErrno⟩
  intro h
  have hne := showErrno_ne_error attrval hv
  have he : parseXattr (showErrno e) = some e := parseXattr_showErrno (h ▸ hne)
  rw [h, parseXattr_showErrno hne] at he
  exact (Option.some.inj he).symm

/-- What is read of a key after a value was stored is the text of that value, but for
`xattr`, where it is that of the value before. -/
theorem Key.read_update {k : Key} {s s' : Settings} (hk : k.scalar = true)
    (h : k.update env attrval s = some s') :
    ∃ text, k.canonical attrval = some text ∧
      (getxattrControlfileValue env s' k.segments = text ↔
        (k = .xattr → parseXattr attrval = some s.xattr)) := by
  cases k with
  | srcmounts | branches | cacheAttr | cacheEntry | cacheNegativeEntry => cases hk
  | category cat =>
      obtain ⟨p, hp, rfl⟩ := Option.map_eq_some_iff.mp h
      refine ⟨p.str, by simp [canonical, hp], ?_⟩
      refine iff_of_true ?_ (fun heq => by cases heq)
      exact getxattrControlfileCategoryPolicy_eq fun f hf => if_pos hf
  | func f =>
      obtain ⟨p, hp, rfl⟩ := Option.map_eq_some_iff.mp h
      refine ⟨p.str, by simp [canonical, hp], ?_⟩
      refine iff_of_true ?_ (fun heq => by cases heq)
      have hfind : FuseFunc.find f.str = some f := FuseFunc.find_eq_some_iff.mpr rfl
      have hread : ∀ t : Settings,
          getxattrControlfileFusefuncPolicy t f.str = (t.policies f).str := by
        intro t
        simp only [getxattrControlfileFusefuncPolicy, hfind]
      exact (hread _).trans (congrArg Policy.str (Function.update_self f p s.policies))
  | xattr =>
      obtain ⟨v, hv, rfl⟩ := Option.map_eq_some_iff.mp h
      refine ⟨showErrno v, by simp [canonical, hv], ?_⟩
      have hread : getxattrControlfileValue env s Key.xattr.segments =
          showErrno s.xattr := rfl
      rw [hread, showErrno_eq_iff attrval hv, hv]
      simp [eq_comm]
  | _ =>
      obtain ⟨v, hv, rfl⟩ := Option.map_eq_some_iff.mp h
      refine ⟨_, Option.map_eq_some_iff.mpr ⟨v, hv, rfl⟩, ?_⟩
      exact iff_of_true rfl (fun heq => by cases heq)

theorem Key.segments_clean (k : Key) :
    ∀ part ∈ "user".toList :: "mergerfs".toList :: k.segments,
      part ≠ [] ∧ nul ∉ part ∧ '.' ∉ part := by
  cases k with
  | category cat => cases cat <;> decide
  | func f => cases f <;> decide
  | _ => decide

theorem Key.split_name (k : Key) :
    split '.' k.name = "user".toList :: "mergerfs".toList :: k.segments := by
  have hlast : ("user".toList :: "mergerfs".toList :: k.segments).getLast? ≠ some [] := by
    intro h
    exact (k.segments_clean [] (List.mem_of_getLast? h)).1 rfl
  exact split_join (by decide) (List.cons_ne_nil _ _) hlast
    fun part hpart => (k.segments_clean part hpart).2

/-- `getxattr` of a key delivers the text `text` to a buffer that can hold it exactly if
that is what is read of the key. -/
theorem getxattrControlfile_eq_iff (k : Key) (text : List Char) (hne : text ≠ [])
    (count : ℕ) (hcount : text.length ≤ count) :
    getxattrControlfile env c k.name count = (toInt text.length, text) ↔
      getxattrControlfileValue env c.settings k.segments = text := by
  have hpos : 0 < text.length := List.length_pos_iff.mpr hne
  have huser : ¬ ("user".toList ≠ "user".toList ∨
      "mergerfs".toList ≠ "mergerfs".toList) := by decide
  have hempty : ∀ rv : ℤ, ((rv, []) : ℤ × List Char) ≠ (toInt text.length, text) :=
    fun rv h => hne (Prod.mk.inj h).2.symm
  unfold getxattrControlfile
  rw [k.split_name]
  simp only [if_neg huser]
  generalize getxattrControlfileValue env c.settings k.segments = value
  constructor
  · intro h
    split_ifs at h with h₁ h₂ h₃
    · exact absurd h (hempty _)
    · exact absurd h (hempty _)
    · exact absurd h (hempty _)
    · exact (Prod.mk.inj h).2
  · rintro rfl
    rw [if_neg hne, if_neg (by omega), if_neg (by omega)]

theorem Key.canonical_ne_nil {k : Key} {text : List Char}
    (h : k.canonical attrval = some text) : text ≠ [] := by
  cases k with
  | srcmounts | branches | cacheAttr | cacheEntry | cacheNegativeEntry => cases h
  | minfreespace | cacheOpen | cacheStatfs =>
      obtain ⟨v, _, rfl⟩ := Option.map_eq_some_iff.mp h
      exact showNat_ne_nil _
  | symlinkifyTimeout =>
      obtain ⟨v, _, rfl⟩ := Option.map_eq_some_iff.mp h
      exact showInt_ne_nil v
  | xattr =>
      obtain ⟨v, _, rfl⟩ := Option.map_eq_some_iff.mp h
      unfold showErrno
      split_ifs <;> decide
  | _ =>
      obtain ⟨v, _, rfl⟩ := Option.map_eq_some_iff.mp h
      cases v <;> decide

/-- After an accepted `setxattr` of a key `getxattr` delivers the text of the value
exactly if the key is not `xattr`, or the value of `xattr` was there before. -/
theorem setxattr_getxattr_iff (k : Key) (hk : k.scalar = true)
    (hset : (setxattrControlfile env c k.name attrval flags).1 = 0) :
    ∃ text, k.canonical attrval = some text ∧
      ∀ count, text.length ≤ count →
        (getxattrControlfile env (setxattrControlfile env c k.name attrval flags).2
            k.name count = (toInt text.length, text) ↔
          (k = .xattr → parseXattr attrval = some c.settings.xattr)) := by
  rw [setxattrControlfile_of_key k.split_name, Key.setxattr, Control.settle] at hset ⊢
  by_cases hcreate : flags &&& XATTR_CREATE = XATTR_CREATE
  · rw [if_pos hcreate] at hset
    exact absurd hset (ne_of_lt EEXIST.neg_lt_zero)
  · rw [if_neg hcreate] at hset ⊢
    cases hupdate : k.update env attrval c.settings with
    | none =>
        rw [hupdate] at hset
        exact absurd hset (ne_of_lt EINVAL.neg_lt_zero)
    | some s =>
        obtain ⟨text, htext, hread⟩ := Key.read_update env attrval hk hupdate
        refine ⟨text, htext, fun count hcount => ?_⟩
        rw [getxattrControlfile_eq_iff env _ k text (Key.canonical_ne_nil attrval htext)
          count hcount]
        exact hread

/-- Four kibibytes are read back as bytes. -/
theorem setxattr_getxattr_iff_minfreespace :
    (setxattrControlfile plainEnv remembering Key.minfreespace.name "4k".toList 0).1 = 0 ∧
    ∃ text, Key.minfreespace.canonical "4k".toList = some text ∧
      ∀ count, text.length ≤ count →
        (getxattrControlfile plainEnv
            (setxattrControlfile plainEnv remembering Key.minfreespace.name
              "4k".toList 0).2 Key.minfreespace.name count =
            (toInt text.length, text) ↔
          (Key.minfreespace = .xattr →
            parseXattr "4k".toList = some remembering.settings.xattr)) := by
  have hset : (setxattrControlfile plainEnv remembering Key.minfreespace.name
      "4k".toList 0).1 = 0 := by decide
  exact ⟨hset, setxattr_getxattr_iff plainEnv remembering _ 0 .minfreespace rfl hset⟩

/-- A value of `xattr` is accepted, and the one before is read. -/
theorem setxattr_xattr_lost :
    (setxattrControlfile plainEnv remembering "user.mergerfs.xattr".toList
      "nosys".toList 0).1 = 0 ∧
    getxattrControlfile plainEnv
      (setxattrControlfile plainEnv remembering "user.mergerfs.xattr".toList
        "nosys".toList 0).2 "user.mergerfs.xattr".toList 16 =
      (11, "passthrough".toList) := by
  refine ⟨?_, ?_⟩ <;> decide

end Mergerfs
