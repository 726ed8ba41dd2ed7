import Mergerfs.Fs.Clonepath

/-!
# The metadata of cloned directories

The metadata of a new directory are set before `fs::clonepath` goes on to the next
level, which makes a directory in it and so changes its time of last change again. The
mode is given to `mkdir` and never set afterwards.

What a path has to make is known before it is cloned: `toMake` are the parts of the path
that lead to a place where nothing is.
-/

namespace Mergerfs

open Errno

/-! ## The directories that are missing -/

def toMake (t : BranchTree) (relative : Path) : List Path :=
  if _h : relative = [] then []
  else
    let qs := toMake t (dirname relative)
    if (t.entry (location relative)).isSome ∨
        (qs.any fun q => location q == location relative) then qs
    else qs ++ [relative]
termination_by relative.length
decreasing_by exact length_dirname_lt _h

theorem toMake_nil (t : BranchTree) : toMake t [] = [] := by
  rw [toMake, dif_pos rfl]

theorem toMake_of_present {t : BranchTree} {relative : Path}
    (hrel : relative ≠ []) (h : (t.entry (location relative)).isSome ∨
      ∃ q ∈ toMake t (dirname relative), location q = location relative) :
    toMake t relative = toMake t (dirname relative) := by
  rw [toMake, dif_neg hrel]
  refine if_pos (h.imp_right ?_)
  rintro ⟨q, hq, hloc⟩
  exact List.any_eq_true.mpr ⟨q, hq, beq_iff_eq.mpr hloc⟩

theorem toMake_of_missing {t : BranchTree} {relative : Path}
    (hrel : relative ≠ []) (h : t.entry (location relative) = none)
    (hqs : ∀ q ∈ toMake t (dirname relative), location q ≠ location relative) :
    toMake t relative = toMake t (dirname relative) ++ [relative] := by
  rw [toMake, dif_neg hrel]
  refine if_neg ?_
  rintro (hsome | hany)
  · rw [h] at hsome
    cases hsome
  · obtain ⟨q, hq, hloc⟩ := List.any_eq_true.mp hany
    exact hqs q hq (beq_iff_eq.mp hloc)

/-! ## What is set, and what is changed again -/

def childOf (q q' : Path) : Bool :=
  location q' != [] && (location q').dropLast == location q

theorem childOf_iff {q q' : Path} : childOf q q' = true ↔
    location q' ≠ [] ∧ (location q').dropLast = location q := by
  rw [childOf, Bool.and_eq_true, bne_iff_ne, beq_iff_eq]

def lastChild (qs : List Path) (q : Path) : Option Path :=
  (qs.filter (childOf q)).getLast?

theorem lastChild_concat_of_childOf {qs : List Path} {q q' : Path}
    (h : childOf q q' = true) : lastChild (qs ++ [q']) q = some q' := by
  rw [lastChild, List.filter_append, List.filter_cons_of_pos h, List.filter_nil,
    List.getLast?_concat]

theorem lastChild_concat_of_not_childOf {qs : List Path} {q q' : Path}
    (h : ¬ childOf q q' = true) : lastChild (qs ++ [q']) q = lastChild qs q := by
  rw [lastChild, List.filter_append, List.filter_cons_of_neg h, List.filter_nil,
    List.append_nil, lastChild]

theorem lastChild_eq_none {qs : List Path} {q : Path}
    (h : ∀ q' ∈ qs, ¬ childOf q q' = true) : lastChild qs q = none := by
  rw [lastChild, List.filter_eq_nil_iff.mpr h, List.getLast?_nil]

structure MetadataSucceeds (ans : LevelAnswers) (st : Metadata) : Prop where
  attrCopy : ans.attrCopy = .ok ()
  xattrCopy : ans.xattrCopy = .ok ()
  lchown : (lchownCheckOnError ans st.owner ans.owner).1 = .ok ()
  utime : ans.utime = .ok ()

theorem lchownCheckOnError_ok {ans : LevelAnswers} {st owner : UInt32 × UInt32}
    (h : (lchownCheckOnError ans st owner).1 = .ok ()) :
    lchownCheckOnError ans st owner = (.ok (), st) := by
  unfold lchownCheckOnError at h ⊢
  cases hchown : ans.lchown with
  | ok u => rfl
  | error e =>
      rw [hchown] at h
      cases hstat : ans.lstat with
      | error e' =>
          rw [hstat] at h
          cases h
      | ok u =>
          rw [hstat] at h
          dsimp only at h ⊢
          split_ifs at h ⊢ with hdiff
          -- the call failed, but the owner is the one it was to set
          rw [not_or, not_not, not_not] at hdiff
          rw [Prod.ext hdiff.1 hdiff.2]

theorem copyMetadata_of_succeeds {ans : LevelAnswers} {st : Metadata}
    (h : MetadataSucceeds ans st) (returnMetadataErrors : Bool) :
    copyMetadata ans st returnMetadataErrors (newMetadata ans st.mode) =
      (.ok (), { mode := ans.mode st.mode, owner := st.owner, times := st.times,
                 attrs := st.attrs, xattrs := overlay st.xattrs ans.xattrs }) := by
  have hattr : ∀ m, attrCopy ans st m = (.ok (), { m with attrs := st.attrs }) := by
    intro m
    rw [attrCopy, h.attrCopy]
  have hxattr : ∀ m, xattrCopy ans st m =
      (.ok (), { m with xattrs := overlay st.xattrs m.xattrs }) := by
    intro m
    rw [xattrCopy, h.xattrCopy]
  have hutime : ∀ m, utimeStat ans st m = (.ok (), { m with times := st.times }) := by
    intro m
    rw [utimeStat, h.utime]
  have hchown := lchownCheckOnError_ok h.lchown
  simp only [copyMetadata, newMetadata, hattr, hxattr, hutime, hchown, fails,
    Except.isOk, Except.toBool, Bool.not_true, Bool.and_false, Bool.false_eq_true,
    if_false]

/-- What the directories `qs` are like after they were made, one after the other. -/
def Described (ans : Path → LevelAnswers) (src t : BranchTree) (qs : List Path) :
    Prop :=
  ∀ q ∈ qs, ∃ st n, src.entry (location q) = some st ∧
    t.entry (location q) = some n ∧
    n.data.mode = (ans q).mode st.data.mode ∧ n.data.owner = st.data.owner ∧
    n.data.times.atime = st.data.times.atime ∧
    n.data.times.mtime =
      ((lastChild qs q).map fun q' => (ans q').now).getD st.data.times.mtime

section Described

variable {B : Type*} {ans : Path → LevelAnswers} {fromsrc tosrc : B} {relative : Path}
  {s s₁ s' : CloneState B} {qs : List Path}

/-- What was made before is as it was, unless the new directory is in it. -/
theorem Described.snoc (hne : fromsrc ≠ tosrc)
    (hadded : Added fromsrc tosrc (dirname relative) s s₁ qs)
    {returnMetadataErrors : Bool} {rv : Rv} {st : BranchNode}
    (hlevel : LevelMade (ans relative) fromsrc tosrc relative returnMetadataErrors s₁ s'
      rv st)
    (hsucc : MetadataSucceeds (ans relative) st.data)
    (h : Described ans (s.tree fromsrc) (s₁.tree tosrc) qs) :
    Described ans (s.tree fromsrc) (s'.tree tosrc) (qs ++ [relative]) := by
  have hgrown := hlevel.grown
  have hst := hlevel.source
  rw [hadded.others fromsrc hne] at hst
  rw [copyMetadata_of_succeeds hsucc] at hgrown
  intro q hq
  rcases List.mem_append.mp hq with hq | hq
  · obtain ⟨st₀, n, hst₀, hn, hmode, howner, hatime, hmtime⟩ := h q hq
    have hkept := hgrown.kept _ n hn
    by_cases hchild : childOf q relative = true
    · rw [if_pos (childOf_iff.mp hchild).2.symm] at hkept
      refine ⟨st₀, _, hst₀, hkept, hmode, howner, hatime, ?_⟩
      rw [lastChild_concat_of_childOf hchild]
      rfl
    · have hloc : location q ≠ (location relative).dropLast := by
        intro hloc
        apply hchild
        refine childOf_iff.mpr ⟨?_, hloc.symm⟩
        -- the root is its own parent, but was not there
        intro hroot
        rw [hroot, List.dropLast_nil, ← hroot] at hloc
        exact DirTree.Tree.ne_of_entry hgrown.free hn hloc
      rw [if_neg hloc] at hkept
      rw [lastChild_concat_of_not_childOf hchild]
      exact ⟨st₀, n, hst₀, hkept, hmode, howner, hatime, hmtime⟩
  · obtain rfl := List.mem_singleton.mp hq
    refine ⟨st, _, hst, hgrown.entry, rfl, rfl, rfl, ?_⟩
    -- nothing can have been made in a directory that was not there
    have hnone : lastChild (qs ++ [q]) q = none := by
      apply lastChild_eq_none
      intro q' hq' hchild
      obtain ⟨hroot, hdrop⟩ := childOf_iff.mp hchild
      rcases List.mem_append.mp hq' with hq' | hq'
      · obtain ⟨_, n, hn, _⟩ := hadded.isDir q' hq'
        have hsplit := List.dropLast_append_getLast hroot
        rw [hdrop] at hsplit
        have hsome : ((s₁.tree tosrc).entry
            (location q ++ [(location q').getLast hroot])).isSome := by
          rw [hsplit, hn]
          rfl
        obtain ⟨_, hpar, _⟩ := (s₁.tree tosrc).parent hsome
        rw [hgrown.free] at hpar
        cases hpar
      · obtain rfl := List.mem_singleton.mp hq'
        have hlen := congrArg List.length hdrop
        rw [List.length_dropLast] at hlen
        have hpos := List.length_pos_iff.mpr hroot
        omega
    rw [hnone]
    rfl

end Described

section Run

variable {B : Type*} [DecidableEq B] {ans : Path → LevelAnswers} {fromsrc tosrc : B}

theorem clonepath_described (hne : fromsrc ≠ tosrc) {relative : Path}
    {returnMetadataErrors : Bool} {rv : Rv} {s s' : CloneState B}
    (h : clonepath ans fromsrc tosrc relative returnMetadataErrors s = (rv, s'))
    (hrv : rv = .ok ()) :
    Added fromsrc tosrc relative s s' (toMake (s.tree tosrc) relative) ∧
      ((∀ q ∈ toMake (s.tree tosrc) relative, ∀ st,
        (s.tree fromsrc).entry (location q) = some st →
          MetadataSucceeds (ans q) st.data) →
        Described ans (s.tree fromsrc) (s'.tree tosrc)
          (toMake (s.tree tosrc) relative)) := by
  revert hrv
  refine clonepathWith_induction (motive := fun p rv s' => rv = .ok () →
    Added fromsrc tosrc p s s' (toMake (s.tree tosrc) p) ∧
      ((∀ q ∈ toMake (s.tree tosrc) p, ∀ st,
        (s.tree fromsrc).entry (location q) = some st →
          MetadataSucceeds (ans q) st.data) →
        Described ans (s.tree fromsrc) (s'.tree tosrc)
          (toMake (s.tree tosrc) p))) ?_ nofun ?_ h
  · rw [toMake_nil]
    exact fun _ => ⟨.refl .., fun _ => nofun⟩
  · intro p _ rv₁ s₁ s₂ hp ih hlevel hok
    obtain ⟨hadded, hdescribed⟩ := ih rfl
    rcases cloneLevel_cases hlevel with ⟨rfl, hreaches⟩ | ⟨st, hmade⟩
    · -- the directory was there
      have hsome := hreaches hok _ List.prefix_rfl
      obtain ⟨n, hn⟩ := Option.isSome_iff_exists.mp hsome
      have hpresent : ((s.tree tosrc).entry (location p)).isSome ∨
          ∃ q ∈ toMake (s.tree tosrc) (dirname p), location q = location p := by
        rcases hadded.entry_cases hn with ⟨n₀, t, hn₀, _⟩ | hq
        · left
          rw [location, hn₀]
          rfl
        · exact .inr hq
      rw [toMake_of_present hp hpresent]
      exact ⟨hadded.of_ancestor (ancestorOrSelf_dirname p), hdescribed⟩
    · have hnew := hadded.snoc hne hp hmade
      have hfree := hadded.free hmade.grown.free
      have hother : ∀ q ∈ toMake (s.tree tosrc) (dirname p),
          location q ≠ location p := by
        intro q hq
        obtain ⟨_, n, hn, _⟩ := hadded.isDir q hq
        exact DirTree.Tree.ne_of_entry hmade.grown.free hn
      rw [toMake_of_missing hp hfree hother]
      refine ⟨hnew, fun hsucc => ?_⟩
      have hst := hmade.source
      rw [hadded.others fromsrc hne] at hst
      exact .snoc hne hadded hmade (hsucc p (by simp) st hst)
        (hdescribed fun q hq => hsucc q (List.mem_append_left _ hq))

end Run

/-! ## When they are those of the source -/

def Matches (src t : BranchTree) (l : List Path) : Prop :=
  ∃ st n, src.entry l = some st ∧ t.entry l = some n ∧
    n.data.mode = st.data.mode ∧ n.data.owner = st.data.owner ∧
    n.data.times.atime = st.data.times.atime ∧
    n.data.times.mtime = st.data.times.mtime

/-- Every directory of `qs` is given the mode that is asked for, and what is made in it
is last made at the very time of its original's last change. -/
def Undisturbing (ans : Path → LevelAnswers) (src : BranchTree) (qs : List Path) :
    Prop :=
  ∀ q ∈ qs, ∀ st, src.entry (location q) = some st →
    (ans q).mode st.data.mode = st.data.mode ∧
      ∀ q', lastChild qs q = some q' → (ans q').now = st.data.times.mtime

theorem Described.matches_iff {ans : Path → LevelAnswers} {src t : BranchTree}
    {qs : List Path} (h : Described ans src t qs) :
    (∀ q ∈ qs, Matches src t (location q)) ↔ Undisturbing ans src qs := by
  refine forall₂_congr fun q hq => ?_
  obtain ⟨st, n, hst, hn, hmode, howner, hatime, hmtime⟩ := h q hq
  constructor
  · rintro ⟨st', n', hst', hn', hmode', _, _, hmtime'⟩ st'' hst''
    cases hst.symm.trans hst'
    cases hst.symm.trans hst''
    cases hn.symm.trans hn'
    refine ⟨hmode.symm.trans hmode', ?_⟩
    intro q' hq'
    rw [hq'] at hmtime
    exact hmtime.symm.trans hmtime'
  · intro hund
    obtain ⟨hsame, htime⟩ := hund st hst
    refine ⟨st, n, hst, hn, hmode.trans hsame, howner, hatime, ?_⟩
    cases hlast : lastChild qs q with
    | none =>
        rw [hlast] at hmtime
        exact hmtime
    | some q' =>
        rw [hlast] at hmtime
        exact hmtime.trans (htime q' hlast)

/-- The directories a path has made carry the metadata of their originals exactly if
their modes are the ones asked for and nothing that is made in one of them changes the
time that was set. -/
theorem clonepath_metadata_iff {B : Type*} [DecidableEq B] (ans : Path → LevelAnswers)
    {fromsrc tosrc : B} (hne : fromsrc ≠ tosrc) (relative : Path)
    (returnMetadataErrors : Bool) {s s' : CloneState B} (hs : s.made = [])
    (h : clonepath ans fromsrc tosrc relative returnMetadataErrors s = (.ok (), s'))
    (hsucc : ∀ q ∈ s'.made, ∀ st, (s.tree fromsrc).entry (location q) = some st →
      MetadataSucceeds (ans q) st.data) :
    (∀ q ∈ s'.made, Matches (s.tree fromsrc) (s'.tree tosrc) (location q)) ↔
      Undisturbing ans (s.tree fromsrc) (toMake (s.tree tosrc) relative) := by
  obtain ⟨hadded, hdescribed⟩ := clonepath_described hne h rfl
  have hmade : s'.made = toMake (s.tree tosrc) relative := by
    rw [hadded.made, hs, List.nil_append]
  rw [hmade] at hsucc ⊢
  exact (hdescribed hsucc).matches_iff

theorem metadataSucceeds_obliging (st : Metadata) : MetadataSucceeds obliging st :=
  ⟨rfl, rfl, rfl, rfl⟩

def innerOnly : CloneState Bool where
  tree b := if b then directories [[['a'], ['b']]] else directories [[['a']]]
  made := []

theorem clonepath_innerOnly :
    clonepath (fun _ => obliging) true false "/a/b".toList false innerOnly =
      (.ok (), (cloneLevel obliging true false "/a/b".toList false innerOnly).2) := by
  have hb : dirname "/a/b".toList = "/a".toList := by decide
  have ha : dirname "/a".toList = [] := by decide
  rw [clonepath, clonepathWith_of_ne (by decide), hb, clonepathWith_of_ne (by decide), ha,
    clonepathWith_nil]
  rfl

/-- Nothing is made in the only directory that is missing. -/
theorem clonepath_metadata_iff_innerOnly :
    (clonepath (fun _ => obliging) true false "/a/b".toList false innerOnly).2.made =
      ["/a/b".toList] ∧
    ∀ q ∈ (clonepath (fun _ => obliging) true false "/a/b".toList false
        innerOnly).2.made,
      Matches (innerOnly.tree true)
        ((clonepath (fun _ => obliging) true false "/a/b".toList false
          innerOnly).2.tree false) (location q) := by
  have hmade : (clonepath (fun _ => obliging) true false "/a/b".toList false
      innerOnly).2.made = ["/a/b".toList] := by
    rw [clonepath_innerOnly]
    rfl
  have hrun : clonepath (fun _ => obliging) true false "/a/b".toList false innerOnly =
      (.ok (), (clonepath (fun _ => obliging) true false "/a/b".toList false
        innerOnly).2) := by
    rw [clonepath_innerOnly]
  refine ⟨hmade, (clonepath_metadata_iff _ (by decide) _ _ rfl hrun
    fun q _ st _ => metadataSucceeds_obliging st.data).mpr ?_⟩
  have hqs : toMake (innerOnly.tree false) "/a/b".toList = ["/a/b".toList] := by
    have hb : dirname "/a/b".toList = "/a".toList := by decide
    have ha : dirname "/a".toList = [] := by decide
    have hin : toMake (innerOnly.tree false) "/a".toList = [] := by
      rw [toMake_of_present (by decide) (.inl rfl), ha, toMake_nil]
    rw [toMake_of_missing (by decide) rfl, hb, hin, List.nil_append]
    rw [hb, hin]
    nofun
  rw [hqs]
  intro q hq st _
  obtain rfl := List.mem_singleton.mp hq
  refine ⟨rfl, ?_⟩
  intro q' hq'
  have hnone : lastChild ["/a/b".toList] "/a/b".toList = none := by decide
  rw [hnone] at hq'
  cases hq'

/-- Of two directories the outer one ends with the time at which the inner one was made,
though every call succeeds. -/
theorem clonepath_mtime :
    (clonepath (fun _ => obliging) true false "/a/b".toList false sourceOnly).1 =
      .ok () ∧
    (∀ st, MetadataSucceeds obliging st) ∧
    ((sourceOnly.tree true).entry (location "/a".toList)).map
      (fun n => n.data.times.mtime.tv_sec) = some 100 ∧
    (((clonepath (fun _ => obliging) true false "/a/b".toList false
      sourceOnly).2.tree false).entry (location "/a".toList)).map
        (fun n => n.data.times.mtime.tv_sec) = some 200 := by
  rw [clonepath_sourceOnly]
  exact ⟨rfl, metadataSucceeds_obliging, rfl, rfl⟩

end Mergerfs
