import Mergerfs.Basic.Path
import Mergerfs.Fs.Copy
import Mergerfs.Fs.Utime
import Mergerfs.Library.DirTree

/-!
# Cloning the directories of a path

`fs::clonepath` makes the directories of a relative path on one branch as they are on
another. It calls itself for the directory part first, so that the directories are made
from the root downwards, and takes `EEXIST` for the sign that one is there already. The
metadata of a new directory are set right after it was made.

`Fs.clonepath` is the code: it makes the paths of both sides from that of the branch and
the relative path, and the calls follow them from the root of the file system. What it
does is proved of `clonepath`, in which a branch is a tree of its own and the relative
path is followed from its root, at which a `..` stays where it is. What the calls of one
level answer is given by `LevelAnswers`, and the levels are told apart by their relative
paths.
-/

namespace Mergerfs

open Errno

/-! ## The branches -/

structure Metadata where
  mode : UInt32
  /-- `st_uid` and `st_gid`. -/
  owner : UInt32 × UInt32
  times : FileTimes
  /-- The flags of `FS_IOC_GETFLAGS`. -/
  attrs : UInt32
  xattrs : Path → Option Content

abbrev BranchNode := DirTree.Node Content Metadata

abbrev BranchTree := DirTree.Tree Path Content Metadata

def Metadata.touch (now : Instant) (m : Metadata) : Metadata :=
  { m with times := { m.times with mtime := now } }

def component (name : Path) : DirTree.Component Path :=
  if name = ['.'] then .self
  else if name = ['.', '.'] then .parent
  else .down name

def components (p : Path) : List (DirTree.Component Path) :=
  ((p.splitOn '/').filter fun name => !name.isEmpty).map component

def location (p : Path) : List Path := DirTree.locate (components p)

/-- `q` is a part of the path `p` that ends with one of its components. -/
structure AncestorOrSelf (q p : Path) : Prop where
  string : q <+: p
  components : components q <+: components p

theorem components_append_cons (x y : Path) :
    components (x ++ '/' :: y) = components x ++ components y := by
  induction hlen : x.length using Nat.strong_induction_on generalizing x with
  | _ n ih =>
      by_cases hmem : '/' ∈ x
      · obtain ⟨part, t, rfl, hpart⟩ := List.eq_append_cons_of_mem hmem
        have ht : t.length < n := by
          rw [← hlen, List.length_append, List.length_cons]
          omega
        have hrest := ih t.length ht t rfl
        simp only [components] at hrest ⊢
        rw [List.append_assoc, List.cons_append,
          List.splitOn_append_cons_self_of_not_mem hpart,
          List.splitOn_append_cons_self_of_not_mem hpart, List.filter_cons,
          List.filter_cons]
        split_ifs
        · rw [List.map_cons, List.map_cons, hrest, List.cons_append]
        · exact hrest
      · simp only [components]
        rw [List.splitOn_append_cons_self_of_not_mem hmem,
          List.splitOn_eq_singleton hmem, ← List.map_append, ← List.filter_append,
          List.singleton_append]

theorem AncestorOrSelf.refl (p : Path) : AncestorOrSelf p p :=
  ⟨List.prefix_rfl, List.prefix_rfl⟩

theorem AncestorOrSelf.trans {p q r : Path} (hqp : AncestorOrSelf q p)
    (hpr : AncestorOrSelf p r) : AncestorOrSelf q r :=
  ⟨hqp.string.trans hpr.string, hqp.components.trans hpr.components⟩

theorem ancestorOrSelf_dirname (p : Path) : AncestorOrSelf (dirname p) p := by
  have hstring := dirname_prefix p
  refine ⟨hstring, ?_⟩
  rcases dirname_eq_nil_or p with hnil | ⟨s, hs⟩
  · rw [hnil]
    exact List.nil_prefix
  · have happend := components_append_cons (dirname p) s
    rw [← hs] at happend
    rw [happend]
    exact List.prefix_append _ _

/-! ## One level -/

/-- An error of `mkdir` that does not say that something is there. -/
abbrev Refusal := { e : Errno // e ≠ EEXIST }

structure LevelAnswers where
  stat : Rv
  mkdir : Option Refusal
  /-- When the directory is made. -/
  now : Instant
  /-- The mode a directory gets that is made with a mode, whatever the umask and the
  file system take away or add. -/
  mode : UInt32 → UInt32
  owner : UInt32 × UInt32
  attrs : UInt32
  xattrs : Path → Option Content
  attrCopy : Rv
  /-- With the names that were copied before the copy failed. -/
  xattrCopy : Except (Errno × List Path) Unit
  lchown : Rv
  /-- `fs::lstat` in `fs::lchown_check_on_error`. -/
  lstat : Rv
  utime : Rv

def stopErrno : DirTree.Stop → Errno
  | .missing => ENOENT
  | .notDir => ENOTDIR
  | .taken => EEXIST

/-- `fs::stat`. -/
def statPath (ans : Rv) (t : BranchTree) (p : Path) : Except Errno BranchNode :=
  match ans with
  | .error e => .error e
  | .ok _ =>
      match t.walk [] (components p) with
      | .error stop => .error (stopErrno stop)
      | .ok l =>
          match t.entry l with
          | none => .error ENOENT
          | some n => .ok n

def newMetadata (ans : LevelAnswers) (mode : UInt32) : Metadata where
  mode := ans.mode mode
  owner := ans.owner
  times := ⟨ans.now, ans.now⟩
  attrs := ans.attrs
  xattrs := ans.xattrs

/-- `fs::mkdir`. -/
def mkdirPath (ans : LevelAnswers) (mode : UInt32) (t : BranchTree) (p : Path) :
    Except Errno (List Path × BranchTree) :=
  match ans.mkdir with
  | some e => .error e.1
  | none =>
      match t.mkdir (newMetadata ans mode) (Metadata.touch ans.now) (components p) with
      | .error stop => .error (stopErrno stop)
      | .ok r => .ok r

def attrCopy (ans : LevelAnswers) (st m : Metadata) : Rv × Metadata :=
  match ans.attrCopy with
  | .error e => (.error e, m)
  | .ok _ => (.ok (), { m with attrs := st.attrs })

def overlay (new old : Path → Option Content) (name : Path) : Option Content :=
  (new name).or (old name)

/-- `fs::xattr::copy`, which may fail with some of the attributes copied. -/
def xattrCopy (ans : LevelAnswers) (st m : Metadata) : Rv × Metadata :=
  match ans.xattrCopy with
  | .error (e, done) =>
      let copied := fun name => if name ∈ done then st.xattrs name else none
      (.error e, { m with xattrs := overlay copied m.xattrs })
  | .ok _ => (.ok (), { m with xattrs := overlay st.xattrs m.xattrs })

/-- `fs::lchown_check_on_error`. -/
def lchownCheckOnError (ans : LevelAnswers) (st owner : UInt32 × UInt32) :
    Rv × (UInt32 × UInt32) :=
  match ans.lchown with
  | .ok _ => (.ok (), st)
  | .error e =>
      match ans.lstat with
      | .error e' => (.error e', owner)
      | .ok _ =>
          if st.1 ≠ owner.1 ∨ st.2 ≠ owner.2 then (.error e, owner)
          else (.ok (), owner)

/-- `fs::utime` with the times of the source, which are neither `UTIME_NOW` nor
`UTIME_OMIT`. -/
def utimeStat (ans : LevelAnswers) (st m : Metadata) : Rv × Metadata :=
  match ans.utime with
  | .error e => (.error e, m)
  | .ok _ => (.ok (), { m with times := st.times })

/-- The four calls after `fs::mkdir`. They act on the new directory alone, whose
metadata `m` are followed here. -/
def copyMetadata (ans : LevelAnswers) (st : Metadata) (returnMetadataErrors : Bool)
    (m : Metadata) : Rv × Metadata :=
  let attr := attrCopy ans st m
  if returnMetadataErrors && fails attr.1 then attr
  else
    let xattr := xattrCopy ans st attr.2
    if returnMetadataErrors && fails xattr.1 then xattr
    else
      let chown := lchownCheckOnError ans st.owner xattr.2.owner
      let m := { xattr.2 with owner := chown.2 }
      if returnMetadataErrors && !chown.1.isOk then (chown.1, m)
      else
        let utime := utimeStat ans st m
        if returnMetadataErrors && !utime.1.isOk then utime
        else (.ok (), utime.2)

section Body

variable {σ : Type*}

/-- `fs::clonepath` from `fs::stat` on. What `fs::mkdir` does is done when the metadata
of the new directory are known. -/
def cloneLevelWith (ans : LevelAnswers) (returnMetadataErrors : Bool)
    (stat : Except Errno BranchNode) (mkdir : UInt32 → Except Errno (Metadata → σ))
    (s : σ) : Rv × σ :=
  match stat with
  | .error e => (.error e, s)
  | .ok st =>
      if !st.isDir then (.error ENOTDIR, s)
      else
        match mkdir st.data.mode with
        | .error e => if e = EEXIST then (.ok (), s) else (.error e, s)
        | .ok new =>
            let r := copyMetadata ans st.data returnMetadataErrors
              (newMetadata ans st.data.mode)
            (r.1, new r.2)

def clonepathWith (level : Path → Bool → σ → Rv × σ) (relative : Path)
    (returnMetadataErrors : Bool) (s : σ) : Rv × σ :=
  if _h : relative = [] then (.ok (), s)
  else
    let r := if dirname relative = [] then (.ok (), s)
      -- the call leaves `return_metadata_errors` at its default
      else clonepathWith level (dirname relative) false s
    match r.1 with
    | .error e => (.error e, r.2)
    | .ok _ => level relative returnMetadataErrors r.2
termination_by relative.length
decreasing_by exact length_dirname_lt _h

end Body

/-! ## On the paths of the file system -/

structure FsState where
  tree : BranchTree
  made : List Path

namespace Fs

def cloneLevel (ans : LevelAnswers) (fromsrc tosrc relative : Path)
    (returnMetadataErrors : Bool) (s : FsState) : Rv × FsState :=
  cloneLevelWith ans returnMetadataErrors
    (statPath ans.stat s.tree (make fromsrc relative))
    (fun mode => (mkdirPath ans mode s.tree (make tosrc relative)).map fun r m =>
      ⟨r.2.modify r.1 fun _ => m, s.made ++ [relative]⟩) s

def clonepath (ans : Path → LevelAnswers) (fromsrc tosrc relative : Path)
    (returnMetadataErrors : Bool) (s : FsState) : Rv × FsState :=
  clonepathWith (fun p => cloneLevel (ans p) fromsrc tosrc p) relative
    returnMetadataErrors s

end Fs

/-! ## On branches that are trees of their own -/

structure CloneState (B : Type*) where
  tree : B → BranchTree
  made : List Path

section Definition

variable {B : Type*} [DecidableEq B]

def cloneLevel (ans : LevelAnswers) (fromsrc tosrc : B) (relative : Path)
    (returnMetadataErrors : Bool) (s : CloneState B) : Rv × CloneState B :=
  cloneLevelWith ans returnMetadataErrors
    (statPath ans.stat (s.tree fromsrc) relative)
    (fun mode => (mkdirPath ans mode (s.tree tosrc) relative).map fun r m =>
      ⟨Function.update s.tree tosrc (r.2.modify r.1 fun _ => m),
        s.made ++ [relative]⟩) s

def clonepath (ans : Path → LevelAnswers) (fromsrc tosrc : B) (relative : Path)
    (returnMetadataErrors : Bool) (s : CloneState B) : Rv × CloneState B :=
  clonepathWith (fun p => cloneLevel (ans p) fromsrc tosrc p) relative
    returnMetadataErrors s

end Definition

/-! ## What one level does -/

theorem touch_newMetadata (ans : LevelAnswers) (mode : UInt32) :
    (newMetadata ans mode).touch ans.now = newMetadata ans mode := rfl

theorem statPath_eq_ok {ans : Rv} {t : BranchTree} {p : Path} {n : BranchNode}
    (h : statPath ans t p = .ok n) : t.entry (location p) = some n := by
  unfold statPath at h
  split at h
  · cases h
  · split at h
    · cases h
    · rename_i l hwalk
      split at h
      · cases h
      · rename_i n' hn
        cases h
        rw [location, DirTree.locate, ← DirTree.Tree.walk_eq_ok hwalk, hn]

def Reaches (t : BranchTree) (p : Path) : Prop :=
  ∀ cs, cs <+: components p → (t.entry (DirTree.locate cs)).isSome

theorem mkdirPath_eq_EEXIST {ans : LevelAnswers} {mode : UInt32} {t : BranchTree}
    {p : Path} (h : mkdirPath ans mode t p = .error EEXIST) : Reaches t p := by
  unfold mkdirPath at h
  split at h
  · rename_i e _
    exact absurd (Except.error.inj h) e.2
  · split at h
    · rename_i stop hstop
      cases stop with
      | missing => exact absurd (Except.error.inj h) (by decide)
      | notDir => exact absurd (Except.error.inj h) (by decide)
      | taken => exact fun cs hcs => DirTree.Tree.mkdir_eq_taken hstop hcs
    · cases h

theorem mkdirPath_eq_ok {ans : LevelAnswers} {mode : UInt32} {t t' : BranchTree}
    {p : Path} {l : List Path} (h : mkdirPath ans mode t p = .ok (l, t')) :
    l = location p ∧
      DirTree.Tree.Grown t t' l (newMetadata ans mode) (Metadata.touch ans.now) ∧
      Reaches t' p := by
  unfold mkdirPath at h
  split at h
  · cases h
  · split at h
    · cases h
    · rename_i r hr
      cases h
      exact DirTree.Tree.mkdir_eq_ok (touch_newMetadata ans mode) hr

/-- Everything a level can do, whatever it works on. -/
theorem cloneLevelWith_cases {σ : Type*} {ans : LevelAnswers}
    {returnMetadataErrors : Bool} {stat : Except Errno BranchNode}
    {mkdir : UInt32 → Except Errno (Metadata → σ)} {s s' : σ} {rv : Rv}
    (h : cloneLevelWith ans returnMetadataErrors stat mkdir s = (rv, s')) :
    (s' = s ∧ (rv = .ok () → ∃ mode, mkdir mode = .error EEXIST)) ∨
      ∃ st new, stat = .ok st ∧ st.isDir = true ∧ mkdir st.data.mode = .ok new ∧
        rv = (copyMetadata ans st.data returnMetadataErrors
          (newMetadata ans st.data.mode)).1 ∧
        s' = new (copyMetadata ans st.data returnMetadataErrors
          (newMetadata ans st.data.mode)).2 := by
  unfold cloneLevelWith at h
  split at h
  · cases h
    exact .inl ⟨rfl, nofun⟩
  · rename_i st
    split_ifs at h with hdir
    · cases h
      exact .inl ⟨rfl, nofun⟩
    · split at h
      · rename_i e hmkdir
        split_ifs at h with he
        · cases h
          rw [he] at hmkdir
          exact .inl ⟨rfl, fun _ => ⟨_, hmkdir⟩⟩
        · cases h
          exact .inl ⟨rfl, nofun⟩
      · rename_i new hmkdir
        cases h
        exact .inr ⟨st, new, rfl, by simpa using hdir, hmkdir, rfl, rfl⟩

section Level

variable {B : Type*} [DecidableEq B]

structure LevelMade (ans : LevelAnswers) (fromsrc tosrc : B) (relative : Path)
    (returnMetadataErrors : Bool) (s s' : CloneState B) (rv : Rv) (st : BranchNode) :
    Prop where
  source : (s.tree fromsrc).entry (location relative) = some st
  isDir : st.isDir = true
  rv_eq : rv = (copyMetadata ans st.data returnMetadataErrors
    (newMetadata ans st.data.mode)).1
  grown : DirTree.Tree.Grown (s.tree tosrc) (s'.tree tosrc) (location relative)
    (copyMetadata ans st.data returnMetadataErrors
      (newMetadata ans st.data.mode)).2 (Metadata.touch ans.now)
  others : ∀ b ≠ tosrc, s'.tree b = s.tree b
  made : s'.made = s.made ++ [relative]
  reaches : Reaches (s'.tree tosrc) relative

variable {ans : LevelAnswers} {fromsrc tosrc : B} {relative : Path}
  {returnMetadataErrors : Bool} {s s' : CloneState B} {rv : Rv}

theorem cloneLevel_cases
    (h : cloneLevel ans fromsrc tosrc relative returnMetadataErrors s = (rv, s')) :
    (s' = s ∧ (rv = .ok () → Reaches (s.tree tosrc) relative)) ∨
      ∃ st, LevelMade ans fromsrc tosrc relative returnMetadataErrors s s' rv st := by
  rcases cloneLevelWith_cases h with ⟨rfl, hrv⟩ | ⟨st, new, hst, hdir, hnew, rfl, rfl⟩
  · refine .inl ⟨rfl, fun hok => ?_⟩
    obtain ⟨mode, hmkdir⟩ := hrv hok
    cases hr : mkdirPath ans mode (s'.tree tosrc) relative with
    | error e =>
        rw [hr] at hmkdir
        cases hmkdir
        exact mkdirPath_eq_EEXIST hr
    | ok r =>
        rw [hr] at hmkdir
        cases hmkdir
  · cases hr : mkdirPath ans st.data.mode (s.tree tosrc) relative with
    | error e =>
        rw [hr] at hnew
        cases hnew
    | ok r =>
        obtain ⟨l, t⟩ := r
        rw [hr] at hnew
        obtain ⟨rfl, hgrown, hreaches⟩ := mkdirPath_eq_ok hr
        cases hnew
        refine .inr ⟨st, statPath_eq_ok hst, hdir, rfl, ?_, ?_, rfl, ?_⟩
        · dsimp only
          rw [Function.update_self]
          exact hgrown.modify _
        · intro b hb
          exact Function.update_of_ne hb _ _
        · -- the metadata of the new directory are changed, but it is still there
          intro cs hcs
          have hsome := hreaches cs hcs
          dsimp only
          rw [Function.update_self, DirTree.Tree.entry_modify]
          by_cases hl : DirTree.locate cs = location relative
          · rw [hl, Function.update_self, Option.isSome_map, ← hl]
            exact hsome
          · rwa [Function.update_of_ne hl]

end Level

/-! ## What is added -/

section Added

variable {B : Type*}

/-- From `s` to `s'` the directories `qs` were added on the branch `tosrc`. -/
structure Added (fromsrc tosrc : B) (relative : Path) (s s' : CloneState B)
    (qs : List Path) : Prop where
  made : s'.made = s.made ++ qs
  others : ∀ b ≠ tosrc, s'.tree b = s.tree b
  /-- What was there has kept everything but the time of its last change. -/
  kept : ∀ l n, (s.tree tosrc).entry l = some n →
    ∃ t, (s'.tree tosrc).entry l = some (n.map (Metadata.touch t))
  new : ∀ l, (s.tree tosrc).entry l = none → ((s'.tree tosrc).entry l).isSome →
    ∃ q ∈ qs, location q = l
  isDir : ∀ q ∈ qs, (s.tree tosrc).entry (location q) = none ∧
    ∃ n, (s'.tree tosrc).entry (location q) = some n ∧ n.isDir = true
  source : ∀ q ∈ qs, ∃ n, (s.tree fromsrc).entry (location q) = some n ∧
    n.isDir = true
  ancestor : ∀ q ∈ qs, q ≠ [] ∧ AncestorOrSelf q relative
  downwards : qs.Pairwise fun q q' => q <+: q' ∧ q ≠ q'
  /-- Each was made in a directory that was there, or was made before. -/
  gapless : ∀ before q after, qs = before ++ q :: after →
    location q = [] ∨
      (∃ n, (s.tree tosrc).entry (location q).dropLast = some n ∧ n.isDir = true) ∨
      ∃ q' ∈ before, location q' = (location q).dropLast

variable {fromsrc tosrc : B} {relative : Path} {s s₁ s' : CloneState B}
  {qs : List Path}

theorem Added.refl (fromsrc tosrc : B) (relative : Path) (s : CloneState B) :
    Added fromsrc tosrc relative s s [] where
  made := (List.append_nil _).symm
  others _ _ := rfl
  kept _ n hn := ⟨n.data.times.mtime, hn⟩
  new l hnone hsome := by
    rw [hnone] at hsome
    cases hsome
  isDir := nofun
  source := nofun
  ancestor := nofun
  downwards := .nil
  gapless before q after h := by simp at h

theorem Added.of_ancestor {relative' : Path}
    (h : Added fromsrc tosrc relative s s' qs)
    (hrel : AncestorOrSelf relative relative') :
    Added fromsrc tosrc relative' s s' qs :=
  { h with
    ancestor := fun q hq => ⟨(h.ancestor q hq).1, (h.ancestor q hq).2.trans hrel⟩ }

theorem Added.entry_cases (h : Added fromsrc tosrc relative s s' qs) {l : List Path}
    {n : BranchNode} (hn : (s'.tree tosrc).entry l = some n) :
    (∃ n₀ t, (s.tree tosrc).entry l = some n₀ ∧ n = n₀.map (Metadata.touch t)) ∨
      ∃ q ∈ qs, location q = l := by
  cases hold : (s.tree tosrc).entry l with
  | none => exact .inr (h.new l hold (by rw [hn]; rfl))
  | some n₀ =>
      obtain ⟨t, ht⟩ := h.kept l n₀ hold
      rw [hn] at ht
      cases ht
      exact .inl ⟨n₀, t, rfl, rfl⟩

theorem Added.parent_cases (h : Added fromsrc tosrc relative s s' qs) {l : List Path}
    (hl : (s'.tree tosrc).parented l = true) :
    l = [] ∨ (∃ n, (s.tree tosrc).entry l.dropLast = some n ∧ n.isDir = true) ∨
      ∃ q ∈ qs, location q = l.dropLast := by
  rcases DirTree.Tree.parented_iff.mp hl with hnil | ⟨n, hn, hdir⟩
  · exact .inl hnil
  · rcases h.entry_cases hn with ⟨n₀, t, hn₀, rfl⟩ | hmade
    · exact .inr (.inl ⟨n₀, hn₀, hdir⟩)
    · exact .inr (.inr hmade)

theorem Added.free (h : Added fromsrc tosrc relative s s' qs) {l : List Path}
    (hl : (s'.tree tosrc).entry l = none) : (s.tree tosrc).entry l = none := by
  cases hold : (s.tree tosrc).entry l with
  | none => rfl
  | some n =>
      obtain ⟨t, ht⟩ := h.kept l n hold
      rw [hl] at ht
      cases ht

theorem LevelMade.kept {a : LevelAnswers} {returnMetadataErrors : Bool} {rv : Rv}
    {st n : BranchNode} {l : List Path}
    (h : LevelMade a fromsrc tosrc relative returnMetadataErrors s s' rv st)
    (hn : (s.tree tosrc).entry l = some n) :
    ∃ t, (s'.tree tosrc).entry l = some (n.map (Metadata.touch t)) := by
  rw [h.grown.kept l n hn]
  split_ifs
  · exact ⟨a.now, rfl⟩
  · exact ⟨n.data.times.mtime, rfl⟩

theorem Added.snoc (hne : fromsrc ≠ tosrc) (hrel : relative ≠ [])
    (h : Added fromsrc tosrc (dirname relative) s s₁ qs) {a : LevelAnswers}
    {returnMetadataErrors : Bool} {rv : Rv} {st : BranchNode}
    (hlevel : LevelMade a fromsrc tosrc relative returnMetadataErrors s₁ s' rv st) :
    Added fromsrc tosrc relative s s' (qs ++ [relative]) := by
  have hgrown := hlevel.grown
  constructor
  case made => rw [hlevel.made, h.made, List.append_assoc]
  case others =>
    intro b hb
    rw [hlevel.others b hb, h.others b hb]
  case kept =>
    intro l n hn
    obtain ⟨t, ht⟩ := h.kept l n hn
    obtain ⟨t', ht'⟩ := hlevel.kept ht
    exact ⟨t', ht'⟩
  case new =>
    intro l hnone hsome
    by_cases hl : l = location relative
    · exact ⟨relative, by simp, hl.symm⟩
    · have hsome₁ : ((s₁.tree tosrc).entry l).isSome := by
        by_contra hnone₁
        rw [hgrown.none l hl (Option.not_isSome_iff_eq_none.mp hnone₁)] at hsome
        cases hsome
      obtain ⟨q, hq, hloc⟩ := h.new l hnone hsome₁
      exact ⟨q, List.mem_append_left _ hq, hloc⟩
  case isDir =>
    intro q hq
    rcases List.mem_append.mp hq with hq | hq
    · obtain ⟨hnone, n, hn, hdir⟩ := h.isDir q hq
      obtain ⟨t, ht⟩ := hlevel.kept hn
      exact ⟨hnone, _, ht, hdir⟩
    · obtain rfl := List.mem_singleton.mp hq
      exact ⟨h.free hgrown.free, _, hgrown.entry, rfl⟩
  case source =>
    intro q hq
    rcases List.mem_append.mp hq with hq | hq
    · exact h.source q hq
    · obtain rfl := List.mem_singleton.mp hq
      have hst := hlevel.source
      rw [h.others fromsrc hne] at hst
      exact ⟨st, hst, hlevel.isDir⟩
  case ancestor =>
    intro q hq
    rcases List.mem_append.mp hq with hq | hq
    · obtain ⟨hnil, hanc⟩ := h.ancestor q hq
      exact ⟨hnil, hanc.trans (ancestorOrSelf_dirname relative)⟩
    · obtain rfl := List.mem_singleton.mp hq
      exact ⟨hrel, .refl _⟩
  case downwards =>
    refine List.pairwise_append.mpr ⟨h.downwards, List.pairwise_singleton _ _, ?_⟩
    intro q hq q' hq'
    obtain rfl := List.mem_singleton.mp hq'
    have hpre := (h.ancestor q hq).2.string
    have hdir := dirname_prefix q'
    refine ⟨hpre.trans hdir, ?_⟩
    rintro rfl
    exact absurd hpre.length_le (Nat.not_le.mpr (length_dirname_lt hrel))
  case gapless =>
    intro before q after heq
    rcases List.eq_nil_or_concat after with rfl | ⟨after, x, rfl⟩
    · obtain ⟨rfl, hq⟩ := List.append_inj' heq rfl
      obtain rfl := List.singleton_inj.mp hq
      exact h.parent_cases hgrown.parented
    · rw [List.concat_eq_append, ← List.cons_append, ← List.append_assoc] at heq
      obtain ⟨rfl, _⟩ := List.append_inj' heq rfl
      exact h.gapless before q after rfl

end Added

/-! ## What a whole path does -/

section Whole

variable {σ : Type*} {level : Path → Bool → σ → Rv × σ}

theorem clonepathWith_nil (returnMetadataErrors : Bool) (s : σ) :
    clonepathWith level [] returnMetadataErrors s = (.ok (), s) := by
  rw [clonepathWith, dif_pos rfl]

/-- An empty directory part needs no case of its own, since a call for it would do
nothing. -/
theorem clonepathWith_of_ne {relative : Path} (h : relative ≠ [])
    (returnMetadataErrors : Bool) (s : σ) :
    clonepathWith level relative returnMetadataErrors s =
      match clonepathWith level (dirname relative) false s with
      | (.error e, s₁) => (.error e, s₁)
      | (.ok _, s₁) => level relative returnMetadataErrors s₁ := by
  have hdir : (if dirname relative = [] then (.ok (), s)
      else clonepathWith level (dirname relative) false s) =
        clonepathWith level (dirname relative) false s := by
    split_ifs with hnil
    · rw [hnil, clonepathWith_nil]
    · rfl
  rw [clonepathWith, dif_neg h]
  dsimp only
  rw [hdir]
  rcases clonepathWith level (dirname relative) false s with ⟨_ | _, s₁⟩ <;> rfl

/-- What holds of the empty path, and of a path if it holds of its directory part and
a level is added, holds of every path. -/
theorem clonepathWith_induction {s : σ} {motive : Path → Rv → σ → Prop}
    (nil : motive [] (.ok ()) s)
    (error : ∀ relative e s', relative ≠ [] →
      motive (dirname relative) (.error e) s' → motive relative (.error e) s')
    (next : ∀ relative returnMetadataErrors rv s₁ s', relative ≠ [] →
      motive (dirname relative) (.ok ()) s₁ →
      level relative returnMetadataErrors s₁ = (rv, s') → motive relative rv s')
    {relative : Path} {returnMetadataErrors : Bool} {rv : Rv} {s' : σ}
    (h : clonepathWith level relative returnMetadataErrors s = (rv, s')) :
    motive relative rv s' := by
  induction hlen : relative.length using Nat.strong_induction_on
    generalizing relative returnMetadataErrors rv s' with
  | _ n ih =>
      by_cases hne : relative = []
      · subst hne
        rw [clonepathWith_nil] at h
        cases h
        exact nil
      · have hlt : (dirname relative).length < n := by
          rw [← hlen]
          exact length_dirname_lt hne
        rw [clonepathWith_of_ne hne] at h
        split at h
        · rename_i e s₁ hdir
          cases h
          exact error relative e _ hne (ih _ hlt hdir rfl)
        · rename_i s₁ hdir
          exact next relative returnMetadataErrors rv s₁ s' hne (ih _ hlt hdir rfl) h

end Whole

section Run

variable {B : Type*} [DecidableEq B] {ans : Path → LevelAnswers} {fromsrc tosrc : B}

theorem exists_added_clonepath (hne : fromsrc ≠ tosrc) {relative : Path}
    {returnMetadataErrors : Bool} {rv : Rv} {s s' : CloneState B}
    (h : clonepath ans fromsrc tosrc relative returnMetadataErrors s = (rv, s')) :
    ∃ qs, Added fromsrc tosrc relative s s' qs := by
  refine clonepathWith_induction (motive := fun p _ s' => ∃ qs,
    Added fromsrc tosrc p s s' qs) ⟨[], .refl ..⟩ ?_ ?_ h
  · rintro p _ s₁ - ⟨qs, hqs⟩
    exact ⟨qs, hqs.of_ancestor (ancestorOrSelf_dirname p)⟩
  · rintro p _ _ s₁ s₂ hp ⟨qs, hqs⟩ hlevel
    rcases cloneLevel_cases hlevel with ⟨rfl, _⟩ | ⟨st, hmade⟩
    · exact ⟨qs, hqs.of_ancestor (ancestorOrSelf_dirname p)⟩
    · exact ⟨qs ++ [p], hqs.snoc hne hp hmade⟩

theorem clonepath_reaches {relative : Path} {returnMetadataErrors : Bool} {rv : Rv}
    {s s' : CloneState B}
    (h : clonepath ans fromsrc tosrc relative returnMetadataErrors s = (rv, s'))
    (hrv : rv = .ok ()) (hrel : relative ≠ []) :
    Reaches (s'.tree tosrc) relative := by
  subst hrv
  rw [clonepath, clonepathWith_of_ne hrel] at h
  split at h
  · cases h
  · rcases cloneLevel_cases h with ⟨rfl, hreaches⟩ | ⟨st, hmade⟩
    · exact hreaches rfl
    · exact hmade.reaches

end Run

/-! ## Two directories -/

def atSecond (sec : Int64) : Instant where
  tv_sec := sec
  tv_nsec := 0
  nonneg := Int64.le_refl 0
  le := by decide

/-- Directories on the ways down and nothing else, all last changed at `100`. -/
def directories (ways : List (List Path)) : BranchTree where
  entry l := if ways.any l.isPrefixOf then
      some ⟨none, 0o755, (0, 0), ⟨atSecond 100, atSecond 100⟩, 0, fun _ => none⟩
    else none
  parent := by
    intro l c h
    have hany : ways.any (l ++ [c]).isPrefixOf = true := by
      by_contra hany
      rw [if_neg hany] at h
      cases h
    obtain ⟨way, hway, hpre⟩ := List.any_eq_true.mp hany
    have hl : l.isPrefixOf way = true := List.isPrefixOf_iff_prefix.mpr
      ((List.prefix_append l [c]).trans (List.isPrefixOf_iff_prefix.mp hpre))
    exact ⟨_, if_pos (List.any_eq_true.mpr ⟨way, hway, hl⟩), rfl⟩

def obliging : LevelAnswers where
  stat := .ok ()
  mkdir := none
  now := atSecond 200
  mode := id
  owner := (0, 0)
  attrs := 0
  xattrs _ := none
  attrCopy := .ok ()
  xattrCopy := .ok ()
  lchown := .ok ()
  lstat := .ok ()
  utime := .ok ()

def sourceOnly : CloneState Bool where
  tree b := if b then directories [[['a'], ['b']]] else directories [[]]
  made := []

theorem clonepath_sourceOnly :
    clonepath (fun _ => obliging) true false "/a/b".toList false sourceOnly =
      cloneLevel obliging true false "/a/b".toList false
        (cloneLevel obliging true false "/a".toList false sourceOnly).2 := by
  have hb : dirname "/a/b".toList = "/a".toList := by decide
  have ha : dirname "/a".toList = [] := by decide
  rw [clonepath, clonepathWith_of_ne (by decide), hb, clonepathWith_of_ne (by decide), ha,
    clonepathWith_nil]
  rfl

end Mergerfs
