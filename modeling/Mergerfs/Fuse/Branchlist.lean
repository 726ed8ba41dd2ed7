import Mergerfs.Fuse.ControlRequest
import Mergerfs.Library.Along

/-!
# The branch list at runtime

The instructions `-<` and `->` erase an element, and `to_string` looks at the last
character of what it has put together. None of them asks whether there is one. The
checked versions below have no result where the code would reach beyond the end, and
that of the code elsewhere.

What `to_string` prints of a list with its modes is read back as the same list.
-/

namespace Mergerfs

open Errno

variable (env : PathEnv)

/-! ## Checked operations -/

namespace Checked

def eraseBegin : Branches → Option Branches
  | [] => none
  | branches => some branches.eraseBegin

def eraseEnd : Branches → Option Branches
  | [] => none
  | branches => some branches.eraseEnd

def toString (branches : Branches) (mode : Bool) : Option (List Char) :=
  let tmp := branches.flatMap fun b =>
    b.path ++ (if mode then '=' :: b.mode.str else []) ++ [':']
  tmp.getLast?.map fun last => if last = ':' then tmp.dropLast else tmp

/-- `l::setxattr_srcmounts`. -/
def setxattrSrcmounts (attrval : List Char) (flags : UInt32) (branches : Branches) :
    Option (ℤ × Branches) :=
  setxattrSrcmountsWith (fun rv bs => some (rv, bs))
    ((eraseBegin branches).map fun bs => (0, bs))
    ((eraseEnd branches).map fun bs => (0, bs)) env attrval flags branches

end Checked

inductive ListRequest where
  /-- `setxattr` of `branches` or `srcmounts`. -/
  | setxattr (attrval : List Char) (flags : UInt32)
  /-- `getxattr` of `branches`, which prints the modes, or of `srcmounts`. -/
  | getxattr (mode : Bool)

namespace ListRequest

def step (branches : Branches) : ListRequest → Branches
  | setxattr attrval flags => (setxattrSrcmounts env attrval flags branches).2
  | getxattr _ => branches

def checked (branches : Branches) : ListRequest → Option Branches
  | setxattr attrval flags =>
      (Checked.setxattrSrcmounts env attrval flags branches).map Prod.snd
  | getxattr mode => (Checked.toString branches mode).map fun _ => branches

/-- The request takes a list with an element for granted. -/
def NeedsBranch : ListRequest → Prop
  | setxattr attrval flags => ¬ flags &&& XATTR_CREATE = XATTR_CREATE ∧
      ((splitAttrval attrval).1 = "-<".toList ∨
        (splitAttrval attrval).1 = "->".toList)
  | getxattr _ => True

def Expands (values : List Char) : Prop :=
  ∃ p ∈ split ':' values, env.glob (parseMode p).2 ≠ []

/-- The request leaves no branch of the list: nothing that is assigned is found, every
branch matches a pattern of those to be erased, or the last one is erased. -/
def Empties (branches : Branches) : ListRequest → Prop
  | setxattr attrval flags => ¬ flags &&& XATTR_CREATE = XATTR_CREATE ∧
      (((splitAttrval attrval).1 = "=".toList ∨ (splitAttrval attrval).1 = []) ∧
          ¬ Expands env (splitAttrval attrval).2 ∨
        (splitAttrval attrval).1 = "-".toList ∧
          (∀ b ∈ branches, ∃ pat ∈ split ':' (splitAttrval attrval).2,
            env.fnmatch pat b.path = true) ∨
        ((splitAttrval attrval).1 = "-<".toList ∨
            (splitAttrval attrval).1 = "->".toList) ∧ branches.length ≤ 1)
  | getxattr _ => False

def Refills : ListRequest → Prop
  | setxattr attrval flags => ¬ flags &&& XATTR_CREATE = XATTR_CREATE ∧
      (splitAttrval attrval).1 ∈
        ["+".toList, "+<".toList, "+>".toList, "=".toList, []] ∧
      Expands env (splitAttrval attrval).2
  | getxattr _ => False

/-- After the requests `done` the list is empty: it was at first, or was emptied by one
of them, and nothing was put in since. -/
def Drained (branches : Branches) (done : List ListRequest) : Prop :=
  (branches = [] ∧ ∀ x ∈ done, ¬ x.Refills env) ∨
    ∃ before x after, done = before ++ x :: after ∧
      x.Empties env (before.foldl (step env) branches) ∧ ∀ y ∈ after, ¬ y.Refills env

end ListRequest

theorem Checked.setxattrSrcmounts_eq_some {attrval : List Char} {flags : UInt32}
    {branches : Branches}
    (h : (ListRequest.setxattr attrval flags).NeedsBranch → branches ≠ []) :
    Checked.setxattrSrcmounts env attrval flags branches =
      some (Mergerfs.setxattrSrcmounts env attrval flags branches) := by
  unfold Checked.setxattrSrcmounts Mergerfs.setxattrSrcmounts setxattrSrcmountsWith
  by_cases hcreate : flags &&& XATTR_CREATE = XATTR_CREATE
  · rw [if_pos hcreate, if_pos hcreate]
  · cases branches with
    | nil =>
        have hbegin : (splitAttrval attrval).1 ≠ "-<".toList :=
          fun heq => h ⟨hcreate, .inl heq⟩ rfl
        have hend : (splitAttrval attrval).1 ≠ "->".toList :=
          fun heq => h ⟨hcreate, .inr heq⟩ rfl
        simp only [if_neg hcreate, if_neg hbegin, if_neg hend, apply_ite some]
    | cons b bs =>
        simp only [if_neg hcreate, eraseBegin, eraseEnd, Option.map_some, apply_ite some]

theorem Checked.setxattrSrcmounts_nil {attrval : List Char} {flags : UInt32}
    (h : (ListRequest.setxattr attrval flags).NeedsBranch) :
    Checked.setxattrSrcmounts env attrval flags [] = none := by
  obtain ⟨hcreate, hinstr⟩ := h
  rw [Checked.setxattrSrcmounts, setxattrSrcmountsWith, if_neg hcreate]
  rcases hinstr with hinstr | hinstr
  · simp [hinstr, eraseBegin]
  · simp [hinstr, eraseEnd]

theorem Checked.toString_eq_none_iff (branches : Branches) (mode : Bool) :
    Checked.toString branches mode = none ↔ branches = [] := by
  unfold Checked.toString
  simp only [Option.map_eq_none_iff, List.getLast?_eq_none_iff, List.flatMap_eq_nil_iff]
  constructor
  · intro h
    cases branches with
    | nil => rfl
    | cons b bs => exact absurd (h b List.mem_cons_self) (by simp)
  · rintro rfl b hb
    cases hb

theorem Checked.toString_eq_some {branches : Branches} (h : branches ≠ [])
    (mode : Bool) :
    Checked.toString branches mode = some (branches.toString mode) := by
  cases hr : Checked.toString branches mode with
  | none => exact absurd ((Checked.toString_eq_none_iff branches mode).mp hr) h
  | some text =>
      obtain ⟨last, hlast, rfl⟩ := Option.map_eq_some_iff.mp hr
      simp only [Branches.toString, hlast, Option.some.injEq]

/-- A request for the list is what `setxattr` of the control file does to it. -/
theorem setxattrControlfile_branches (env : ControlEnv) (c : Control) {k : Key}
    (hk : k = .branches ∨ k = .srcmounts) (attrval : List Char) (flags : UInt32) :
    (setxattrControlfile env c k.name attrval flags).1 =
      (setxattrSrcmounts env.toPathEnv attrval flags c.settings.branches).1 ∧
    (setxattrControlfile env c k.name attrval flags).2.settings.branches =
      (ListRequest.setxattr attrval flags).step env.toPathEnv c.settings.branches := by
  have hkey : k.setxattr env c attrval flags =
      c.assign (setxattrSrcmounts env.toPathEnv attrval flags c.settings.branches)
        fun s v => { s with branches := v } := by
    rcases hk with rfl | rfl <;> exact assign_setxattrSrcmounts.symm
  rw [setxattrControlfile_of_key k.split_name, hkey]
  exact ⟨rfl, rfl⟩

/-! ## Whole runs -/

theorem ListRequest.checked_of_defined (branches : Branches) (x : ListRequest)
    (h : x.NeedsBranch → branches ≠ []) :
    x.checked env branches = some (x.step env branches) := by
  cases x with
  | setxattr attrval flags =>
      rw [checked, Checked.setxattrSrcmounts_eq_some env h]
      rfl
  | getxattr mode =>
      rw [checked, Checked.toString_eq_some (h trivial) mode]
      rfl

theorem ListRequest.checked_of_undefined (branches : Branches) (x : ListRequest)
    (h : ¬ (x.NeedsBranch → branches ≠ [])) : x.checked env branches = none := by
  obtain ⟨hneeds, hnil⟩ := Classical.not_imp.mp h
  obtain rfl : branches = [] := not_not.mp hnil
  cases x with
  | setxattr attrval flags =>
      rw [checked, Checked.setxattrSrcmounts_nil env hneeds]
      rfl
  | getxattr mode => rfl

/-- A result that is negative comes with the list as it was. -/
def Keeps (branches : Branches) (r : ℤ × Branches) : Prop :=
  r.1 < 0 → r.2 = branches

theorem Keeps.ite {branches : Branches} {p : Prop} [Decidable p] {r r' : ℤ × Branches}
    (h : Keeps branches r) (h' : Keeps branches r') :
    Keeps branches (if p then r else r') := by
  split
  · exact h
  · exact h'

theorem keeps_setxattrSrcmounts (attrval : List Char) (flags : UInt32)
    (branches : Branches) :
    Keeps branches (setxattrSrcmounts env attrval flags branches) := by
  have hsame : ∀ rv, Keeps branches (rv, branches) := fun _ _ => rfl
  have hzero : ∀ bs, Keeps branches (0, bs) := fun _ h => absurd h (lt_irrefl 0)
  -- one for each instruction, in the order of the source
  exact .ite (hsame _) <| .ite (hzero _) <| .ite (hzero _) <| .ite (hzero _) <|
    .ite (hzero _) <| .ite (hzero _) <| .ite (hzero _) <| .ite (hzero _) <|
    .ite (hzero _) (hsame _)

/-- The loop puts the expansion of each entry before those of the entries ahead of
it. -/
theorem Branches.addBegin_eq (branches : Branches) (s : List Char) :
    branches.addBegin env s =
      (split ':' s).reverse.flatMap (Branches.parse env) ++ branches := by
  unfold Branches.addBegin
  induction split ':' s generalizing branches with
  | nil => rfl
  | cons p ps ih =>
      rw [List.foldl_cons, ih, List.reverse_cons, List.flatMap_append,
        List.flatMap_singleton, List.append_assoc]

theorem Branches.set_eq_nil_iff (values : List Char) :
    Branches.set env values = [] ↔ ¬ ListRequest.Expands env values := by
  simp only [Branches.set, Branches.parse, List.flatMap_eq_nil_iff, List.map_eq_nil_iff,
    ListRequest.Expands, ne_eq, not_exists, not_and, not_not]

theorem Branches.addEnd_eq_nil_iff (branches : Branches) (values : List Char) :
    branches.addEnd env values = [] ↔
      branches = [] ∧ ¬ ListRequest.Expands env values := by
  rw [← Branches.set_eq_nil_iff, addEnd, List.append_eq_nil_iff, set]

theorem Branches.addBegin_eq_nil_iff (branches : Branches) (values : List Char) :
    branches.addBegin env values = [] ↔
      branches = [] ∧ ¬ ListRequest.Expands env values := by
  rw [addBegin_eq, List.append_eq_nil_iff, List.flatMap_eq_nil_iff, and_comm,
    ← Branches.set_eq_nil_iff, set, List.flatMap_eq_nil_iff]
  simp only [List.mem_reverse]

theorem Branches.eraseFnmatch_eq_nil_iff (branches : Branches) (values : List Char) :
    branches.eraseFnmatch env values = [] ↔
      ∀ b ∈ branches, ∃ pat ∈ split ':' values, env.fnmatch pat b.path = true := by
  simp [eraseFnmatch]

theorem Branches.eraseBegin_eq_nil_iff (branches : Branches) :
    branches.eraseBegin = [] ↔ branches.length ≤ 1 := by
  rw [eraseBegin, ← List.length_eq_zero_iff, List.length_tail]
  omega

theorem Branches.eraseEnd_eq_nil_iff (branches : Branches) :
    branches.eraseEnd = [] ↔ branches.length ≤ 1 := by
  rw [eraseEnd, ← List.length_eq_zero_iff, List.length_dropLast]
  omega

/-- When one request leaves no branch. -/
theorem ListRequest.step_eq_nil_iff (branches : Branches) (x : ListRequest) :
    x.step env branches = [] ↔
      x.Empties env branches ∨ branches = [] ∧ ¬ x.Refills env := by
  cases x with
  | getxattr mode => simp [step, Empties, Refills]
  | setxattr attrval flags =>
      by_cases hcreate : flags &&& XATTR_CREATE = XATTR_CREATE
      · simp [step, Empties, Refills, setxattrSrcmounts, setxattrSrcmountsWith, hcreate]
      · simp only [step, Empties, Refills, setxattrSrcmounts, setxattrSrcmountsWith,
          if_false, not_false_eq_true, true_and, hcreate]
        generalize (splitAttrval attrval).1 = instruction
        generalize (splitAttrval attrval).2 = values
        by_cases hknown : instruction ∈ instructions
        · simp only [instructions, List.mem_cons, List.not_mem_nil, or_false] at hknown
          rcases hknown with rfl | rfl | rfl | rfl | rfl | rfl | rfl | rfl
          · simp [Branches.addEnd_eq_nil_iff]
          · simp [Branches.addBegin_eq_nil_iff]
          · simp [Branches.addEnd_eq_nil_iff]
          · simp +contextual [Branches.eraseFnmatch_eq_nil_iff]
          · simp +contextual [Branches.eraseBegin_eq_nil_iff]
          · simp +contextual [Branches.eraseEnd_eq_nil_iff]
          · simp [Branches.set_eq_nil_iff]
          · simp [Branches.set_eq_nil_iff]
        · simp only [instructions, List.mem_cons, List.not_mem_nil, or_false,
            not_or] at hknown
          simp only [hknown, if_false, List.mem_cons, List.not_mem_nil, or_false,
            false_and, not_false_eq_true, and_true, false_or]

/-- A refused instruction leaves the list. The requests of a run are all defined exactly
if none that takes an element for granted comes when the list has been emptied and not
filled again; so they are if the list has an element at first and no request empties
it, and then it always has one. -/
theorem branchlist_defined_iff (branches : Branches) (requests : List ListRequest) :
    (∀ attrval flags (bs : Branches), (setxattrSrcmounts env attrval flags bs).1 < 0 →
      (setxattrSrcmounts env attrval flags bs).2 = bs) ∧
    ((requests.foldlM (ListRequest.checked env) branches).isSome = true ↔
      ∀ done x rest, requests = done ++ x :: rest → x.NeedsBranch →
        ¬ ListRequest.Drained env branches done) ∧
    (branches ≠ [] →
      (∀ done x rest, requests = done ++ x :: rest →
        ¬ x.Empties env (done.foldl (ListRequest.step env) branches)) →
      (requests.foldlM (ListRequest.checked env) branches).isSome = true ∧
        ∀ done rest, requests = done ++ rest →
          done.foldl (ListRequest.step env) branches ≠ []) := by
  have hdrained : ∀ done : List ListRequest,
      done.foldl (ListRequest.step env) branches = [] ↔
        ListRequest.Drained env branches done :=
    fun done => Along.foldl_iff_last (P := fun bs => bs = [])
      (ListRequest.step_eq_nil_iff env) branches done
  have hdefined : (requests.foldlM (ListRequest.checked env) branches).isSome = true ↔
      ∀ done x rest, requests = done ++ x :: rest → x.NeedsBranch →
        ¬ ListRequest.Drained env branches done := by
    rw [Along.isSome_foldlM_iff (ListRequest.checked_of_defined env)
      (ListRequest.checked_of_undefined env), Along.along_iff_forall_split]
    simp only [ne_eq, hdrained]
  refine ⟨fun attrval flags bs => keeps_setxattrSrcmounts env attrval flags bs, hdefined,
    ?_⟩
  intro hfirst hspare
  have hnever : ∀ done rest, requests = done ++ rest →
      ¬ ListRequest.Drained env branches done := by
    rintro done rest rfl (⟨hnil, _⟩ | ⟨before, x, after, rfl, hempties, _⟩)
    · exact hfirst hnil
    · exact hspare before x (after ++ rest) (by simp) hempties
  refine ⟨hdefined.mpr fun done x rest heq _ => hnever done _ heq, ?_⟩
  intro done rest heq hnil
  exact hnever done rest heq ((hdrained done).mp hnil)

/-- The only branch is erased, and then another one, or the list is read. -/
theorem branchlist_undefined :
    ([.setxattr "-<".toList 0, .setxattr "-<".toList 0].foldlM
      (ListRequest.checked plainEnv.toPathEnv) [⟨.RW, ['/', 'a']⟩]) = none ∧
    ([.setxattr "-<".toList 0, .getxattr true].foldlM
      (ListRequest.checked plainEnv.toPathEnv) [⟨.RW, ['/', 'a']⟩]) = none := by
  refine ⟨?_, ?_⟩ <;> decide

/-! ## Reading back what was printed -/

/-- A branch whose path is absolute, has no colon, and is left as it is by `glob` and
`realpath`. -/
structure Branch.Settled (b : Branch) : Prop where
  mode : b.mode ≠ .INVALID
  abs : b.path.head? = some '/'
  colon : ':' ∉ b.path
  glob : env.glob b.path = [b.path]
  realpath : env.realpath b.path = some b.path

def Branch.print (b : Branch) : List Char := b.path ++ '=' :: b.mode.str

theorem Mode.str_length (m : Mode) : m.str.length = 2 := by
  cases m <;> rfl

theorem Mode.eq_of_str_eq {m m' : Mode} (hm : m ≠ .INVALID) (hm' : m' ≠ .INVALID)
    (h : m.str = m'.str) : m = m' := by
  revert hm hm' h
  cases m <;> cases m' <;> decide

theorem Branch.suffix_print {b : Branch} (hb : b.mode ≠ .INVALID) (m : Mode)
    (hm : m ≠ .INVALID) : '=' :: m.str <:+ b.print ↔ m = b.mode := by
  constructor
  · intro h
    have hlen : ('=' :: m.str).length = ('=' :: b.mode.str).length := by
      simp only [List.length_cons, Mode.str_length]
    have heq : '=' :: m.str = '=' :: b.mode.str :=
      (List.suffix_of_suffix_length_le h (List.suffix_append _ _) hlen.le).eq_of_length
        hlen
    exact Mode.eq_of_str_eq hm hb (List.cons.inj heq).2
  · rintro rfl
    exact List.suffix_append _ _

theorem parseMode_print {b : Branch} (hb : b.mode ≠ .INVALID) :
    parseMode b.print = (b.mode, b.path) := by
  have htake : b.print.take (b.print.length - 3) = b.path := by
    have hlen : b.print.length - 3 = b.path.length := by
      simp [Branch.print, Mode.str_length]
    rw [hlen, Branch.print, List.take_left]
  have hRO : "=RO".toList <:+ b.print ↔ .RO = b.mode :=
    Branch.suffix_print hb .RO (by decide)
  have hRW : "=RW".toList <:+ b.print ↔ .RW = b.mode :=
    Branch.suffix_print hb .RW (by decide)
  have hNC : "=NC".toList <:+ b.print ↔ .NC = b.mode :=
    Branch.suffix_print hb .NC (by decide)
  unfold parseMode
  rw [htake]
  cases hmode : b.mode with
  | INVALID => exact absurd hmode hb
  | RO => rw [if_pos (hRO.mpr hmode.symm)]
  | RW =>
      rw [if_neg (by rw [hRO, hmode]; decide), if_pos (hRW.mpr hmode.symm)]
  | NC =>
      rw [if_neg (by rw [hRO, hmode]; decide), if_neg (by rw [hRW, hmode]; decide),
        if_pos (hNC.mpr hmode.symm)]

theorem parse_print {b : Branch} (hb : b.Settled env) :
    Branches.parse env b.print = [b] := by
  simp only [Branches.parse, parseMode_print hb.mode, hb.glob, List.map_cons,
    List.map_nil, hb.realpath, Option.getD_some]

theorem dropLast_flatMap_eq_join {sep : Char} {parts : List (List Char)}
    (h : parts ≠ []) :
    (parts.flatMap fun p => p ++ [sep]).dropLast = join sep parts := by
  induction parts with
  | nil => exact absurd rfl h
  | cons p ps ih =>
      cases ps with
      | nil => simp [join]
      | cons q qs =>
          have hne : ((q :: qs).flatMap fun p => p ++ [sep]) ≠ [] := by simp
          rw [List.flatMap_cons, List.dropLast_append_of_ne_nil hne,
            ih (List.cons_ne_nil q qs)]
          simp [join]

theorem toString_eq_join {branches : Branches} (h : branches ≠ []) :
    branches.toString true = join ':' (branches.map Branch.print) := by
  have htmp : (branches.flatMap fun b =>
      b.path ++ (if true then '=' :: b.mode.str else []) ++ [':']) =
      (branches.map Branch.print).flatMap fun p => p ++ [':'] := by
    simp [List.flatMap_map, Branch.print]
  have hlast : ((branches.map Branch.print).flatMap fun p => p ++ [':']).getLast? =
      some ':' := by
    obtain ⟨bs, b, rfl⟩ := (List.eq_nil_or_concat' branches).resolve_left h
    simp
  rw [Branches.toString, htmp, if_pos hlast,
    dropLast_flatMap_eq_join (by simpa using h)]

theorem set_toString {branches : Branches} (hne : branches ≠ [])
    (hnul : ∀ pat p, p ∈ env.glob pat → nul ∉ p)
    (h : ∀ b ∈ branches, b.Settled env) :
    Branches.set env (branches.toString true) = branches := by
  have hparts : split ':' (join ':' (branches.map Branch.print)) =
      branches.map Branch.print := by
    refine split_join (by decide) (by simpa using hne) ?_ ?_
    · rw [List.getLast?_map]
      intro hlast
      obtain ⟨b, _, hprint⟩ := Option.map_eq_some_iff.mp hlast
      simp [Branch.print] at hprint
    · intro part hpart
      obtain ⟨b, hb, rfl⟩ := List.mem_map.mp hpart
      have hpath : nul ∉ b.path :=
        hnul b.path b.path (by rw [(h b hb).glob]; exact List.mem_singleton_self _)
      have hmode : nul ∉ '=' :: b.mode.str ∧ ':' ∉ '=' :: b.mode.str := by
        cases b.mode <;> decide
      simp only [Branch.print, List.mem_append, not_or]
      exact ⟨⟨hpath, hmode.1⟩, (h b hb).colon, hmode.2⟩
  rw [Branches.set, toString_eq_join hne, hparts, List.flatMap_map]
  calc branches.flatMap (fun b => Branches.parse env b.print)
      = branches.flatMap fun b => [b] :=
        List.flatMap_congr fun b hb => parse_print env (h b hb)
    _ = branches := List.flatMap_singleton' branches

/-- The text starts with a slash, so there is no instruction before it. -/
theorem splitAttrval_toString {branches : Branches} (hne : branches ≠ [])
    (h : ∀ b ∈ branches, b.Settled env) :
    splitAttrval (branches.toString true) = ([], branches.toString true) := by
  have hhead : (branches.toString true).head? = some '/' := by
    rw [toString_eq_join hne]
    cases branches with
    | nil => exact absurd rfl hne
    | cons b bs =>
        have habs := (h b List.mem_cons_self).abs
        cases hpath : b.path with
        | nil =>
            rw [hpath] at habs
            cases habs
        | cons ch rest =>
            rw [hpath] at habs
            cases bs <;> simpa [join, Branch.print, hpath] using habs
  cases htext : branches.toString true with
  | nil =>
      rw [htext] at hhead
      cases hhead
  | cons ch rest =>
      rw [htext] at hhead
      obtain rfl : ch = '/' := Option.some.inj hhead
      simp [splitAttrval]

/-- What `getxattr` of `branches` delivers is accepted by `setxattr`, in any state, and
sets the list that was read. `glob` returns C strings. -/
theorem branches_round_trip (env : ControlEnv) (c c' : Control) (flags : UInt32)
    (count : ℕ) (hnul : ∀ pat p, p ∈ env.glob pat → nul ∉ p)
    (hne : c.settings.branches ≠ [])
    (h : ∀ b ∈ c.settings.branches, b.Settled env.toPathEnv)
    (hflags : ¬ flags &&& XATTR_CREATE = XATTR_CREATE)
    (hcount : (c.settings.branches.toString true).length ≤ count) :
    ∃ text, getxattrControlfile env c Key.branches.name count =
        (toInt text.length, text) ∧
      (setxattrControlfile env c' Key.branches.name text flags).1 = 0 ∧
      (setxattrControlfile env c' Key.branches.name text flags).2.settings.branches =
        c.settings.branches := by
  have hsplit := splitAttrval_toString env.toPathEnv hne h
  have htext : c.settings.branches.toString true ≠ [] := by
    intro hnil
    have hset := set_toString env.toPathEnv hne hnul h
    rw [hnil] at hset
    exact hne hset.symm
  refine ⟨c.settings.branches.toString true, ?_, ?_⟩
  · exact (getxattrControlfile_eq_iff env c .branches _ htext count hcount).mpr rfl
  · have hset : setxattrSrcmounts env.toPathEnv (c.settings.branches.toString true)
        flags c'.settings.branches = (0, c.settings.branches) := by
      simp only [setxattrSrcmounts, setxattrSrcmountsWith, if_neg hflags, hsplit]
      exact congrArg (Prod.mk 0) (set_toString env.toPathEnv hne hnul h)
    obtain ⟨hrv, hbranches⟩ := setxattrControlfile_branches env c' (.inl rfl)
      (c.settings.branches.toString true) flags
    rw [ListRequest.step, hset] at hbranches
    rw [hset] at hrv
    exact ⟨hrv, hbranches⟩

def suffixed : Control where
  settings := .initial [⟨.NC, "/a=RO".toList⟩, ⟨.RO, "/b".toList⟩]
  openCache := Timed.Map.empty

theorem suffixed_settled :
    ∀ b ∈ suffixed.settings.branches, b.Settled plainEnv.toPathEnv := by
  intro b hb
  simp only [suffixed, Settings.initial, List.mem_cons, List.not_mem_nil,
    or_false] at hb
  rcases hb with rfl | rfl
  · exact ⟨by decide, by decide, by decide, rfl, rfl⟩
  · exact ⟨by decide, by decide, by decide, rfl, rfl⟩

theorem plainEnv_glob_nul (pat p : Path) (h : p ∈ plainEnv.glob pat) : nul ∉ p := by
  obtain rfl : p = cstr pat := List.mem_singleton.mp h
  exact nul_notMem_cstr pat

theorem branches_round_trip_suffixed :
    (∀ b ∈ suffixed.settings.branches, b.Settled plainEnv.toPathEnv) ∧
    ∃ text, getxattrControlfile plainEnv suffixed Key.branches.name 64 =
        (toInt text.length, text) ∧
      (setxattrControlfile plainEnv remembering Key.branches.name text 0).1 = 0 ∧
      (setxattrControlfile plainEnv remembering Key.branches.name text
        0).2.settings.branches = suffixed.settings.branches :=
  ⟨suffixed_settled, branches_round_trip plainEnv suffixed remembering 0 64
    plainEnv_glob_nul (by decide) suffixed_settled (by decide) (by decide)⟩

/-! ## The order of what is added -/

def Branches.expansion (s : List Char) : Branches :=
  (split ':' s).flatMap (Branches.parse env)

/-- An instruction is what stands before the first slash, so only such a text can
follow one. -/
def IsValue (s : List Char) : Prop := s = [] ∨ s.head? = some '/'

theorem takeWhile_eq_nil_iff_isValue (s : List Char) :
    s.takeWhile (· != '/') = [] ↔ IsValue s := by
  cases s with
  | nil => simp [IsValue]
  | cons c cs => simp [IsValue]

theorem splitAttrval_append {instruction : List Char} (hslash : '/' ∉ instruction)
    (s : List Char) :
    splitAttrval (instruction ++ s) =
      (instruction ++ s.takeWhile (· != '/'), s.dropWhile (· != '/')) := by
  have hall : ∀ c ∈ instruction, (c != '/') = true := by
    intro c hc
    simp only [bne_iff_ne, ne_eq]
    rintro rfl
    exact hslash hc
  rw [splitAttrval, List.takeWhile_append_of_pos hall,
    List.dropWhile_append_of_pos hall]

theorem splitAttrval_of_isValue {instruction s : List Char}
    (hslash : '/' ∉ instruction) (hs : IsValue s) :
    splitAttrval (instruction ++ s) = (instruction, s) := by
  have htake := (takeWhile_eq_nil_iff_isValue s).mpr hs
  have hdrop : s.dropWhile (· != '/') = s := by
    have h := List.takeWhile_append_dropWhile (p := (· != '/')) (l := s)
    rwa [htake, List.nil_append] at h
  rw [splitAttrval_append hslash, htake, List.append_nil, hdrop]

theorem setxattrSrcmounts_of_long {attrval : List Char} {flags : UInt32}
    (hflags : ¬ flags &&& XATTR_CREATE = XATTR_CREATE)
    (hlong : 2 < (splitAttrval attrval).1.length) (branches : Branches) :
    setxattrSrcmounts env attrval flags branches = (EINVAL.neg, branches) := by
  have hne : ∀ i : List Char, i.length ≤ 2 → (splitAttrval attrval).1 ≠ i := by
    rintro i hi rfl
    omega
  simp only [setxattrSrcmounts, setxattrSrcmountsWith, if_neg hflags,
    if_neg (hne "+".toList (by decide)), if_neg (hne "+<".toList (by decide)),
    if_neg (hne "+>".toList (by decide)), if_neg (hne "-".toList (by decide)),
    if_neg (hne "-<".toList (by decide)), if_neg (hne "->".toList (by decide)),
    if_neg (hne "=".toList (by decide)), if_neg (hne [] (by decide))]

theorem isValue_of_setxattrSrcmounts {instruction s : List Char} {flags : UInt32}
    {branches bs : Branches} (hslash : '/' ∉ instruction)
    (hlen : instruction.length = 2)
    (h : setxattrSrcmounts env (instruction ++ s) flags branches = (0, bs)) :
    ¬ flags &&& XATTR_CREATE = XATTR_CREATE ∧ IsValue s := by
  have hflags : ¬ flags &&& XATTR_CREATE = XATTR_CREATE := by
    intro hcreate
    rw [setxattrSrcmounts, setxattrSrcmountsWith, if_pos hcreate] at h
    exact ne_of_lt EEXIST.neg_lt_zero (congrArg Prod.fst h)
  refine ⟨hflags, ?_⟩
  by_contra hs
  have htake : s.takeWhile (· != '/') ≠ [] :=
    fun hnil => hs ((takeWhile_eq_nil_iff_isValue s).mp hnil)
  have hlong : 2 < (splitAttrval (instruction ++ s)).1.length := by
    rw [splitAttrval_append hslash, List.length_append, hlen]
    have := List.length_pos_iff.mpr htake
    omega
  rw [setxattrSrcmounts_of_long env hflags hlong] at h
  exact ne_of_lt EINVAL.neg_lt_zero (congrArg Prod.fst h)

/-- Both ways of adding at the end keep the order of the value. Adding at the front
does so exactly if the expansions of the entries read the same from the last entry
to the first. -/
theorem add_keeps_order_iff (branches : Branches) (s : List Char) (flags : UInt32) :
    (setxattrSrcmounts env ("+<".toList ++ s) flags branches =
        (0, Branches.expansion env s ++ branches) ↔
      ¬ flags &&& XATTR_CREATE = XATTR_CREATE ∧ IsValue s ∧
        (split ':' s).reverse.flatMap (Branches.parse env) =
          (split ':' s).flatMap (Branches.parse env)) ∧
    (setxattrSrcmounts env ("+>".toList ++ s) flags branches =
        (0, branches ++ Branches.expansion env s) ↔
      ¬ flags &&& XATTR_CREATE = XATTR_CREATE ∧ IsValue s) ∧
    (¬ flags &&& XATTR_CREATE = XATTR_CREATE ∧ IsValue s →
      setxattrSrcmounts env ("+".toList ++ s) flags branches =
        (0, branches ++ Branches.expansion env s)) := by
  have hbegin : ¬ flags &&& XATTR_CREATE = XATTR_CREATE → IsValue s →
      setxattrSrcmounts env ("+<".toList ++ s) flags branches =
        (0, (split ':' s).reverse.flatMap (Branches.parse env) ++ branches) := by
    intro hflags hs
    rw [← Branches.addBegin_eq]
    simp only [setxattrSrcmounts, setxattrSrcmountsWith, if_neg hflags,
      splitAttrval_of_isValue (show '/' ∉ "+<".toList by decide) hs]
    rfl
  refine ⟨⟨?_, ?_⟩, ⟨?_, ?_⟩, ?_⟩
  · intro h
    obtain ⟨hflags, hs⟩ := isValue_of_setxattrSrcmounts env (by decide) rfl h
    rw [hbegin hflags hs] at h
    exact ⟨hflags, hs, List.append_cancel_right (Prod.mk.inj h).2⟩
  · rintro ⟨hflags, hs, hrev⟩
    rw [hbegin hflags hs, hrev, Branches.expansion]
  · exact isValue_of_setxattrSrcmounts env (by decide) rfl
  · rintro ⟨hflags, hs⟩
    simp only [setxattrSrcmounts, setxattrSrcmountsWith, if_neg hflags,
      splitAttrval_of_isValue (show '/' ∉ "+>".toList by decide) hs]
    rfl
  · rintro ⟨hflags, hs⟩
    simp only [setxattrSrcmounts, setxattrSrcmountsWith, if_neg hflags,
      splitAttrval_of_isValue (show '/' ∉ "+".toList by decide) hs]
    rfl

/-- The example of the manual comes out the other way round. -/
theorem addBegin_reverses :
    setxattrSrcmounts plainEnv.toPathEnv "+</mnt/a:/mnt/b".toList 0
        [⟨.RW, "/mnt/c".toList⟩] =
      (0, [⟨.RW, "/mnt/b".toList⟩, ⟨.RW, "/mnt/a".toList⟩, ⟨.RW, "/mnt/c".toList⟩]) ∧
    Branches.expansion plainEnv.toPathEnv "/mnt/a:/mnt/b".toList =
      [⟨.RW, "/mnt/a".toList⟩, ⟨.RW, "/mnt/b".toList⟩] := by
  constructor <;> decide

end Mergerfs
