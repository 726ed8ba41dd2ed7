import Mathlib.Data.List.Infix
import Mergerfs.Basic.Str

/-!
# The default name of the file system

Without an `fsname` option the name is the branch paths joined by colons, with what
they have in common at the front removed: `str::remove_common_prefix_and_join`. The
scan for the first difference goes along the first path, and when that path ends
without one nothing is removed.

A `substr` whose position is beyond the end of the string has no result.
-/

namespace Mergerfs

/-- `q` is the longest of the common prefixes of `vec`. -/
structure IsLongestCommonPrefix {α : Type*} (q : List α) (vec : List (List α)) :
    Prop where
  isPrefix : ∀ p ∈ vec, q <+: p
  longest : ∀ r, (∀ p ∈ vec, r <+: p) → r <+: q

def substr (s : List Char) (pos : ℕ) : Option (List Char) :=
  if pos ≤ s.length then some (s.drop pos) else none

/-- `str::join` of what the strings are from `substridx` on. -/
def joinFrom (vec : List (List Char)) (substridx : ℕ) (sep : Char) :
    Option (List Char) :=
  match vec with
  | [] => some []
  | first :: rest =>
      (substr first substridx).bind fun rv =>
        rest.foldlM (fun rv s => (substr s substridx).map fun t => rv ++ sep :: t) rv

/-- The outer loop of `str::longest_common_prefix_index`, from position `n` of the
first string on. -/
def firstDifference (rest : List (List Char)) : ℕ → List Char → Option ℕ
  | _, [] => none
  | n, chr :: cs =>
      if rest.any fun s => decide (s.length ≤ n) || s[n]? != some chr then some n
      else firstDifference rest (n + 1) cs

/-- `str::longest_common_prefix_index`, with `none` for `npos`. -/
def longestCommonPrefixIndex : List (List Char) → Option ℕ
  | [] => none
  | first :: rest => firstDifference rest 0 first

def removeCommonPrefixAndJoin (vec : List (List Char)) (sep : Char) :
    Option (List Char) :=
  joinFrom vec ((longestCommonPrefixIndex vec).getD 0) sep

def removedPrefix (vec : List (List Char)) : List Char :=
  (vec.headD []).take ((longestCommonPrefixIndex vec).getD 0)

/-! ## Longest common prefixes -/

section Prefixes

variable {α : Type*} {q q' : List α} {vec vec' : List (List α)}

theorem IsLongestCommonPrefix.unique (h : IsLongestCommonPrefix q vec)
    (h' : IsLongestCommonPrefix q' vec) : q = q' :=
  List.IsPrefix.eq_of_length_le (h'.longest q h.isPrefix)
    (h.longest q' h'.isPrefix).length_le

theorem IsLongestCommonPrefix.perm (h : IsLongestCommonPrefix q vec)
    (hperm : vec.Perm vec') : IsLongestCommonPrefix q vec' := by
  constructor
  · intro p hp
    exact h.isPrefix p (hperm.mem_iff.mpr hp)
  · intro r hr
    exact h.longest r fun p hp => hr p (hperm.mem_iff.mp hp)

theorem IsLongestCommonPrefix.of_mem (hq : q ∈ vec) (h : ∀ p ∈ vec, q <+: p) :
    IsLongestCommonPrefix q vec :=
  ⟨h, fun _ hr => hr q hq⟩

theorem IsLongestCommonPrefix.of_difference {mid s t : List α} {c : α}
    (h : ∀ p ∈ vec, mid <+: p) (ht : mid ++ c :: t ∈ vec) (hs : s ∈ vec)
    (hdiff : ¬ mid ++ [c] <+: s) : IsLongestCommonPrefix mid vec := by
  refine ⟨h, ?_⟩
  intro r hr
  rcases List.prefix_or_prefix_of_prefix (hr _ ht) (List.prefix_append mid (c :: t))
    with hle | ⟨u, rfl⟩
  · exact hle
  · -- a longer one goes on with `c`
    cases u with
    | nil => simp
    | cons d u =>
        obtain ⟨v, hv⟩ := hr _ ht
        obtain ⟨rfl, -⟩ : d = c ∧ u ++ v = t := by simpa using hv
        have hlong : mid ++ [d] <+: mid ++ d :: u := ⟨u, by simp⟩
        exact absurd (hlong.trans (hr s hs)) hdiff

theorem concat_prefix_iff {pre s : List α} (h : pre <+: s) (c : α) :
    pre ++ [c] <+: s ↔ s[pre.length]? = some c := by
  obtain ⟨t, rfl⟩ := h
  rw [List.prefix_append_right_inj, List.getElem?_append_right (Nat.le_refl _),
    Nat.sub_self]
  cases t with
  | nil => simp
  | cons d t => simp [eq_comm]

end Prefixes

/-! ## The scan -/

theorem firstDifference_cons (rest : List (List Char)) {pre : List Char}
    (hpre : ∀ s ∈ rest, pre <+: s) (chr : Char) (cs : List Char) :
    (firstDifference rest pre.length (chr :: cs) = some pre.length ∧
        ∃ s ∈ rest, ¬ pre ++ [chr] <+: s) ∨
      (firstDifference rest pre.length (chr :: cs) =
          firstDifference rest (pre ++ [chr]).length cs ∧
        ∀ s ∈ rest, pre ++ [chr] <+: s) := by
  rw [firstDifference]
  split_ifs with hany
  · left
    obtain ⟨s, hs, hdiff⟩ := List.any_eq_true.mp hany
    refine ⟨rfl, s, hs, ?_⟩
    rw [concat_prefix_iff (hpre s hs)]
    intro heq
    obtain ⟨hlt, -⟩ := List.getElem?_eq_some_iff.mp heq
    simp [heq, Nat.not_le.mpr hlt] at hdiff
  · right
    refine ⟨by rw [List.length_append, List.length_singleton], ?_⟩
    intro s hs
    rw [concat_prefix_iff (hpre s hs)]
    by_contra hne
    exact hany (List.any_eq_true.mpr ⟨s, hs, by simp [hne]⟩)

/-- The scan that runs off the first string has found it to be a prefix of the
others; one that stops has found the longest common prefix, and a character behind
it. -/
theorem firstDifference_cases {rest : List (List Char)} {pre : List Char}
    (hpre : ∀ s ∈ rest, pre <+: s) (cs : List Char) :
    (firstDifference rest pre.length cs = none ∧ ∀ s ∈ rest, pre ++ cs <+: s) ∨
      ∃ mid c t, cs = mid ++ c :: t ∧
        firstDifference rest pre.length cs = some (pre ++ mid).length ∧
        (∀ s ∈ rest, pre ++ mid <+: s) ∧ ∃ s ∈ rest, ¬ pre ++ mid ++ [c] <+: s := by
  induction cs generalizing pre with
  | nil =>
      left
      rw [List.append_nil]
      exact ⟨rfl, hpre⟩
  | cons c cs ih =>
      rcases firstDifference_cons rest hpre c cs with ⟨hstop, hdiff⟩ | ⟨hstep, hsame⟩
      · right
        refine ⟨[], c, cs, rfl, ?_, ?_, ?_⟩
        · rw [hstop, List.append_nil]
        · rwa [List.append_nil]
        · rwa [List.append_nil]
      · rw [hstep]
        rcases ih hsame with ⟨hnone, hall⟩ | ⟨mid, d, t, rfl, hsome, hall, hdiff⟩
        · left
          rw [List.append_assoc] at hall
          exact ⟨hnone, hall⟩
        · right
          have hassoc : pre ++ [c] ++ mid = pre ++ c :: mid := by simp
          rw [hassoc] at hsome hall hdiff
          exact ⟨c :: mid, d, t, rfl, hsome, hall, hdiff⟩

theorem longestCommonPrefixIndex_cons {q first : List Char}
    {rest : List (List Char)} (h : IsLongestCommonPrefix q (first :: rest)) :
    longestCommonPrefixIndex (first :: rest) =
      if first = q then none else some q.length := by
  have hnil : ∀ s ∈ rest, [] <+: s := fun s _ => List.nil_prefix
  rcases firstDifference_cases hnil first with
    ⟨hnone, hall⟩ | ⟨mid, c, t, hfirst, hsome, hall, s, hs, hdiff⟩
  · have hself : IsLongestCommonPrefix first (first :: rest) := by
      apply IsLongestCommonPrefix.of_mem List.mem_cons_self
      intro p hp
      rcases List.mem_cons.mp hp with rfl | hp
      · exact List.prefix_rfl
      · exact hall p hp
    rw [if_pos (hself.unique h)]
    exact hnone
  · have hprefix : ∀ p ∈ first :: rest, mid <+: p := by
      intro p hp
      rcases List.mem_cons.mp hp with rfl | hp
      · exact ⟨c :: t, hfirst.symm⟩
      · exact hall p hp
    have hmem : mid ++ c :: t ∈ first :: rest := by
      rw [← hfirst]
      exact List.mem_cons_self
    have hmid := IsLongestCommonPrefix.of_difference hprefix hmem
      (List.mem_cons_of_mem _ hs) hdiff
    obtain rfl := hmid.unique h
    have hne : first ≠ mid := by
      rintro rfl
      have hlen := congrArg List.length hfirst
      simp at hlen
    rw [if_neg hne]
    exact hsome

theorem removedPrefix_cons {q first : List Char} {rest : List (List Char)}
    (h : IsLongestCommonPrefix q (first :: rest)) :
    removedPrefix (first :: rest) = if first = q then [] else q := by
  rw [removedPrefix, longestCommonPrefixIndex_cons h]
  split_ifs with hfirst
  · rfl
  · exact (List.prefix_iff_eq_take.mp (h.isPrefix first List.mem_cons_self)).symm

/-- Where no string is the longest common prefix, that prefix is removed. -/
theorem removedPrefix_eq {q : List Char} {vec : List (List Char)}
    (h : IsLongestCommonPrefix q vec) (hq : q = [] ∨ q ∉ vec) :
    removedPrefix vec = q := by
  cases vec with
  | nil =>
      -- every string is a common prefix of no strings
      have hlong := (h.longest (q ++ ['/']) (by simp)).length_le
      rw [List.length_append, List.length_singleton] at hlong
      omega
  | cons first rest =>
      rw [removedPrefix_cons h]
      split_ifs with hfirst
      · rcases hq with rfl | hq
        · rfl
        · exact absurd (hfirst ▸ List.mem_cons_self) hq
      · rfl

/-! ## The name -/

theorem join_cons_cons (sep : Char) (p p' : List Char) (ps : List (List Char)) :
    join sep (p :: p' :: ps) = p ++ sep :: join sep (p' :: ps) := by
  simp [join]

theorem join_append_cons (sep : Char) (p p' : List Char) (ps : List (List Char)) :
    join sep ((p ++ p') :: ps) = p ++ join sep (p' :: ps) := by
  cases ps with
  | nil => simp [join]
  | cons s ps => rw [join_cons_cons, join_cons_cons, List.append_assoc]

theorem substr_eq {s : List Char} {pos : ℕ} (h : pos ≤ s.length) :
    substr s pos = some (s.drop pos) :=
  if_pos h

theorem foldlM_substr {rest : List (List Char)} {substridx : ℕ}
    (h : ∀ p ∈ rest, substridx ≤ p.length) (sep : Char) (rv : List Char) :
    rest.foldlM (fun rv s => (substr s substridx).map fun t => rv ++ sep :: t) rv =
      some (join sep (rv :: rest.map (List.drop substridx))) := by
  induction rest generalizing rv with
  | nil => simp [join]
  | cons s rest ih =>
      have hrest : ∀ p ∈ rest, substridx ≤ p.length :=
        fun p hp => h p (List.mem_cons_of_mem _ hp)
      have happend : ∀ t : List Char, rv ++ sep :: t = (rv ++ [sep]) ++ t := by simp
      rw [List.foldlM_cons, substr_eq (h s List.mem_cons_self), Option.map_some]
      refine (ih hrest _).trans ?_
      rw [happend, join_append_cons, List.map_cons, join_cons_cons, ← happend]

theorem joinFrom_eq {vec : List (List Char)} {substridx : ℕ}
    (h : ∀ p ∈ vec, substridx ≤ p.length) (sep : Char) :
    joinFrom vec substridx sep =
      some (join sep (vec.map (List.drop substridx))) := by
  cases vec with
  | nil => rfl
  | cons first rest =>
      rw [joinFrom, substr_eq (h first List.mem_cons_self), Option.bind_some,
        foldlM_substr fun p hp => h p (List.mem_cons_of_mem _ hp)]
      rfl

theorem length_join_drop_le (sep : Char) (n : ℕ) (vec : List (List Char)) :
    (join sep (vec.map (List.drop n))).length ≤ (join sep vec).length := by
  induction vec with
  | nil => exact Nat.le_refl _
  | cons p ps ih =>
      cases ps with
      | nil => simp [join]
      | cons p' ps =>
          rw [List.map_cons, List.map_cons, join_cons_cons, join_cons_cons,
            List.length_append, List.length_append, List.length_cons,
            List.length_cons, List.length_drop]
          rw [List.map_cons] at ih
          omega

theorem length_join_drop_lt (sep : Char) {n : ℕ} {first : List Char}
    (hn : 0 < n) (hfirst : n ≤ first.length) (rest : List (List Char)) :
    (join sep ((first :: rest).map (List.drop n))).length <
      (join sep (first :: rest)).length := by
  cases rest with
  | nil =>
      simp only [join, List.map_cons, List.map_nil, List.intercalate_singleton,
        List.length_drop]
      omega
  | cons p ps =>
      have hle := length_join_drop_le sep n (p :: ps)
      rw [List.map_cons, List.map_cons] at *
      rw [join_cons_cons, join_cons_cons, List.length_append, List.length_append,
        List.length_cons, List.length_cons, List.length_drop]
      omega

theorem map_drop_zero (vec : List (List Char)) : vec.map (List.drop 0) = vec :=
  List.map_id'' (fun _ => List.drop_zero) vec

theorem joinFrom_zero (vec : List (List Char)) (sep : Char) :
    joinFrom vec 0 sep = some (join sep vec) := by
  rw [joinFrom_eq (fun p _ => Nat.zero_le _), map_drop_zero]

theorem removeCommonPrefixAndJoin_cons {q first : List Char}
    {rest : List (List Char)} (h : IsLongestCommonPrefix q (first :: rest))
    (sep : Char) :
    removeCommonPrefixAndJoin (first :: rest) sep =
      some (join sep (if first = q then first :: rest
        else (first :: rest).map (List.drop q.length))) := by
  rw [removeCommonPrefixAndJoin, longestCommonPrefixIndex_cons h]
  split_ifs with hfirst
  · exact joinFrom_zero _ sep
  · exact joinFrom_eq (fun p hp => (h.isPrefix p hp).length_le) sep

/-- The name is what it should be, in whatever order the paths come, exactly when
the paths have nothing in common at the front or none of them is what they have in
common. No substring is ever taken beyond the end of a path. -/
theorem removeCommonPrefixAndJoin_iff (first : List Char)
    (rest : List (List Char)) (sep : Char) {q : List Char}
    (hq : IsLongestCommonPrefix q (first :: rest)) :
    (removeCommonPrefixAndJoin (first :: rest) sep).isSome ∧
      ((removeCommonPrefixAndJoin (first :: rest) sep =
            some (join sep ((first :: rest).map (List.drop q.length))) ∧
          ∀ vec, (first :: rest).Perm vec →
            removedPrefix vec = removedPrefix (first :: rest)) ↔
        (q = [] ∨ q ∉ first :: rest)) := by
  rw [removeCommonPrefixAndJoin_cons hq]
  refine ⟨rfl, ?_, ?_⟩
  · rintro ⟨hname, hperm⟩
    by_contra hcon
    rw [not_or, not_not] at hcon
    obtain ⟨hne, hmem⟩ := hcon
    -- with `q` in front nothing is removed, and so nothing is here
    have hfront := List.perm_cons_erase hmem
    have hremoved := hperm _ hfront
    rw [removedPrefix_cons (hq.perm hfront), if_pos rfl, removedPrefix_cons hq]
      at hremoved
    have hfirst : first = q := by
      by_contra hfirst
      rw [if_neg hfirst] at hremoved
      exact hne hremoved.symm
    rw [if_pos hfirst, Option.some_inj] at hname
    have hlt := length_join_drop_lt sep (List.length_pos_iff.mpr hne)
      (hq.isPrefix first List.mem_cons_self).length_le rest
    exact absurd (congrArg List.length hname) (Nat.ne_of_gt hlt)
  · intro hcond
    constructor
    · rcases hcond with rfl | hmem
      · rw [show ([] : List Char).length = 0 from rfl, map_drop_zero, ite_self]
      · have hfirst : first ≠ q := by
          rintro rfl
          exact hmem List.mem_cons_self
        rw [if_neg hfirst]
    · intro vec hvec
      rw [removedPrefix_eq (hq.perm hvec) (by simpa [hvec.mem_iff] using hcond),
        removedPrefix_eq hq hcond]

/-- Two paths of which none continues the other lose what they share. -/
theorem removeCommonPrefixAndJoin_iff_mnt :
    removeCommonPrefixAndJoin ["/mnt/a".toList, "/mnt/b".toList] ':' =
        some "a:b".toList ∧
      removedPrefix ["/mnt/b".toList, "/mnt/a".toList] =
        removedPrefix ["/mnt/a".toList, "/mnt/b".toList] := by
  have hq : IsLongestCommonPrefix "/mnt/".toList
      ["/mnt/a".toList, "/mnt/b".toList] :=
    .of_difference (c := 'a') (t := []) (s := "/mnt/b".toList) (by decide)
      (by decide) (by decide) (by decide)
  have h := ((removeCommonPrefixAndJoin_iff "/mnt/a".toList ["/mnt/b".toList] ':'
    hq).2.mpr (.inr (by decide)))
  exact ⟨h.1, h.2 _ (List.Perm.swap _ _ _)⟩

/-- A path that the other one continues: in front it hides what the two share. -/
theorem removeCommonPrefixAndJoin_first :
    removeCommonPrefixAndJoin ["/mnt/a".toList, "/mnt/ab".toList] ':' =
        some "/mnt/a:/mnt/ab".toList ∧
      removeCommonPrefixAndJoin ["/mnt/ab".toList, "/mnt/a".toList] ':' =
        some "b:".toList := by
  decide

end Mergerfs
