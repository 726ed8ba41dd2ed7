import Mathlib.Data.List.TakeWhile

/-!
# Strings

What the code does with strings apart from paths: `str::split`, which takes a string
up to a null apart as `std::getline` does, `str::join`, and the search of a table for
the entry of a name.
-/

namespace Mergerfs

def nul : Char := Char.ofNat 0

/-- `c_str()` as the library calls see it: up to the first null. -/
def cstr (s : List Char) : List Char := s.takeWhile (· != nul)

/-- `str::split`: a part that is empty is not yielded at the end. -/
def split (delimiter : Char) (s : List Char) : List (List Char) :=
  let parts := (cstr s).splitOn delimiter
  if parts.getLast? = some [] then parts.dropLast else parts

def join (sep : Char) (vec : List (List Char)) : List Char :=
  [sep].intercalate vec

/-- The `find` of `FuseFunc`, `Category` and `Policy`. -/
def findStr {α : Type*} (str : α → List Char) (table : List α) (s : List Char) :
    Option α :=
  table.find? fun a => decide (str a = s)

theorem cstr_eq_self {s : List Char} (h : nul ∉ s) : cstr s = s := by
  rw [cstr, List.takeWhile_eq_self_iff]
  intro c hc
  rw [bne_iff_ne]
  rintro rfl
  exact h hc

theorem nul_notMem_cstr (s : List Char) : nul ∉ cstr s := by
  intro h
  have hne := List.mem_takeWhile_imp h
  exact absurd rfl (bne_iff_ne.mp hne)

theorem nul_notMem_join {sep : Char} (hsep : sep ≠ nul) {parts : List (List Char)}
    (h : ∀ p ∈ parts, nul ∉ p) : nul ∉ join sep parts := by
  induction parts with
  | nil => simp [join]
  | cons p ps ih =>
      have hp : nul ∉ p := h p List.mem_cons_self
      have hps := ih fun q hq => h q (List.mem_cons_of_mem _ hq)
      cases ps with
      | nil => simpa [join] using hp
      | cons q qs =>
          have hjoin : join sep (p :: q :: qs) = p ++ sep :: join sep (q :: qs) := by
            simp [join]
          rw [hjoin, List.mem_append, List.mem_cons]
          rintro (hmem | heq | hmem)
          · exact hp hmem
          · exact hsep heq.symm
          · exact hps hmem

/-- Splitting undoes joining, unless the last part is empty. -/
theorem split_join {sep : Char} (hsep : sep ≠ nul) {parts : List (List Char)}
    (hne : parts ≠ []) (hlast : parts.getLast? ≠ some [])
    (h : ∀ p ∈ parts, nul ∉ p ∧ sep ∉ p) :
    split sep (join sep parts) = parts := by
  have hsplit : (join sep parts).splitOn sep = parts :=
    List.splitOn_intercalate sep (fun p hp => (h p hp).2) hne
  rw [split, cstr_eq_self (nul_notMem_join hsep fun p hp => (h p hp).1), hsplit]
  exact if_neg hlast

theorem cstr_cstr (s : List Char) : cstr (cstr s) = cstr s :=
  cstr_eq_self (nul_notMem_cstr s)

theorem split_cstr (delimiter : Char) (s : List Char) :
    split delimiter (cstr s) = split delimiter s := by
  rw [split, split, cstr_cstr]

theorem split_append_cons {delimiter : Char} {part s : List Char}
    (hpart : delimiter ∉ part) (hnul : nul ∉ part ++ delimiter :: s) :
    split delimiter (part ++ delimiter :: s) = part :: split delimiter s := by
  have hs : nul ∉ s := fun hmem => hnul (by simp [hmem])
  obtain ⟨p, ps, hps⟩ := List.exists_cons_of_ne_nil (List.splitOn_ne_nil delimiter s)
  rw [split, split, cstr_eq_self hnul, cstr_eq_self hs,
    List.splitOn_append_cons_self_of_not_mem hpart, hps, List.getLast?_cons_cons,
    List.dropLast_cons_cons]
  split_ifs <;> rfl

theorem split_of_notMem {delimiter : Char} {s : List Char} (hs : delimiter ∉ s)
    (hnul : nul ∉ s) : split delimiter s = if s = [] then [] else [s] := by
  rw [split, cstr_eq_self hnul, List.splitOn_eq_singleton hs]
  simp

theorem split_eq_nil_iff {delimiter : Char} {s : List Char} :
    split delimiter s = [] ↔ cstr s = [] := by
  have hnul := nul_notMem_cstr s
  rw [← split_cstr]
  generalize cstr s = s at *
  by_cases hmem : delimiter ∈ s
  · obtain ⟨part, t, rfl, hpart⟩ := List.eq_append_cons_of_mem hmem
    rw [split_append_cons hpart hnul]
    simp
  · rw [split_of_notMem hmem hnul]
    split_ifs with hs <;> simp [hs]

/-- The strings that have one part: the part, and the part with a delimiter. -/
theorem split_eq_singleton_iff {delimiter : Char} {s part : List Char}
    (hpart : delimiter ∉ part) (hne : part ≠ []) :
    split delimiter s = [part] ↔ cstr s = part ∨ cstr s = part ++ [delimiter] := by
  have hnul := nul_notMem_cstr s
  rw [← split_cstr]
  generalize cstr s = s at *
  constructor
  · intro h
    by_cases hmem : delimiter ∈ s
    · obtain ⟨first, t, rfl, hfirst⟩ := List.eq_append_cons_of_mem hmem
      have ht : nul ∉ t := fun h => hnul (by simp [h])
      rw [split_append_cons hfirst hnul, List.cons_eq_cons, split_eq_nil_iff,
        cstr_eq_self ht] at h
      right
      rw [h.1, h.2]
    · rw [split_of_notMem hmem hnul] at h
      split_ifs at h
      exact .inl (List.singleton_inj.mp h)
  · rintro (rfl | rfl)
    · rw [split_of_notMem hpart hnul, if_neg hne]
    · rw [split_append_cons hpart hnul]
      rfl

theorem str_of_findStr {α : Type*} {str : α → List Char} {table : List α}
    {s : List Char} {a : α} (h : findStr str table s = some a) : str a = s := by
  have hfound := List.find?_some h
  exact of_decide_eq_true hfound

theorem findStr_eq_some_iff {α : Type*} {str : α → List Char} {table : List α}
    (hinj : ∀ a ∈ table, ∀ b ∈ table, str a = str b → a = b) {s : List Char} {a : α} :
    findStr str table s = some a ↔ a ∈ table ∧ str a = s := by
  constructor
  · intro h
    exact ⟨List.mem_of_find?_eq_some h, str_of_findStr h⟩
  · rintro ⟨ha, rfl⟩
    cases h : findStr str table (str a) with
    | none =>
        have hnone := List.find?_eq_none.mp h a ha
        exact absurd (decide_eq_true rfl) hnone
    | some b =>
        have hb : b ∈ table := List.mem_of_find?_eq_some h
        rw [hinj b hb a ha (str_of_findStr h)]

end Mergerfs
