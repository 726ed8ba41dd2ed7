import Mathlib.Data.List.Nodup

/-!
# Keeping the first of each key

A scan of a list that keeps an element if its key has not been met before, with the
keys met so far carried along. When the keys are hashes of names, the scan keeps the
first element of each name exactly if no two names of the list share a hash.
-/

namespace Distinct

variable {α κ ν : Type*} [DecidableEq κ] [DecidableEq ν]

/-- One round: the keys met so far and the elements kept. -/
def keep (key : α → κ) (s : List κ × List α) (x : α) : List κ × List α :=
  if key x ∈ s.1 then s else (key x :: s.1, s.2 ++ [x])

theorem nodup_keep {key : α → κ} {s : List κ × List α}
    (hmem : ∀ x ∈ s.2, key x ∈ s.1) (hnodup : (s.2.map key).Nodup) (x : α) :
    (∀ y ∈ (keep key s x).2, key y ∈ (keep key s x).1) ∧
      ((keep key s x).2.map key).Nodup := by
  unfold keep
  split_ifs with hx
  · exact ⟨hmem, hnodup⟩
  · constructor
    · intro y hy
      rcases List.mem_append.mp hy with hold | hnew
      · exact List.mem_cons_of_mem _ (hmem y hold)
      · rw [List.mem_singleton.mp hnew]
        exact List.mem_cons_self
    · rw [List.map_append, List.nodup_append]
      refine ⟨hnodup, by simp, ?_⟩
      intro k hk k' hk' heq
      obtain ⟨y, hy, rfl⟩ := List.mem_map.mp hk
      have hxk : k' = key x := by simpa using hk'
      apply hx
      rw [← hxk, ← heq]
      exact hmem y hy

theorem nodup_foldl_keep (key : α → κ) {s : List κ × List α}
    (hmem : ∀ x ∈ s.2, key x ∈ s.1) (hnodup : (s.2.map key).Nodup)
    (xs : List α) : ((xs.foldl (keep key) s).2.map key).Nodup := by
  induction xs generalizing s with
  | nil => exact hnodup
  | cons x xs ih =>
      obtain ⟨hmem', hnodup'⟩ := nodup_keep hmem hnodup x
      exact ih hmem' hnodup'

/-- Where hashes tell the names apart, the scan adds the first element of each name
that was not met before; `names` lists those that were. -/
theorem filter_foldl_keep {name : α → ν} {hash : ν → κ} {names : List ν}
    {xs : List α}
    (hinj : ∀ a ∈ names ++ xs.map name, ∀ b ∈ names ++ xs.map name,
      hash a = hash b → a = b) (out : List α) (n : ν) :
    (xs.foldl (keep fun x => hash (name x)) (names.map hash, out)).2.filter
        (fun x => decide (name x = n)) =
      out.filter (fun x => decide (name x = n)) ++
        if n ∈ names then [] else (xs.find? fun x => decide (name x = n)).toList := by
  induction xs generalizing names out with
  | nil => simp
  | cons x xs ih =>
      have hseen : hash (name x) ∈ names.map hash ↔ name x ∈ names := by
        constructor
        · intro h
          obtain ⟨m, hm, heq⟩ := List.mem_map.mp h
          have hmx : m = name x :=
            hinj m (by simp [hm]) (name x) (by simp) heq
          rwa [hmx] at hm
        · exact List.mem_map_of_mem
      rw [List.foldl_cons]
      by_cases hx : name x ∈ names
      · have hstep : keep (fun x => hash (name x)) (names.map hash, out) x =
            (names.map hash, out) := if_pos (hseen.mpr hx)
        rw [hstep, ih (fun a ha b hb => hinj a (by simp at ha ⊢; tauto) b
          (by simp at hb ⊢; tauto))]
        by_cases hn : n ∈ names
        · simp [hn]
        · have hne : name x ≠ n := fun h => hn (h ▸ hx)
          simp [hn, hne]
      · have hstep : keep (fun x => hash (name x)) (names.map hash, out) x =
            ((name x :: names).map hash, out ++ [x]) :=
          if_neg fun h => hx (hseen.mp h)
        rw [hstep, ih (fun a ha b hb => hinj a (by simp at ha ⊢; tauto) b
          (by simp at hb ⊢; tauto))]
        by_cases hn : name x = n
        · subst hn
          simp [hx]
        · have hmem : n ∈ name x :: names ↔ n ∈ names := by
            simp [Ne.symm hn]
          simp [hn, hmem]

/-- The scan keeps the first element of each name, once, exactly if no two names of
the list share a hash. -/
theorem filter_keep_iff (name : α → ν) (hash : ν → κ) (xs : List α) :
    (∀ n, (xs.foldl (keep fun x => hash (name x)) ([], [])).2.filter
        (fun x => decide (name x = n)) =
      (xs.find? fun x => decide (name x = n)).toList) ↔
    ∀ a ∈ xs, ∀ b ∈ xs, hash (name a) = hash (name b) → name a = name b := by
  constructor
  · intro h a ha b hb heq
    have hnodup := nodup_foldl_keep (fun x => hash (name x)) (s := ([], []))
      (by simp) (by simp) xs
    have hkept : ∀ c ∈ xs, ∃ c' ∈ (xs.foldl (keep fun x => hash (name x))
        ([], [])).2, name c' = name c := by
      intro c hc
      cases hf : xs.find? fun x => decide (name x = name c) with
      | none =>
          have := List.find?_eq_none.mp hf c hc
          simp at this
      | some c' =>
          have hmem : c' ∈ (xs.foldl (keep fun x => hash (name x))
              ([], [])).2.filter (fun x => decide (name x = name c)) := by
            rw [h (name c), hf]
            simp
          obtain ⟨hc', hname⟩ := List.mem_filter.mp hmem
          exact ⟨c', hc', by simpa using hname⟩
    obtain ⟨a', ha', hna⟩ := hkept a ha
    obtain ⟨b', hb', hnb⟩ := hkept b hb
    have hsame : a' = b' :=
      List.inj_on_of_nodup_map hnodup ha' hb' (by simp only [hna, hnb, heq])
    rw [← hna, ← hnb, hsame]
  · intro h n
    have hinj : ∀ a ∈ [] ++ xs.map name, ∀ b ∈ [] ++ xs.map name,
        hash a = hash b → a = b := by
      intro a ha b hb heq
      obtain ⟨x, hx, rfl⟩ := List.mem_map.mp ha
      obtain ⟨y, hy, rfl⟩ := List.mem_map.mp hb
      exact h x hx y hy heq
    simpa using filter_foldl_keep hinj [] n

end Distinct
