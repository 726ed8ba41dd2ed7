import Mathlib.Data.List.Perm.Basic

/-!
# Members by their places

A list of members that are named by their places: one of them leaves the list, or
changes in its place while the others stay.
-/

namespace Roster

variable {α β : Type*} {l : List α} {k : ℕ} {x y : α} {g : α → α}

theorem perm_eraseIdx (h : l[k]? = some x) : l.Perm (x :: l.eraseIdx k) := by
  obtain ⟨hk, rfl⟩ := List.getElem?_eq_some_iff.mp h
  exact (List.getElem_cons_eraseIdx_perm hk).symm

theorem length_eraseIdx (h : l[k]? = some x) : l.length = (l.eraseIdx k).length + 1 :=
  (perm_eraseIdx h).length_eq

theorem mem_modify (h : l[k]? = some x) (hy : y ∈ l.modify k g) :
    y = g x ∨ y ∈ l.eraseIdx k := by
  have hk : (l.modify k g)[k]? = some (g x) := by
    rw [List.getElem?_modify, h]
    exact congrArg some (if_pos rfl)
  have hperm := perm_eraseIdx hk
  rw [List.eraseIdx_modify_of_eq] at hperm
  exact List.mem_cons.mp (hperm.mem_iff.mp hy)

theorem map_modify {f : α → β} (h : ∀ x, f (g x) = f x) : (l.modify k g).map f = l.map f := by
  refine List.ext_getElem? fun i => ?_
  rw [List.getElem?_map, List.getElem?_map, List.getElem?_modify]
  cases l[i]? with
  | none => rfl
  | some y =>
      change some (f (if k = i then g y else y)) = some (f y)
      by_cases hi : k = i
      · rw [if_pos hi, h]
      · rw [if_neg hi]

end Roster
