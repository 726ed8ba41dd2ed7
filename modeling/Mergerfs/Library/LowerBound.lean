import Mathlib.Data.List.Basic
import Mathlib.Order.Lattice

/-!
# Binary search for the first element not below a key

`search below xs` halves the part of the list that may hold the boundary between the
elements that are `below` and those that are not, as `std::lower_bound` does. On a
list on which `below` never starts again it finds the boundary, and on a list
strictly sorted by a key it finds the element with a given key.

`checkedSearch` is the same search with no result should it look at a place outside
of the list or use up its rounds; it never does.
-/

namespace LowerBound

variable {α κ : Type*}

/-- The boundary is among the `count` positions from `lo` on, or right after
them. The first argument bounds the number of rounds. -/
def loop (below : α → Bool) (xs : List α) : ℕ → ℕ → ℕ → ℕ
  | 0, lo, _ => lo
  | fuel + 1, lo, count =>
      if count = 0 then lo
      else match xs[lo + count / 2]? with
        | none => lo
        | some x =>
            if below x then
              loop below xs fuel (lo + count / 2 + 1) (count - (count / 2 + 1))
            else loop below xs fuel lo (count / 2)

def search (below : α → Bool) (xs : List α) : ℕ :=
  loop below xs xs.length 0 xs.length

/-- Every element before `lo` is below, and none from `hi` on. -/
structure Boundary (below : α → Bool) (xs : List α) (lo hi : ℕ) : Prop where
  le_length : hi ≤ xs.length
  before : ∀ i x, i < lo → xs[i]? = some x → below x = true
  after : ∀ i x, hi ≤ i → xs[i]? = some x → below x = false

def Partitioned (below : α → Bool) (xs : List α) : Prop :=
  xs.Pairwise fun a b => below b = true → below a = true

theorem Partitioned.below_of_le {below : α → Bool} {xs : List α}
    (h : Partitioned below xs) {i j : ℕ} {x y : α} (hij : i ≤ j)
    (hx : xs[i]? = some x) (hy : xs[j]? = some y) (hb : below y = true) :
    below x = true := by
  obtain ⟨hi, rfl⟩ := List.getElem?_eq_some_iff.mp hx
  obtain ⟨hj, rfl⟩ := List.getElem?_eq_some_iff.mp hy
  rcases Nat.lt_or_eq_of_le hij with hlt | rfl
  · exact List.pairwise_iff_getElem.mp h i j hi hj hlt hb
  · exact hb

theorem boundary_loop {below : α → Bool} {xs : List α}
    (h : Partitioned below xs) {fuel lo count : ℕ} (hfuel : count ≤ fuel)
    (hb : Boundary below xs lo (lo + count)) :
    Boundary below xs (loop below xs fuel lo count)
      (loop below xs fuel lo count) := by
  induction fuel generalizing lo count with
  | zero =>
      obtain rfl : count = 0 := Nat.le_zero.mp hfuel
      exact hb
  | succ fuel ih =>
      rw [loop]
      by_cases hc : count = 0
      · subst hc
        exact hb
      · have hlt : lo + count / 2 < xs.length := by
          have := hb.le_length
          omega
        have hget := List.getElem?_eq_getElem hlt
        rw [if_neg hc, hget]
        dsimp only
        split_ifs with hbelow
        · apply ih (by omega)
          rw [show lo + count / 2 + 1 + (count - (count / 2 + 1)) = lo + count by
            omega]
          refine ⟨hb.le_length, ?_, hb.after⟩
          intro i x hi hx
          exact h.below_of_le (by omega) hx hget hbelow
        · apply ih (by omega)
          refine ⟨by omega, hb.before, ?_⟩
          intro i x hi hx
          rw [Bool.eq_false_iff]
          intro hbx
          exact hbelow (h.below_of_le hi hget hx hbx)

theorem boundary_search {below : α → Bool} {xs : List α}
    (h : Partitioned below xs) :
    Boundary below xs (search below xs) (search below xs) := by
  apply boundary_loop h (Nat.le_refl _)
  refine ⟨by omega, ?_, ?_⟩
  · intro i x hi
    exact absurd hi (Nat.not_lt_zero i)
  · intro i x hi hx
    obtain ⟨hlt, _⟩ := List.getElem?_eq_some_iff.mp hx
    omega

/-- `loop`, with no result when it looks at a place outside of the list and when the
rounds are used up. -/
def checkedLoop (below : α → Bool) (xs : List α) : ℕ → ℕ → ℕ → Option ℕ
  | 0, lo, count => if count = 0 then some lo else none
  | fuel + 1, lo, count =>
      if count = 0 then some lo
      else (xs[lo + count / 2]?).bind fun x =>
        if below x then
          checkedLoop below xs fuel (lo + count / 2 + 1) (count - (count / 2 + 1))
        else checkedLoop below xs fuel lo (count / 2)

def checkedSearch (below : α → Bool) (xs : List α) : Option ℕ :=
  checkedLoop below xs xs.length 0 xs.length

theorem checkedLoop_eq (below : α → Bool) {xs : List α} {fuel lo count : ℕ}
    (hfuel : count ≤ fuel) (hin : lo + count ≤ xs.length) :
    checkedLoop below xs fuel lo count = some (loop below xs fuel lo count) := by
  induction fuel generalizing lo count with
  | zero =>
      obtain rfl : count = 0 := Nat.le_zero.mp hfuel
      rfl
  | succ fuel ih =>
      rw [checkedLoop, loop]
      by_cases hc : count = 0
      · rw [if_pos hc, if_pos hc]
      · have hget := List.getElem?_eq_getElem (l := xs) (i := lo + count / 2)
          (by omega)
        rw [if_neg hc, if_neg hc, hget, Option.bind_some]
        dsimp only
        split_ifs
        · exact ih (by omega) (by omega)
        · exact ih (by omega) (by omega)

/-- The search stays inside of the list and ends, whatever the list is. -/
theorem checkedSearch_eq (below : α → Bool) (xs : List α) :
    checkedSearch below xs = some (search below xs) :=
  checkedLoop_eq below (Nat.le_refl _) (Nat.le_of_eq (Nat.zero_add _))

section Keys

variable [LinearOrder κ] {key : α → κ} {xs : List α}

theorem partitioned_of_sorted (h : xs.Pairwise fun a b => key a < key b)
    (k : κ) : Partitioned (fun x => decide (key x < k)) xs := by
  apply h.imp
  intro a b hab hb
  rw [decide_eq_true_iff] at hb ⊢
  exact lt_trans hab hb

/-- In a list strictly sorted by `key` the search finds the element with the
key. -/
theorem getElem?_search_of_mem (h : xs.Pairwise fun a b => key a < key b)
    {x : α} (hx : x ∈ xs) :
    xs[search (fun y => decide (key y < key x)) xs]? = some x := by
  have hb := boundary_search (partitioned_of_sorted h (key x))
  obtain ⟨j, hj, rfl⟩ := List.getElem_of_mem hx
  have hle : search (fun y => decide (key y < key xs[j])) xs ≤ j := by
    by_contra hlt
    have hself := hb.before j xs[j] (by omega) (List.getElem?_eq_getElem hj)
    exact lt_irrefl _ (of_decide_eq_true hself)
  rcases Nat.lt_or_eq_of_le hle with hlt | heq
  · have hs : search (fun y => decide (key y < key xs[j])) xs < xs.length := by
      omega
    have hge := hb.after _ _ (Nat.le_refl _) (List.getElem?_eq_getElem hs)
    have hlow := List.pairwise_iff_getElem.mp h _ _ hs hj hlt
    simp [hlow] at hge
  · rw [heq, List.getElem?_eq_getElem hj]

end Keys

end LowerBound
