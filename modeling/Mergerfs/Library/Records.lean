import Mathlib.Data.List.Sort

/-!
# Records under keys

A map from keys to values as the list of its pairs, sorted by key. Inserting under a
key that is there already changes nothing, so that a map made from a list of pairs
holds the first pair of each key: `mem_ofList_iff`. As a sorted list is determined by
its members, two maps are equal if they hold the same pairs.
-/

structure Records (κ α : Type*) [LinearOrder κ] where
  toList : List (κ × α)
  sorted : toList.Pairwise fun x y => x.1 < y.1

namespace Records

variable {κ α β : Type*} [LinearOrder κ]

theorem ext_of_mem {r r' : Records κ α}
    (h : ∀ x, x ∈ r.toList ↔ x ∈ r'.toList) : r = r' := by
  have : Std.Irrefl fun x y : κ × α => x.1 < y.1 := ⟨fun x => lt_irrefl x.1⟩
  obtain ⟨l, hl⟩ := r
  obtain ⟨l', hl'⟩ := r'
  obtain rfl : l = l' := hl.eq_of_mem_iff hl' h
  rfl

theorem nodup (r : Records κ α) : r.toList.Nodup :=
  r.sorted.imp fun {x y} h => by
    rintro rfl
    exact lt_irrefl _ h

/-! ## Inserting -/

def insertList (k : κ) (v : α) : List (κ × α) → List (κ × α)
  | [] => [(k, v)]
  | x :: l =>
      if k < x.1 then (k, v) :: x :: l
      else if k = x.1 then x :: l
      else x :: insertList k v l

theorem mem_insertList {k : κ} {v : α} {l : List (κ × α)}
    (h : l.Pairwise fun x y => x.1 < y.1) {x : κ × α} :
    x ∈ insertList k v l ↔ x ∈ l ∨ (x = (k, v) ∧ ∀ y ∈ l, y.1 ≠ k) := by
  induction l with
  | nil => simp [insertList]
  | cons y l ih =>
      obtain ⟨hy, hl⟩ := List.pairwise_cons.mp h
      unfold insertList
      split_ifs with hlt heq
      · have hne : ∀ z ∈ y :: l, z.1 ≠ k := by
          intro z hz
          rcases List.mem_cons.mp hz with rfl | hz
          · exact ne_of_gt hlt
          · exact ne_of_gt (lt_trans hlt (hy z hz))
        rw [List.mem_cons]
        constructor
        · rintro (rfl | hx)
          · exact .inr ⟨rfl, hne⟩
          · exact .inl hx
        · rintro (hx | ⟨rfl, _⟩)
          · exact .inr hx
          · exact .inl rfl
      · constructor
        · exact .inl
        · rintro (hx | ⟨_, hne⟩)
          · exact hx
          · exact absurd heq.symm (hne y List.mem_cons_self)
      · rw [List.mem_cons, ih hl, List.mem_cons, List.forall_mem_cons, or_assoc]
        have hyk : y.1 ≠ k := fun h => heq h.symm
        simp [hyk]

theorem sorted_insertList (k : κ) (v : α) {l : List (κ × α)}
    (h : l.Pairwise fun x y => x.1 < y.1) :
    (insertList k v l).Pairwise fun x y => x.1 < y.1 := by
  induction l with
  | nil => simp [insertList]
  | cons y l ih =>
      obtain ⟨hy, hl⟩ := List.pairwise_cons.mp h
      unfold insertList
      split_ifs with hlt heq
      · refine List.pairwise_cons.mpr ⟨?_, h⟩
        intro z hz
        rcases List.mem_cons.mp hz with rfl | hz
        · exact hlt
        · exact lt_trans hlt (hy z hz)
      · exact h
      · refine List.pairwise_cons.mpr ⟨?_, ih hl⟩
        intro z hz
        rcases (mem_insertList hl).mp hz with hz | ⟨rfl, _⟩
        · exact hy z hz
        · exact lt_of_le_of_ne (not_lt.mp hlt) fun h => heq h.symm

def empty : Records κ α := ⟨[], .nil⟩

def insert (r : Records κ α) (k : κ) (v : α) : Records κ α :=
  ⟨insertList k v r.toList, sorted_insertList k v r.sorted⟩

theorem mem_insert {r : Records κ α} {k : κ} {v : α} {x : κ × α} :
    x ∈ (r.insert k v).toList ↔
      x ∈ r.toList ∨ (x = (k, v) ∧ ∀ y ∈ r.toList, y.1 ≠ k) :=
  mem_insertList r.sorted

def insertAll (r : Records κ α) (l : List (κ × α)) : Records κ α :=
  l.foldl (fun r x => r.insert x.1 x.2) r

/-- A map keeps what it holds, and takes the first pair of each other key. -/
theorem mem_insertAll {r : Records κ α} {l : List (κ × α)} {x : κ × α} :
    x ∈ (r.insertAll l).toList ↔
      x ∈ r.toList ∨ ((∀ y ∈ r.toList, y.1 ≠ x.1) ∧
        l.find? (fun y => decide (y.1 = x.1)) = some x) := by
  induction l generalizing r with
  | nil => simp [insertAll]
  | cons z l ih =>
      have hstep : r.insertAll (z :: l) = (r.insert z.1 z.2).insertAll l := rfl
      rw [hstep, ih, mem_insert]
      by_cases hz : z.1 = x.1
      · rw [List.find?_cons_of_pos (by simpa using hz), Option.some.injEq]
        constructor
        · rintro ((hx | ⟨rfl, hne⟩) | ⟨hne, _⟩)
          · exact .inl hx
          · exact .inr ⟨hne, rfl⟩
          · -- the key of `z` is in the map now
            by_cases hmem : ∀ y ∈ r.toList, y.1 ≠ z.1
            · exact absurd hz (hne z (mem_insert.mpr (.inr ⟨rfl, hmem⟩)))
            · simp only [not_forall, not_not] at hmem
              obtain ⟨y, hy, hyz⟩ := hmem
              exact absurd (hyz.trans hz) (hne y (mem_insert.mpr (.inl hy)))
        · rintro (hx | ⟨hne, rfl⟩)
          · exact .inl (.inl hx)
          · exact .inl (.inr ⟨rfl, hne⟩)
      · rw [List.find?_cons_of_neg (by simpa using hz)]
        have hxz : x ≠ (z.1, z.2) := by
          rintro rfl
          exact hz rfl
        have hkeys : (∀ y ∈ (r.insert z.1 z.2).toList, y.1 ≠ x.1) ↔
            ∀ y ∈ r.toList, y.1 ≠ x.1 := by
          constructor
          · exact fun h y hy => h y (mem_insert.mpr (.inl hy))
          · intro h y hy
            rcases mem_insert.mp hy with hy | ⟨rfl, _⟩
            · exact h y hy
            · exact hz
        rw [hkeys]
        simp [hxz]

/-! ## The first of each key -/

def ofList (l : List (κ × α)) : Records κ α := empty.insertAll l

theorem mem_ofList_iff {l : List (κ × α)} {x : κ × α} :
    x ∈ (ofList l).toList ↔ l.find? (fun y => decide (y.1 = x.1)) = some x := by
  rw [ofList, mem_insertAll]
  simp [empty]

theorem mem_of_mem_ofList {l : List (κ × α)} {x : κ × α}
    (h : x ∈ (ofList l).toList) : x ∈ l :=
  List.mem_of_find?_eq_some (mem_ofList_iff.mp h)

theorem ofList_eq_nil_iff {l : List (κ × α)} : (ofList l).toList = [] ↔ l = [] := by
  constructor
  · intro h
    cases l with
    | nil => rfl
    | cons x l =>
        have hx : x ∈ (ofList (x :: l)).toList :=
          mem_ofList_iff.mpr (List.find?_cons_of_pos (by simp))
        rw [h] at hx
        cases hx
  · rintro rfl
    rfl

theorem mem_ofList_of_unique {l : List (κ × α)} {x : κ × α} (hx : x ∈ l)
    (h : ∀ y ∈ l, y.1 = x.1 → y = x) : x ∈ (ofList l).toList := by
  rw [mem_ofList_iff]
  cases hf : l.find? fun y => decide (y.1 = x.1) with
  | none =>
      have := List.find?_eq_none.mp hf x hx
      simp at this
  | some y =>
      have hkey : y.1 = x.1 := by simpa using List.find?_some hf
      rw [h y (List.mem_of_find?_eq_some hf) hkey]

/-- With one pair for each key all pairs are taken. -/
theorem perm_ofList {l : List (κ × α)} (h : (l.map Prod.fst).Nodup) :
    (ofList l).toList.Perm l := by
  rw [List.perm_ext_iff_of_nodup (ofList l).nodup (List.Nodup.of_map _ h)]
  intro x
  constructor
  · exact mem_of_mem_ofList
  · intro hx
    exact mem_ofList_of_unique hx fun y hy => List.inj_on_of_nodup_map h hy hx

/-- Where the pairs of one key are the same, their order makes no difference. -/
theorem ofList_eq_of_perm {l l' : List (κ × α)} (hperm : l.Perm l')
    (h : ∀ x ∈ l, ∀ y ∈ l, x.1 = y.1 → x = y) : ofList l = ofList l' := by
  apply ext_of_mem
  intro x
  constructor
  · intro hx
    have hxl := mem_of_mem_ofList hx
    exact mem_ofList_of_unique (hperm.mem_iff.mp hxl)
      fun y hy => h y (hperm.mem_iff.mpr hy) x hxl
  · intro hx
    have hxl := hperm.mem_iff.mpr (mem_of_mem_ofList hx)
    exact mem_ofList_of_unique hxl fun y hy => h y hy x hxl

theorem perm_ofList_cons (x : κ × α) (l₁ l₂ : List (κ × α)) :
    (ofList (x :: (l₁ ++ l₂))).toList.Perm
      (x :: (ofList (l₁ ++ x :: l₂)).toList.filter fun y => decide (y.1 ≠ x.1)) := by
  have hnotMem : x ∉ (ofList (l₁ ++ x :: l₂)).toList.filter
      fun y => decide (y.1 ≠ x.1) := by
    simp [List.mem_filter]
  rw [List.perm_ext_iff_of_nodup (nodup _)
    (List.nodup_cons.mpr ⟨hnotMem, (nodup _).filter _⟩)]
  intro z
  rw [mem_ofList_iff, List.mem_cons, List.mem_filter, mem_ofList_iff,
    decide_eq_true_iff]
  by_cases hz : x.1 = z.1
  · rw [List.find?_cons_of_pos (by simpa using hz), Option.some.injEq]
    simp [hz, eq_comm]
  · have hx : z ≠ x := by
      rintro rfl
      exact hz rfl
    have hcond : decide (x.1 = z.1) = false := by simpa using hz
    simp [List.find?_append, hcond, hx, Ne.symm hz]

/-! ## Changing the values -/

def map (f : α → β) (r : Records κ α) : Records κ β where
  toList := r.toList.map fun x => (x.1, f x.2)
  sorted := List.pairwise_map.mpr r.sorted

theorem map_ofList (f : α → β) (l : List (κ × α)) :
    (ofList l).map f = ofList (l.map fun x => (x.1, f x.2)) := by
  apply ext_of_mem
  intro z
  have hfind : (l.map fun x => (x.1, f x.2)).find?
      (fun y => decide (y.1 = z.1)) =
        (l.find? fun y => decide (y.1 = z.1)).map fun x => (x.1, f x.2) := by
    rw [List.find?_map]
    rfl
  rw [mem_ofList_iff, hfind, Option.map_eq_some_iff, map, List.mem_map]
  constructor
  · rintro ⟨x, hx, rfl⟩
    exact ⟨x, mem_ofList_iff.mp hx, rfl⟩
  · rintro ⟨x, hx, rfl⟩
    exact ⟨x, mem_ofList_iff.mpr hx, rfl⟩

end Records
