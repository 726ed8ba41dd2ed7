import Mathlib.Data.List.Nodup
import Mathlib.Algebra.Group.Nat.Defs
import Mathlib.Algebra.Order.Group.Nat

/-!
# Linear hashing

A hash table that grows and shrinks one bucket at a time. Its array has `size` slots;
the buckets in use are the first half of them and `split` more, and a value is looked
for in the lower half unless the bucket it falls into there has been split already.
Growing splits the next bucket of the lower half, shrinking merges the last one that
was split back; only when all of the lower half is split (none is) the array is doubled
(halved). The functions read and write the array by index, and have no result where an
index is out of bounds; whether the memory of a new size could be had is an argument.

`Holds` says that a table is one of a list without repetitions: inserting, removing,
splitting and merging keep it, so that looking a value up in the table is looking it up
in the list, and no access is out of bounds. `Loaded` bounds the values by the buckets.
-/

namespace LinearHash

structure Table (α : Type*) where
  array : List (List α)
  use : ℕ
  size : ℕ
  split : ℕ

namespace Table

variable {α : Type*}

def index (t : Table α) (h : ℕ) : ℕ :=
  let hash := h % t.size
  let oldhash := hash % (t.size / 2)
  if t.split ≤ oldhash then oldhash else hash

def init (minSize : ℕ) : Table α := ⟨List.replicate minSize [], 0, minSize, 0⟩

/-! ## Shrinking and growing -/

/-- The array is halved, unless it would be smaller than `minSize`. The size changes
even if the memory cannot be given back. -/
def reduce (minSize : ℕ) (ok : Bool) (t : Table α) : Table α :=
  let newsize := t.size / 2
  if newsize < minSize then t
  else
    { t with
      array := if ok then t.array.take newsize else t.array
      size := newsize
      split := newsize / 2 }

/-- Merge buckets back, at most `rounds` of them and only until one was not empty. -/
def remergeLoop : ℕ → Table α → Option (Table α)
  | 0, t => some t
  | rounds + 1, t =>
      if 0 < t.split then
        let t := { t with split := t.split - 1 }
        t.array[t.split + t.size / 2]?.bind fun upper =>
          if upper = [] then remergeLoop rounds t
          else
            t.array[t.split]?.bind fun lower =>
              some { t with
                array := (t.array.set t.split (lower ++ upper)).set
                  (t.split + t.size / 2) [] }
      else some t

def remerge (minSize rounds : ℕ) (ok : Bool) (t : Table α) : Option (Table α) :=
  remergeLoop rounds (if t.split = 0 then t.reduce minSize ok else t)

def resize (ok : Bool) (t : Table α) : Table α :=
  if ok then
    { t with
      array := t.array.take t.size ++ List.replicate t.size []
      size := t.size * 2
      split := 0 }
  else t

/-- Walk the chain of the bucket `h`: what belongs elsewhere now is put in front of
the chain there, the rest is kept. -/
def rehashLoop (hash : α → ℕ) (t : Table α) (h : ℕ) (kept : List α) :
    List α → List (List α) → Option (List (List α))
  | [], array => some (array.set h kept)
  | node :: rest, array =>
      let newhash := t.index (hash node)
      if newhash ≠ h then
        array[newhash]?.bind fun chain =>
          rehashLoop hash t h kept rest (array.set newhash (node :: chain))
      else rehashLoop hash t h (kept ++ [node]) rest array

/-- Split the next bucket, and double the array when all are. -/
def rehash (hash : α → ℕ) (ok : Bool) (t : Table α) : Option (Table α) :=
  if t.split = t.size / 2 then some t
  else
    let h := t.split
    let t := { t with split := t.split + 1 }
    t.array[h]?.bind fun chain =>
      (rehashLoop hash t h [] chain t.array).bind fun array =>
        let t := { t with array := array }
        some (if t.split = t.size / 2 then t.resize ok else t)

/-! ## Inserting, removing, looking up -/

def insert (hash : α → ℕ) (x : α) (ok : Bool) (t : Table α) : Option (Table α) :=
  let h := t.index (hash x)
  t.array[h]?.bind fun chain =>
    let t := { t with array := t.array.set h (x :: chain), use := t.use + 1 }
    if t.size / 2 ≤ t.use then t.rehash hash ok else some t

def unchain [DecidableEq α] (hash : α → ℕ) (x : α) (t : Table α) :
    Option (Option (Table α)) :=
  let h := t.index (hash x)
  t.array[h]?.map fun chain =>
    if x ∈ chain then some { t with array := t.array.set h (chain.erase x) } else none

def settle (minSize rounds : ℕ) (ok : Bool) (t : Table α) : Option (Table α) :=
  let t := { t with use := t.use - 1 }
  if t.use < t.size / 4 then t.remerge minSize rounds ok else some t

def find (p : α → Bool) (h : ℕ) (t : Table α) : Option (Option α) :=
  t.array[t.index h]?.map fun chain => chain.find? p

/-! ## The bucket of a hash value -/

theorem mod_two_mul (h n : ℕ) : h % (2 * n) = h % n ∨ h % (2 * n) = h % n + n := by
  rw [Nat.mul_comm, Nat.mod_mul]
  rcases Nat.mod_two_eq_zero_or_one (h / n) with h0 | h1
  · left
    rw [h0, Nat.mul_zero, Nat.add_zero]
  · right
    rw [h1, Nat.mul_one]

variable {t : Table α} {n : ℕ}

theorem index_eq (hs : t.size = 2 * n) (h : ℕ) :
    t.index h = if t.split ≤ h % n then h % n else h % (2 * n) := by
  have hhalf : t.size / 2 = n := by omega
  unfold index
  dsimp only
  rw [hhalf, hs, Nat.mod_mod_of_dvd h (Nat.dvd_mul_left n 2)]

theorem index_lt (hs : t.size = 2 * n) (hn : 0 < n) (h : ℕ) :
    t.index h < n + t.split := by
  have hlt := Nat.mod_lt h hn
  rw [index_eq hs]
  split_ifs with hle
  · omega
  · rcases mod_two_mul h n with heq | heq <;> omega

/-- Splitting one more bucket moves only the values of that bucket. -/
theorem index_split (hs : t.size = 2 * n) (h : ℕ) :
    index { t with split := t.split + 1 } h =
      if h % n = t.split then h % (2 * n) else t.index h := by
  rw [index_eq (t := { t with split := t.split + 1 }) hs, index_eq hs]
  dsimp only
  by_cases heq : h % n = t.split
  · rw [if_neg (by omega), if_pos heq]
  · rw [if_neg heq]
    by_cases hle : t.split ≤ h % n
    · rw [if_pos hle, if_pos (by omega)]
    · rw [if_neg hle, if_neg (by omega)]

theorem index_of_mod_eq (hs : t.size = 2 * n) {h : ℕ} (heq : h % n = t.split) :
    t.index h = t.split := by
  rw [index_eq hs, if_pos (le_of_eq heq.symm), heq]

/-! ## Tables of a list -/

/-- A size the arrays can have: doubled some times from the smallest one. -/
def Doubled (minSize size : ℕ) : Prop := ∃ k, size = minSize * 2 ^ k

variable {minSize rounds : ℕ} {hash : α → ℕ} {ok : Bool} {xs : List α} {x : α}

theorem Doubled.half (hmin : 0 < minSize) (heven : 2 ∣ minSize) {size : ℕ}
    (h : Doubled minSize size) : ∃ n, 0 < n ∧ size = 2 * n := by
  obtain ⟨k, rfl⟩ := h
  obtain ⟨m, rfl⟩ := heven
  refine ⟨m * 2 ^ k, Nat.mul_pos (by omega) (Nat.pow_pos (by omega)), ?_⟩
  rw [Nat.mul_assoc]

theorem Doubled.double {size : ℕ} (h : Doubled minSize size) :
    Doubled minSize (size * 2) := by
  obtain ⟨k, rfl⟩ := h
  exact ⟨k + 1, by rw [Nat.pow_succ, Nat.mul_assoc]⟩

theorem Doubled.of_le {size : ℕ} (hmin : 0 < minSize) (h : Doubled minSize size)
    (hle : minSize ≤ size / 2) : Doubled minSize (size / 2) := by
  obtain ⟨k, rfl⟩ := h
  cases k with
  | zero =>
      rw [Nat.pow_zero, Nat.mul_one] at hle
      omega
  | succ k =>
      refine ⟨k, ?_⟩
      rw [Nat.pow_succ, ← Nat.mul_assoc, Nat.mul_div_cancel _ (by omega)]

structure Chains (hash : α → ℕ) (t : Table α) (xs : List α) : Prop where
  mem : ∀ {i : ℕ} {chain : List α}, t.array[i]? = some chain →
    ∀ x, x ∈ chain ↔ x ∈ xs ∧ t.index (hash x) = i
  nodup : ∀ {i : ℕ} {chain : List α}, t.array[i]? = some chain → chain.Nodup

structure Holds (minSize : ℕ) (hash : α → ℕ) (t : Table α) (xs : List α) : Prop where
  doubled : Doubled minSize t.size
  split_le : t.split ≤ t.size / 2
  size_le : t.size ≤ t.array.length
  chains : Chains hash t xs
  nodup : xs.Nodup
  min_pos : 0 < minSize
  min_even : 2 ∣ minSize

theorem Holds.half (h : Holds minSize hash t xs) : ∃ n, 0 < n ∧ t.size = 2 * n :=
  h.doubled.half h.min_pos h.min_even

theorem Chains.congr {t' : Table α} (h : Chains hash t xs)
    (harray : ∀ {i : ℕ} {chain : List α},
      t'.array[i]? = some chain → t.array[i]? = some chain)
    (hindex : ∀ h, t'.index h = t.index h) : Chains hash t' xs where
  mem hi x := by
    rw [hindex]
    exact h.mem (harray hi) x
  nodup hi := h.nodup (harray hi)

theorem eq_nil_of_replicate {m i : ℕ} {chain : List α}
    (h : (List.replicate m ([] : List α))[i]? = some chain) : chain = [] := by
  rw [List.getElem?_replicate] at h
  split_ifs at h
  exact (Option.some.inj h).symm

theorem holds_init (hmin : 0 < minSize) (heven : 2 ∣ minSize) :
    Holds minSize hash (init minSize) [] where
  doubled := ⟨0, (Nat.mul_one minSize).symm⟩
  split_le := Nat.zero_le _
  size_le := by simp [init]
  chains :=
    { mem := by
        intro i chain hi x
        have hnil : chain = [] := eq_nil_of_replicate hi
        simp [hnil]
      nodup := by
        intro i chain hi
        have hnil : chain = [] := eq_nil_of_replicate hi
        simp [hnil] }
  nodup := List.nodup_nil
  min_pos := hmin
  min_even := heven

theorem Holds.slot (h : Holds minSize hash t xs) (v : ℕ) :
    ∃ chain, t.array[t.index v]? = some chain := by
  obtain ⟨n, hn, hs⟩ := h.half
  have hlt := index_lt hs hn v
  have hsplit := h.split_le
  have hsize := h.size_le
  exact ⟨_, List.getElem?_eq_getElem (by omega)⟩

/-! ## Growing keeps the values -/

/-- What the walk leaves: the chains of the other buckets get in front what was moved
to them, last first, and `h` has what was kept. -/
theorem rehashLoop_eq (hash : α → ℕ) (t : Table α) (h : ℕ) (kept rest : List α)
    (array : List (List α))
    (hbounds : ∀ x ∈ rest, t.index (hash x) < array.length) (hh : h < array.length) :
    ∃ array', rehashLoop hash t h kept rest array = some array' ∧
      array'.length = array.length ∧
      array'[h]? = some (kept ++ rest.filter fun x => t.index (hash x) = h) ∧
      ∀ i, i ≠ h → array'[i]? = array[i]?.map fun chain =>
        (rest.filter fun x => t.index (hash x) = i).reverse ++ chain := by
  induction rest generalizing kept array with
  | nil =>
      refine ⟨_, rfl, List.length_set, ?_, ?_⟩
      · simp [hh]
      · intro i hi
        rw [List.getElem?_set_ne hi.symm]
        cases array[i]? <;> simp
  | cons node rest ih =>
      have hnode := hbounds node List.mem_cons_self
      have hrest : ∀ x ∈ rest, t.index (hash x) < array.length :=
        fun x hx => hbounds x (List.mem_cons_of_mem _ hx)
      unfold rehashLoop
      dsimp only
      split_ifs with hne
      · rw [List.getElem?_eq_getElem hnode, Option.bind_some]
        obtain ⟨array', heq, hlen, hat, hother⟩ :=
          ih kept (array.set (t.index (hash node))
            (node :: array.get ⟨t.index (hash node), hnode⟩))
            (by simpa using hrest) (by simpa using hh)
        refine ⟨array', heq, by simpa using hlen, ?_, ?_⟩
        · rw [hat, List.filter_cons_of_neg (by simpa using hne)]
        · intro i hi
          rw [hother i hi]
          by_cases hni : t.index (hash node) = i
          · subst hni
            simp [hnode]
          · rw [List.getElem?_set_ne hni, List.filter_cons_of_neg (by simpa using hni)]
      · obtain ⟨array', heq, hlen, hat, hother⟩ := ih (kept ++ [node]) array hrest hh
        have hnode_eq : t.index (hash node) = h := not_not.mp hne
        refine ⟨array', heq, hlen, ?_, ?_⟩
        · rw [hat, List.filter_cons_of_pos (by simpa using hnode_eq)]
          simp
        · intro i hi
          rw [hother i hi, List.filter_cons_of_neg]
          simpa [hnode_eq] using hi.symm

/-- Splitting one bucket keeps the values. -/
theorem Holds.split_next (h : Holds minSize hash t xs) (hlt : t.split < t.size / 2) :
    ∃ chain array, t.array[t.split]? = some chain ∧
      rehashLoop hash { t with split := t.split + 1 } t.split [] chain t.array =
        some array ∧
      Holds minSize hash { t with split := t.split + 1, array := array } xs := by
  obtain ⟨n, hn, hs⟩ := h.half
  have hsize := h.size_le
  have hin : t.split < t.array.length := by omega
  have hbounds : ∀ v, index { t with split := t.split + 1 } v < t.array.length := by
    intro v
    have := index_lt (t := { t with split := t.split + 1 }) hs hn v
    dsimp only at this
    omega
  obtain ⟨chain, hchain⟩ : ∃ chain, t.array[t.split]? = some chain :=
    ⟨_, List.getElem?_eq_getElem hin⟩
  obtain ⟨array, heq, hlen, hat, hother⟩ :=
    rehashLoop_eq hash { t with split := t.split + 1 } t.split [] chain t.array
      (fun x _ => hbounds _) hin
  -- the new bucket of a value, by whether it was in the bucket that is split
  have hnew := index_split (t := t) hs
  have hmem := fun x => h.chains.mem hchain x
  refine ⟨chain, array, hchain, heq, ?_⟩
  refine ⟨h.doubled, hlt, by simpa [hlen] using hsize, ⟨?_, ?_⟩, h.nodup, h.min_pos, h.min_even⟩
  · intro i c hi x
    have hi : array[i]? = some c := hi
    change x ∈ c ↔ x ∈ xs ∧ index { t with split := t.split + 1 } (hash x) = i
    by_cases hisplit : i = t.split
    · subst hisplit
      rw [hat] at hi
      obtain rfl := Option.some.inj hi
      rw [List.nil_append, List.mem_filter, hmem, decide_eq_true_iff]
      refine ⟨fun hx => ⟨hx.1.1, hx.2⟩, fun hx => ⟨⟨hx.1, ?_⟩, hx.2⟩⟩
      by_cases hmod : hash x % n = t.split
      · exact index_of_mod_eq hs hmod
      · rw [← hx.2, hnew, if_neg hmod]
    · rw [hother i hisplit] at hi
      obtain ⟨old, hold, rfl⟩ := Option.map_eq_some_iff.mp hi
      rw [List.mem_append, List.mem_reverse, List.mem_filter, hmem, decide_eq_true_iff,
        h.chains.mem hold]
      by_cases hmod : hash x % n = t.split
      · have hindex := index_of_mod_eq hs hmod
        constructor
        · rintro (hx | hx)
          · exact ⟨hx.1.1, hx.2⟩
          · exact absurd (hx.2.symm.trans hindex) hisplit
        · exact fun hx => .inl ⟨⟨hx.1, hindex⟩, hx.2⟩
      · have hsame : index { t with split := t.split + 1 } (hash x) =
            t.index (hash x) := by rw [hnew, if_neg hmod]
        rw [hsame]
        constructor
        · rintro (hx | hx)
          · exact ⟨hx.1.1, hx.2⟩
          · exact hx
        · exact .inr
  · intro i c hi
    have hi : array[i]? = some c := hi
    by_cases hisplit : i = t.split
    · subst hisplit
      rw [hat] at hi
      obtain rfl := Option.some.inj hi
      exact (h.chains.nodup hchain).filter _
    · rw [hother i hisplit] at hi
      obtain ⟨old, hold, rfl⟩ := Option.map_eq_some_iff.mp hi
      refine List.nodup_append'.mpr ⟨?_, h.chains.nodup hold, ?_⟩
      · exact List.nodup_reverse.mpr ((h.chains.nodup hchain).filter _)
      · intro x hx hxold
        have hx := (List.mem_filter.mp (List.mem_reverse.mp hx)).1
        exact hisplit (((h.chains.mem hold x).mp hxold).2.symm.trans ((hmem x).mp hx).2)

theorem Holds.resize (h : Holds minSize hash t xs) (hsplit : t.split = t.size / 2) :
    Holds minSize hash (t.resize ok) xs := by
  cases ok with
  | false => exact h
  | true =>
      obtain ⟨n, hn, hs⟩ := h.half
      have hsize := h.size_le
      have hindex : ∀ v, (t.resize true).index v = t.index v := by
        intro v
        have hnew : (t.resize true).size = 2 * t.size := Nat.mul_comm _ _
        have hzero : (t.resize true).split = 0 := rfl
        have hlt := Nat.mod_lt v hn
        rw [index_eq hnew, index_eq hs, hzero, if_pos (Nat.zero_le _),
          if_neg (by omega), hs]
      have htake : (t.array.take t.size).length = t.size := by
        rw [List.length_take]
        omega
      refine ⟨h.doubled.double, Nat.zero_le _, ?_, ⟨?_, ?_⟩, h.nodup, h.min_pos, h.min_even⟩
      · simp only [Table.resize, if_true, List.length_append, htake,
          List.length_replicate]
        omega
      all_goals
        intro i c hi
        change (t.array.take t.size ++ List.replicate t.size [])[i]? = some c at hi
        rcases lt_or_ge i t.size with hlt | hge
        · rw [List.getElem?_append_left (by omega), List.getElem?_take, if_pos hlt] at hi
          first
          | exact h.chains.nodup hi
          | intro x
            rw [hindex]
            exact h.chains.mem hi x
        · rw [List.getElem?_append_right (by omega)] at hi
          obtain rfl := eq_nil_of_replicate hi
          first
          | exact List.nodup_nil
          | intro x
            rw [hindex]
            have := index_lt hs hn (hash x)
            simp only [List.not_mem_nil, false_iff, not_and]
            intro _
            omega

theorem Holds.rehash (h : Holds minSize hash t xs) :
    ∃ t', t.rehash hash ok = some t' ∧ Holds minSize hash t' xs := by
  unfold Table.rehash
  split_ifs with hfull
  · exact ⟨t, rfl, h⟩
  · have hlt : t.split < t.size / 2 := lt_of_le_of_ne h.split_le hfull
    obtain ⟨chain, array, hchain, heq, hholds⟩ := h.split_next hlt
    dsimp only
    rw [hchain, Option.bind_some, heq, Option.bind_some]
    refine ⟨_, rfl, ?_⟩
    split_ifs with hdone
    · exact hholds.resize hdone
    · exact hholds

/-! ## Shrinking keeps the values -/

theorem Holds.reduce (h : Holds minSize hash t xs) (hsplit : t.split = 0) :
    Holds minSize hash (t.reduce minSize ok) xs := by
  unfold Table.reduce
  dsimp only
  split_ifs with hsmall
  · exact h
  all_goals
    have hle : minSize ≤ t.size / 2 := Nat.le_of_not_lt hsmall
    have hdoubled := h.doubled.of_le h.min_pos hle
    obtain ⟨n, hn, hs⟩ := h.half
    obtain ⟨m, hm, hhalf⟩ := hdoubled.half h.min_pos h.min_even
    have hsize := h.size_le
    refine ⟨hdoubled, le_refl _, ?_, ?_, h.nodup, h.min_pos, h.min_even⟩
  · rw [List.length_take]
    dsimp only
    omega
  · refine h.chains.congr ?_ ?_
    · intro i chain hi
      rw [List.getElem?_take] at hi
      split_ifs at hi with hlt
      exact hi
    · intro v
      have hlt := Nat.mod_lt v hm
      rw [index_eq (n := m) hhalf, index_eq hs, if_neg (by dsimp only; omega),
        if_pos (by omega)]
      congr 1
      omega
  · dsimp only
    omega
  · refine h.chains.congr (fun hi => hi) ?_
    intro v
    have hlt := Nat.mod_lt v hm
    rw [index_eq (n := m) hhalf, index_eq hs, if_neg (by dsimp only; omega),
      if_pos (by omega)]
    congr 1
    omega

theorem index_merge (hs : t.size = 2 * n) (hpos : 0 < t.split) (h : ℕ) :
    t.index h =
      if h % n = t.split - 1 then h % (2 * n)
      else index { t with split := t.split - 1 } h := by
  have hsplit := index_split (t := { t with split := t.split - 1 }) hs h
  rwa [show ({ t with split := t.split - 1 + 1 } : Table α) = t by
    rw [Nat.sub_add_cancel hpos]] at hsplit

theorem Holds.remergeLoop (h : Holds minSize hash t xs) :
    ∃ t', t.remergeLoop rounds = some t' ∧ Holds minSize hash t' xs := by
  induction rounds generalizing t with
  | zero => exact ⟨t, rfl, h⟩
  | succ rounds ih =>
      unfold Table.remergeLoop
      split_ifs with hpos
      swap
      · exact ⟨t, rfl, h⟩
      obtain ⟨n, hn, hs⟩ := h.half
      have hhalf : t.size / 2 = n := by omega
      have hsize := h.size_le
      have hsplit := h.split_le
      have hup : t.split - 1 + n < t.array.length := by omega
      have hlow : t.split - 1 < t.array.length := by omega
      obtain ⟨upper, hupper⟩ : ∃ upper, t.array[t.split - 1 + n]? = some upper :=
        ⟨_, List.getElem?_eq_getElem hup⟩
      obtain ⟨lower, hlower⟩ : ∃ lower, t.array[t.split - 1]? = some lower :=
        ⟨_, List.getElem?_eq_getElem hlow⟩
      have hindex := index_merge (t := t) hs hpos
      have hold : ∀ v, v % n = t.split - 1 →
          index { t with split := t.split - 1 } v = t.split - 1 :=
        fun v hv => index_of_mod_eq (t := { t with split := t.split - 1 }) hs hv
      have htwo : ∀ v, v % n = t.split - 1 →
          t.index v = t.split - 1 ∨ t.index v = t.split - 1 + n := by
        intro v hv
        rw [hindex, if_pos hv, ← hv]
        exact mod_two_mul v n
      have hmod : ∀ v, (t.index v = t.split - 1 ∨ t.index v = t.split - 1 + n) →
          v % n = t.split - 1 := by
        intro v hv
        have hlt := Nat.mod_lt v hn
        rw [index_eq hs] at hv
        split_ifs at hv with hle
        · omega
        · rcases mod_two_mul v n with heq | heq <;> omega
      dsimp only
      rw [hhalf, hupper, Option.bind_some, hlower, Option.bind_some]
      split_ifs with hnil
      · refine ih ⟨h.doubled, by dsimp only; omega, hsize, ⟨?_, h.chains.nodup⟩,
          h.nodup, h.min_pos, h.min_even⟩
        intro i c hi x
        rw [h.chains.mem hi]
        refine and_congr_right fun hx => ?_
        by_cases hv : hash x % n = t.split - 1
        · -- nothing was in the upper bucket
          have hne : t.index (hash x) ≠ t.split - 1 + n := by
            intro heq
            have := (h.chains.mem hupper x).mpr ⟨hx, heq⟩
            rw [hnil] at this
            exact List.not_mem_nil this
          rw [hold _ hv, (htwo _ hv).resolve_right hne]
        · rw [hindex, if_neg hv]
      · refine ⟨_, rfl, h.doubled, by dsimp only; omega, by simpa using hsize, ⟨?_, ?_⟩,
          h.nodup, h.min_pos, h.min_even⟩
        · intro i c hi x
          change x ∈ c ↔ x ∈ xs ∧ index { t with split := t.split - 1 } (hash x) = i
          have hi : ((t.array.set (t.split - 1) (lower ++ upper)).set
            (t.split - 1 + n) [])[i]? = some c := hi
          by_cases hiu : t.split - 1 + n = i
          · rw [← hiu, List.getElem?_set_self (by simpa using hup)] at hi
            obtain rfl := Option.some.inj hi
            simp only [List.not_mem_nil, false_iff, not_and]
            intro _ heq
            by_cases hv : hash x % n = t.split - 1
            · rw [hold _ hv] at heq
              omega
            · have := hmod (hash x) (.inr (by rw [hindex, if_neg hv, heq, hiu]))
              exact hv this
          rw [List.getElem?_set_ne hiu] at hi
          by_cases hil : t.split - 1 = i
          · rw [← hil, List.getElem?_set_self hlow] at hi
            obtain rfl := Option.some.inj hi
            rw [List.mem_append, h.chains.mem hlower, h.chains.mem hupper, ← and_or_left]
            refine and_congr_right fun _ => ?_
            constructor
            · intro hv
              rw [hold _ (hmod _ hv), hil]
            · intro heq
              by_cases hv : hash x % n = t.split - 1
              · exact htwo _ hv
              · left
                rw [hindex, if_neg hv, heq, hil]
          · rw [List.getElem?_set_ne hil] at hi
            rw [h.chains.mem hi]
            refine and_congr_right fun _ => ?_
            by_cases hv : hash x % n = t.split - 1
            · rw [hold _ hv]
              refine iff_of_false ?_ hil
              rcases htwo _ hv with heq | heq <;> rw [heq] <;> assumption
            · rw [hindex, if_neg hv]
        · intro i c hi
          have hi : ((t.array.set (t.split - 1) (lower ++ upper)).set
            (t.split - 1 + n) [])[i]? = some c := hi
          by_cases hiu : t.split - 1 + n = i
          · rw [← hiu, List.getElem?_set_self (by simpa using hup)] at hi
            obtain rfl := Option.some.inj hi
            exact List.nodup_nil
          rw [List.getElem?_set_ne hiu] at hi
          by_cases hil : t.split - 1 = i
          · rw [← hil, List.getElem?_set_self hlow] at hi
            obtain rfl := Option.some.inj hi
            refine List.nodup_append'.mpr
              ⟨h.chains.nodup hlower, h.chains.nodup hupper, ?_⟩
            intro x hxl hxu
            have h₁ := ((h.chains.mem hlower x).mp hxl).2
            have h₂ := ((h.chains.mem hupper x).mp hxu).2
            omega
          · rw [List.getElem?_set_ne hil] at hi
            exact h.chains.nodup hi

theorem Holds.remerge (h : Holds minSize hash t xs) :
    ∃ t', t.remerge minSize rounds ok = some t' ∧ Holds minSize hash t' xs := by
  unfold Table.remerge
  apply Holds.remergeLoop
  split_ifs with h0
  · exact h.reduce h0
  · exact h

/-! ## The operations -/

theorem lt_of_slot {i : ℕ} {chain : List α} (h : t.array[i]? = some chain) :
    i < t.array.length := by
  by_contra hge
  rw [List.getElem?_eq_none (Nat.le_of_not_lt hge)] at h
  cases h

/-- The chains after the slot `i` is written, if `i` is the bucket of `x` and `x` is
the only value that comes or goes. -/
theorem Chains.set {ys chain chain' : List α} (h : Chains hash t xs)
    (hchain : t.array[t.index (hash x)]? = some chain)
    (hat : ∀ y, y ∈ chain' ↔ y ∈ ys ∧ t.index (hash y) = t.index (hash x))
    (hnodup : chain'.Nodup) (hother : ∀ y, y ≠ x → (y ∈ ys ↔ y ∈ xs)) :
    Chains hash { t with array := t.array.set (t.index (hash x)) chain' } ys where
  mem := by
    intro i c hi y
    have hi : (t.array.set (t.index (hash x)) chain')[i]? = some c := hi
    change y ∈ c ↔ y ∈ ys ∧ t.index (hash y) = i
    by_cases hix : t.index (hash x) = i
    · subst hix
      rw [List.getElem?_set_self (lt_of_slot hchain)] at hi
      obtain rfl := Option.some.inj hi
      exact hat y
    · rw [List.getElem?_set_ne hix] at hi
      rw [h.mem hi]
      refine and_congr_left fun hy => (hother y ?_).symm
      rintro rfl
      exact hix hy
  nodup := by
    intro i c hi
    have hi : (t.array.set (t.index (hash x)) chain')[i]? = some c := hi
    by_cases hix : t.index (hash x) = i
    · subst hix
      rw [List.getElem?_set_self (lt_of_slot hchain)] at hi
      obtain rfl := Option.some.inj hi
      exact hnodup
    · rw [List.getElem?_set_ne hix] at hi
      exact h.nodup hi

theorem Holds.insert (ok : Bool) (h : Holds minSize hash t xs) (hx : x ∉ xs) :
    ∃ t', t.insert hash x ok = some t' ∧ Holds minSize hash t' (x :: xs) := by
  obtain ⟨chain, hchain⟩ := h.slot (hash x)
  have hputs : Holds minSize hash
      { t with array := t.array.set (t.index (hash x)) (x :: chain),
               use := t.use + 1 } (x :: xs) := by
    have hset : Chains hash
        { t with array := t.array.set (t.index (hash x)) (x :: chain) } (x :: xs) := by
      refine h.chains.set hchain ?_ ?_ ?_
      · intro y
        rw [List.mem_cons, List.mem_cons, h.chains.mem hchain, or_and_right]
        refine or_congr_left ?_
        exact ⟨fun hy => ⟨hy, by rw [hy]⟩, fun hy => hy.1⟩
      · refine List.nodup_cons.mpr ⟨?_, h.chains.nodup hchain⟩
        exact fun hmem => hx ((h.chains.mem hchain x).mp hmem).1
      · intro y hy
        rw [List.mem_cons, or_iff_right hy]
    exact ⟨h.doubled, h.split_le, by simpa using h.size_le, hset.congr id fun _ => rfl,
      List.nodup_cons.mpr ⟨hx, h.nodup⟩, h.min_pos, h.min_even⟩
  unfold Table.insert
  dsimp only
  rw [hchain, Option.bind_some]
  split_ifs with hfull
  · exact hputs.rehash
  · exact ⟨_, rfl, hputs⟩

theorem Holds.unchain [DecidableEq α] (h : Holds minSize hash t xs) (hx : x ∈ xs) :
    ∃ t', t.unchain hash x = some (some t') ∧ Holds minSize hash t' (xs.erase x) ∧
      t'.use = t.use ∧ t'.size = t.size ∧ t'.split = t.split := by
  obtain ⟨chain, hchain⟩ := h.slot (hash x)
  have hmem : x ∈ chain := (h.chains.mem hchain x).mpr ⟨hx, rfl⟩
  unfold Table.unchain
  dsimp only
  rw [hchain, Option.map_some, if_pos hmem]
  refine ⟨_, rfl, ⟨h.doubled, h.split_le, by simpa using h.size_le, ?_,
    h.nodup.erase x, h.min_pos, h.min_even⟩, rfl, rfl, rfl⟩
  refine h.chains.set hchain ?_ ((h.chains.nodup hchain).erase x) ?_
  · intro y
    rw [(h.chains.nodup hchain).mem_erase_iff, h.chains.mem hchain,
      h.nodup.mem_erase_iff, and_assoc]
  · intro y hy
    rw [h.nodup.mem_erase_iff, and_iff_right hy]

theorem Holds.settle (rounds : ℕ) (ok : Bool) (h : Holds minSize hash t xs) :
    ∃ t', t.settle minSize rounds ok = some t' ∧ Holds minSize hash t' xs := by
  have hless : Holds minSize hash { t with use := t.use - 1 } xs :=
    ⟨h.doubled, h.split_le, h.size_le, h.chains.congr id fun _ => rfl, h.nodup,
      h.min_pos, h.min_even⟩
  unfold Table.settle
  dsimp only
  split_ifs with hfew
  · exact hless.remerge
  · exact ⟨_, rfl, hless⟩

theorem Holds.congr_hash {hash' : α → ℕ} (h : Holds minSize hash t xs)
    (heq : ∀ x ∈ xs, hash' x = hash x) : Holds minSize hash' t xs where
  doubled := h.doubled
  split_le := h.split_le
  size_le := h.size_le
  chains :=
    { mem := by
        intro i chain hi x
        rw [h.chains.mem hi]
        exact and_congr_right fun hx => by rw [heq x hx]
      nodup := h.chains.nodup }
  nodup := h.nodup
  min_pos := h.min_pos
  min_even := h.min_even

/-- Looking up in the bucket finds what looking through all values finds, if only
values with that hash are asked for and no two of them are alike. -/
theorem Holds.find (h : Holds minSize hash t xs) {p : α → Bool} {v : ℕ}
    (hp : ∀ x ∈ xs, p x = true → hash x = v)
    (hone : ∀ x ∈ xs, ∀ y ∈ xs, p x = true → p y = true → x = y) :
    t.find p v = some (xs.find? p) := by
  obtain ⟨chain, hchain⟩ := h.slot v
  unfold Table.find
  rw [hchain, Option.map_some]
  congr 1
  have hmem : ∀ x, p x = true → (x ∈ chain ↔ x ∈ xs) := by
    intro x hx
    rw [h.chains.mem hchain]
    exact ⟨fun hc => hc.1, fun hxs => ⟨hxs, by rw [hp x hxs hx]⟩⟩
  cases hxs : xs.find? p with
  | none =>
      rw [List.find?_eq_none] at hxs ⊢
      intro x hxc hpx
      exact hxs x ((hmem x hpx).mp hxc) hpx
  | some x =>
      have hpx := List.find?_some hxs
      have hin := List.mem_of_find?_eq_some hxs
      cases hc : chain.find? p with
      | none =>
          rw [List.find?_eq_none] at hc
          exact absurd hpx (hc x ((hmem x hpx).mpr hin))
      | some y =>
          have hpy := List.find?_some hc
          have hyin := (hmem y hpy).mp (List.mem_of_find?_eq_some hc)
          rw [hone y hyin x hin hpy hpx]

/-! ## The number of values and the load -/

theorem remergeLoop_split {t' : Table α} (h : t.remergeLoop rounds = some t') :
    t'.use = t.use ∧ t'.size = t.size ∧ t'.split ≤ t.split ∧
      (0 < rounds → 0 < t.split → t'.split < t.split) := by
  induction rounds generalizing t with
  | zero =>
      obtain rfl := Option.some.inj h
      omega
  | succ rounds ih =>
      unfold remergeLoop at h
      split_ifs at h with hpos
      · obtain ⟨upper, -, h⟩ := Option.bind_eq_some_iff.mp h
        dsimp only at h
        split_ifs at h with hnil
        · have := ih h
          dsimp only at this
          omega
        · obtain ⟨lower, -, h⟩ := Option.bind_eq_some_iff.mp h
          obtain rfl := Option.some.inj h
          dsimp only
          omega
      · obtain rfl := Option.some.inj h
        omega

theorem reduce_use : (t.reduce minSize ok).use = t.use := by
  unfold reduce
  dsimp only
  split_ifs <;> rfl

theorem settle_use {t' : Table α} (h : t.settle minSize rounds ok = some t') :
    t'.use = t.use - 1 := by
  unfold settle at h
  dsimp only at h
  split_ifs at h
  · obtain ⟨huse, -⟩ := remergeLoop_split h
    rw [huse]
    split_ifs
    · exact reduce_use
    · rfl
  · obtain rfl := Option.some.inj h
    rfl

theorem rehash_use {t' : Table α} (h : t.rehash hash ok = some t') : t'.use = t.use := by
  unfold rehash at h
  by_cases hfull : t.split = t.size / 2
  · rw [if_pos hfull] at h
    obtain rfl := Option.some.inj h
    rfl
  · rw [if_neg hfull] at h
    obtain ⟨chain, -, h⟩ := Option.bind_eq_some_iff.mp h
    obtain ⟨array, -, h⟩ := Option.bind_eq_some_iff.mp h
    obtain rfl := Option.some.inj h
    unfold resize
    split_ifs <;> rfl

theorem insert_use {t' : Table α} (h : t.insert hash x ok = some t') :
    t'.use = t.use + 1 := by
  unfold insert at h
  obtain ⟨chain, -, h⟩ := Option.bind_eq_some_iff.mp h
  dsimp only at h
  split_ifs at h
  · exact rehash_use h
  · obtain rfl := Option.some.inj h
    rfl

/-- No more values than buckets in use, and a bucket left to split. -/
def Loaded (t : Table α) : Prop := t.use ≤ t.size / 2 + t.split ∧ t.split < t.size / 2

theorem loaded_init (hmin : 0 < minSize) (heven : 2 ∣ minSize) :
    (init minSize : Table α).Loaded :=
  ⟨Nat.zero_le _, Nat.div_pos (Nat.le_of_dvd hmin heven) (by omega)⟩

theorem loaded_rehash {t' : Table α} (hsplit : t.split < t.size / 2)
    (huse : t.use ≤ t.size / 2 + t.split + 1) (h : t.rehash hash true = some t') :
    t'.Loaded := by
  unfold rehash at h
  rw [if_neg (by omega)] at h
  dsimp only at h
  obtain ⟨chain, -, h⟩ := Option.bind_eq_some_iff.mp h
  obtain ⟨array, -, h⟩ := Option.bind_eq_some_iff.mp h
  obtain rfl := Option.some.inj h
  split_ifs with hfull
  · unfold Loaded resize
    rw [if_pos rfl]
    dsimp only at hfull ⊢
    omega
  · unfold Loaded
    dsimp only
    omega

theorem Loaded.insert {t' : Table α} (hl : t.Loaded)
    (h : t.insert hash x true = some t') : t'.Loaded := by
  obtain ⟨huse, hsplit⟩ := hl
  unfold Table.insert at h
  obtain ⟨chain, -, h⟩ := Option.bind_eq_some_iff.mp h
  dsimp only at h
  split_ifs at h with hfull
  · refine loaded_rehash ?_ ?_ h <;> dsimp only <;> omega
  · obtain rfl := Option.some.inj h
    unfold Loaded
    dsimp only
    omega

theorem unchain_loaded [DecidableEq α] {t' : Table α}
    (h : t.unchain hash x = some (some t')) (hl : t.Loaded) : t'.Loaded := by
  unfold unchain at h
  obtain ⟨chain, -, h⟩ := Option.map_eq_some_iff.mp h
  split_ifs at h with hx
  obtain rfl := Option.some.inj h
  exact hl

theorem Loaded.settle {t' : Table α} (hrounds : 0 < rounds) (hmin : 1 < minSize)
    (hl : t.Loaded) (h : t.settle minSize rounds ok = some t') : t'.Loaded := by
  obtain ⟨huse, hsplit⟩ := hl
  unfold Table.settle at h
  dsimp only at h
  split_ifs at h with hfew
  · unfold remerge reduce at h
    obtain ⟨h₁, h₂, h₃, h₄⟩ := remergeLoop_split h
    unfold Loaded
    dsimp only at h₁ h₂ h₃ h₄
    split_ifs at h₁ h₂ h₃ h₄ with h0 hsmall <;> dsimp only at h₁ h₂ h₃ h₄ <;> omega
  · obtain rfl := Option.some.inj h
    unfold Loaded
    dsimp only
    omega

end Table

end LinearHash
