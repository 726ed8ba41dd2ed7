import Mathlib.Data.List.Count
import Mathlib.Logic.Function.Basic
import Mathlib.Order.Lattice
import Mathlib.Algebra.Group.Int.Defs

/-!
# Reader and writer locks in one word

Every thing has a word for its lock: the number of its readers, `-1` for a writer, and,
when a writer waits for the readers to leave, that number with a negative `offset`
added, so that no new reader comes in. What the owners of locks have is a list of
claims; `Guards` says that the words are those of the claims. Taking and giving back
a lock changes one word and one claim.

The readers have to be fewer than `-offset - 1`: otherwise a word of readers could be
taken for that of a writer.
-/

namespace LockWord

variable {α : Type*}

/-- What one owner has: the things it reads, and maybe one that it writes. -/
structure Claim (α : Type*) where
  reads : List α
  writes : Option α

def Encodes (offset word : ℤ) (readers writers : ℕ) : Prop :=
  writers = 1 ∧ readers = 0 ∧ word = -1 ∨
    writers = 0 ∧ (word = readers ∨ 0 < readers ∧ word = offset + readers)

/-- The word when one reader leaves: the last one takes the offset with it. -/
def leave (offset word : ℤ) : ℤ := if word - 1 = offset then 0 else word - 1

variable [DecidableEq α]

def readers (claims : List (Claim α)) (x : α) : ℕ := claims.countP fun c => x ∈ c.reads

def writers (claims : List (Claim α)) (x : α) : ℕ :=
  claims.countP fun c => c.writes = some x

def Guards (offset : ℤ) (word : α → ℤ) (claims : List (Claim α)) : Prop :=
  ∀ x, Encodes offset (word x) (readers claims x) (writers claims x)

variable {offset : ℤ} {word : α → ℤ} {claims claims' : List (Claim α)} {c : Claim α}
  {x : α} {reads : List α} {w : Option α}

@[simp] theorem readers_nil : readers ([] : List (Claim α)) x = 0 := rfl

@[simp] theorem writers_nil : writers ([] : List (Claim α)) x = 0 := rfl

theorem readers_cons :
    readers (c :: claims) x = readers claims x + if x ∈ c.reads then 1 else 0 := by
  unfold readers
  rw [List.countP_cons]
  simp

theorem writers_cons :
    writers (c :: claims) x = writers claims x + if c.writes = some x then 1 else 0 := by
  unfold writers
  rw [List.countP_cons]
  simp

theorem readers_le_length : readers claims x ≤ claims.length := List.countP_le_length

theorem readers_pos (hc : c ∈ claims) (hx : x ∈ c.reads) : 0 < readers claims x :=
  List.countP_pos_iff.mpr ⟨c, hc, by simpa using hx⟩

theorem writers_pos (hc : c ∈ claims) (hx : c.writes = some x) : 0 < writers claims x :=
  List.countP_pos_iff.mpr ⟨c, hc, by simpa using hx⟩

namespace Guards

theorem perm (h : Guards offset word claims) (hp : claims.Perm claims') :
    Guards offset word claims' := by
  intro x
  unfold readers writers
  rw [← hp.countP_eq, ← hp.countP_eq]
  exact h x

theorem congr {word' : α → ℤ} (h : Guards offset word claims)
    (hword : ∀ x, word' x = word x) : Guards offset word' claims := by
  intro x
  rw [hword]
  exact h x

theorem cons_nil_iff :
    Guards offset word (⟨[], none⟩ :: claims) ↔ Guards offset word claims := by
  refine forall_congr' fun x => ?_
  rw [readers_cons, writers_cons]
  simp

/-- One word changes with one claim; the counts of the other things stay. -/
theorem update (h : Guards offset word (c :: claims)) {v : ℤ} {c' : Claim α}
    (hx : Encodes offset v (readers (c' :: claims) x) (writers (c' :: claims) x))
    (hreads : ∀ y, y ≠ x → (y ∈ c'.reads ↔ y ∈ c.reads))
    (hwrites : ∀ y, y ≠ x → (c'.writes = some y ↔ c.writes = some y)) :
    Guards offset (Function.update word x v) (c' :: claims) := by
  intro y
  by_cases hy : y = x
  · rw [hy, Function.update_self]
    exact hx
  · rw [Function.update_of_ne hy]
    have := h y
    rw [readers_cons, writers_cons] at this ⊢
    simp only [hreads y hy, hwrites y hy]
    exact this

theorem read (h : Guards offset word (⟨reads, w⟩ :: claims)) (hx : x ∉ reads)
    (hword : 0 ≤ word x) (hbound : (claims.length : ℤ) + 2 < -offset) :
    Guards offset (Function.update word x (word x + 1)) (⟨reads ++ [x], w⟩ :: claims) := by
  refine h.update ?_ (fun y hy => by simp [hy]) fun _ _ => Iff.rfl
  have hcase := h x
  have hle : readers claims x ≤ claims.length := readers_le_length
  have hw : writers (⟨reads ++ [x], w⟩ :: claims) x =
      writers (⟨reads, w⟩ :: claims) x := by
    rw [writers_cons, writers_cons]
  have hr : readers (⟨reads, w⟩ :: claims) x = readers claims x := by
    rw [readers_cons, if_neg hx, Nat.add_zero]
  have hr' : readers (⟨reads ++ [x], w⟩ :: claims) x = readers claims x + 1 := by
    rw [readers_cons, if_pos (by simp)]
  rw [hr] at hcase
  rw [hw, hr']
  unfold Encodes at hcase ⊢
  omega

theorem unread (h : Guards offset word (⟨x :: reads, w⟩ :: claims)) (hx : x ∉ reads)
    (hbound : (claims.length : ℤ) + 2 < -offset) :
    word x ≠ 0 ∧ word x ≠ offset ∧ word x ≠ -1 ∧
      Guards offset (Function.update word x (leave offset (word x)))
        (⟨reads, w⟩ :: claims) := by
  have hcase := h x
  have hle : readers claims x ≤ claims.length := readers_le_length
  have hw : writers (⟨reads, w⟩ :: claims) x =
      writers (⟨x :: reads, w⟩ :: claims) x := by
    rw [writers_cons, writers_cons]
  have hr : readers (⟨x :: reads, w⟩ :: claims) x = readers claims x + 1 := by
    rw [readers_cons, if_pos List.mem_cons_self]
  have hr' : readers (⟨reads, w⟩ :: claims) x = readers claims x := by
    rw [readers_cons, if_neg hx, Nat.add_zero]
  rw [hr] at hcase
  unfold Encodes at hcase
  refine ⟨by omega, by omega, by omega, h.update ?_ (fun y hy => by simp [hy])
    fun _ _ => Iff.rfl⟩
  rw [hw, hr']
  unfold Encodes leave
  split_ifs <;> omega

theorem write (h : Guards offset word (⟨reads, none⟩ :: claims)) (hword : word x = 0)
    (hbound : (claims.length : ℤ) + 2 < -offset) :
    Guards offset (Function.update word x (-1)) (⟨reads, some x⟩ :: claims) := by
  refine h.update ?_ (fun _ _ => Iff.rfl) fun y hy => by simp [Ne.symm hy]
  have hcase := h x
  have hle : readers (⟨reads, none⟩ :: claims) x ≤ claims.length + 1 := readers_le_length
  have hr : readers (⟨reads, some x⟩ :: claims) x =
      readers (⟨reads, none⟩ :: claims) x := by
    rw [readers_cons, readers_cons]
  have hw : writers (⟨reads, none⟩ :: claims) x = writers claims x := by
    rw [writers_cons]
    simp
  have hw' : writers (⟨reads, some x⟩ :: claims) x = writers claims x + 1 := by
    rw [writers_cons]
    simp
  rw [hw] at hcase
  rw [hr, hw']
  unfold Encodes at hcase ⊢
  omega

theorem unwrite (h : Guards offset word (⟨reads, some x⟩ :: claims)) :
    word x = -1 ∧
      Guards offset (Function.update word x 0) (⟨reads, none⟩ :: claims) := by
  have hcase := h x
  have hr : readers (⟨reads, none⟩ :: claims) x =
      readers (⟨reads, some x⟩ :: claims) x := by
    rw [readers_cons, readers_cons]
  have hw : writers (⟨reads, some x⟩ :: claims) x = writers claims x + 1 := by
    rw [writers_cons]
    simp
  have hw' : writers (⟨reads, none⟩ :: claims) x = writers claims x := by
    rw [writers_cons]
    simp
  rw [hw] at hcase
  unfold Encodes at hcase
  refine ⟨by omega, h.update ?_ (fun _ _ => Iff.rfl) fun y hy => by simp [Ne.symm hy]⟩
  rw [hr, hw']
  unfold Encodes
  omega

theorem want (h : Guards offset word claims) (hword : 0 < word x)
    (hbound : (claims.length : ℤ) + 1 < -offset) :
    Guards offset (Function.update word x (word x + offset)) claims := by
  intro y
  by_cases hy : y = x
  · rw [hy, Function.update_self]
    have hcase := h x
    have hle : readers claims x ≤ claims.length := readers_le_length
    unfold Encodes at hcase ⊢
    omega
  · rw [Function.update_of_ne hy]
    exact h y

theorem readers_eq_zero (h : Guards offset word claims) (hw : 0 < writers claims x) :
    readers claims x = 0 ∧ writers claims x = 1 := by
  have := h x
  unfold Encodes at this
  omega

theorem exists_claim (h : Guards offset word claims) (hword : word x ≠ 0) :
    ∃ c ∈ claims, x ∈ c.reads ∨ c.writes = some x := by
  have hcase := h x
  by_cases hr : 0 < readers claims x
  · obtain ⟨c, hc, hx⟩ := List.countP_pos_iff.mp hr
    exact ⟨c, hc, .inl (by simpa using hx)⟩
  · have hw : 0 < writers claims x := by
      unfold Encodes at hcase
      omega
    obtain ⟨c, hc, hx⟩ := List.countP_pos_iff.mp hw
    exact ⟨c, hc, .inr (by simpa using hx)⟩

/-- What only readers have, with no writer waiting, has a word of its readers. -/
theorem ne_zero_of_mem (h : Guards offset word claims) (hc : c ∈ claims)
    (hx : x ∈ c.reads ∨ c.writes = some x) (hbound : (claims.length : ℤ) + 1 < -offset) :
    word x ≠ 0 := by
  have hcase := h x
  have hle : readers claims x ≤ claims.length := readers_le_length
  unfold Encodes at hcase
  rcases hx with hx | hx
  · have := readers_pos hc hx
    omega
  · have := writers_pos hc hx
    omega

end Guards

end LockWord
