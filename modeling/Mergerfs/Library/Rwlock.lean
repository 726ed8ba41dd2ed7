import Mathlib.Data.List.Basic
import Mathlib.Logic.Function.Basic

/-!
# A read-write lock

The lock is held by one writer or by any number of readers, a thread that reads
twice being listed twice. Beside its holders it counts how often each thread has
taken it and how often it has let go of it. `rdlock` and `wrlock` have no result
while the thread has to wait; `unlock` by a thread that holds nothing is only
counted.
-/

structure Rwlock (T : Type*) where
  writer : Option T
  readers : List T
  acquired : T → ℕ
  released : T → ℕ
  exclusive : writer ≠ none → readers = []

namespace Rwlock

variable {T : Type*}

def init : Rwlock T := ⟨none, [], fun _ => 0, fun _ => 0, fun _ => rfl⟩

variable [DecidableEq T]

def held (l : Rwlock T) (t : T) : ℕ :=
  l.readers.count t + if l.writer = some t then 1 else 0

def rdlock (l : Rwlock T) (t : T) : Option (Rwlock T) :=
  if l.writer = none then
    some
      { writer := none
        readers := t :: l.readers
        acquired := Function.update l.acquired t (l.acquired t + 1)
        released := l.released
        exclusive := fun h => absurd rfl h }
  else none

def wrlock (l : Rwlock T) (t : T) : Option (Rwlock T) :=
  if l.writer = none ∧ l.readers = [] then
    some
      { writer := some t
        readers := []
        acquired := Function.update l.acquired t (l.acquired t + 1)
        released := l.released
        exclusive := fun _ => rfl }
  else none

def unlock (l : Rwlock T) (t : T) : Rwlock T where
  writer := if l.writer = some t then none else l.writer
  readers := if l.writer = some t then l.readers else l.readers.erase t
  acquired := l.acquired
  released := Function.update l.released t (l.released t + 1)
  exclusive := by
    intro h
    split_ifs at h ⊢ with hw
    · exact absurd rfl h
    · rw [l.exclusive h, List.erase_nil]

/-- The lock has been taken as often as it was let go of and is held. -/
def Balanced (l : Rwlock T) (t : T) : Prop :=
  l.acquired t = l.released t + l.held t

structure Others (l l' : Rwlock T) (t : T) : Prop where
  held : ∀ t', t' ≠ t → l'.held t' = l.held t'
  balanced : ∀ t', t' ≠ t → l.Balanced t' → l'.Balanced t'
  writer : ∀ t', t' ≠ t → l.writer = some t' → l'.writer = some t'

variable {l l' : Rwlock T} {t t' : T}

@[simp] theorem held_init (t : T) : (init : Rwlock T).held t = 0 := by
  simp [held, init]

theorem held_eq_zero (hw : l.writer = some t) (h : t' ≠ t) : l.held t' = 0 := by
  have hread : l.readers = [] := l.exclusive (by simp [hw])
  simp [held, hread, hw, h.symm]

theorem Others.refl (l : Rwlock T) (t : T) : Others l l t :=
  ⟨fun _ _ => rfl, fun _ _ h => h, fun _ _ h => h⟩

/-- What is counted for another thread does not change with an operation of `t`. -/
theorem Others.of_counts (hheld : ∀ t', t' ≠ t → l'.held t' = l.held t')
    (hacq : ∀ t', t' ≠ t → l'.acquired t' = l.acquired t')
    (hrel : ∀ t', t' ≠ t → l'.released t' = l.released t')
    (hwriter : ∀ t', t' ≠ t → l.writer = some t' → l'.writer = some t') :
    Others l l' t := by
  refine ⟨hheld, ?_, hwriter⟩
  intro t' hne hbal
  rw [Balanced, hheld t' hne, hacq t' hne, hrel t' hne]
  exact hbal

theorem rdlock_eq_some (h : l.rdlock t = some l') :
    l.writer = none ∧ Others l l' t ∧ l'.held t = l.held t + 1 ∧
      (l.Balanced t → l'.Balanced t) := by
  unfold rdlock at h
  split_ifs at h with hw
  cases h
  have hheld : ∀ t', Rwlock.held
      { writer := none
        readers := t :: l.readers
        acquired := Function.update l.acquired t (l.acquired t + 1)
        released := l.released
        exclusive := fun h => absurd rfl h } t' =
      l.held t' + if t' = t then 1 else 0 := by
    intro t'
    by_cases ht : t' = t
    · simp [held, hw, ht]
    · simp [held, hw, ht, Ne.symm ht]
  refine ⟨hw, Others.of_counts ?_ ?_ ?_ ?_, ?_, ?_⟩
  · intro t' hne
    simp [hheld, hne]
  · intro t' hne
    simp [hne]
  · intro t' _
    rfl
  · intro t' _ hsome
    rw [hw] at hsome
    cases hsome
  · simp [hheld]
  · intro hbal
    simp only [Balanced, hheld, Function.update_self, if_true] at hbal ⊢
    omega

theorem wrlock_eq_some (h : l.wrlock t = some l') :
    l.writer = none ∧ l'.writer = some t ∧ Others l l' t ∧
      l'.held t = l.held t + 1 ∧ (l.Balanced t → l'.Balanced t) := by
  unfold wrlock at h
  split_ifs at h with hfree
  obtain ⟨hw, hread⟩ := hfree
  cases h
  have hzero : ∀ t', l.held t' = 0 := by
    intro t'
    simp [held, hw, hread]
  have hheld : ∀ t', Rwlock.held
      { writer := some t
        readers := []
        acquired := Function.update l.acquired t (l.acquired t + 1)
        released := l.released
        exclusive := fun _ => rfl } t' = if t' = t then 1 else 0 := by
    intro t'
    by_cases ht : t' = t
    · simp [held, ht]
    · simp [held, ht, Ne.symm ht]
  refine ⟨hw, rfl, Others.of_counts ?_ ?_ ?_ ?_, ?_, ?_⟩
  · intro t' hne
    simp [hheld, hzero, hne]
  · intro t' hne
    simp [hne]
  · intro t' _
    rfl
  · intro t' _ hsome
    rw [hw] at hsome
    cases hsome
  · simp [hheld, hzero]
  · intro hbal
    simp only [Balanced, hheld, hzero, Function.update_self, if_true] at hbal ⊢
    omega

theorem held_unlock (l : Rwlock T) (t t' : T) :
    (l.unlock t).held t' = l.held t' - if t' = t then 1 else 0 := by
  by_cases hw : l.writer = some t
  · have hread : l.readers = [] := l.exclusive (by simp [hw])
    by_cases ht : t' = t
    · simp [held, unlock, hw, hread, ht]
    · simp [held, unlock, hw, hread, ht, Ne.symm ht]
  · by_cases ht : t' = t
    · simp [held, unlock, hw, ht]
    · simp [held, unlock, hw, ht, List.count_erase_of_ne ht]

theorem unlock_spec (h : 0 < l.held t) :
    Others l (l.unlock t) t ∧ (l.unlock t).held t = l.held t - 1 ∧
      (l.Balanced t → (l.unlock t).Balanced t) := by
  have hheld := held_unlock l t
  refine ⟨Others.of_counts ?_ ?_ ?_ ?_, ?_, ?_⟩
  · intro t' hne
    simp [hheld, hne]
  · intro t' _
    rfl
  · intro t' hne
    simp [unlock, hne]
  · intro t' hne hsome
    simp [unlock, hsome, hne]
  · simp [hheld]
  · intro hbal
    simp only [Balanced, hheld, if_true] at hbal ⊢
    simp only [unlock, Function.update_self]
    omega

end Rwlock
