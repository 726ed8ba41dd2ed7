import Mathlib.Logic.Function.Basic

/-!
# Maps with timestamps

A cache with a timeout is a map to values that carry the time they were stored at. An
entry that is asked for and is not there is made, with a fixed initial value. `Holds`
says that every entry is either an initial one or meets a condition, and is kept by
storing an entry that meets it and by removing entries.
-/

namespace Timed

variable {κ ν : Type*}

theorem eq_of_update {β : Type*} [DecidableEq κ] {f : κ → Option β} {k k' : κ}
    {v : Option β} {b : β} (h : Function.update f k v k' = some b) :
    k' = k ∧ v = some b ∨ k' ≠ k ∧ f k' = some b := by
  by_cases hk : k' = k
  · subst hk
    rw [Function.update_self] at h
    exact .inl ⟨rfl, h⟩
  · rw [Function.update_of_ne hk] at h
    exact .inr ⟨hk, h⟩

structure Entry (ν : Type*) where
  time : UInt64
  val : ν
deriving DecidableEq

/-- How old an entry is; the subtraction wraps. -/
def Entry.age (e : Entry ν) (now : UInt64) : UInt64 := now - e.time

theorem Entry.toNat_age {e : Entry ν} {now : UInt64} (h : e.time ≤ now) :
    (e.age now).toNat = now.toNat - e.time.toNat :=
  UInt64.toNat_sub_of_le _ _ h

abbrev Map (κ ν : Type*) := κ → Option (Entry ν)

namespace Map

def empty : Map κ ν := fun _ => none

def get (init : Entry ν) (m : Map κ ν) (k : κ) : Entry ν := (m k).getD init

def Holds (init : Entry ν) (P : κ → Entry ν → Prop) (m : Map κ ν) : Prop :=
  ∀ k e, m k = some e → e = init ∨ P k e

variable {init : Entry ν} {P Q : κ → Entry ν → Prop} {m m' : Map κ ν}

theorem holds_empty : Holds init P empty := by
  intro k e h
  cases h

theorem Holds.mono (hm : Holds init P m) (h : ∀ k e, P k e → Q k e) :
    Holds init Q m := by
  intro k e he
  exact (hm k e he).imp_right (h k e)

theorem Holds.get (hm : Holds init P m) (k : κ) :
    m.get init k = init ∨ P k (m.get init k) := by
  unfold Map.get
  cases hk : m k with
  | none => exact .inl rfl
  | some e => exact hm k e hk

theorem Holds.of_sub (hm : Holds init P m)
    (h : ∀ k e, m' k = some e → m k = some e) : Holds init P m' := by
  intro k e he
  exact hm k e (h k e he)

variable [DecidableEq κ]

def put (m : Map κ ν) (k : κ) (e : Entry ν) : Map κ ν :=
  Function.update m k (some e)

def erase (m : Map κ ν) (k : κ) : Map κ ν := Function.update m k none

theorem eq_of_put {k k' : κ} {e e' : Entry ν} (h : m.put k e k' = some e') :
    k' = k ∧ e' = e ∨ m k' = some e' := by
  rcases eq_of_update h with ⟨hk, he⟩ | ⟨_, he⟩
  · exact .inl ⟨hk, (Option.some.inj he).symm⟩
  · exact .inr he

theorem Holds.put (hm : Holds init P m) {k : κ} {e : Entry ν}
    (he : e = init ∨ P k e) : Holds init P (m.put k e) := by
  intro k' e' h
  rcases eq_of_put h with ⟨rfl, rfl⟩ | h
  · exact he
  · exact hm k' e' h

theorem get_put (init : Entry ν) (m : Map κ ν) (k k' : κ) (e : Entry ν) :
    (m.put k e).get init k' = if k' = k then e else m.get init k' := by
  unfold Map.get Map.put
  by_cases hk : k' = k
  · rw [if_pos hk, hk, Function.update_self, Option.getD_some]
  · rw [if_neg hk, Function.update_of_ne hk]

theorem get_put_get (init : Entry ν) (m : Map κ ν) (k k' : κ) :
    (m.put k (m.get init k)).get init k' = m.get init k' := by
  rw [get_put]
  by_cases hk : k' = k
  · rw [if_pos hk, hk]
  · rw [if_neg hk]

theorem eq_of_erase {k k' : κ} {e : Entry ν} (h : m.erase k k' = some e) :
    k' ≠ k ∧ m k' = some e := by
  rcases eq_of_update h with ⟨_, he⟩ | hother
  · cases he
  · exact hother

end Map

end Timed
