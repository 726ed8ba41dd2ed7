import Mathlib.Data.List.Basic

/-!
# File contents as lists

The content of a file is the list of its bytes. A write that starts beyond the end
leaves a hole, which reads as `pad`; a write of nothing leaves the file as it is.
-/

namespace Bytes

variable {α : Type*} (pad : α)

def resize (file : List α) (n : ℕ) : List α :=
  file.take n ++ List.replicate (n - file.length) pad

def extend (file : List α) (n : ℕ) : List α :=
  file ++ List.replicate (n - file.length) pad

/-- The content after `data` was written at the offset `off`. -/
def writeAt (file : List α) (off : ℕ) (data : List α) : List α :=
  if data = [] then file
  else resize pad file off ++ data ++ file.drop (off + data.length)

@[simp] theorem length_resize (file : List α) (n : ℕ) :
    (resize pad file n).length = n := by
  rw [resize, List.length_append, List.length_take, List.length_replicate]
  omega

@[simp] theorem writeAt_nil (file : List α) (off : ℕ) :
    writeAt pad file off [] = file := if_pos rfl

theorem resize_of_le {file : List α} {n : ℕ} (h : n ≤ file.length) :
    resize pad file n = file.take n := by
  simp [resize, Nat.sub_eq_zero_of_le h]

theorem writeAt_zero (file data : List α) :
    writeAt pad file 0 data = data ++ file.drop data.length := by
  unfold writeAt
  split_ifs with h
  · simp [h]
  · simp [resize]

theorem writeAt_length (file data : List α) :
    writeAt pad file file.length data = file ++ data := by
  unfold writeAt
  split_ifs with h
  · simp [h]
  · rw [resize_of_le pad (Nat.le_refl _), List.take_length,
      List.drop_of_length_le (Nat.le_add_right _ _), List.append_nil]

theorem writeAt_writeAt (file front data : List α) :
    writeAt pad (writeAt pad file 0 front) front.length data =
      writeAt pad file 0 (front ++ data) := by
  rw [writeAt_zero, writeAt_zero, writeAt]
  split_ifs with h
  · simp [h]
  · rw [resize_of_le pad (by simp), List.take_left, List.length_append,
      ← List.drop_drop, List.drop_left, List.drop_drop]

/-- Up to the end of the data the content is what was there, then the data. -/
theorem take_writeAt {file data : List α} {off : ℕ} (h : off ≤ file.length) :
    (writeAt pad file off data).take (off + data.length) =
      file.take off ++ data := by
  unfold writeAt
  split_ifs with hnil
  · simp [hnil]
  · rw [resize_of_le pad h, List.take_append_of_le_length (by simp [h]),
      List.take_of_length_le (by simp [h])]

/-! ## The bytes of a file after a write -/

section Bytes

variable {file data : List α} {off i : ℕ}

theorem getElem?_writeAt_of_lt (h : i < off) (hi : i < file.length) :
    (writeAt pad file off data)[i]? = file[i]? := by
  unfold writeAt
  split_ifs
  · rfl
  · have hmin : i < (file.take off).length := by
      rw [List.length_take]
      omega
    rw [List.append_assoc, List.getElem?_append_left (by simpa using h), resize,
      List.getElem?_append_left hmin, List.getElem?_take_of_lt h]

theorem getElem?_writeAt_of_mem (h : off ≤ i) (hi : i < off + data.length) :
    (writeAt pad file off data)[i]? = data[i - off]? := by
  have hnil : data ≠ [] := by
    intro hnil
    simp [hnil] at hi
    omega
  rw [writeAt, if_neg hnil, List.append_assoc,
    List.getElem?_append_right (by simpa using h), length_resize,
    List.getElem?_append_left (by omega)]

theorem getElem?_writeAt_of_ge (h : off + data.length ≤ i) :
    (writeAt pad file off data)[i]? = file[i]? := by
  unfold writeAt
  split_ifs with hnil
  · rfl
  · rw [List.getElem?_append_right (by simpa using h), List.length_append,
      length_resize, List.getElem?_drop]
    congr 1
    omega

end Bytes

/-! ## A log of writes -/

/-- The byte the latest write that reaches the offset `i` has put there; the log
has the latest write first. -/
def lastAt : List (ℕ × List α) → ℕ → Option α
  | [], _ => none
  | (off, data) :: log, i =>
      if off ≤ i ∧ i < off + data.length then data[i - off]? else lastAt log i

def Replays (file : List α) (log : List (ℕ × List α)) : Prop :=
  ∀ i b, lastAt log i = some b → file[i]? = some b

theorem Replays.writeAt {file : List α} {log : List (ℕ × List α)}
    (h : Replays file log) (off : ℕ) (data : List α) :
    Replays (writeAt pad file off data) ((off, data) :: log) := by
  intro i b hb
  rw [lastAt] at hb
  split_ifs at hb with hi
  · rw [getElem?_writeAt_of_mem pad hi.1 hi.2, hb]
  · have hold := h i b hb
    obtain ⟨hlen, _⟩ := List.getElem?_eq_some_iff.mp hold
    by_cases hoff : i < off
    · rw [getElem?_writeAt_of_lt pad hoff hlen, hold]
    · rw [getElem?_writeAt_of_ge pad (by omega), hold]

end Bytes
