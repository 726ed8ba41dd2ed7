import Mathlib.Logic.Function.Basic
import Mergerfs.Library.Bytes

/-!
# Directory entries, inodes and open files

A name is a slot of type `σ`, a place in a directory. An entry makes a slot name an
inode, which holds a content and the device it is on; a descriptor that is open
refers to an inode as well, whether or not a slot still names it. Inodes are never
given back, so that two files never share a number.

Which number a new inode or descriptor gets is for the caller to say: an operation
that is asked for a number in use has no result.
-/

namespace Vfs

structure Inode (δ α : Type*) where
  dev : δ
  content : List α

/-- What a descriptor refers to, and whether its writes go to the end. -/
structure OpenFile where
  ino : ℕ
  append : Bool

structure Files (σ δ α : Type*) where
  entry : σ → Option ℕ
  inode : ℕ → Option (Inode δ α)
  file : ℕ → Option OpenFile
  inode_of_entry : ∀ {s i}, entry s = some i → (inode i).isSome
  inode_of_file : ∀ {fd f}, file fd = some f → (inode f.ino).isSome

namespace Files

variable {σ δ α : Type*}

def stat (v : Files σ δ α) (fd : ℕ) : Option (Inode δ α) :=
  (v.file fd).bind fun f => v.inode f.ino

theorem exists_inode_of_entry {v : Files σ δ α} {s : σ} {i : ℕ}
    (h : v.entry s = some i) : ∃ node, v.inode i = some node :=
  Option.isSome_iff_exists.mp (v.inode_of_entry h)

theorem exists_inode_of_file {v : Files σ δ α} {fd : ℕ} {f : OpenFile}
    (h : v.file fd = some f) : ∃ node, v.inode f.ino = some node :=
  Option.isSome_iff_exists.mp (v.inode_of_file h)

theorem ne_of_entry {v : Files σ δ α} {s : σ} {i ino : ℕ}
    (hino : v.inode ino = none) (h : v.entry s = some i) : i ≠ ino := by
  rintro rfl
  obtain ⟨node, hnode⟩ := exists_inode_of_entry h
  rw [hino] at hnode
  cases hnode

/-! ## Descriptors -/

def setFile (v : Files σ δ α) (fd : ℕ) (f : Option OpenFile)
    (hf : ∀ g, f = some g → (v.inode g.ino).isSome) : Files σ δ α where
  entry := v.entry
  inode := v.inode
  file := Function.update v.file fd f
  inode_of_entry := v.inode_of_entry
  inode_of_file := by
    intro fd' g h
    by_cases hfd : fd' = fd
    · subst hfd
      rw [Function.update_self] at h
      exact hf g h
    · rw [Function.update_of_ne hfd] at h
      exact v.inode_of_file h

def close (v : Files σ δ α) (fd : ℕ) : Files σ δ α :=
  v.setFile fd none (by simp)

def setAppend (v : Files σ δ α) (fd : ℕ) (append : Bool) : Files σ δ α :=
  v.setFile fd ((v.file fd).map fun f => { f with append := append }) (by
    intro g h
    obtain ⟨f, hf, rfl⟩ := Option.map_eq_some_iff.mp h
    exact v.inode_of_file (f := f) hf)

def openAt (v : Files σ δ α) (s : σ) (fd : ℕ) : Option (Files σ δ α) :=
  if (v.entry s).isSome ∧ v.file fd = none then
    some (v.setFile fd ((v.entry s).map fun i => ⟨i, false⟩) (by
      intro g h
      obtain ⟨i, hi, rfl⟩ := Option.map_eq_some_iff.mp h
      exact v.inode_of_entry hi))
  else none

section Descriptors

variable (v : Files σ δ α) (fd : ℕ)

@[simp] theorem entry_close : (v.close fd).entry = v.entry := rfl

@[simp] theorem inode_close : (v.close fd).inode = v.inode := rfl

@[simp] theorem file_close :
    (v.close fd).file = Function.update v.file fd none := rfl

@[simp] theorem file_setAppend (append : Bool) :
    (v.setAppend fd append).file = Function.update v.file fd
      ((v.file fd).map fun f => { f with append := append }) := rfl

end Descriptors

theorem openAt_eq_some {v v' : Files σ δ α} {s : σ} {fd : ℕ}
    (h : v.openAt s fd = some v') :
    v.file fd = none ∧ v'.entry = v.entry ∧ v'.inode = v.inode ∧
      ∃ i, v.entry s = some i ∧
        v'.file = Function.update v.file fd (some ⟨i, false⟩) := by
  unfold openAt at h
  split_ifs at h with hfree
  cases h
  obtain ⟨i, hi⟩ := Option.isSome_iff_exists.mp hfree.1
  exact ⟨hfree.2, rfl, rfl, i, hi, by simp [setFile, hi]⟩

/-! ## Contents -/

theorem isSome_update {inode : ℕ → Option (Inode δ α)} {ino i : ℕ}
    {node : Inode δ α} (h : (inode i).isSome) :
    (Function.update inode ino (some node) i).isSome := by
  by_cases hi : i = ino
  · subst hi
    rw [Function.update_self]
    rfl
  · rwa [Function.update_of_ne hi]

def setInode (v : Files σ δ α) (ino : ℕ) (node : Inode δ α) : Files σ δ α where
  entry := v.entry
  inode := Function.update v.inode ino (some node)
  file := v.file
  inode_of_entry := fun h => isSome_update (v.inode_of_entry h)
  inode_of_file := fun h => isSome_update (v.inode_of_file h)

def modify (v : Files σ δ α) (fd : ℕ) (g : OpenFile → List α → List α) :
    Files σ δ α :=
  match v.file fd with
  | none => v
  | some f => match v.inode f.ino with
    | none => v
    | some node => v.setInode f.ino { node with content := g f node.content }

def write (pad : α) (v : Files σ δ α) (fd off : ℕ) (data : List α) :
    Files σ δ α :=
  v.modify fd fun f content =>
    Bytes.writeAt pad content (if f.append then content.length else off) data

section Contents

variable (v : Files σ δ α) (fd : ℕ) (g : OpenFile → List α → List α)

@[simp] theorem entry_modify : (v.modify fd g).entry = v.entry := by
  unfold modify
  split
  · rfl
  · split <;> rfl

@[simp] theorem file_modify : (v.modify fd g).file = v.file := by
  unfold modify
  split
  · rfl
  · split <;> rfl

variable {v fd}

theorem inode_modify {f : OpenFile} {node : Inode δ α}
    (hf : v.file fd = some f) (hnode : v.inode f.ino = some node) :
    (v.modify fd g).inode = Function.update v.inode f.ino
      (some { node with content := g f node.content }) := by
  simp only [modify, hf, hnode]
  rfl

theorem inode_write (pad : α) {f : OpenFile} {node : Inode δ α}
    (hf : v.file fd = some f) (hnode : v.inode f.ino = some node) (off : ℕ)
    (data : List α) :
    (v.write pad fd off data).inode f.ino = some { node with
      content := Bytes.writeAt pad node.content
        (if f.append then node.content.length else off) data } := by
  rw [write, inode_modify _ hf hnode, Function.update_self]

theorem inode_modify_id (hg : ∀ f content, g f content = content) :
    (v.modify fd g).inode = v.inode := by
  unfold modify
  split
  · rfl
  · split
    · rfl
    · rename_i f _ _ node hnode
      rw [hg]
      change Function.update v.inode f.ino (some node) = v.inode
      rw [← hnode, Function.update_eq_self]

end Contents

/-! ## Names -/

variable [DecidableEq σ]

def setEntry (v : Files σ δ α) (s : σ) (i : Option ℕ)
    (hi : ∀ j, i = some j → (v.inode j).isSome) : Files σ δ α where
  entry := Function.update v.entry s i
  inode := v.inode
  file := v.file
  inode_of_entry := by
    intro t j h
    by_cases hts : t = s
    · subst hts
      rw [Function.update_self] at h
      exact hi j h
    · rw [Function.update_of_ne hts] at h
      exact v.inode_of_entry h
  inode_of_file := v.inode_of_file

def unlink (v : Files σ δ α) (s : σ) : Files σ δ α :=
  v.setEntry s none (by simp)

/-- `rename`; two names of one file are left alone. -/
def rename (v : Files σ δ α) (s t : σ) : Files σ δ α :=
  if v.entry s = v.entry t then v
  else (v.setEntry t (v.entry s) fun _ h => v.inode_of_entry h).unlink s

def create (v : Files σ δ α) (s : σ) (dev : δ) (ino fd : ℕ) :
    Option (Files σ δ α) :=
  if v.entry s = none ∧ v.inode ino = none ∧ v.file fd = none then
    some (((v.setInode ino ⟨dev, []⟩).setEntry s (some ino) (by
      intro j hj
      cases hj
      simp [setInode])).setFile fd (some ⟨ino, false⟩) (by
        intro g hg
        cases hg
        simp [setInode, setEntry]))
  else none

section Names

variable (v : Files σ δ α) (s t : σ)

@[simp] theorem entry_unlink :
    (v.unlink s).entry = Function.update v.entry s none := rfl

@[simp] theorem inode_unlink : (v.unlink s).inode = v.inode := rfl

@[simp] theorem file_unlink : (v.unlink s).file = v.file := rfl

@[simp] theorem inode_rename : (v.rename s t).inode = v.inode := by
  unfold rename
  split_ifs <;> rfl

@[simp] theorem file_rename : (v.rename s t).file = v.file := by
  unfold rename
  split_ifs <;> rfl

variable {v s t}

theorem entry_rename (h : v.entry s ≠ v.entry t) :
    (v.rename s t).entry =
      Function.update (Function.update v.entry t (v.entry s)) s none := by
  rw [rename, if_neg h]
  rfl

theorem create_eq_some {v' : Files σ δ α} {dev : δ} {ino fd : ℕ}
    (h : v.create s dev ino fd = some v') :
    v.entry s = none ∧ v.inode ino = none ∧ v.file fd = none ∧
      v'.entry = Function.update v.entry s (some ino) ∧
      v'.inode = Function.update v.inode ino (some ⟨dev, []⟩) ∧
      v'.file = Function.update v.file fd (some ⟨ino, false⟩) := by
  unfold create at h
  split_ifs at h with hfree
  cases h
  exact ⟨hfree.1, hfree.2.1, hfree.2.2, rfl, rfl, rfl⟩

end Names

end Files

end Vfs
