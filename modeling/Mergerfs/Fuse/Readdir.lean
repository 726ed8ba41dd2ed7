import Mergerfs.Library.Distinct
import Mergerfs.Basic.Branch

/-!
# Listing a directory

`l::readdir` goes through the branches in order, and through the directory of each
one that can be opened, and hands every name it has not met before to the filler.
What it keeps of a name is its 64-bit hash. The hash is that of a little-endian
machine.

`appearances` is the list of everything there is to hand on, in the order it is met;
the listing is the union of the branches if each name of it is handed on once, as it
first appears.
-/

namespace Mergerfs

open Errno

/-! ## The hash of a name -/

def mix (h : UInt64) : UInt64 :=
  let h := h ^^^ (h >>> 23)
  let h := h * 0x2127599bf4325c37
  h ^^^ (h >>> 47)

/-- Up to eight bytes as a number, the first being the lowest: `*pos++`, and the
`switch` on the rest of the length. -/
def load (bytes : List UInt8) : UInt64 :=
  bytes.foldr (fun b v => b.toUInt64 ^^^ (v <<< 8)) 0

def hashM : UInt64 := 0x880355f21e6d1965

def hashWords (h : UInt64) : List UInt8 → UInt64
  | b₀ :: b₁ :: b₂ :: b₃ :: b₄ :: b₅ :: b₆ :: b₇ :: rest =>
      hashWords ((h ^^^ mix (load [b₀, b₁, b₂, b₃, b₄, b₅, b₆, b₇])) * hashM) rest
  | [] => h
  | rest => (h ^^^ mix (load rest)) * hashM

def fasthash64 (buf : List UInt8) (seed : UInt64) : UInt64 :=
  mix (hashWords (seed ^^^ (UInt64.ofNat buf.length * hashM)) buf)

structure Name where
  bytes : List UInt8
  nul_free : 0 ∉ bytes
deriving DecidableEq

def Name.hash (n : Name) : UInt64 := fasthash64 n.bytes 0x7472617065786974

abbrev HashSet := List UInt64

/-- `HashSet::put`: zero if the hash is there already. -/
def HashSet.put (names : HashSet) (n : Name) : ℤ × HashSet :=
  if n.hash ∈ names then (0, names) else (1, n.hash :: names)

/-! ## The loops -/

structure Dirent where
  d_name : Name
  d_ino : UInt64
  d_type : UInt8

/-- An open directory: what `fs::devid` answers, and its entries. -/
structure Dir where
  devid : UInt64
  entries : List Dirent

structure FillStat where
  st_dev : UInt64
  st_ino : UInt64
  st_mode : UInt32
deriving DecidableEq

structure Fill where
  name : Name
  st : FillStat
deriving DecidableEq

/-- `fs::inode::recompute`, where `st_ino` has 64 bits. -/
def recompute (st : FillStat) : FillStat :=
  { st with st_ino := st.st_ino ||| (st.st_dev <<< 32) }

def dttoif (d_type : UInt8) : UInt32 := d_type.toUInt32 <<< 12

def Dirent.fill (dev : UInt64) (de : Dirent) : Fill :=
  ⟨de.d_name, recompute ⟨dev, de.d_ino, dttoif de.d_type⟩⟩

/-- `st.st_dev`: the place of the branch stands in for a device that is not known. -/
def Dir.dev (dh : Dir) (i : ℕ) : UInt64 :=
  if dh.devid = -1 then UInt64.ofNat i else dh.devid

section Loops

-- the value the filler returns, given the calls before
variable (filler : List Fill → Fill → ℤ)

/-- The loop over one directory: whether it came to its end, the names met and the
calls made. The `rv` its condition tests is zero whenever it is tested. -/
def readdirDir (dev : UInt64) : List Dirent → HashSet → List Fill →
    Bool × HashSet × List Fill
  | [], names, filled => (true, names, filled)
  | de :: rest, names, filled =>
      let r := names.put de.d_name
      if r.1 = 0 then readdirDir dev rest r.2 filled
      else if filler filled (de.fill dev) = 0 then
        readdirDir dev rest r.2 (filled ++ [de.fill dev])
      else (false, r.2, filled ++ [de.fill dev])

variable (opendir : Path → Option Dir) (dirname : Path)

def readdirFrom : ℕ → Branches → HashSet → List Fill → ℤ × List Fill
  | _, [], _, filled => (0, filled)
  | i, b :: branches, names, filled =>
      match opendir (make b.path dirname) with
      | none => readdirFrom (i + 1) branches names filled
      | some dh =>
          match readdirDir filler (dh.dev i) dh.entries names filled with
          | (false, _, filled) => (ENOMEM.neg, filled)
          | (true, names, filled) => readdirFrom (i + 1) branches names filled

/-- `l::readdir`: the value returned and the calls of the filler. -/
def readdir (branches : Branches) : ℤ × List Fill :=
  readdirFrom filler opendir dirname 0 branches [] []

/-! ## The union -/

/-- Everything there is in the directories that can be opened. -/
def appearancesFrom : ℕ → Branches → List Fill
  | _, [] => []
  | i, b :: branches =>
      (match opendir (make b.path dirname) with
        | none => []
        | some dh => dh.entries.map (Dirent.fill (dh.dev i))) ++
      appearancesFrom (i + 1) branches

def appearances (branches : Branches) : List Fill :=
  appearancesFrom opendir dirname 0 branches

end Loops

/-! ## What a call is made for -/

theorem toUInt32_shiftLeft (x : UInt64) : (x <<< 32).toUInt32 = 0 := by
  refine UInt32.toNat_inj.mp ?_
  rw [UInt64.toNat_toUInt32, UInt64.toNat_shiftLeft, Nat.shiftLeft_eq]
  change x.toNat * 2 ^ 32 % 2 ^ 64 % 2 ^ 32 = 0
  omega

theorem dttoif_shiftRight (d_type : UInt8) : dttoif d_type >>> 12 = d_type.toUInt32 := by
  have htype := d_type.toNat_lt
  refine UInt32.toNat_inj.mp ?_
  rw [dttoif, UInt32.toNat_shiftRight, UInt32.toNat_shiftLeft, Nat.shiftLeft_eq,
    Nat.shiftRight_eq_div_pow, UInt8.toNat_toUInt32]
  change d_type.toNat * 2 ^ 12 % 2 ^ 32 / 2 ^ 12 = d_type.toNat
  omega

/-- The call tells the name and the type of the entry, and the low half of its inode; the
device goes into the high half. -/
structure Fill.Tells (f : Fill) (de : Dirent) : Prop where
  name : f.name = de.d_name
  type : f.st.st_mode >>> 12 = de.d_type.toUInt32
  inode : f.st.st_ino.toUInt32 = de.d_ino.toUInt32

theorem Dirent.fill_tells (dev : UInt64) (de : Dirent) : (de.fill dev).Tells de := by
  refine ⟨rfl, dttoif_shiftRight de.d_type, ?_⟩
  rw [Dirent.fill, recompute, UInt64.toUInt32_or, toUInt32_shiftLeft, UInt32.or_zero]

def Fill.Listed (opendir : Path → Option Dir) (dirname : Path) (branches : Branches)
    (f : Fill) : Prop :=
  ∃ b ∈ branches, ∃ dh, opendir (make b.path dirname) = some dh ∧
    ∃ de ∈ dh.entries, f.Tells de

section Mem

variable {filler : List Fill → Fill → ℤ} {opendir : Path → Option Dir} {dirname : Path}

theorem mem_readdirDir {dev : UInt64} {entries : List Dirent} {names : HashSet}
    {filled : List Fill} {f : Fill}
    (h : f ∈ (readdirDir filler dev entries names filled).2.2) :
    f ∈ filled ∨ ∃ de ∈ entries, f = de.fill dev := by
  induction entries generalizing names filled with
  | nil => exact .inl h
  | cons de rest ih =>
      have hlater : (∃ de ∈ rest, f = de.fill dev) →
          ∃ de' ∈ de :: rest, f = de'.fill dev := by
        rintro ⟨de', hde', rfl⟩
        exact ⟨de', .tail _ hde', rfl⟩
      have hfilled : f ∈ filled ++ [de.fill dev] →
          f ∈ filled ∨ ∃ de' ∈ de :: rest, f = de'.fill dev := by
        intro hf
        rcases List.mem_append.mp hf with hf | hf
        · exact .inl hf
        · exact .inr ⟨de, .head _, List.mem_singleton.mp hf⟩
      rw [readdirDir] at h
      split_ifs at h
      · exact (ih h).imp_right hlater
      · rcases ih h with hf | hf
        · exact hfilled hf
        · exact .inr (hlater hf)
      · exact hfilled h

theorem mem_readdirFrom {i : ℕ} {branches : Branches} {names : HashSet}
    {filled : List Fill} {f : Fill}
    (h : f ∈ (readdirFrom filler opendir dirname i branches names filled).2) :
    f ∈ filled ∨ f.Listed opendir dirname branches := by
  induction branches generalizing i names filled with
  | nil => exact .inl h
  | cons b branches ih =>
      have hlater : f.Listed opendir dirname branches →
          f.Listed opendir dirname (b :: branches) := by
        rintro ⟨b', hb', hrest⟩
        exact ⟨b', .tail _ hb', hrest⟩
      rw [readdirFrom] at h
      cases hopen : opendir (make b.path dirname) with
      | none =>
          rw [hopen] at h
          exact (ih h).imp_right hlater
      | some dh =>
          have hdir : f ∈ (readdirDir filler (dh.dev i) dh.entries names filled).2.2 →
              f ∈ filled ∨ f.Listed opendir dirname (b :: branches) := by
            intro hf
            rcases mem_readdirDir hf with hf | ⟨de, hde, rfl⟩
            · exact .inl hf
            · exact .inr ⟨b, .head _, dh, hopen, de, hde, de.fill_tells _⟩
          rw [hopen] at h
          dsimp only at h
          split at h
          · rename_i heq
            rw [heq] at hdir
            exact hdir h
          · rename_i heq
            rw [heq] at hdir
            rcases ih h with hf | hf
            · exact hdir hf
            · exact .inr (hlater hf)

end Mem

/-! ## When the listing is the union -/

def accepting (_ : List Fill) (_ : Fill) : ℤ := 0

/-- With such a filler the loop over a directory keeps the entries with a hash that
was not met. -/
theorem readdirDir_accepting (dev : UInt64) (entries : List Dirent)
    (names : HashSet) (filled : List Fill) :
    readdirDir accepting dev entries names filled =
      (true, (entries.map (Dirent.fill dev)).foldl
        (Distinct.keep fun f => f.name.hash) (names, filled)) := by
  induction entries generalizing names filled with
  | nil => rfl
  | cons de rest ih =>
      rw [List.map_cons, List.foldl_cons, readdirDir, Distinct.keep]
      by_cases hseen : de.d_name.hash ∈ names
      · have hkey : (de.fill dev).name.hash ∈ names := hseen
        simp [HashSet.put, hseen, hkey, ih]
      · have hkey : ¬ (de.fill dev).name.hash ∈ names := hseen
        simp only [HashSet.put, if_neg hseen, if_neg hkey, accepting]
        exact ih (de.d_name.hash :: names) (filled ++ [de.fill dev])

theorem readdirFrom_accepting (opendir : Path → Option Dir) (dirname : Path)
    (i : ℕ) (branches : Branches) (names : HashSet) (filled : List Fill) :
    readdirFrom accepting opendir dirname i branches names filled =
      (0, ((appearancesFrom opendir dirname i branches).foldl
        (Distinct.keep fun f => f.name.hash) (names, filled)).2) := by
  induction branches generalizing i names filled with
  | nil => rfl
  | cons b branches ih =>
      rw [readdirFrom, appearancesFrom, List.foldl_append]
      cases opendir (make b.path dirname) with
      | none => exact ih (i + 1) names filled
      | some dh =>
          dsimp only
          rw [readdirDir_accepting]
          exact ih (i + 1) _ _

/-- Every name in a directory that can be opened is handed to the filler once, as it
first appears, and nothing else is, exactly if no two of these names have the same
hash. What is handed on tells the type and the inode of an entry with that name. -/
theorem readdir_union_iff (opendir : Path → Option Dir) (dirname : Path)
    (branches : Branches) :
    (((readdir accepting opendir dirname branches).1 = 0 ∧
      ∀ name, (readdir accepting opendir dirname branches).2.filter
          (fun f => decide (f.name = name)) =
        ((appearances opendir dirname branches).find?
          fun f => decide (f.name = name)).toList) ↔
    ∀ a ∈ appearances opendir dirname branches,
      ∀ b ∈ appearances opendir dirname branches,
        a.name.hash = b.name.hash → a.name = b.name) ∧
    ∀ f ∈ (readdir accepting opendir dirname branches).2,
      f.Listed opendir dirname branches := by
  refine ⟨?_, fun f hf => (mem_readdirFrom hf).resolve_left List.not_mem_nil⟩
  have hrun : readdir accepting opendir dirname branches =
      (0, ((appearances opendir dirname branches).foldl
        (Distinct.keep fun f => f.name.hash) ([], [])).2) :=
    readdirFrom_accepting opendir dirname 0 branches [] []
  rw [hrun, ← Distinct.filter_keep_iff Fill.name Name.hash]
  simp

def holidays : Name :=
  ⟨[104, 111, 108, 105, 100, 97, 121, 115, 45, 111, 110, 101, 46, 106, 112, 103],
    by decide⟩

def izjxoaaa : Name :=
  ⟨[105, 122, 106, 120, 111, 97, 97, 97, 52, 99, 57, 105, 57, 108, 55, 121],
    by decide⟩

def oneFileEach : Path → Option Dir := fun path =>
  if path = ['/', 'a', '/'] then some ⟨1, [⟨holidays, 5, 8⟩]⟩
  else some ⟨2, [⟨izjxoaaa, 6, 8⟩]⟩

/-- The second name is never handed on. -/
theorem readdir_merges :
    (readdir accepting oneFileEach ['/']
      [⟨.RW, ['/', 'a']⟩, ⟨.RW, ['/', 'b']⟩]).2.map Fill.name = [holidays] ∧
    (appearances oneFileEach ['/']
      [⟨.RW, ['/', 'a']⟩, ⟨.RW, ['/', 'b']⟩]).map Fill.name =
        [holidays, izjxoaaa] := by
  decide

end Mergerfs
