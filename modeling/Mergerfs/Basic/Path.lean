import Mathlib.Data.List.Basic
import Mathlib.Data.List.Infix
import Mathlib.Data.List.TakeWhile

/-!
# Paths

A path is its sequence of characters. `make` joins a branch path and a path
relative to the mount point by plain concatenation, as the code does, and
`dirname` strips the last component. The paths the kernel hands to the file
system start with a slash; `FusePath` carries that fact.

`under base p` says that the name `p` lies in the tree whose root is named
`base`. Two trees neither of which lies in the other share no name.
-/

namespace Mergerfs

abbrev Path := List Char

instance : LawfulBEq Path := List.instLawfulBEq

/-- `fs::path::make`, and what `fs::path::append` leaves in its argument. -/
def make (base suffix : Path) : Path := base ++ suffix

/-- `fs::path::dirname`: the three scanning loops, read from the end. -/
def dirname (p : Path) : Path :=
  (((p.reverse.dropWhile (· == '/')).dropWhile (· != '/')).dropWhile
    (· == '/')).reverse

def basename (p : Path) : Path := (p.reverse.takeWhile (· != '/')).reverse

/-- A path as the kernel passes it: absolute with respect to the mount point. -/
structure FusePath where
  path : Path
  abs : path.head? = some '/'
deriving DecidableEq

/-- The name in the root directory. -/
def FusePath.top (name : Path) : FusePath := ⟨'/' :: name, rfl⟩

theorem make_left_injective {a b : Path} (s : Path) (h : make a s = make b s) :
    a = b :=
  List.append_cancel_right h

theorem FusePath.ne_nil (p : FusePath) : p.path ≠ [] := by
  intro h
  have habs := p.abs
  rw [h] at habs
  simp at habs

theorem make_fusePath_ne_nil (b : Path) (p : FusePath) :
    make b p.path ≠ [] := by
  simp [make, p.ne_nil]

theorem dirname_prefix (p : Path) : dirname p <+: p := by
  rw [dirname, ← List.reverse_suffix, List.reverse_reverse]
  exact ((List.dropWhile_suffix _).trans (List.dropWhile_suffix _)).trans
    (List.dropWhile_suffix _)

theorem dirname_eq_nil_or (p : Path) :
    dirname p = [] ∨ ∃ s, p = dirname p ++ '/' :: s := by
  rw [dirname]
  generalize hb : (p.reverse.dropWhile (· == '/')).dropWhile (· != '/') = b
  have hsuffix : b <:+ p.reverse := by
    rw [← hb]
    exact (List.dropWhile_suffix _).trans (List.dropWhile_suffix _)
  obtain ⟨x, hx⟩ := hsuffix
  cases b with
  | nil => exact .inl rfl
  | cons c b =>
      have hc : c = '/' := by
        have hhead := List.head?_dropWhile_not (· != '/')
          (p.reverse.dropWhile (· == '/'))
        rw [hb] at hhead
        simpa using hhead
      subst hc
      right
      -- the slashes that are dropped, read from the left
      have hslashes : ∀ d ∈ (b.takeWhile (· == '/')).reverse ++ ['/'], d = '/' := by
        intro d hd
        rcases List.mem_append.mp hd with hd | hd
        · exact eq_of_beq
            (List.mem_takeWhile_imp (p := (· == '/')) (List.mem_reverse.mp hd))
        · exact List.mem_singleton.mp hd
      have hp : p = (b.dropWhile (· == '/')).reverse ++
          ((b.takeWhile (· == '/')).reverse ++ ['/']) ++ x.reverse := by
        rw [← List.reverse_reverse p, ← hx, List.reverse_append, List.reverse_cons,
          ← List.append_assoc, ← List.reverse_append, List.takeWhile_append_dropWhile]
      have hdrop : ('/' :: b).dropWhile (· == '/') = b.dropWhile (· == '/') :=
        List.dropWhile_cons_of_pos rfl
      rw [hdrop]
      cases hrun : (b.takeWhile (· == '/')).reverse ++ ['/'] with
      | nil => exact absurd hrun (by simp)
      | cons d ds =>
          rw [hrun] at hp hslashes
          obtain rfl := hslashes d (.head _)
          exact ⟨ds ++ x.reverse, by rw [hp]; simp⟩

theorem length_dirname_lt {p : Path} (hp : p ≠ []) :
    (dirname p).length < p.length := by
  rcases dirname_eq_nil_or p with hnil | ⟨s, hs⟩
  · rw [hnil]
    exact List.length_pos_iff.mpr hp
  · have hlen := congrArg List.length hs
    rw [List.length_append, List.length_cons] at hlen
    omega

theorem head?_dirname (p : FusePath) :
    dirname p.path = [] ∨ (dirname p.path).head? = some '/' := by
  obtain ⟨t, ht⟩ := dirname_prefix p.path
  cases hd : dirname p.path with
  | nil => exact .inl rfl
  | cons c cs =>
      have habs := p.abs
      rw [← ht, hd] at habs
      exact .inr habs

/-! ## The tree below a path -/

/-- The name `p` lies in the tree rooted at `base`: it is `base`, or continues
it at a component boundary. -/
def under (base p : Path) : Prop :=
  base <+: p ∧
    (p = base ∨ base = [] ∨ base.getLast? = some '/' ∨
      p[base.length]? = some '/')

theorem under_make {base : Path} {s : Path} (hs : s.head? = some '/') :
    under base (make base s) := by
  refine ⟨List.prefix_append base s, .inr (.inr (.inr ?_))⟩
  simpa [make, List.getElem?_append_right, List.head?_eq_getElem?] using hs

theorem under_or_under {a b p : Path} (ha : under a p) (hb : under b p) :
    under a b ∨ under b a := by
  suffices hgen : ∀ {a b : Path}, under a p → under b p → a <+: b →
      under a b by
    rcases List.prefix_or_prefix_of_prefix ha.1 hb.1 with h | h
    · exact .inl (hgen ha hb h)
    · exact .inr (hgen hb ha h)
  intro a b ha hb hab
  refine ⟨hab, ?_⟩
  rcases ha.2 with rfl | rfl | hlast | hnext
  · exact .inl (List.IsPrefix.eq_of_length_le hb.1 hab.length_le)
  · exact .inr (.inl rfl)
  · exact .inr (.inr (.inl hlast))
  · obtain ⟨t, rfl⟩ := hab
    obtain ⟨u, rfl⟩ := hb.1
    cases t with
    | nil => exact .inl (by simp)
    | cons c t =>
        right; right; right
        simpa using hnext

end Mergerfs
