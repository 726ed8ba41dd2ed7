import Mergerfs.Basic.Path

/-!
# The iterator of `dirname`

`fs::path::dirname` moves a reverse iterator over the slashes at the end of a path, over
its last component and over the slashes before. Each of the three loops reads the
character at the iterator before it looks whether the iterator is at `rend()`. What is
read there does not matter for the result, but there is no character to be read.

The iterator is the list of the characters from it on to `rend()`.
-/

namespace Mergerfs

/-- One of the loops, if `before` is read at `rend()`. -/
def scan (before : Char) (test : Char → Bool) (i : List Char) : List Char :=
  if _h : test (i.headD before) && !i.isEmpty then scan before test i.tail else i
termination_by i.length
decreasing_by
  cases i with
  | nil => simp at _h
  | cons c i => exact Nat.lt_succ_self _

def dirnameIter (before : Char) (p : Path) : Path :=
  let i := p.reverse
  let i := scan before (· == '/') i
  let i := scan before (· != '/') i
  let i := scan before (· == '/') i
  -- what is not erased is what the iterator has not passed
  i.reverse

namespace Checked

def scan (test : Char → Bool) : List Char → Option (List Char)
  | [] => none
  | c :: i => if test c then scan test i else some (c :: i)

/-- `fs::path::dirname`, with no result when it reads at `rend()`. -/
def dirname (p : Path) : Option Path := do
  let i := p.reverse
  let i ← scan (· == '/') i
  let i ← scan (· != '/') i
  let i ← scan (· == '/') i
  return i.reverse

theorem scan_eq (test : Char → Bool) (i : List Char) :
    scan test i =
      if i.dropWhile test = [] then none else some (i.dropWhile test) := by
  induction i with
  | nil => rfl
  | cons c i ih =>
      rw [scan]
      cases h : test c with
      | true => rw [if_pos rfl, ih, List.dropWhile_cons_of_pos h]
      | false =>
          rw [if_neg Bool.false_ne_true, List.dropWhile_cons_of_neg (by simp [h]),
            if_neg (List.cons_ne_nil c i)]

theorem dirname_eq (p : Path) :
    dirname p = if Mergerfs.dirname p = [] then none else some (Mergerfs.dirname p) := by
  simp only [dirname, scan_eq, Mergerfs.dirname, List.reverse_eq_nil_iff]
  generalize p.reverse.dropWhile (· == '/') = i
  by_cases hi : i = []
  · simp [hi]
  · rw [if_neg hi]
    dsimp only [Option.bind_eq_bind, Option.bind_some]
    generalize i.dropWhile (· != '/') = j
    by_cases hj : j = []
    · simp [hj]
    · rw [if_neg hj]
      dsimp only [Option.bind_some]
      split_ifs <;> rfl

end Checked

theorem scan_eq_dropWhile (before : Char) (test : Char → Bool) (i : List Char) :
    scan before test i = i.dropWhile test := by
  induction i with
  | nil =>
      rw [scan, dif_neg (by simp)]
      rfl
  | cons c i ih =>
      rw [scan]
      cases h : test c with
      | true =>
          rw [dif_pos (by simpa using h), List.tail_cons, ih,
            List.dropWhile_cons_of_pos h]
      | false =>
          rw [dif_neg (by simp [h]), List.dropWhile_cons_of_neg (by simp [h])]

theorem dirnameIter_eq (before : Char) (p : Path) : dirnameIter before p = dirname p := by
  simp only [dirnameIter, scan_eq_dropWhile, dirname]

/-! ## What is taken off -/

/-- `d` is left of `p` when the slashes at its end, its last component and the slashes
before are taken off. -/
def IsDirname (p d : Path) : Prop :=
  ∃ slashes name trailing, p = d ++ slashes ++ name ++ trailing ∧
    (∀ c ∈ slashes, c = '/') ∧ '/' ∉ name ∧ (∀ c ∈ trailing, c = '/') ∧
    -- a path without a component is all slashes
    (name = [] → d = [] ∧ slashes = []) ∧
    -- the whole of the component and all of the slashes are gone
    (slashes = [] → d = []) ∧ d.getLast? ≠ some '/'

theorem IsDirname.eq_dirname {p d : Path} (h : IsDirname p d) : d = dirname p := by
  obtain ⟨slashes, name, trailing, rfl, hslashes, hname, htrailing, hempty, hall,
    hlast⟩ := h
  have hd : d.reverse.dropWhile (· == '/') = d.reverse := by
    rw [List.getLast?_eq_head?_reverse] at hlast
    cases hrev : d.reverse with
    | nil => rfl
    | cons c cs =>
        refine List.dropWhile_cons_of_neg ?_
        rintro hc
        rw [hrev, eq_of_beq hc] at hlast
        exact hlast rfl
  rw [dirname]
  simp only [List.reverse_append]
  rw [List.dropWhile_append_of_pos (by simpa using htrailing)]
  cases hname' : name.reverse with
  | nil =>
      obtain ⟨rfl, rfl⟩ := hempty (List.reverse_eq_nil_iff.mp hname')
      rfl
  | cons c cs =>
      have hc : c ∈ name := List.mem_reverse.mp (by rw [hname']; exact .head _)
      have hslash : c ≠ '/' := fun heq => hname (heq ▸ hc)
      rw [List.cons_append, List.dropWhile_cons_of_neg (by simpa using hslash),
        ← List.cons_append, ← hname', List.dropWhile_append_of_pos]
      · cases hslashes' : slashes.reverse with
        | nil =>
            obtain rfl := hall (List.reverse_eq_nil_iff.mp hslashes')
            rfl
        | cons c' cs' =>
            have hc' : c' = '/' :=
              hslashes c' (List.mem_reverse.mp (by rw [hslashes']; exact .head _))
            rw [List.cons_append, List.dropWhile_cons_of_neg (by simp [hc']),
              ← List.cons_append, ← hslashes',
              List.dropWhile_append_of_pos (by simpa using hslashes), hd,
              List.reverse_reverse]
      · intro x hx
        simp only [bne_iff_ne]
        rintro rfl
        exact hname (List.mem_reverse.mp hx)

theorem eq_nil_of_takeWhile_eq_nil {test : Char → Bool} {i : List Char}
    (hhead : ∀ c ∈ i.head?, test c = true) (h : i.takeWhile test = []) :
    i = [] := by
  cases i with
  | nil => rfl
  | cons c i =>
      rw [List.takeWhile_cons_of_pos (hhead c rfl)] at h
      cases h

theorem isDirname_dirname (p : Path) : IsDirname p (dirname p) := by
  have hp : p.reverse = p.reverse.takeWhile (· == '/') ++
      p.reverse.dropWhile (· == '/') := List.takeWhile_append_dropWhile.symm
  have hi := List.head?_dropWhile_not (· == '/') p.reverse
  rw [dirname]
  generalize p.reverse.dropWhile (· == '/') = i at hp hi
  have hi' : i = i.takeWhile (· != '/') ++ i.dropWhile (· != '/') :=
    List.takeWhile_append_dropWhile.symm
  have hj := List.head?_dropWhile_not (· != '/') i
  generalize i.dropWhile (· != '/') = j at hi' hj
  have hj' : j = j.takeWhile (· == '/') ++ j.dropWhile (· == '/') :=
    List.takeWhile_append_dropWhile.symm
  have hd := List.head?_dropWhile_not (· == '/') j
  have hempty : j.takeWhile (· == '/') = [] → j = [] := by
    refine eq_nil_of_takeWhile_eq_nil fun c hc => ?_
    rw [Option.mem_def.mp hc] at hj
    simpa using hj
  have hnone : i.takeWhile (· != '/') = [] → i = [] := by
    refine eq_nil_of_takeWhile_eq_nil fun c hc => ?_
    rw [Option.mem_def.mp hc] at hi
    simpa using hi
  have hslash : ∀ l : List Char, ∀ c ∈ (l.takeWhile (· == '/')).reverse, c = '/' := by
    intro l c hc
    exact eq_of_beq (List.mem_takeWhile_imp (p := (· == '/')) (List.mem_reverse.mp hc))
  refine ⟨(j.takeWhile (· == '/')).reverse, (i.takeWhile (· != '/')).reverse,
    (p.reverse.takeWhile (· == '/')).reverse, ?_, ?_, ?_, ?_, ?_, ?_, ?_⟩
  · rw [← List.reverse_append, ← hj', ← List.reverse_append, ← hi',
      ← List.reverse_append, ← hp, List.reverse_reverse]
  · exact hslash j
  · intro hc
    have hne := List.mem_takeWhile_imp (p := (· != '/')) (List.mem_reverse.mp hc)
    exact absurd rfl (bne_iff_ne.mp hne)
  · exact hslash p.reverse
  · intro hname
    obtain rfl := hnone (List.reverse_eq_nil_iff.mp hname)
    obtain rfl : j = [] := (List.append_eq_nil_iff.mp hi'.symm).2
    exact ⟨rfl, rfl⟩
  · intro hslashes
    obtain rfl := hempty (List.reverse_eq_nil_iff.mp hslashes)
    rfl
  · rw [List.getLast?_reverse]
    intro hhead
    rw [hhead] at hd
    simp at hd

/-- Something is left exactly when a slash stands between two characters that are
none. -/
theorem dirname_ne_nil_iff (p : Path) :
    dirname p ≠ [] ↔
      ∃ a b, p = a ++ '/' :: b ∧ (∃ c ∈ a, c ≠ '/') ∧ ∃ c ∈ b, c ≠ '/' := by
  constructor
  · intro hne
    obtain ⟨slashes, name, trailing, hp, hslashes, hname, _, hempty, hall, hlast⟩ :=
      isDirname_dirname p
    have hdir : ∃ c ∈ dirname p, c ≠ '/' := by
      refine ⟨(dirname p).getLast hne, List.getLast_mem hne, ?_⟩
      intro heq
      exact hlast (by rw [List.getLast?_eq_some_getLast hne, heq])
    cases slashes with
    | nil => exact absurd (hall rfl) hne
    | cons c slashes =>
        obtain rfl := hslashes c (.head _)
        cases name with
        | nil => exact absurd (hempty rfl).1 hne
        | cons c name =>
            refine ⟨dirname p, slashes ++ c :: name ++ trailing, ?_, hdir, c, ?_, ?_⟩
            · simpa using hp
            · simp
            · rintro rfl
              exact hname (.head _)
  · rintro ⟨a, b, rfl, ⟨c, hc, hcne⟩, ⟨c', hc', hcne'⟩⟩
    have hb : b.reverse.dropWhile (· == '/') ≠ [] := by
      intro hnil
      have hall := List.dropWhile_eq_nil_iff.mp hnil c' (List.mem_reverse.mpr hc')
      exact hcne' (eq_of_beq hall)
    rw [dirname, Ne, List.reverse_eq_nil_iff, List.dropWhile_eq_nil_iff]
    -- the first two loops do not get beyond the slash
    intro hall
    refine hcne (eq_of_beq (hall c ?_))
    rw [List.reverse_append, List.reverse_cons, List.append_assoc, List.singleton_append,
      List.dropWhile_append, if_neg (by simpa using hb), List.dropWhile_append]
    split_ifs
    · rw [List.dropWhile_cons_of_neg (by simp)]
      simp [hc]
    · simp [hc]

/-- `dirname` takes off what it should, which makes every path shorter but the empty
one, and it reads within the string exactly if a slash stands between two characters
that are none. -/
theorem dirname_inside_iff (p : Path) :
    (∀ before d, IsDirname p d ↔ d = dirnameIter before p) ∧
    (∀ before, p ≠ [] → (dirnameIter before p).length < p.length) ∧
    (∀ before d, Checked.dirname p = some d → d = dirnameIter before p) ∧
    ((Checked.dirname p).isSome ↔
      ∃ a b, p = a ++ '/' :: b ∧ (∃ c ∈ a, c ≠ '/') ∧ ∃ c ∈ b, c ≠ '/') := by
  simp only [dirnameIter_eq]
  refine ⟨?_, ?_, ?_, ?_⟩
  · intro _ d
    constructor
    · exact IsDirname.eq_dirname
    · rintro rfl
      exact isDirname_dirname p
  · intro _ hp
    exact length_dirname_lt hp
  · intro _ d hd
    rw [Checked.dirname_eq] at hd
    split_ifs at hd
    exact (Option.some.inj hd).symm
  · rw [← dirname_ne_nil_iff, Checked.dirname_eq]
    split_ifs with hnil
    · simp [hnil]
    · simp [hnil]

/-- A path of one component. -/
theorem dirname_reads_rend :
    Checked.dirname "/a".toList = none ∧ dirname "/a".toList = [] := by
  decide

end Mergerfs
