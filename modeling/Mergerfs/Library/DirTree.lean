import Mathlib.Data.List.Basic
import Mathlib.Data.List.Infix
import Mathlib.Logic.Function.Basic

/-!
# A tree of directories

A location is the list of the names that lead to it from the root, and a tree says what
is at each location. What is not at the root is in a directory, and a tree carries that
fact; the root itself may be missing. There are no links of either kind.

A path is a list of components. `walk` follows it from a location, through directories
only, while `locate` is where it leads to whether something is there or not. The root
is its own parent.

What lies below a location is a tree again, and a path that never goes above its start
is followed in it as it is in the whole.
-/

namespace DirTree

/-- What is at a location: it is a directory if it has no content of its own. -/
structure Node (κ μ : Type*) where
  file : Option κ
  data : μ

namespace Node

variable {κ μ : Type*}

def isDir (n : Node κ μ) : Bool := n.file.isNone

def map (f : μ → μ) (n : Node κ μ) : Node κ μ := { n with data := f n.data }

@[simp] theorem isDir_map (f : μ → μ) (n : Node κ μ) : (n.map f).isDir = n.isDir := rfl

end Node

structure Tree (ν κ μ : Type*) where
  entry : List ν → Option (Node κ μ)
  parent : ∀ {l c}, (entry (l ++ [c])).isSome → ∃ n, entry l = some n ∧ n.isDir = true

theorem Tree.ext {ν κ μ : Type*} {t t' : Tree ν κ μ} (h : ∀ l, t.entry l = t'.entry l) :
    t = t' := by
  cases t
  cases t'
  obtain rfl := funext h
  rfl

inductive Component (ν : Type*)
  | self
  | parent
  | down (name : ν)

section Paths

variable {ν κ μ : Type*}

def Component.apply (l : List ν) : Component ν → List ν
  | .self => l
  | .parent => l.dropLast
  | .down name => l ++ [name]

def locate (cs : List (Component ν)) : List ν := cs.foldl Component.apply []

inductive Stop
  | missing
  | notDir
  | taken

def Tree.walk (t : Tree ν κ μ) : List ν → List (Component ν) → Except Stop (List ν)
  | l, [] => .ok l
  | l, c :: cs =>
      match t.entry l with
      | none => .error .missing
      | some n => if n.isDir then t.walk (c.apply l) cs else .error .notDir

variable {t : Tree ν κ μ}

theorem Tree.walk_eq_ok {l l' : List ν} {cs : List (Component ν)}
    (h : t.walk l cs = .ok l') : l' = cs.foldl Component.apply l := by
  induction cs generalizing l with
  | nil =>
      cases h
      rfl
  | cons c cs ih =>
      rw [walk] at h
      split at h
      · cases h
      · split_ifs at h
        exact ih h

theorem Tree.isSome_of_walk {l l' : List ν} {cs cs' : List (Component ν)}
    (h : t.walk l cs = .ok l') (hpre : cs' <+: cs) (hne : cs' ≠ cs) :
    (t.entry (cs'.foldl Component.apply l)).isSome := by
  induction cs generalizing l cs' with
  | nil => exact absurd (List.prefix_nil.mp hpre) hne
  | cons c cs ih =>
      rw [walk] at h
      split at h
      · cases h
      · rename_i n hn
        split_ifs at h
        cases cs' with
        | nil =>
            rw [List.foldl_nil, hn]
            rfl
        | cons c' cs' =>
            obtain ⟨rfl, htail⟩ := List.cons_prefix_cons.mp hpre
            rw [List.foldl_cons]
            exact ih h htail fun heq => hne (by rw [heq])

theorem Tree.walk_ne_taken (t : Tree ν κ μ) (l : List ν) (cs : List (Component ν)) :
    t.walk l cs ≠ .error .taken := by
  induction cs generalizing l with
  | nil => nofun
  | cons c cs ih =>
      rw [walk]
      split
      · nofun
      · split_ifs
        · exact ih _
        · nofun

theorem Tree.isSome_of_walk_of_isSome {l : List ν} {cs cs' : List (Component ν)}
    (h : t.walk [] cs = .ok l) (hl : (t.entry l).isSome) (hpre : cs' <+: cs) :
    (t.entry (locate cs')).isSome := by
  by_cases heq : cs' = cs
  · rwa [heq, locate, ← walk_eq_ok h]
  · exact isSome_of_walk h hpre heq

theorem Tree.walk_append {l l' : List ν} {cs cs' : List (Component ν)}
    (h : t.walk l cs = .ok l') : t.walk l (cs ++ cs') = t.walk l' cs' := by
  induction cs generalizing l with
  | nil =>
      cases h
      rfl
  | cons c cs ih =>
      rw [walk] at h
      rw [List.cons_append, walk]
      split at h
      · cases h
      · split_ifs at h with hdir
        rw [if_pos hdir]
        exact ih h

/-- What can be followed in a tree can be followed in one with the same directories. -/
theorem Tree.walk_eq_ok_of_dirs {t' : Tree ν κ μ}
    (hdirs : ∀ l n, t.entry l = some n → n.isDir = true →
      ∃ n', t'.entry l = some n' ∧ n'.isDir = true)
    {l l' : List ν} {cs : List (Component ν)} (h : t.walk l cs = .ok l') :
    t'.walk l cs = .ok l' := by
  induction cs generalizing l with
  | nil => exact h
  | cons c cs ih =>
      rw [walk] at h
      split at h
      · cases h
      · rename_i n hn
        split_ifs at h with hdir
        obtain ⟨n', hn', hdir'⟩ := hdirs l n hn hdir
        rw [walk, hn']
        dsimp only
        rw [if_pos hdir']
        exact ih h

theorem Tree.ne_of_entry {l l' : List ν} {n : Node κ μ} (hl : t.entry l = none)
    (hn : t.entry l' = some n) : l' ≠ l := by
  rintro rfl
  rw [hl] at hn
  cases hn

end Paths

/-! ## Being in a directory -/

namespace Tree

variable {ν κ μ : Type*}

def parented (t : Tree ν κ μ) (l : List ν) : Bool :=
  l.isEmpty || (t.entry l.dropLast).any Node.isDir

theorem parented_iff {t : Tree ν κ μ} {l : List ν} :
    t.parented l = true ↔
      l = [] ∨ ∃ n, t.entry l.dropLast = some n ∧ n.isDir = true := by
  rw [parented, Bool.or_eq_true, List.isEmpty_iff, Option.any_eq_true]

theorem parented_of_isSome {t : Tree ν κ μ} {l : List ν} (h : (t.entry l).isSome) :
    t.parented l = true := by
  rw [parented_iff]
  rcases List.eq_nil_or_concat l with rfl | ⟨l, c, rfl⟩
  · exact .inl rfl
  · rw [List.concat_eq_append] at h ⊢
    rw [List.dropLast_concat]
    exact .inr (t.parent h)

theorem parented_of_walk {t : Tree ν κ μ} {l l' : List ν} {cs : List (Component ν)}
    (h : t.walk l cs = .ok l') (hl : t.parented l = true) : t.parented l' = true := by
  induction cs generalizing l with
  | nil =>
      cases h
      exact hl
  | cons c cs ih =>
      rw [walk] at h
      split at h
      · cases h
      · rename_i n hn
        split_ifs at h with hdir
        refine ih h ?_
        cases c with
        | self => exact hl
        | parent =>
            rcases parented_iff.mp hl with rfl | ⟨m, hm, _⟩
            · exact hl
            · exact parented_of_isSome (by rw [Component.apply, hm]; rfl)
        | down name =>
            refine parented_iff.mpr (.inr ⟨n, ?_, hdir⟩)
            rwa [Component.apply, List.dropLast_concat]

/-! ## What lies below a location -/

/-- What lies below `base`, as a tree of its own. -/
def rebase (t : Tree ν κ μ) (base : List ν) : Tree ν κ μ where
  entry l := t.entry (base ++ l)
  parent := by
    intro l c hsome
    rw [← List.append_assoc] at hsome
    exact t.parent hsome

@[simp] theorem entry_rebase (t : Tree ν κ μ) (base l : List ν) :
    (t.rebase base).entry l = t.entry (base ++ l) := rfl

end Tree

/-- A path that is `depth` below some place never goes above it. -/
def descends {ν : Type*} : ℕ → List (Component ν) → Bool
  | _, [] => true
  | depth, .self :: cs => descends depth cs
  | depth, .parent :: cs => decide (0 < depth) && descends (depth - 1) cs
  | depth, .down _ :: cs => descends (depth + 1) cs

theorem descends_append {ν : Type*} {depth : ℕ} {cs cs' : List (Component ν)}
    (h : descends depth (cs ++ cs') = true) : descends depth cs = true := by
  induction cs generalizing depth with
  | nil => rfl
  | cons c cs ih =>
      cases c with
      | self =>
          rw [List.cons_append, descends] at h
          exact ih h
      | parent =>
          obtain ⟨hpos, hrest⟩ := Bool.and_eq_true_iff.mp h
          exact Bool.and_eq_true_iff.mpr ⟨hpos, ih hrest⟩
      | down name =>
          rw [List.cons_append, descends] at h
          exact ih h

theorem descends_of_notMem {ν : Type*} {cs : List (Component ν)}
    (h : Component.parent ∉ cs) (depth : ℕ) : descends depth cs = true := by
  induction cs generalizing depth with
  | nil => rfl
  | cons c cs ih =>
      have hcs := fun hmem => h (List.mem_cons_of_mem c hmem)
      cases c with
      | self => exact ih hcs depth
      | parent => exact absurd List.mem_cons_self h
      | down name => exact ih hcs (depth + 1)

theorem Component.apply_append {ν : Type*} (base : List ν) {l : List ν}
    {c : Component ν} {cs : List (Component ν)} (h : descends l.length (c :: cs) = true) :
    c.apply (base ++ l) = base ++ c.apply l ∧
      descends (c.apply l).length cs = true := by
  cases c with
  | self => exact ⟨rfl, h⟩
  | parent =>
      obtain ⟨hpos, hrest⟩ := Bool.and_eq_true_iff.mp h
      have hne : l ≠ [] := List.length_pos_iff.mp (of_decide_eq_true hpos)
      exact ⟨List.dropLast_append_of_ne_nil hne, by rwa [apply, List.length_dropLast]⟩
  | down name =>
      refine ⟨List.append_assoc .., ?_⟩
      rwa [apply, List.length_append, List.length_singleton]

theorem foldl_apply_append {ν : Type*} (base : List ν) {l : List ν}
    {cs : List (Component ν)} (h : descends l.length cs = true) :
    cs.foldl Component.apply (base ++ l) = base ++ cs.foldl Component.apply l := by
  induction cs generalizing l with
  | nil => rfl
  | cons c cs ih =>
      obtain ⟨happly, hrest⟩ := Component.apply_append base h
      rw [List.foldl_cons, List.foldl_cons, happly, ih hrest]

namespace Tree

variable {ν κ μ : Type*}

/-- Following a path below `base` is following it in what lies there. -/
theorem walk_rebase (t : Tree ν κ μ) (base : List ν) {l : List ν}
    {cs : List (Component ν)} (h : descends l.length cs = true) :
    t.walk (base ++ l) cs = ((t.rebase base).walk l cs).map (base ++ ·) := by
  induction cs generalizing l with
  | nil => rfl
  | cons c cs ih =>
      obtain ⟨happly, hrest⟩ := Component.apply_append base h
      rw [walk, walk, entry_rebase]
      cases t.entry (base ++ l) with
      | none => rfl
      | some n =>
          dsimp only
          split_ifs
          · rw [happly, ih hrest]
          · rfl

/-! ## Changing a tree -/

variable [DecidableEq ν]

def addDir (t : Tree ν κ μ) (l : List ν) (data : μ) (h : t.parented l = true) :
    Tree ν κ μ where
  entry := Function.update t.entry l (some ⟨none, data⟩)
  parent := by
    intro l₁ c hsome
    by_cases hl₁ : l₁ = l
    · subst hl₁
      exact ⟨_, Function.update_self .., rfl⟩
    · rw [Function.update_of_ne hl₁]
      by_cases hl : l₁ ++ [c] = l
      · subst hl
        rcases parented_iff.mp h with hnil | hdir
        · exact absurd hnil (by simp)
        · rwa [List.dropLast_concat] at hdir
      · rw [Function.update_of_ne hl] at hsome
        exact t.parent hsome

theorem entry_addDir (t : Tree ν κ μ) (l : List ν) (data : μ)
    (h : t.parented l = true) :
    (t.addDir l data h).entry = Function.update t.entry l (some ⟨none, data⟩) := rfl

def modify (t : Tree ν κ μ) (l : List ν) (f : μ → μ) : Tree ν κ μ where
  entry := Function.update t.entry l ((t.entry l).map (Node.map f))
  parent := by
    intro l₁ c hsome
    have hold : (t.entry (l₁ ++ [c])).isSome := by
      by_cases hl : l₁ ++ [c] = l
      · rwa [hl, Function.update_self, Option.isSome_map, ← hl] at hsome
      · rwa [Function.update_of_ne hl] at hsome
    obtain ⟨n, hn, hdir⟩ := t.parent hold
    by_cases hl₁ : l₁ = l
    · subst hl₁
      exact ⟨n.map f, by rw [Function.update_self, hn, Option.map_some], hdir⟩
    · exact ⟨n, by rw [Function.update_of_ne hl₁, hn], hdir⟩

theorem entry_modify (t : Tree ν κ μ) (l : List ν) (f : μ → μ) :
    (t.modify l f).entry =
      Function.update t.entry l ((t.entry l).map (Node.map f)) := rfl

/-- Makes a directory with the data `data`, which changes that of the directory it is
made in by `touch`. -/
def mkdir (data : μ) (touch : μ → μ) (t : Tree ν κ μ) (cs : List (Component ν)) :
    Except Stop (List ν × Tree ν κ μ) :=
  match t.walk [] cs with
  | .error stop => .error stop
  | .ok l =>
      if (t.entry l).isSome then .error .taken
      else if h : t.parented l = true then
        .ok (l, (t.addDir l data h).modify l.dropLast touch)
      else .error .missing

structure Grown (t t' : Tree ν κ μ) (l : List ν) (data : μ) (touch : μ → μ) : Prop where
  free : t.entry l = none
  parented : t.parented l = true
  entry : t'.entry l = some ⟨none, data⟩
  kept : ∀ l' n, t.entry l' = some n →
    t'.entry l' = some (if l' = l.dropLast then n.map touch else n)
  none : ∀ l' ≠ l, t.entry l' = none → t'.entry l' = none

section Mkdir

variable {data : μ} {touch : μ → μ} {t t' : Tree ν κ μ} {cs : List (Component ν)}
  {l : List ν}

theorem mkdir_eq_taken (h : t.mkdir data touch cs = .error .taken) {cs' : List _}
    (hpre : cs' <+: cs) : (t.entry (locate cs')).isSome := by
  unfold mkdir at h
  split at h
  · rename_i stop hstop
    cases h
    exact absurd hstop (t.walk_ne_taken _ _)
  · rename_i l hl
    split_ifs at h with hsome
    · exact isSome_of_walk_of_isSome hl hsome hpre
    · cases h

theorem mkdir_eq_ok (hdata : touch data = data)
    (h : t.mkdir data touch cs = .ok (l, t')) :
    l = locate cs ∧ Grown t t' l data touch ∧
      ∀ cs', cs' <+: cs → (t'.entry (locate cs')).isSome := by
  unfold mkdir at h
  split at h
  · cases h
  · rename_i l₁ hwalk
    split_ifs at h with hsome hpar
    cases h
    have hfree : t.entry l = none := Option.not_isSome_iff_eq_none.mp hsome
    have hgrown : Grown t ((t.addDir l data hpar).modify l.dropLast touch) l data
        touch := by
      refine ⟨hfree, hpar, ?_, ?_, ?_⟩
      · -- at the root, which is its own parent, the change is that of `touch`
        rw [entry_modify]
        by_cases hl : l = l.dropLast
        · rw [← hl, Function.update_self, entry_addDir, Function.update_self,
            Option.map_some, Node.map, hdata]
        · rw [Function.update_of_ne hl, entry_addDir, Function.update_self]
      · intro l' n hn
        have hne : l' ≠ l := ne_of_entry hfree hn
        rw [entry_modify]
        split_ifs with hl'
        · subst hl'
          rw [Function.update_self, entry_addDir, Function.update_of_ne hne, hn,
            Option.map_some]
        · rw [Function.update_of_ne hl', entry_addDir, Function.update_of_ne hne, hn]
      · intro l' hne hn
        rw [entry_modify]
        by_cases hl' : l' = l.dropLast
        · subst hl'
          rw [Function.update_self, entry_addDir, Function.update_of_ne hne, hn,
            Option.map_none]
        · rw [Function.update_of_ne hl', entry_addDir, Function.update_of_ne hne, hn]
    refine ⟨walk_eq_ok hwalk, hgrown, ?_⟩
    intro cs' hpre
    by_cases heq : cs' = cs
    · rw [heq, locate, ← walk_eq_ok hwalk, hgrown.entry]
      rfl
    · obtain ⟨n, hn⟩ := Option.isSome_iff_exists.mp (isSome_of_walk hwalk hpre heq)
      rw [locate, hgrown.kept _ n hn]
      rfl

end Mkdir

theorem Grown.modify {t t' : Tree ν κ μ} {l : List ν} {data : μ} {touch : μ → μ}
    (h : Grown t t' l data touch) (data' : μ) :
    Grown t (t'.modify l fun _ => data') l data' touch := by
  refine ⟨h.free, h.parented, ?_, ?_, ?_⟩
  · rw [entry_modify, Function.update_self, h.entry, Option.map_some]
    rfl
  · intro l' n hn
    have hne : l' ≠ l := ne_of_entry h.free hn
    rw [entry_modify, Function.update_of_ne hne, h.kept l' n hn]
  · intro l' hne hn
    rw [entry_modify, Function.update_of_ne hne, h.none l' hne hn]

/-- What a tree becomes when a directory is made is determined. -/
theorem Grown.unique {t t₁ t₂ : Tree ν κ μ} {l : List ν} {data : μ} {touch : μ → μ}
    (h₁ : Grown t t₁ l data touch) (h₂ : Grown t t₂ l data touch) : t₁ = t₂ := by
  refine Tree.ext fun l' => ?_
  by_cases hl : l' = l
  · rw [hl, h₁.entry, h₂.entry]
  · cases hn : t.entry l' with
    | none => rw [h₁.none l' hl hn, h₂.none l' hl hn]
    | some n => rw [h₁.kept l' n hn, h₂.kept l' n hn]

theorem Grown.rebase {t t' : Tree ν κ μ} {base l : List ν} {data : μ} {touch : μ → μ}
    (h : Grown t t' (base ++ l) data touch) :
    Grown (t.rebase base) (t'.rebase base) l data touch where
  free := h.free
  parented := by
    rcases List.eq_nil_or_concat l with rfl | ⟨l, c, rfl⟩
    · rfl
    · rw [List.concat_eq_append] at h ⊢
      rcases parented_iff.mp h.parented with hnil | hdir
      · exact absurd hnil (by simp)
      · rw [← List.append_assoc, List.dropLast_concat] at hdir
        rw [parented_iff, List.dropLast_concat]
        exact .inr hdir
  entry := h.entry
  kept l' n hn := by
    rw [entry_rebase, h.kept _ n hn]
    by_cases hl : l = []
    · -- nothing is at the root, where it is made
      have hl' : l' ≠ [] := by
        rintro rfl
        exact ne_of_entry h.free hn (by rw [hl])
      have hout : base ++ l' ≠ (base ++ l).dropLast := by
        intro heq
        have hlen := congrArg List.length heq
        rw [hl, List.append_nil, List.length_append, List.length_dropLast] at hlen
        have hpos := List.length_pos_iff.mpr hl'
        omega
      rw [if_neg hout, if_neg (by rw [hl]; exact hl')]
    · rw [List.dropLast_append_of_ne_nil hl]
      simp only [List.append_cancel_left_eq]
  none l' hne hn := h.none _ (fun heq => hne (List.append_cancel_left heq)) hn

theorem Grown.rebase_eq {t t' : Tree ν κ μ} {base l : List ν} {data : μ} {touch : μ → μ}
    (h : Grown t t' l data touch) (hl : ¬ base <+: l) :
    t'.rebase base = t.rebase base := by
  refine Tree.ext fun l' => ?_
  rw [entry_rebase, entry_rebase]
  cases hn : t.entry (base ++ l') with
  | none => exact h.none _ (fun heq => hl ⟨l', heq⟩) hn
  | some n =>
      rw [h.kept _ n hn, if_neg]
      intro heq
      exact hl ((List.prefix_append base l').trans (heq ▸ List.dropLast_prefix l))

/-- Making a directory by a path that leads through `base`. -/
theorem mkdir_rebase (data : μ) (touch : μ → μ) {t : Tree ν κ μ} {base : List ν}
    {cs cs' : List (Component ν)} (hbase : t.walk [] cs = .ok base)
    (hcs' : descends 0 cs' = true) :
    (∀ stop, (t.rebase base).mkdir data touch cs' = .error stop →
      t.mkdir data touch (cs ++ cs') = .error stop) ∧
    ∀ l t₁, (t.rebase base).mkdir data touch cs' = .ok (l, t₁) →
      ∃ t', t.mkdir data touch (cs ++ cs') = .ok (base ++ l, t') := by
  have hwalk : t.walk [] (cs ++ cs') = ((t.rebase base).walk [] cs').map (base ++ ·) := by
    have hrebase := t.walk_rebase base (l := []) hcs'
    rw [List.append_nil] at hrebase
    rw [walk_append hbase, hrebase]
  unfold mkdir
  rw [hwalk]
  cases hw : (t.rebase base).walk [] cs' with
  | error stop =>
      refine ⟨fun _ h => h, ?_⟩
      intro l t₁ h
      cases h
  | ok l =>
      have hpar : (t.rebase base).parented l = true ∧ t.parented (base ++ l) = true := by
        constructor
        · exact parented_of_walk hw rfl
        · have hwhole : t.walk [] (cs ++ cs') = .ok (base ++ l) := by
            rw [hwalk, hw]
            rfl
          exact parented_of_walk hwhole rfl
      dsimp only [Except.map]
      rw [entry_rebase, dif_pos hpar.1, dif_pos hpar.2]
      by_cases hsome : (t.entry (base ++ l)).isSome = true
      · rw [if_pos hsome, if_pos hsome]
        refine ⟨fun _ h => h, ?_⟩
        intro l t₁ h
        cases h
      · rw [if_neg hsome, if_neg hsome]
        constructor
        · intro stop h
          cases h
        intro l' t₁ h
        obtain ⟨rfl, _⟩ := Prod.mk.inj (Except.ok.inj h)
        exact ⟨_, rfl⟩

end Tree

end DirTree
