import Mergerfs.Libfuse.Node
import Mergerfs.Library.Forest

/-!
# What the nodes of libfuse keep

`Consistent` says that the two tables hold the live nodes and the named ones, that
parents are live and form a tree, and that the count of references of a node is exact:
one if the kernel knows it, one for every named node below it, and those that are
`held` because a function is about to drop them. While a name is taken away, its node
is `loose`: out of the table, with its name still in place.

Dropping a reference frees nodes upwards, and leaves everything else as it was:
`unrefNode_spec` and `unhashName_spec`.
-/

namespace Mergerfs.Libfuse

open LinearHash (Table)
open LinearHash.Table (Holds)

variable {f f' : Fuse} {ids names : List Ptr} {loose : Ptr → Prop} {held : Ptr → ℕ}
  {pending : ℕ} {p q x : Ptr} {n m : Node}

/-! ## Nodes that are set -/

namespace Fuse

@[simp] theorem heap_setNode_self : (f.setNode p n).heap p = some n :=
  Function.update_self ..

theorem heap_setNode_of_ne (h : x ≠ p) : (f.setNode p n).heap x = f.heap x :=
  Function.update_of_ne h ..

@[simp] theorem heap_freeNode_self : (f.freeNode p).heap p = none :=
  Function.update_self ..

theorem heap_freeNode_of_ne (h : x ≠ p) : (f.freeNode p).heap x = f.heap x :=
  Function.update_of_ne h ..

@[simp] theorem setNode_nameTable : (f.setNode p n).nameTable = f.nameTable := rfl

@[simp] theorem setNode_idTable : (f.setNode p n).idTable = f.idTable := rfl

@[simp] theorem draw_heap : f.draw.heap = f.heap := rfl

theorem parentOf_eq (h : f.heap p = some n) : f.parentOf p = n.parent := by
  rw [parentOf, h, Option.bind_some]

theorem nodeidOf_eq (h : f.heap p = some n) : f.nodeidOf p = some n.nodeid := by
  rw [nodeidOf, h, Option.map_some]

theorem nameOf_eq (h : f.heap p = some n) : f.nameOf p = n.name := by
  rw [nameOf, h, Option.bind_some]

theorem parentOf_congr (h : f'.heap p = f.heap p) : f'.parentOf p = f.parentOf p := by
  rw [parentOf, parentOf, h]

theorem nodeidOf_congr (h : f'.heap p = f.heap p) : f'.nodeidOf p = f.nodeidOf p := by
  rw [nodeidOf, nodeidOf, h]

theorem nameOf_congr (h : f'.heap p = f.heap p) : f'.nameOf p = f.nameOf p := by
  rw [nameOf, nameOf, h]

theorem exists_of_parentOf (h : f.parentOf p = some q) :
    ∃ n, f.heap p = some n ∧ n.parent = some q :=
  Option.bind_eq_some_iff.mp h

theorem exists_of_nodeidOf {i : Ino} (h : f.nodeidOf p = some i) :
    ∃ n, f.heap p = some n ∧ n.nodeid = i :=
  Option.map_eq_some_iff.mp h

/-- The same ids, parents and names: what the tables and the tree depend on. -/
structure SameNames (f f' : Fuse) : Prop where
  nodeid : f'.nodeidOf = f.nodeidOf
  parent : f'.parentOf = f.parentOf
  name : f'.nameOf = f.nameOf

theorem SameNames.idKeyOf (h : SameNames f f') : f'.idKeyOf = f.idKeyOf := by
  unfold Fuse.idKeyOf
  rw [h.nodeid]

theorem SameNames.nameKeyOf (h : SameNames f f') : f'.nameKeyOf = f.nameKeyOf := by
  unfold Fuse.nameKeyOf
  rw [h.nodeid, h.parent, h.name]

theorem sameNames_setNode (h : f.heap p = some n) (hid : m.nodeid = n.nodeid)
    (hparent : m.parent = n.parent) (hname : m.name = n.name) :
    SameNames f (f.setNode p m) := by
  constructor <;> funext x <;> by_cases hx : x = p
  · rw [hx, nodeidOf_eq heap_setNode_self, nodeidOf_eq h, hid]
  · exact nodeidOf_congr (heap_setNode_of_ne hx)
  · rw [hx, parentOf_eq heap_setNode_self, parentOf_eq h, hparent]
  · exact parentOf_congr (heap_setNode_of_ne hx)
  · rw [hx, nameOf_eq heap_setNode_self, nameOf_eq h, hname]
  · exact nameOf_congr (heap_setNode_of_ne hx)

end Fuse

/-! ## The tree of the named nodes -/

abbrev Up (f : Fuse) (names : List Ptr) : Ptr → Ptr → Prop :=
  Forest.Up f.parentOf names

abbrev Above (f : Fuse) (names : List Ptr) : Ptr → Ptr → Prop :=
  Forest.Above f.parentOf names

def Pinned (f : Fuse) (names : List Ptr) (x : Ptr) : Prop :=
  ∃ y n, Above f names y x ∧ f.heap y = some n ∧ 0 < n.nlookup ∧ n.treelock ≠ 0

structure Shape (f : Fuse) (ids names : List Ptr) (loose : Ptr → Prop) : Prop where
  idTable : Holds nodeTableMinSize f.idKeyOf f.idTable ids
  nameTable : Holds nodeTableMinSize f.nameKeyOf f.nameTable names
  nodeid_inj : ∀ p q i, f.nodeidOf p = some i → f.nodeidOf q = some i → p = q
  linked : ∀ p ∈ names, ∃ q s i,
    f.parentOf p = some q ∧ f.nameOf p = some s ∧ f.nodeidOf q = some i
  name_inj : ∀ p ∈ names, ∀ q ∈ names,
    f.parentOf p = f.parentOf q → f.nameOf p = f.nameOf q → p = q
  mem_names : ∀ p q, f.parentOf p = some q → p ∈ names ∨ loose p
  unnamed : ∀ p s, f.nameOf p = some s → f.parentOf p = none →
    f.nodeidOf p = some fuseRootId
  acyclic : Forest.Acyclic f.parentOf names

/-- The counts of references, with those that are held by a function. -/
def Counted (f : Fuse) (names : List Ptr) (held : Ptr → ℕ) : Prop :=
  ∀ p n, f.heap p = some n →
    n.refctr =
      (if 0 < n.nlookup then 1 else 0) + Forest.children f.parentOf names p + held p

/-- `pending` counts the names out of the table that are not yet subtracted. -/
structure Consistent (f : Fuse) (ids names : List Ptr) (loose : Ptr → Prop)
    (held : Ptr → ℕ) (pending : ℕ) : Prop extends Shape f ids names loose where
  mem_ids : ∀ p, p ∈ ids ↔ (f.heap p).isSome
  counted : Counted f names held
  id_use : f.idTable.use = ids.length
  name_use : f.nameTable.use = names.length + pending
  root : ∃ r n, f.heap r = some n ∧ n.nodeid = fuseRootId ∧ n.parent = none ∧
    0 < n.nlookup

def bump (held : Ptr → ℕ) (q : Ptr) : Ptr → ℕ := fun x => held x + if x = q then 1 else 0

namespace Shape

variable (hs : Shape f ids names loose)

include hs

theorem live_of_mem (hp : p ∈ names) : ∃ n q, f.heap p = some n ∧ n.parent = some q := by
  obtain ⟨q, s, i, hq, -⟩ := hs.linked p hp
  obtain ⟨n, hn, hpar⟩ := Fuse.exists_of_parentOf hq
  exact ⟨n, q, hn, hpar⟩

theorem congr (hsame : Fuse.SameNames f f') (hid : f'.idTable = f.idTable)
    (hname : f'.nameTable = f.nameTable) : Shape f' ids names loose where
  idTable := by
    rw [hsame.idKeyOf, hid]
    exact hs.idTable
  nameTable := by
    rw [hsame.nameKeyOf, hname]
    exact hs.nameTable
  nodeid_inj := by
    rw [hsame.nodeid]
    exact hs.nodeid_inj
  linked := by
    rw [hsame.nodeid, hsame.parent, hsame.name]
    exact hs.linked
  name_inj := by
    rw [hsame.parent, hsame.name]
    exact hs.name_inj
  mem_names := by
    rw [hsame.parent]
    exact hs.mem_names
  unnamed := by
    rw [hsame.nodeid, hsame.parent, hsame.name]
    exact hs.unnamed
  acyclic := by
    rw [hsame.parent]
    exact hs.acyclic

theorem setNode (h : f.heap p = some n) (hid : m.nodeid = n.nodeid)
    (hparent : m.parent = n.parent) (hname : m.name = n.name) :
    Shape (f.setNode p m) ids names loose :=
  hs.congr (Fuse.sameNames_setNode h hid hparent hname) rfl rfl

/-! ## Looking nodes up -/

theorem getNodeNocheck_eq (i : Ino) :
    getNodeNocheck f i = some (ids.find? fun p => f.nodeidOf p = some i) := by
  refine hs.idTable.find ?_ ?_
  · intro p _ hp
    rw [decide_eq_true_iff] at hp
    unfold Fuse.idKeyOf
    rw [hp, Option.getD_some]
  · intro p _ q _ hp hq
    rw [decide_eq_true_iff] at hp hq
    exact hs.nodeid_inj p q i hp hq

theorem getNode_eq_some {i : Ino} (hp : p ∈ ids) (hi : f.nodeidOf p = some i) :
    getNode f i = some p := by
  unfold getNode
  rw [hs.getNodeNocheck_eq, Option.join_some]
  cases hfind : ids.find? fun p => f.nodeidOf p = some i with
  | none =>
      have := List.find?_eq_none.mp hfind p hp
      simp [hi] at this
  | some x =>
      have hx := List.find?_some hfind
      rw [decide_eq_true_iff] at hx
      rw [hs.nodeid_inj x p i hx hi]

theorem lookupNode_eq (i : Ino) (s : Name) :
    lookupNode f i s = some (names.find? fun p =>
      (f.parentOf p).bind f.nodeidOf = some i ∧ f.nameOf p = some s) := by
  refine hs.nameTable.find ?_ ?_
  · intro p _ hp
    rw [decide_eq_true_iff] at hp
    unfold Fuse.nameKeyOf
    rw [hp.1, hp.2, Option.getD_some, Option.getD_some]
  · intro p hp q hq h₁ h₂
    rw [decide_eq_true_iff] at h₁ h₂
    obtain ⟨a, ha, hai⟩ := Option.bind_eq_some_iff.mp h₁.1
    obtain ⟨b, hb, hbi⟩ := Option.bind_eq_some_iff.mp h₂.1
    refine hs.name_inj p hp q hq ?_ (h₁.2.trans h₂.2.symm)
    rw [ha, hb, hs.nodeid_inj a b i hai hbi]

theorem lookupNode_some {i : Ino} {s : Name} (h : lookupNode f i s = some (some p)) :
    p ∈ names ∧ ∃ q, f.parentOf p = some q ∧ f.nodeidOf q = some i ∧
      f.nameOf p = some s := by
  rw [hs.lookupNode_eq] at h
  have hfind := Option.some.inj h
  have hp := List.find?_some hfind
  rw [decide_eq_true_iff] at hp
  obtain ⟨q, hq, hqi⟩ := Option.bind_eq_some_iff.mp hp.1
  exact ⟨List.mem_of_find?_eq_some hfind, q, hq, hqi, hp.2⟩

theorem lookupNode_none {i : Ino} {s : Name} (h : lookupNode f i s = some none)
    (hp : p ∈ names) (hq : f.parentOf p = some q) (hqi : f.nodeidOf q = some i) :
    f.nameOf p ≠ some s := by
  rw [hs.lookupNode_eq] at h
  intro hname
  have := List.find?_eq_none.mp (Option.some.inj h) p hp
  simp [hq, hqi, hname] at this

theorem lookupNode_of_place {i : Ino} {s : Name} (hp : p ∈ names)
    (hq : f.parentOf p = some q) (hqi : f.nodeidOf q = some i)
    (hname : f.nameOf p = some s) : lookupNode f i s = some (some p) := by
  obtain ⟨found, hfound⟩ : ∃ found, lookupNode f i s = some found :=
    ⟨_, hs.lookupNode_eq i s⟩
  cases found with
  | none => exact absurd hname (hs.lookupNode_none hfound hp hq hqi)
  | some c =>
      obtain ⟨hc, b, hb, hbi, hcs⟩ := hs.lookupNode_some hfound
      obtain rfl := hs.nodeid_inj b q i hbi hqi
      rw [hfound, hs.name_inj c hc p hp (hb.trans hq.symm) (hcs.trans hname.symm)]

/-! ## Taking a name away -/

theorem unchain (hp : p ∈ names) :
    ∃ t, f.nameTable.unchain f.nameKeyOf p = some (some t) ∧ t.use = f.nameTable.use ∧
      Shape { f with nameTable := t } ids (names.erase p) fun x => loose x ∨ x = p := by
  obtain ⟨t, ht, hholds, huse, -⟩ := hs.nameTable.unchain hp
  have hmem : ∀ x, x ∈ names.erase p → x ∈ names := fun x => List.mem_of_mem_erase
  refine ⟨t, ht, huse, hs.idTable, hholds, hs.nodeid_inj, ?_, ?_, ?_, hs.unnamed, ?_⟩
  · exact fun x hx => hs.linked x (hmem x hx)
  · exact fun x hx y hy => hs.name_inj x (hmem x hx) y (hmem y hy)
  · intro x q hq
    rcases hs.mem_names x q hq with hx | hx
    · by_cases hxp : x = p
      · exact .inr (.inr hxp)
      · exact .inl ((List.mem_erase_of_ne hxp).mpr hx)
    · exact .inr (.inl hx)
  · exact hs.acyclic.mono hmem fun _ _ => rfl

end Shape

theorem counted_unchain (hc : Counted f names held) (hp : p ∈ names)
    (hq : f.parentOf p = some q) : Counted f (names.erase p) (bump held q) := by
  intro x n hn
  rw [hc x n hn, Forest.children_eq_erase hp x, hq]
  unfold bump
  have hqx : (some q = some x) = (x = q) := by
    rw [Option.some.injEq]
    exact propext eq_comm
  simp only [hqx]
  omega

theorem Shape.detach (hs : Shape f ids names fun x => loose x ∨ x = p) (hp : p ∉ names)
    (h : f.heap p = some n) :
    Shape (f.setNode p { n with name := none, parent := none }) ids names loose := by
  have hid : (f.setNode p { n with name := none, parent := none }).nodeidOf =
      f.nodeidOf := by
    funext x
    by_cases hx : x = p
    · rw [hx, Fuse.nodeidOf_eq Fuse.heap_setNode_self, Fuse.nodeidOf_eq h]
    · exact Fuse.nodeidOf_congr (Fuse.heap_setNode_of_ne hx)
  have hparent : ∀ x, x ≠ p →
      (f.setNode p { n with name := none, parent := none }).parentOf x = f.parentOf x :=
    fun x hx => Fuse.parentOf_congr (Fuse.heap_setNode_of_ne hx)
  have hname : ∀ x, x ≠ p →
      (f.setNode p { n with name := none, parent := none }).nameOf x = f.nameOf x :=
    fun x hx => Fuse.nameOf_congr (Fuse.heap_setNode_of_ne hx)
  have hne : ∀ x ∈ names, x ≠ p := fun x hx hxp => hp (hxp ▸ hx)
  constructor
  case idTable =>
    unfold Fuse.idKeyOf
    rw [hid]
    exact hs.idTable
  case nameTable =>
    refine hs.nameTable.congr_hash fun x hx => ?_
    unfold Fuse.nameKeyOf
    rw [hid, hparent x (hne x hx), hname x (hne x hx)]
  case nodeid_inj =>
    rw [hid]
    exact hs.nodeid_inj
  case linked =>
    intro x hx
    rw [hid, hparent x (hne x hx), hname x (hne x hx)]
    exact hs.linked x hx
  case name_inj =>
    intro x hx y hy
    rw [hparent x (hne x hx), hname x (hne x hx), hparent y (hne y hy),
      hname y (hne y hy)]
    exact hs.name_inj x hx y hy
  case mem_names =>
    intro x q hq
    by_cases hx : x = p
    · rw [hx, Fuse.parentOf_eq Fuse.heap_setNode_self] at hq
      cases hq
    · rw [hparent x hx] at hq
      exact (hs.mem_names x q hq).imp_right fun hl => hl.resolve_right hx
  case unnamed =>
    intro x s hx
    by_cases hxp : x = p
    · rw [hxp, Fuse.nameOf_eq Fuse.heap_setNode_self] at hx
      cases hx
    · rw [hid, hparent x hxp]
      rw [hname x hxp] at hx
      exact hs.unnamed x s hx
  case acyclic =>
    exact hs.acyclic.mono (fun _ => id) fun x hx => hparent x (hne x hx)

/-! ## Freeing a node -/

theorem Consistent.children_eq_zero (hc : Consistent f ids names loose held pending)
    (hn : f.heap p = some n) (h0 : n.refctr = 0) :
    n.nlookup = 0 ∧ Forest.children f.parentOf names p = 0 ∧ held p = 0 := by
  have hcount := hc.counted p n hn
  split_ifs at hcount <;> omega

theorem Consistent.ne_root (hc : Consistent f ids names loose held pending)
    (hn : f.heap p = some n) (h0 : n.nlookup = 0) : n.nodeid ≠ fuseRootId := by
  intro hid
  obtain ⟨r, m, hr, hrid, -, hlook⟩ := hc.root
  have : p = r := hc.nodeid_inj p r fuseRootId (by rw [Fuse.nodeidOf_eq hn, hid])
    (by rw [Fuse.nodeidOf_eq hr, hrid])
  rw [this, hr] at hn
  obtain rfl := Option.some.inj hn
  omega

/-- A node that nothing refers to, and that has no name, can be freed. -/
theorem Consistent.free (hc : Consistent f ids names loose held pending)
    (hn : f.heap p = some n) (h0 : n.refctr = 0) (hparent : n.parent = none) :
    ∃ f', (unhashId f p).map (fun f => f.freeNode p) = some f' ∧
      Consistent f' (ids.erase p) names loose held pending ∧
      f'.heap = Function.update f.heap p none ∧ f'.ctr = f.ctr ∧
      f'.generation = f.generation := by
  obtain ⟨hlook, hchildren, hheld⟩ := hc.children_eq_zero hn h0
  have hpid : p ∈ ids := (hc.mem_ids p).mpr (by rw [hn]; rfl)
  obtain ⟨t, ht, hholds, huse, -⟩ := hc.idTable.unchain hpid
  obtain ⟨t', ht', hholds'⟩ := hholds.settle 8 f.drawn
  have huse' := LinearHash.Table.settle_use ht'
  refine ⟨{ f.draw with idTable := t', heap := Function.update f.heap p none }, ?_, ?_,
    rfl, rfl, rfl⟩
  · unfold unhashId
    rw [ht, Option.bind_some]
    dsimp only
    rw [ht']
    rfl
  -- what is seen of the other nodes
  have hother : ∀ x, x ≠ p → Function.update f.heap p none x = f.heap x :=
    fun x hx => Function.update_of_ne hx ..
  have hself : Function.update f.heap p none p = none := Function.update_self ..
  have hne : ∀ x ∈ names, x ≠ p := by
    rintro x hx rfl
    obtain ⟨m, q, hm, hq⟩ := hc.live_of_mem hx
    rw [hn] at hm
    obtain rfl := Option.some.inj hm
    rw [hparent] at hq
    cases hq
  have hnot : ∀ x ∈ names, f.parentOf x ≠ some p := by
    intro x hx hxp
    have hup : Up f names x p := ⟨hx, hxp⟩
    have := Forest.children_pos_of_up hup
    omega
  have hsome : ∀ {x m}, Function.update f.heap p none x = some m →
      x ≠ p ∧ f.heap x = some m := by
    intro x m hx
    by_cases hxp : x = p
    · rw [hxp, hself] at hx
      cases hx
    · exact ⟨hxp, by rw [← hother x hxp, hx]⟩
  set g : Fuse := { f.draw with idTable := t', heap := Function.update f.heap p none }
    with hg
  have hparentOf : ∀ x, x ≠ p → g.parentOf x = f.parentOf x :=
    fun x hx => Fuse.parentOf_congr (hother x hx)
  have hnodeidOf : ∀ x, x ≠ p → g.nodeidOf x = f.nodeidOf x :=
    fun x hx => Fuse.nodeidOf_congr (hother x hx)
  have hnameOf : ∀ x, x ≠ p → g.nameOf x = f.nameOf x :=
    fun x hx => Fuse.nameOf_congr (hother x hx)
  have hup : ∀ x ∈ names,
      (g.parentOf x).bind g.nodeidOf = (f.parentOf x).bind f.nodeidOf := by
    intro x hx
    rw [hparentOf x (hne x hx)]
    cases hq : f.parentOf x with
    | none => rfl
    | some q =>
        rw [Option.bind_some, Option.bind_some, hnodeidOf]
        rintro rfl
        exact hnot x hx hq
  constructor
  case toShape =>
    constructor
    case idTable =>
      refine hholds'.congr_hash fun x hx => ?_
      have hxp : x ≠ p := fun h => (hc.idTable.nodup.mem_erase_iff.mp hx).1 h
      unfold Fuse.idKeyOf
      rw [hnodeidOf x hxp]
    case nameTable =>
      refine hc.nameTable.congr_hash fun x hx => ?_
      unfold Fuse.nameKeyOf
      rw [hup x hx, hnameOf x (hne x hx)]
    case nodeid_inj =>
      intro x y i hx hy
      obtain ⟨m, hm, rfl⟩ := Fuse.exists_of_nodeidOf hx
      obtain ⟨m', hm', hid⟩ := Fuse.exists_of_nodeidOf hy
      obtain ⟨hxp, hm⟩ := hsome hm
      obtain ⟨hyp, hm'⟩ := hsome hm'
      exact hc.nodeid_inj x y _ (Fuse.nodeidOf_eq hm)
        (by rw [Fuse.nodeidOf_eq hm', hid])
    case linked =>
      intro x hx
      obtain ⟨q, s, i, hq, hs, hi⟩ := hc.linked x hx
      have hqp : q ≠ p := fun h => hnot x hx (h ▸ hq)
      refine ⟨q, s, i, ?_, ?_, ?_⟩
      · rw [hparentOf x (hne x hx), hq]
      · rw [hnameOf x (hne x hx), hs]
      · rw [hnodeidOf q hqp, hi]
    case name_inj =>
      intro x hx y hy
      rw [hparentOf x (hne x hx), hparentOf y (hne y hy), hnameOf x (hne x hx),
        hnameOf y (hne y hy)]
      exact hc.name_inj x hx y hy
    case mem_names =>
      intro x q hq
      obtain ⟨m, hm, hmq⟩ := Fuse.exists_of_parentOf hq
      exact hc.mem_names x q (by rw [Fuse.parentOf_eq (hsome hm).2, hmq])
    case unnamed =>
      intro x s hx hxpar
      obtain ⟨m, hm, hms⟩ := Option.bind_eq_some_iff.mp hx
      obtain ⟨hxp, hm⟩ := hsome hm
      rw [hnodeidOf x hxp]
      refine hc.unnamed x s (by rw [Fuse.nameOf_eq hm, hms]) ?_
      rw [← hparentOf x hxp, hxpar]
    case acyclic =>
      exact hc.acyclic.mono (fun _ => id) fun x hx => hparentOf x (hne x hx)
  case mem_ids =>
    intro x
    rw [hc.idTable.nodup.mem_erase_iff, hc.mem_ids]
    change x ≠ p ∧ _ ↔ (Function.update f.heap p none x).isSome
    by_cases hx : x = p
    · simp [hx]
    · rw [hother x hx, and_iff_right hx]
  case counted =>
    intro x m hm
    obtain ⟨hxp, hm⟩ := hsome hm
    rw [hc.counted x m hm]
    rw [Forest.children_congr fun c hcn => hparentOf c (hne c hcn)]
  case id_use =>
    change t'.use = _
    rw [huse', huse, hc.id_use, List.length_erase_of_mem hpid]
  case name_use => exact hc.name_use
  case root =>
    obtain ⟨r, m, hr, hrid, hrpar, hrlook⟩ := hc.root
    refine ⟨r, m, ?_, hrid, hrpar, hrlook⟩
    have hrp : r ≠ p := by
      rintro rfl
      rw [hn] at hr
      obtain rfl := Option.some.inj hr
      omega
    change Function.update f.heap p none r = some m
    rw [hother r hrp, hr]

/-! ## Dropping a reference -/

/-- What dropping a reference to `q` leaves: nodes at or above `q` may be freed, if the
kernel does not know them, and lose references otherwise. -/
structure Drops (f f' : Fuse) (names names' : List Ptr) (q : Ptr) : Prop where
  sub : ∀ x m, f'.heap x = some m →
    ∃ n, f.heap x = some n ∧ m = { n with refctr := m.refctr }
  other : ∀ x, ¬ Above f names q x → f'.heap x = f.heap x
  gone : ∀ x n, f.heap x = some n → f'.heap x = none → n.nlookup = 0
  alive : ∀ x n m, f.heap x = some n → f'.heap x = some m → 0 < n.refctr → 0 < m.refctr
  names : ∀ x, x ∈ names' ↔ x ∈ names ∧ (f'.heap x).isSome
  ctr : f'.ctr = f.ctr
  generation : f'.generation = f.generation

theorem eq_refctr_trans {a b c : Node} (hab : a = { b with refctr := a.refctr })
    (hbc : b = { c with refctr := b.refctr }) : a = { c with refctr := a.refctr } := by
  calc a = { b with refctr := a.refctr } := hab
    _ = { c with refctr := a.refctr } := by rw [hbc]

def LocksPinned (f : Fuse) (names : List Ptr) : Prop :=
  ∀ x n, f.heap x = some n → n.treelock ≠ 0 → Pinned f names x

/-- `unref` drops the reference that is held to `q`, with fewer than `bound` names. -/
def UnrefSpec (unref : Fuse → Ptr → Option Fuse) (bound : ℕ) : Prop :=
  ∀ (f : Fuse) (ids names : List Ptr) (loose : Ptr → Prop) (held : Ptr → ℕ)
    (pending : ℕ) (q : Ptr) (n : Node),
    Consistent f ids names loose (bump held q) pending → names.length < bound →
    f.heap q = some n → (∀ x, Above f names q x → ¬ loose x) → LocksPinned f names →
    ∃ f' ids' names', unref f q = some f' ∧
      Consistent f' ids' names' loose held pending ∧ Drops f f' names names' q

/-- The name of `p` goes, and with it the reference to its parent `q`. -/
theorem unhashName_spec {unref : Fuse → Ptr → Option Fuse} {bound : ℕ}
    (hspec : UnrefSpec unref bound)
    (hc : Consistent f ids names loose held pending) (hlen : names.length ≤ bound)
    (hp : p ∈ names) (hn : f.heap p = some n) (hq : n.parent = some q)
    (hloose : ∀ x, Above f names p x → ¬ loose x)
    (hpin : LocksPinned f (names.erase p)) :
    ∃ f' g ids' names', unhashName f unref p = some f' ∧
      Consistent f' ids' names' loose held pending ∧
      Drops f g (names.erase p) names' q ∧ g.heap p = some n ∧
      f'.heap = Function.update g.heap p (some { n with name := none, parent := none }) ∧
      f'.ctr = g.ctr ∧ f'.generation = g.generation := by
  have hpq : f.parentOf p = some q := by rw [Fuse.parentOf_eq hn, hq]
  obtain ⟨q', s, i, hq', hs, hi⟩ := hc.linked p hp
  obtain rfl : q' = q := Option.some.inj (hq'.symm.trans hpq)
  obtain ⟨m, hm, -⟩ := Fuse.exists_of_nodeidOf hi
  have hname : n.name ≠ none := by
    rw [← Fuse.nameOf_eq hn, hs]
    exact Option.some_ne_none s
  have hpos : 0 < names.length := List.length_pos_of_mem hp
  have hlen' : (names.erase p).length = names.length - 1 := List.length_erase_of_mem hp
  obtain ⟨t, ht, huse, hshape⟩ := hc.unchain hp
  -- out of the table, with a reference to the parent in hand
  have hc₁ : Consistent { f with nameTable := t } ids (names.erase p)
      (fun x => loose x ∨ x = p) (bump held q') (pending + 1) :=
    { toShape := hshape
      mem_ids := hc.mem_ids
      counted := counted_unchain hc.counted hp hpq
      id_use := hc.id_use
      name_use := by
        change t.use = _
        rw [huse, hc.name_use, hlen']
        omega
      root := hc.root }
  have hup : Up f names p q' := ⟨hp, hpq⟩
  have hnot : ¬ Above f (names.erase p) q' p :=
    fun h => hc.acyclic.not_above_of_up hup h.mono_erase
  obtain ⟨g, ids', names', hunref, hc₂, hdrops⟩ :=
    hspec { f with nameTable := t } ids (names.erase p) _ held (pending + 1) q' m hc₁
      (by omega) hm
      (by
        intro x hx hl
        rcases hl with hl | rfl
        · exact hloose x (.head hup (Forest.Above.mono_erase hx)) hl
        · exact hnot hx)
      hpin
  have hgp : g.heap p = some n := by
    rw [hdrops.other p hnot]
    exact hn
  have hpn : p ∉ names' := fun h =>
    (hc.nameTable.nodup.mem_erase_iff.mp ((hdrops.names p).mp h).1).1 rfl
  have hdet := hc₂.toShape.detach hpn hgp
  obtain ⟨t', ht', hholds⟩ := hdet.nameTable.settle 8
    (g.setNode p { n with name := none, parent := none }).drawn
  have huse' := LinearHash.Table.settle_use ht'
  refine ⟨{ (g.setNode p { n with name := none, parent := none }).draw with
    nameTable := t' }, g, ids', names', ?_, ?_, ⟨hdrops.sub, hdrops.other, hdrops.gone,
    hdrops.alive, hdrops.names, hdrops.ctr, hdrops.generation⟩, hgp, rfl, rfl, rfl⟩
  · unfold unhashName
    rw [hn, Option.bind_some, if_neg hname, hq, Option.bind_some, hm, Option.bind_some,
      ht, Option.join_some, Option.bind_some, hunref, Option.bind_some, hgp,
      Option.bind_some]
    dsimp only
    rw [ht', Option.map_some]
  have hother : ∀ x, x ≠ p →
      (g.setNode p { n with name := none, parent := none }).heap x = g.heap x :=
    fun x hx => Fuse.heap_setNode_of_ne hx
  constructor
  case toShape =>
    exact ⟨hdet.idTable, hholds, hdet.nodeid_inj, hdet.linked, hdet.name_inj,
      hdet.mem_names, hdet.unnamed, hdet.acyclic⟩
  case mem_ids =>
    intro x
    rw [hc₂.mem_ids]
    change _ ↔ ((g.setNode p { n with name := none, parent := none }).heap x).isSome
    by_cases hx : x = p
    · rw [hx, hgp, Fuse.heap_setNode_self]
      rfl
    · rw [hother x hx]
  case counted =>
    intro x k hk
    change (g.setNode p { n with name := none, parent := none }).heap x = some k at hk
    have hcount : k.refctr = (if 0 < k.nlookup then 1 else 0) +
        Forest.children g.parentOf names' x + held x := by
      by_cases hx : x = p
      · rw [hx, Fuse.heap_setNode_self] at hk
        obtain rfl := Option.some.inj hk
        rw [hx]
        exact hc₂.counted p n hgp
      · rw [hother x hx] at hk
        exact hc₂.counted x k hk
    rw [hcount]
    congr 2
    exact (Forest.children_congr fun c hcn =>
      Fuse.parentOf_congr (hother c fun h => hpn (h ▸ hcn))).symm
  case id_use => exact hc₂.id_use
  case name_use =>
    change t'.use = _
    rw [huse']
    change g.nameTable.use - 1 = _
    rw [hc₂.name_use]
    omega
  case root =>
    obtain ⟨r, k, hr, hrid, hrpar, hrlook⟩ := hc₂.root
    have hrp : r ≠ p := by
      rintro rfl
      rw [hgp] at hr
      obtain rfl := Option.some.inj hr
      rw [hq] at hrpar
      cases hrpar
    exact ⟨r, k, (hother r hrp).trans hr, hrid, hrpar, hrlook⟩

theorem deleteNode_spec {unref : Fuse → Ptr → Option Fuse} {bound : ℕ}
    (hspec : UnrefSpec unref bound)
    (hc : Consistent f ids names loose held pending) (hlen : names.length ≤ bound)
    (hn : f.heap p = some n) (h0 : n.refctr = 0)
    (hloose : ∀ x, Above f names p x → ¬ loose x) (hpin : LocksPinned f names) :
    ∃ f' ids' names', deleteNode f unref p = some f' ∧
      Consistent f' ids' names' loose held pending ∧ Drops f f' names names' p ∧
      f'.heap p = none := by
  obtain ⟨hlook, hchildren, hheld⟩ := hc.children_eq_zero hn h0
  have hlock : n.treelock = 0 := by
    by_contra hlock
    obtain ⟨y, k, hy, hk, hpos, -⟩ := hpin p n hn hlock
    obtain rfl := Forest.eq_of_above_of_children hchildren hy
    rw [hn] at hk
    obtain rfl := Option.some.inj hk
    omega
  unfold deleteNode
  rw [hn, Option.bind_some, if_neg (not_not.mpr hlock)]
  cases hpar : n.parent with
  | none =>
      have hname : n.name = none := by
        by_contra hname
        obtain ⟨s, hs⟩ := Option.ne_none_iff_exists'.mp hname
        have := hc.unnamed p s (by rw [Fuse.nameOf_eq hn, hs])
          (by rw [Fuse.parentOf_eq hn, hpar])
        rw [Fuse.nodeidOf_eq hn] at this
        exact hc.ne_root hn hlook (Option.some.inj this)
      have hunhash : unhashName f unref p = some f := by
        unfold unhashName
        rw [hn, Option.bind_some, if_pos hname]
      obtain ⟨f', hf', hc', hheap, hctr, hgen⟩ := hc.free hn h0 hpar
      rw [hunhash, Option.bind_some]
      have hself : f'.heap p = none := by rw [hheap, Function.update_self]
      refine ⟨f', _, _, hf', hc', ?_, hself⟩
      have hother : ∀ x, x ≠ p → f'.heap x = f.heap x := by
        intro x hx
        rw [hheap, Function.update_of_ne hx]
      refine ⟨?_, ?_, ?_, ?_, ?_, hctr, hgen⟩
      · intro x m hm
        by_cases hx : x = p
        · rw [hx, hself] at hm
          cases hm
        · exact ⟨m, (hother x hx) ▸ hm, rfl⟩
      · exact fun x hx => hother x fun h => hx (h ▸ .refl)
      · intro x k hk hgone
        by_cases hx : x = p
        · rw [hx, hn] at hk
          obtain rfl := Option.some.inj hk
          exact hlook
        · rw [hother x hx, hk] at hgone
          cases hgone
      · intro x k l hk hl hpos
        by_cases hx : x = p
        · rw [hx, hself] at hl
          cases hl
        · rw [hother x hx, hk] at hl
          exact Option.some.inj hl ▸ hpos
      · intro x
        refine ⟨fun hx => ⟨hx, ?_⟩, fun hx => hx.1⟩
        obtain ⟨q, s, i, hq, -⟩ := hc'.linked x hx
        obtain ⟨k, hk, -⟩ := Fuse.exists_of_parentOf hq
        rw [hk]
        rfl
  | some q =>
      have hpq : f.parentOf p = some q := by rw [Fuse.parentOf_eq hn, hpar]
      have hp : p ∈ names := (hc.mem_names p q hpq).resolve_right (hloose p .refl)
      have hpin' : LocksPinned f (names.erase p) := by
        intro x k hk hklock
        obtain ⟨y, l, hy, hl, hpos, hylock⟩ := hpin x k hk hklock
        refine ⟨y, l, Forest.above_erase hchildren ?_ hy, hl, hpos, hylock⟩
        rintro rfl
        rw [hn] at hl
        obtain rfl := Option.some.inj hl
        omega
      obtain ⟨f₁, g, ids₁, names₁, hunhash, hc₁, hdrops, hgp, hheap₁, hctr₁, hgen₁⟩ :=
        unhashName_spec hspec hc hlen hp hn hpar hloose hpin'
      have hf₁p : f₁.heap p = some { n with name := none, parent := none } := by
        rw [hheap₁, Function.update_self]
      obtain ⟨f', hf', hc', hheap, hctr, hgen⟩ := hc₁.free hf₁p h0 rfl
      rw [hunhash, Option.bind_some]
      have hself : f'.heap p = none := by rw [hheap, Function.update_self]
      refine ⟨f', _, _, hf', hc', ?_, hself⟩
      have hother : ∀ x, x ≠ p → f'.heap x = g.heap x := by
        intro x hx
        rw [hheap, Function.update_of_ne hx, hheap₁, Function.update_of_ne hx]
      have hup : Up f names p q := ⟨hp, hpq⟩
      refine ⟨?_, ?_, ?_, ?_, ?_, ?_, ?_⟩
      · intro x m hm
        by_cases hx : x = p
        · rw [hx, hself] at hm
          cases hm
        · exact hdrops.sub x m ((hother x hx) ▸ hm)
      · intro x hx
        have hxp : x ≠ p := fun h => hx (h ▸ .refl)
        rw [hother x hxp]
        exact hdrops.other x fun h => hx (.head hup (Forest.Above.mono_erase h))
      · intro x k hk hgone
        by_cases hx : x = p
        · rw [hx, hn] at hk
          obtain rfl := Option.some.inj hk
          exact hlook
        · rw [hother x hx] at hgone
          exact hdrops.gone x k hk hgone
      · intro x k l hk hl
        by_cases hx : x = p
        · rw [hx, hself] at hl
          cases hl
        · exact hdrops.alive x k l hk ((hother x hx) ▸ hl)
      · intro x
        rw [hdrops.names x, hc.nameTable.nodup.mem_erase_iff]
        by_cases hx : x = p
        · simp [hx, hself]
        · rw [hother x hx, and_iff_right hx]
      · rw [hctr, hctr₁, hdrops.ctr]
      · rw [hgen, hgen₁, hdrops.generation]

theorem Consistent.setNode {held' : Ptr → ℕ}
    (hc : Consistent f ids names loose held pending) (hn : f.heap p = some n)
    (hid : m.nodeid = n.nodeid) (hparent : m.parent = n.parent) (hname : m.name = n.name)
    (hcount : m.refctr =
      (if 0 < m.nlookup then 1 else 0) + Forest.children f.parentOf names p + held' p)
    (hheld : ∀ x, x ≠ p → held' x = held x)
    (hroot : m.nodeid = fuseRootId → 0 < m.nlookup) :
    Consistent (f.setNode p m) ids names loose held' pending where
  toShape := hc.toShape.setNode hn hid hparent hname
  mem_ids x := by
    rw [hc.mem_ids]
    by_cases hx : x = p
    · rw [hx, hn, Fuse.heap_setNode_self]
      rfl
    · rw [Fuse.heap_setNode_of_ne hx]
  counted := by
    intro x k hk
    rw [(Fuse.sameNames_setNode hn hid hparent hname).parent]
    by_cases hx : x = p
    · rw [hx, Fuse.heap_setNode_self] at hk
      obtain rfl := Option.some.inj hk
      rw [hx]
      exact hcount
    · rw [Fuse.heap_setNode_of_ne hx] at hk
      rw [hheld x hx]
      exact hc.counted x k hk
  id_use := hc.id_use
  name_use := hc.name_use
  root := by
    obtain ⟨r, k, hr, hrid, hrpar, hrlook⟩ := hc.root
    by_cases hrp : r = p
    · subst hrp
      rw [hn] at hr
      obtain rfl := Option.some.inj hr
      exact ⟨r, m, Fuse.heap_setNode_self, hid.trans hrid, hparent.trans hrpar,
        hroot (hid.trans hrid)⟩
    · exact ⟨r, k, (Fuse.heap_setNode_of_ne hrp).trans hr, hrid, hrpar, hrlook⟩

theorem unrefLoop_spec (fuel : ℕ) : UnrefSpec (unrefLoop fuel) fuel := by
  induction fuel with
  | zero =>
      intro f ids names loose held pending q n _ hlen
      omega
  | succ fuel ih =>
      intro f ids names loose held pending q n hc hlen hn hloose hpin
      have hcount := hc.counted q n hn
      have hbump : bump held q q = held q + 1 := by
        unfold bump
        rw [if_pos rfl]
      have hne : n.refctr ≠ 0 := by
        rw [hbump] at hcount
        omega
      have hc₁ : Consistent (f.setNode q { n with refctr := n.refctr - 1 }) ids names
          loose held pending := by
        refine hc.setNode hn rfl rfl rfl ?_ ?_ ?_
        · dsimp only
          omega
        · intro x hx
          unfold bump
          rw [if_neg hx, Nat.add_zero]
        · intro hid
          by_contra hzero
          exact hc.ne_root hn (Nat.eq_zero_of_not_pos hzero) hid
      have hsame : (f.setNode q { n with refctr := n.refctr - 1 }).parentOf = f.parentOf :=
        (Fuse.sameNames_setNode (m := { n with refctr := n.refctr - 1 }) hn rfl rfl
          rfl).parent
      have habove : Above (f.setNode q { n with refctr := n.refctr - 1 }) names =
          Above f names := by
        rw [Above, hsame]
      have hother : ∀ x, x ≠ q →
          (f.setNode q { n with refctr := n.refctr - 1 }).heap x = f.heap x :=
        fun x hx => Fuse.heap_setNode_of_ne hx
      -- a node before and after the count of `q` goes down
      have hback : ∀ x k, (f.setNode q { n with refctr := n.refctr - 1 }).heap x = some k →
          ∃ k', f.heap x = some k' ∧ k = { k' with refctr := k.refctr } := by
        intro x k hk
        by_cases hx : x = q
        · rw [hx, Fuse.heap_setNode_self] at hk
          obtain rfl := Option.some.inj hk
          exact ⟨n, hx ▸ hn, rfl⟩
        · exact ⟨k, (hother x hx) ▸ hk, rfl⟩
      unfold unrefLoop
      rw [hn, Option.bind_some, if_neg hne]
      dsimp only
      split_ifs with hlast
      · have hpin₁ : LocksPinned (f.setNode q { n with refctr := n.refctr - 1 }) names := by
          intro x k hk hlock
          obtain ⟨k', hk', hkk⟩ := hback x k hk
          rw [hkk] at hlock
          obtain ⟨y, l, hy, hl, hpos, hylock⟩ := hpin x k' hk' hlock
          by_cases hyq : y = q
          · rw [hyq, hn] at hl
            obtain rfl := Option.some.inj hl
            refine ⟨y, { n with refctr := n.refctr - 1 }, by rwa [habove], ?_, hpos, hylock⟩
            rw [hyq, Fuse.heap_setNode_self]
          · exact ⟨y, l, by rwa [habove], (hother y hyq).trans hl, hpos, hylock⟩
        obtain ⟨f', ids', names', hdel, hc', hdrops, hgone⟩ :=
          deleteNode_spec ih hc₁ (by omega) Fuse.heap_setNode_self hlast
            (by rwa [habove]) hpin₁
        refine ⟨f', ids', names', hdel, hc', ?_, ?_, ?_, ?_, hdrops.names, hdrops.ctr,
          hdrops.generation⟩
        · intro x k hk
          obtain ⟨k₁, hk₁, hkk₁⟩ := hdrops.sub x k hk
          obtain ⟨k', hk', hkk'⟩ := hback x k₁ hk₁
          exact ⟨k', hk', eq_refctr_trans hkk₁ hkk'⟩
        · intro x hx
          have hxq : x ≠ q := fun h => hx (h ▸ .refl)
          rw [hdrops.other x (by rwa [habove]), hother x hxq]
        · intro x k hk hgone
          by_cases hx : x = q
          · rw [hx, hn] at hk
            obtain rfl := Option.some.inj hk
            exact hdrops.gone x { n with refctr := n.refctr - 1 }
              (by rw [hx, Fuse.heap_setNode_self]) hgone
          · exact hdrops.gone x k ((hother x hx).trans hk) hgone
        · intro x k l hk hl
          by_cases hx : x = q
          · rw [hx, hgone] at hl
            cases hl
          · exact hdrops.alive x k l ((hother x hx).trans hk) hl
      · refine ⟨_, ids, names, rfl, hc₁, hback, ?_, ?_, ?_, ?_, rfl, rfl⟩
        · exact fun x hx => hother x fun h => hx (h ▸ .refl)
        · intro x k hk hgone
          by_cases hx : x = q
          · rw [hx, Fuse.heap_setNode_self] at hgone
            cases hgone
          · rw [hother x hx, hk] at hgone
            cases hgone
        · intro x k l hk hl hpos
          by_cases hx : x = q
          · rw [hx, Fuse.heap_setNode_self] at hl
            obtain rfl := Option.some.inj hl
            exact Nat.pos_of_ne_zero hlast
          · rw [hother x hx, hk] at hl
            exact Option.some.inj hl ▸ hpos
        · intro x
          refine ⟨fun hx => ⟨hx, ?_⟩, fun hx => hx.1⟩
          obtain ⟨k, _, hk, -⟩ := hc₁.live_of_mem hx
          rw [hk]
          rfl

theorem unrefNode_spec (bound : ℕ) : UnrefSpec unrefNode bound := by
  intro f ids names loose held pending q n hc _ hn hloose hpin
  refine unrefLoop_spec (f.nameTable.use + 1) f ids names loose held pending q n hc ?_ hn
    hloose hpin
  rw [hc.name_use]
  omega

end Mergerfs.Libfuse
