import Mergerfs.Libfuse.NodeTree
import Mathlib.Data.Finset.Card
import Mathlib.Data.Finset.Range

/-!
# Finding and adding nodes

`find_node` looks a node up once more, or adds one with a new id below its parent. The
ids are tried one after the other, so a new one is found as long as not all are taken,
and an id comes back only with a new generation. `AtRest` is what holds between the
requests of the kernel.
-/

namespace Mergerfs.Libfuse

open LinearHash (Table)
open LinearHash.Table (Holds)

variable {f f' : Fuse} {ids names : List Ptr} {loose : Ptr → Prop} {held : Ptr → ℕ}
  {pending : ℕ} {p q x : Ptr} {n m : Node} {i : Ino} {s : Name}

/-! ## Giving a name -/

theorem hashName_nomem (hs : Shape f ids names loose) (hq : q ∈ ids)
    (hi : f.nodeidOf q = some i) (hn : f.heap p = some n)
    (hfail : 32 ≤ s.length ∧ ¬ f.drawn) :
    hashName f p i s = some (f.draw.setNode p { n with name := none }, false) := by
  unfold hashName
  rw [hs.getNode_eq_some hq hi, Option.bind_some, if_pos hfail, hn, Option.map_some]

/-- The node `p` gets a name in `q`, which is not below it and has no such name. -/
theorem hashName_spec (hs : Shape f ids names loose) (hc : Counted f names held)
    (huse : f.nameTable.use = names.length + pending) (hq : q ∈ ids)
    (hi : f.nodeidOf q = some i) (hn : f.heap p = some n) (hp : p ∉ names)
    (hm : f.heap q = some m) (hqp : ¬ Above f names q p)
    (hfree : ∀ c ∈ names, f.parentOf c = some q → f.nameOf c ≠ some s)
    (hmem : ¬ (32 ≤ s.length ∧ ¬ f.drawn)) :
    ∃ f', hashName f p i s = some (f', true) ∧ Shape f' ids (p :: names) loose ∧
      Counted f' (p :: names) held ∧
      f'.nameTable.use = (p :: names).length + pending ∧ f'.idTable = f.idTable ∧
      f'.heap = Function.update
        (Function.update f.heap q (some { m with refctr := m.refctr + 1 })) p
        (some { n with name := some s, parent := some q }) ∧
      f'.ctr = f.ctr ∧ f'.generation = f.generation := by
  have hne : q ≠ p := fun h => hqp (h ▸ .refl)
  set g : Fuse := (f.draw.setNode q { m with refctr := m.refctr + 1 }).setNode p
    { n with name := some s, parent := some q } with hg
  have hgp : g.heap p = some { n with name := some s, parent := some q } :=
    Fuse.heap_setNode_self
  have hgq : g.heap q = some { m with refctr := m.refctr + 1 } := by
    rw [hg, Fuse.heap_setNode_of_ne hne, Fuse.heap_setNode_self]
  have hgx : ∀ x, x ≠ p → x ≠ q → g.heap x = f.heap x := by
    intro x hxp hxq
    rw [hg, Fuse.heap_setNode_of_ne hxp, Fuse.heap_setNode_of_ne hxq]
    rfl
  -- only the parent and the name of `p` are new
  have hid : g.nodeidOf = f.nodeidOf := by
    funext x
    by_cases hxp : x = p
    · rw [hxp, Fuse.nodeidOf_eq hgp, Fuse.nodeidOf_eq hn]
    by_cases hxq : x = q
    · rw [hxq, Fuse.nodeidOf_eq hgq, Fuse.nodeidOf_eq hm]
    exact Fuse.nodeidOf_congr (hgx x hxp hxq)
  have hparent : ∀ x, x ≠ p → g.parentOf x = f.parentOf x := by
    intro x hxp
    by_cases hxq : x = q
    · rw [hxq, Fuse.parentOf_eq hgq, Fuse.parentOf_eq hm]
    · exact Fuse.parentOf_congr (hgx x hxp hxq)
  have hname : ∀ x, x ≠ p → g.nameOf x = f.nameOf x := by
    intro x hxp
    by_cases hxq : x = q
    · rw [hxq, Fuse.nameOf_eq hgq, Fuse.nameOf_eq hm]
    · exact Fuse.nameOf_congr (hgx x hxp hxq)
  have hpar_p : g.parentOf p = some q := Fuse.parentOf_eq hgp
  have hname_p : g.nameOf p = some s := Fuse.nameOf_eq hgp
  have hnames : ∀ x ∈ names, x ≠ p := fun x hx h => hp (h ▸ hx)
  have hholds : Holds nodeTableMinSize g.nameKeyOf f.nameTable names := by
    refine hs.nameTable.congr_hash fun x hx => ?_
    unfold Fuse.nameKeyOf
    rw [hid, hparent x (hnames x hx), hname x (hnames x hx)]
  obtain ⟨t, ht, hholds'⟩ := hholds.insert g.drawn hp
  have huse' := LinearHash.Table.insert_use ht
  refine ⟨{ g.draw with nameTable := t }, ?_, ?_, ?_, ?_, rfl, rfl, rfl, rfl⟩
  · unfold hashName
    rw [hs.getNode_eq_some hq hi, Option.bind_some, if_neg hmem, hm, Option.bind_some]
    dsimp only
    rw [Fuse.heap_setNode_of_ne hne.symm, Fuse.draw_heap, hn, Option.bind_some]
    change (f.nameTable.insert g.nameKeyOf p g.drawn).map _ = _
    rw [ht, Option.map_some]
  · constructor
    case idTable =>
      change Holds nodeTableMinSize g.idKeyOf f.idTable ids
      unfold Fuse.idKeyOf
      rw [hid]
      exact hs.idTable
    case nameTable => exact hholds'
    case nodeid_inj =>
      change ∀ a b i, g.nodeidOf a = some i → g.nodeidOf b = some i → a = b
      rw [hid]
      exact hs.nodeid_inj
    case linked =>
      intro x hx
      change ∃ b u j, g.parentOf x = some b ∧ g.nameOf x = some u ∧ g.nodeidOf b = some j
      rw [hid]
      rcases List.mem_cons.mp hx with rfl | hx
      · exact ⟨q, s, i, hpar_p, hname_p, hi⟩
      · rw [hparent x (hnames x hx), hname x (hnames x hx)]
        exact hs.linked x hx
    case name_inj =>
      intro x hx y hy
      change g.parentOf x = g.parentOf y → g.nameOf x = g.nameOf y → x = y
      rcases List.mem_cons.mp hx with hxp | hx' <;>
        rcases List.mem_cons.mp hy with hyp | hy'
      · exact fun _ _ => hxp.trans hyp.symm
      · rw [hxp, hpar_p, hname_p, hparent y (hnames y hy'), hname y (hnames y hy')]
        exact fun h₁ h₂ => absurd h₂.symm (hfree y hy' h₁.symm)
      · rw [hyp, hpar_p, hname_p, hparent x (hnames x hx'), hname x (hnames x hx')]
        exact fun h₁ h₂ => absurd h₂ (hfree x hx' h₁)
      · rw [hparent x (hnames x hx'), hname x (hnames x hx'), hparent y (hnames y hy'),
          hname y (hnames y hy')]
        exact hs.name_inj x hx' y hy'
    case mem_names =>
      intro x b hb
      change g.parentOf x = some b at hb
      by_cases hxp : x = p
      · exact .inl (hxp ▸ List.mem_cons_self)
      · rw [hparent x hxp] at hb
        exact (hs.mem_names x b hb).imp_left (List.mem_cons_of_mem p)
    case unnamed =>
      intro x u hu hnone
      change g.nameOf x = some u at hu
      change g.parentOf x = none at hnone
      change g.nodeidOf x = some fuseRootId
      rw [hid]
      by_cases hxp : x = p
      · rw [hxp, hpar_p] at hnone
        cases hnone
      · rw [hname x hxp] at hu
        rw [hparent x hxp] at hnone
        exact hs.unnamed x u hu hnone
    case acyclic =>
      exact hs.acyclic.graft hp hqp hpar_p fun x hx => hparent x (hnames x hx)
  · intro x k hk
    change g.heap x = some k at hk
    change k.refctr = _ + Forest.children g.parentOf (p :: names) x + held x
    have hchildren : Forest.children g.parentOf (p :: names) x =
        Forest.children f.parentOf names x + if q = x then 1 else 0 := by
      rw [Forest.children, List.countP_cons, hpar_p]
      have := Forest.children_congr (p := x) fun c hc => hparent c (hnames c hc)
      unfold Forest.children at this ⊢
      rw [this]
      simp
    rw [hchildren]
    by_cases hxp : x = p
    · rw [hxp, hgp] at hk
      obtain rfl := Option.some.inj hk
      rw [hxp, if_neg hne, Nat.add_zero]
      exact hc p n hn
    by_cases hxq : x = q
    · rw [hxq, hgq] at hk
      obtain rfl := Option.some.inj hk
      rw [hxq, if_pos rfl]
      have := hc q m hm
      dsimp only
      omega
    · rw [hgx x hxp hxq] at hk
      rw [if_neg (Ne.symm hxq), Nat.add_zero]
      exact hc x k hk
  · change t.use = _
    rw [huse', huse, List.length_cons]
    omega

/-! ## New ids -/

/-- The ids given out are counted: the generation and the id of the last one. -/
def Fuse.issue (f : Fuse) : ℕ := f.generation * 2 ^ 32 + f.ctr

theorem ctr_advanceCtr_lt : (advanceCtr f).ctr < 2 ^ 32 := Nat.mod_lt _ (by omega)

theorem issue_advanceCtr (hctr : f.ctr < 2 ^ 32) : (advanceCtr f).issue = f.issue + 1 := by
  unfold Fuse.issue advanceCtr
  dsimp only
  split_ifs <;> omega

theorem nextIdLoop_some {fuel : ℕ} (hctr : f.ctr < 2 ^ 32)
    (h : nextIdLoop fuel f = some f') :
    f' = { f with ctr := f'.ctr, generation := f'.generation } ∧
      getNodeNocheck f f'.ctr = some none ∧ f'.ctr < 2 ^ 32 ∧ f.issue < f'.issue := by
  induction fuel generalizing f with
  | zero => cases h
  | succ fuel ih =>
      have hnext := issue_advanceCtr hctr
      have hretry : nextIdLoop fuel (advanceCtr f) = some f' →
          f' = { f with ctr := f'.ctr, generation := f'.generation } ∧
            getNodeNocheck f f'.ctr = some none ∧ f'.ctr < 2 ^ 32 ∧
            f.issue < f'.issue := by
        intro h
        obtain ⟨heq, hget, hlt, hissue⟩ := ih ctr_advanceCtr_lt h
        exact ⟨heq, hget, hlt, by omega⟩
      unfold nextIdLoop at h
      dsimp only at h
      split_ifs at h with hskip
      · exact hretry h
      · obtain ⟨found, hfound, h⟩ := Option.bind_eq_some_iff.mp h
        split_ifs at h with hnone
        · obtain rfl := Option.some.inj h
          rw [hnone] at hfound
          exact ⟨rfl, hfound, ctr_advanceCtr_lt, by omega⟩
        · exact hretry h

theorem nextIdLoop_none {fuel : ℕ} (hs : Shape f ids names loose)
    (h : nextIdLoop fuel f = none) {k : ℕ} (hk : k < fuel) :
    (f.ctr + 1 + k) % 2 ^ 32 ∈ 0 :: fuseUnknownIno :: ids.filterMap f.nodeidOf := by
  induction fuel generalizing f k with
  | zero => omega
  | succ fuel ih =>
      have hs' : Shape (advanceCtr f) ids names loose := hs.congr ⟨rfl, rfl, rfl⟩ rfl rfl
      have hctr : (advanceCtr f).ctr = (f.ctr + 1) % 2 ^ 32 := rfl
      have hretry : nextIdLoop fuel (advanceCtr f) = none ∧
          (f.ctr + 1) % 2 ^ 32 ∈ 0 :: fuseUnknownIno :: ids.filterMap f.nodeidOf := by
        unfold nextIdLoop at h
        dsimp only at h
        split_ifs at h with hskip
        · refine ⟨h, ?_⟩
          rw [hctr] at hskip
          rcases hskip with h0 | h0 <;> rw [h0] <;> simp
        · rw [hs'.getNodeNocheck_eq, Option.bind_some] at h
          split_ifs at h with hfound
          refine ⟨h, ?_⟩
          obtain ⟨x, hx⟩ := Option.ne_none_iff_exists'.mp hfound
          have hid := List.find?_some hx
          rw [decide_eq_true_iff] at hid
          exact List.mem_cons_of_mem _ (List.mem_cons_of_mem _
            (List.mem_filterMap.mpr ⟨x, List.mem_of_find?_eq_some hx, hid⟩))
      cases k with
      | zero => exact hretry.2
      | succ k =>
          have := ih hs' hretry.1 (Nat.lt_of_succ_lt_succ hk)
          rw [hctr] at this
          have hmod : ((f.ctr + 1) % 2 ^ 32 + 1 + k) % 2 ^ 32 =
              (f.ctr + 1 + (k + 1)) % 2 ^ 32 := by omega
          rwa [hmod] at this

/-- There is a free id as long as not all are taken. -/
theorem nextId_spec (hs : Shape f ids names loose) (hctr : f.ctr < 2 ^ 32)
    (hlen : ids.length + 2 < 2 ^ 32) :
    ∃ f', nextId f = some f' ∧
      f' = { f with ctr := f'.ctr, generation := f'.generation } ∧
      getNodeNocheck f f'.ctr = some none ∧ f'.ctr < 2 ^ 32 ∧ f.issue < f'.issue := by
  cases h : nextId f with
  | some f' => exact ⟨f', rfl, nextIdLoop_some hctr h⟩
  | none =>
      exfalso
      have hall : Finset.range (2 ^ 32) ⊆
          (0 :: fuseUnknownIno :: ids.filterMap f.nodeidOf).toFinset := by
        intro c hc
        rw [Finset.mem_range] at hc
        rw [List.mem_toFinset]
        have := nextIdLoop_none hs h (k := (c + 2 ^ 32 - 1 - f.ctr) % 2 ^ 32)
          (Nat.mod_lt _ (by omega))
        have hmod : (f.ctr + 1 + (c + 2 ^ 32 - 1 - f.ctr) % 2 ^ 32) % 2 ^ 32 = c := by
          omega
        rwa [hmod] at this
      have hcard := Finset.card_le_card hall
      rw [Finset.card_range] at hcard
      have hle := List.toFinset_card_le (0 :: fuseUnknownIno :: ids.filterMap f.nodeidOf)
      have hfm := List.length_filterMap_le f.nodeidOf ids
      simp only [List.length_cons] at hle
      omega

/-! ## States between requests -/

/-- Between the requests no function holds a reference, no name is loose, and every
node is referred to. -/
structure AtRest (f : Fuse) (ids names : List Ptr) : Prop
    extends Consistent f ids names (fun _ => False) (fun _ => 0) 0 where
  alive : ∀ p n, f.heap p = some n → 0 < n.refctr

theorem Consistent.congr (hc : Consistent f ids names loose held pending)
    (hheap : f'.heap = f.heap) (hid : f'.idTable = f.idTable)
    (hname : f'.nameTable = f.nameTable) :
    Consistent f' ids names loose held pending where
  toShape := by
    refine hc.toShape.congr ⟨?_, ?_, ?_⟩ hid hname <;> funext x
    · exact Fuse.nodeidOf_congr (congrFun hheap x)
    · exact Fuse.parentOf_congr (congrFun hheap x)
    · exact Fuse.nameOf_congr (congrFun hheap x)
  mem_ids := by
    rw [hheap]
    exact hc.mem_ids
  counted := by
    have hparent : f'.parentOf = f.parentOf := by
      funext x
      exact Fuse.parentOf_congr (congrFun hheap x)
    unfold Counted
    rw [hheap, hparent]
    exact hc.counted
  id_use := by
    rw [hid]
    exact hc.id_use
  name_use := by
    rw [hname]
    exact hc.name_use
  root := by
    rw [hheap]
    exact hc.root

theorem AtRest.congr (hr : AtRest f ids names) (hheap : f'.heap = f.heap)
    (hid : f'.idTable = f.idTable) (hname : f'.nameTable = f.nameTable) :
    AtRest f' ids names :=
  ⟨hr.toConsistent.congr hheap hid hname, by rw [hheap]; exact hr.alive⟩

theorem incNlookup_eq (hn : f.heap p = some n) :
    incNlookup f p = some (f.setNode p
      { n with
        refctr := if n.nlookup = 0 then n.refctr + 1 else n.refctr
        nlookup := n.nlookup + 1 }) := by
  unfold incNlookup
  rw [hn, Option.map_some]

theorem Consistent.incNlookup (hc : Consistent f ids names loose held pending)
    (hn : f.heap p = some n) :
    Consistent (f.setNode p
      { n with
        refctr := if n.nlookup = 0 then n.refctr + 1 else n.refctr
        nlookup := n.nlookup + 1 }) ids names loose held pending := by
  refine hc.setNode hn rfl rfl rfl ?_ (fun _ _ => rfl) fun _ => Nat.succ_pos _
  have := hc.counted p n hn
  dsimp only
  split_ifs at this ⊢ <;> omega

/-! ## Adding a node -/

theorem Shape.addBlank (hs : Shape f ids names loose) (hp : f.heap p = none)
    (hids : ∀ x ∈ ids, x ≠ p) (hparent : n.parent = none) (hname : n.name = none)
    (hfresh : ∀ x, f.nodeidOf x ≠ some n.nodeid) :
    Shape (f.setNode p n) ids names loose := by
  have hnames : ∀ x ∈ names, x ≠ p := by
    rintro x hx rfl
    obtain ⟨k, q, hk, -⟩ := hs.live_of_mem hx
    rw [hp] at hk
    cases hk
  have hheap : ∀ x, x ≠ p → (f.setNode p n).heap x = f.heap x :=
    fun x hx => Fuse.heap_setNode_of_ne hx
  have hup : ∀ x ∈ names, ((f.setNode p n).parentOf x).bind (f.setNode p n).nodeidOf =
      (f.parentOf x).bind f.nodeidOf := by
    intro x hx
    obtain ⟨q, u, j, hq, -, hj⟩ := hs.linked x hx
    have hqp : q ≠ p := by
      rintro rfl
      unfold Fuse.nodeidOf at hj
      rw [hp] at hj
      cases hj
    rw [Fuse.parentOf_congr (hheap x (hnames x hx)), hq, Option.bind_some,
      Option.bind_some, Fuse.nodeidOf_congr (hheap q hqp)]
  constructor
  case idTable =>
    refine hs.idTable.congr_hash fun x hx => ?_
    unfold Fuse.idKeyOf
    rw [Fuse.nodeidOf_congr (hheap x (hids x hx))]
  case nameTable =>
    refine hs.nameTable.congr_hash fun x hx => ?_
    unfold Fuse.nameKeyOf
    rw [hup x hx, Fuse.nameOf_congr (hheap x (hnames x hx))]
  case nodeid_inj =>
    intro x y j hx hy
    by_cases hxp : x = p <;> by_cases hyp : y = p
    · rw [hxp, hyp]
    · rw [hxp, Fuse.nodeidOf_eq Fuse.heap_setNode_self] at hx
      rw [Fuse.nodeidOf_congr (hheap y hyp), ← hx] at hy
      exact absurd hy (hfresh y)
    · rw [hyp, Fuse.nodeidOf_eq Fuse.heap_setNode_self] at hy
      rw [Fuse.nodeidOf_congr (hheap x hxp), ← hy] at hx
      exact absurd hx (hfresh x)
    · rw [Fuse.nodeidOf_congr (hheap x hxp)] at hx
      rw [Fuse.nodeidOf_congr (hheap y hyp)] at hy
      exact hs.nodeid_inj x y j hx hy
  case linked =>
    intro x hx
    obtain ⟨q, u, j, hq, hu, hj⟩ := hs.linked x hx
    have h := hup x hx
    rw [hq, Option.bind_some, hj, Fuse.parentOf_congr (hheap x (hnames x hx)), hq,
      Option.bind_some] at h
    refine ⟨q, u, j, ?_, ?_, h⟩
    · rw [Fuse.parentOf_congr (hheap x (hnames x hx)), hq]
    · rw [Fuse.nameOf_congr (hheap x (hnames x hx)), hu]
  case name_inj =>
    intro x hx y hy
    rw [Fuse.parentOf_congr (hheap x (hnames x hx)),
      Fuse.parentOf_congr (hheap y (hnames y hy)),
      Fuse.nameOf_congr (hheap x (hnames x hx)),
      Fuse.nameOf_congr (hheap y (hnames y hy))]
    exact hs.name_inj x hx y hy
  case mem_names =>
    intro x q hq
    by_cases hx : x = p
    · rw [hx, Fuse.parentOf_eq Fuse.heap_setNode_self, hparent] at hq
      cases hq
    · rw [Fuse.parentOf_congr (hheap x hx)] at hq
      exact hs.mem_names x q hq
  case unnamed =>
    intro x u hu hnone
    by_cases hx : x = p
    · rw [hx, Fuse.nameOf_eq Fuse.heap_setNode_self, hname] at hu
      cases hu
    · rw [Fuse.nameOf_congr (hheap x hx)] at hu
      rw [Fuse.parentOf_congr (hheap x hx)] at hnone
      rw [Fuse.nodeidOf_congr (hheap x hx)]
      exact hs.unnamed x u hu hnone
  case acyclic =>
    exact hs.acyclic.mono (fun _ => id) fun x hx =>
      Fuse.parentOf_congr (hheap x (hnames x hx))

def newNode (f : Fuse) (q : Ptr) (s : Name) : Node :=
  { nodeid := f.ctr, generation := f.generation, refctr := 1, parent := some q,
    name := some s, nlookup := 1, isHidden := false, treelock := 0 }

/-- A node is added below `q`, or there is no memory and nothing changes. -/
theorem addNode_spec (hr : AtRest f ids names) (hctr : f.ctr < 2 ^ 32)
    (hlen : ids.length + 2 < 2 ^ 32) (hm : f.heap q = some m) (hp : f.heap p = none)
    (hnone : lookupNode f m.nodeid s = some none) :
    ∃ f' r, addNode f m.nodeid s p = some (f', r) ∧ f'.ctr < 2 ^ 32 ∧
      f.issue ≤ f'.issue ∧
      (r = none ∧ AtRest f' ids names ∧ f'.heap = f.heap ∨
        r = some p ∧ AtRest f' (p :: ids) (p :: names) ∧ f.issue < f'.issue ∧
        f'.heap = Function.update
          (Function.update f.heap q (some { m with refctr := m.refctr + 1 })) p
          (some (newNode f' q s))) := by
  have hqids : q ∈ ids := (hr.mem_ids q).mpr (by rw [hm]; rfl)
  have hpids : ∀ x ∈ ids, x ≠ p := by
    rintro x hx rfl
    rw [hr.mem_ids, hp] at hx
    cases hx
  have hqp : q ≠ p := hpids q hqids
  have hpnames : p ∉ names := by
    intro h
    obtain ⟨k, -, hk, -⟩ := hr.live_of_mem h
    rw [hp] at hk
    cases hk
  have hnochild : Forest.children f.parentOf names p = 0 := by
    by_contra h0
    obtain ⟨c, hcn, hcp⟩ := Forest.exists_up_of_children (Nat.pos_of_ne_zero h0)
    obtain ⟨b, u, j, hb, -, hj⟩ := hr.linked c hcn
    obtain rfl : b = p := Option.some.inj (hb.symm.trans hcp)
    obtain ⟨k, hk, -⟩ := Fuse.exists_of_nodeidOf hj
    rw [hp] at hk
    cases hk
  unfold addNode
  by_cases hmem : f.drawn = true
  swap
  · rw [if_pos hmem]
    exact ⟨f.draw, none, rfl, hctr, Nat.le_refl _,
      .inl ⟨rfl, hr.congr rfl rfl rfl, rfl⟩⟩
  rw [if_neg (not_not.mpr hmem)]
  have hdraw : AtRest f.draw ids names := hr.congr rfl rfl rfl
  obtain ⟨f₁, hnext, heq, hget, hctr₁, hissue⟩ :=
    nextId_spec hdraw.toShape (f := f.draw) hctr hlen
  have hissue₁ : f.issue < f₁.issue := hissue
  have hfresh : ∀ x, f.nodeidOf x ≠ some f₁.ctr := by
    intro x hx
    obtain ⟨k, hk, hkid⟩ := Fuse.exists_of_nodeidOf hx
    have hxids : x ∈ ids := (hr.mem_ids x).mpr (by rw [hk]; rfl)
    rw [hdraw.getNodeNocheck_eq] at hget
    have := List.find?_eq_none.mp (Option.some.inj hget) x hxids
    rw [decide_eq_true_iff] at this
    exact this hx
  have hheap₁ : f₁.heap = f.heap := by rw [heq]; rfl
  have hr₁ : AtRest f₁ ids names :=
    hr.congr hheap₁ (by rw [heq]; rfl) (by rw [heq]; rfl)
  set blank : Node :=
    { nodeid := f₁.ctr, generation := f₁.generation, refctr := 0, parent := none,
      name := none, nlookup := 0, isHidden := false, treelock := 0 } with hblank
  have hp₁ : f₁.heap p = none := by rw [hheap₁, hp]
  have hother : ∀ x, x ≠ p → (f₁.setNode p blank).heap x = f.heap x := by
    intro x hx
    rw [Fuse.heap_setNode_of_ne hx, hheap₁]
  have hshape : Shape (f₁.setNode p blank) ids names fun _ => False := by
    refine hr₁.toShape.addBlank hp₁ hpids rfl rfl fun x hx => hfresh x ?_
    rw [← hx]
    exact (Fuse.nodeidOf_congr (congrFun hheap₁ x)).symm
  have hparents : ∀ c ∈ names, (f₁.setNode p blank).parentOf c = f.parentOf c := by
    intro c hc
    exact Fuse.parentOf_congr (hother c fun h => hpnames (h ▸ hc))
  have hcounted : Counted (f₁.setNode p blank) names fun _ => 0 := by
    intro x k hk
    rw [Forest.children_congr hparents]
    by_cases hx : x = p
    · rw [hx, Fuse.heap_setNode_self] at hk
      obtain rfl := Option.some.inj hk
      rw [hx, hnochild]
      rfl
    · rw [hother x hx] at hk
      exact hr.counted x k hk
  have hn₂ : (f₁.setNode p blank).heap p = some blank := Fuse.heap_setNode_self
  have hm₂ : (f₁.setNode p blank).heap q = some m := by rw [hother q hqp, hm]
  rw [hnext, Option.bind_some]
  dsimp only
  rw [← hblank]
  by_cases hfail : 32 ≤ s.length ∧ ¬ (f₁.setNode p blank).drawn
  · rw [hashName_nomem hshape hqids (Fuse.nodeidOf_eq hm₂) hn₂ hfail, Option.bind_some]
    refine ⟨_, none, rfl, hctr₁, Nat.le_of_lt hissue₁, .inl ⟨rfl, ?_, ?_⟩⟩
    · refine hr₁.congr ?_ rfl rfl
      funext x
      by_cases hx : x = p
      · rw [hx, Fuse.heap_freeNode_self, hp₁]
      · rw [Fuse.heap_freeNode_of_ne hx, Fuse.heap_setNode_of_ne hx, Fuse.draw_heap,
          Fuse.heap_setNode_of_ne hx]
    · funext x
      by_cases hx : x = p
      · rw [hx, Fuse.heap_freeNode_self, hp]
      · rw [Fuse.heap_freeNode_of_ne hx, Fuse.heap_setNode_of_ne hx, Fuse.draw_heap,
          hother x hx]
  have hqnot : ¬ Above (f₁.setNode p blank) names q p := by
    intro h
    refine hqp (Forest.eq_of_above_of_children ?_ h)
    rw [Forest.children_congr hparents, hnochild]
  have hfree : ∀ c ∈ names, (f₁.setNode p blank).parentOf c = some q →
      (f₁.setNode p blank).nameOf c ≠ some s := by
    intro c hc hcq
    rw [hparents c hc] at hcq
    rw [Fuse.nameOf_congr (hother c fun h => hpnames (h ▸ hc))]
    exact hr.lookupNode_none hnone hc hcq (Fuse.nodeidOf_eq hm)
  obtain ⟨f₃, hhash, hshape₃, hcounted₃, huse₃, hid₃, hheap₃, hctr₃, hgen₃⟩ :=
    hashName_spec hshape hcounted hr₁.name_use hqids (Fuse.nodeidOf_eq hm₂) hn₂ hpnames
      hm₂ hqnot hfree hfail
  obtain ⟨t, ht, hholds⟩ := hshape₃.idTable.insert f₃.drawn fun h => hpids p h rfl
  have htuse := LinearHash.Table.insert_use ht
  have hf₃p : f₃.heap p = some { blank with name := some s, parent := some q } := by
    rw [hheap₃, Function.update_self]
  have hf₃q : f₃.heap q = some { m with refctr := m.refctr + 1 } := by
    rw [hheap₃, Function.update_of_ne hqp, Function.update_self]
  have hf₃x : ∀ x, x ≠ p → x ≠ q → f₃.heap x = f.heap x := by
    intro x hxp hxq
    rw [hheap₃, Function.update_of_ne hxp, Function.update_of_ne hxq, hother x hxp]
  rw [hhash, Option.bind_some]
  dsimp only
  rw [if_pos rfl]
  unfold hashId
  rw [ht, Option.map_some, Option.bind_some]
  set f₄ : Fuse := { f₃.draw with idTable := t } with hf₄
  have hc₄ : Consistent f₄ (p :: ids) (p :: names) (fun _ => False) (fun _ => 0) 0 := by
    constructor
    case toShape =>
      exact ⟨hholds, hshape₃.nameTable, hshape₃.nodeid_inj, hshape₃.linked,
        hshape₃.name_inj, hshape₃.mem_names, hshape₃.unnamed, hshape₃.acyclic⟩
    case mem_ids =>
      intro x
      change x ∈ p :: ids ↔ (f₃.heap x).isSome
      rw [List.mem_cons, hr.mem_ids]
      by_cases hxp : x = p
      · simp [hxp, hf₃p]
      by_cases hxq : x = q
      · simp [hxq, hf₃q, hm]
      · rw [hf₃x x hxp hxq, or_iff_right hxp]
    case counted => exact hcounted₃
    case id_use =>
      change t.use = _
      rw [htuse, hid₃]
      change f₁.idTable.use + 1 = _
      rw [hr₁.id_use, List.length_cons]
    case name_use => exact huse₃
    case root =>
      obtain ⟨r, k, hrk, hrid, hrpar, hrlook⟩ := hr.root
      have hrp : r ≠ p := by
        rintro rfl
        rw [hp] at hrk
        cases hrk
      by_cases hrq : r = q
      · rw [hrq, hm] at hrk
        obtain rfl := Option.some.inj hrk
        exact ⟨q, _, hf₃q, hrid, hrpar, hrlook⟩
      · exact ⟨r, k, (hf₃x r hrp hrq).trans hrk, hrid, hrpar, hrlook⟩
  have hc₅ := hc₄.incNlookup (show f₄.heap p = _ from hf₃p)
  rw [incNlookup_eq (show f₄.heap p = _ from hf₃p), Option.map_some]
  have hnew : ({ { blank with name := some s, parent := some q } with
      refctr := if blank.nlookup = 0 then blank.refctr + 1 else blank.refctr
      nlookup := blank.nlookup + 1 } : Node) = newNode f₄ q s := by
    rw [hf₄, newNode]
    dsimp only [Fuse.draw]
    rw [hctr₃, hgen₃]
    rfl
  refine ⟨_, some p, rfl, ?_, ?_, .inr ⟨rfl, ⟨hc₅, ?_⟩, ?_, ?_⟩⟩
  · change f₃.ctr < 2 ^ 32
    rw [hctr₃]
    exact hctr₁
  · unfold Fuse.issue at hissue₁ ⊢
    change _ ≤ f₃.generation * 2 ^ 32 + f₃.ctr
    rw [hctr₃, hgen₃]
    exact Nat.le_of_lt hissue₁
  · intro x k hk
    by_cases hxp : x = p
    · rw [hxp, Fuse.heap_setNode_self] at hk
      obtain rfl := Option.some.inj hk
      exact Nat.succ_pos _
    · rw [Fuse.heap_setNode_of_ne hxp] at hk
      change f₃.heap x = some k at hk
      by_cases hxq : x = q
      · rw [hxq, hf₃q] at hk
        obtain rfl := Option.some.inj hk
        exact Nat.succ_pos _
      · rw [hf₃x x hxp hxq] at hk
        exact hr.alive x k hk
  · unfold Fuse.issue at hissue₁ ⊢
    change _ < f₃.generation * 2 ^ 32 + f₃.ctr
    rw [hctr₃, hgen₃]
    exact hissue₁
  · funext x
    by_cases hxp : x = p
    · rw [hxp, Fuse.heap_setNode_self, Function.update_self]
      exact congrArg some hnew
    · rw [Fuse.heap_setNode_of_ne hxp, Function.update_of_ne hxp]
      change f₃.heap x = _
      by_cases hxq : x = q
      · rw [hxq, hf₃q, Function.update_self]
      · rw [hf₃x x hxp hxq, Function.update_of_ne hxq]

def lookedUp (n : Node) : Node :=
  { n with
    refctr := if n.nlookup = 0 then n.refctr + 1 else n.refctr
    nlookup := n.nlookup + 1 }

theorem AtRest.lookedUp (hr : AtRest f ids names) (hn : f.heap p = some n) :
    AtRest (f.setNode p (Libfuse.lookedUp n)) ids names := by
  refine ⟨hr.toConsistent.incNlookup hn, ?_⟩
  intro x k hk
  by_cases hx : x = p
  · rw [hx, Fuse.heap_setNode_self] at hk
    obtain rfl := Option.some.inj hk
    have := hr.alive p n hn
    unfold Libfuse.lookedUp
    dsimp only
    split_ifs <;> omega
  · rw [Fuse.heap_setNode_of_ne hx] at hk
    exact hr.alive x k hk

/-- What `find_node` does: a node is looked up once more, one is added below `q`, or
there is no memory. -/
inductive Found (f f' : Fuse) (q : Ptr) (m : Node) (name : Option Name) (addr : Ptr) :
    Option Ptr → Prop
  | again (p : Ptr) (n : Node) (hn : f.heap p = some n)
      (hname : ∀ s, name = some s → n.parent = some q ∧ n.name = some s)
      (hself : name = none → p = q) (h : f' = f.setNode p (lookedUp n)) :
      Found f f' q m name addr (some p)
  | added (s : Name) (hname : name = some s) (hissue : f.issue < f'.issue)
      (h : f'.heap = Function.update
        (Function.update f.heap q (some { m with refctr := m.refctr + 1 })) addr
        (some (newNode f' q s))) : Found f f' q m name addr (some addr)
  | nomem (h : f'.heap = f.heap) : Found f f' q m name addr none

theorem findNode_spec (hr : AtRest f ids names) (hctr : f.ctr < 2 ^ 32)
    (hlen : ids.length + 2 < 2 ^ 32) (hm : f.heap q = some m) (hp : f.heap p = none)
    (name : Option Name) :
    ∃ f' r ids' names', findNode f m.nodeid name p = some (f', r) ∧
      AtRest f' ids' names' ∧ f'.ctr < 2 ^ 32 ∧ f.issue ≤ f'.issue ∧
      Found f f' q m name p r := by
  have hqids : q ∈ ids := (hr.mem_ids q).mpr (by rw [hm]; rfl)
  cases name with
  | none =>
      unfold findNode
      dsimp only
      rw [hr.getNode_eq_some hqids (Fuse.nodeidOf_eq hm), Option.bind_some,
        incNlookup_eq hm, Option.map_some]
      exact ⟨_, _, ids, names, rfl, hr.lookedUp hm, hctr, Nat.le_refl _,
        .again q m hm (by simp) (fun _ => rfl) rfl⟩
  | some s =>
      cases hfound : names.find? fun c =>
          (f.parentOf c).bind f.nodeidOf = some m.nodeid ∧ f.nameOf c = some s with
      | some c =>
          have hlook : lookupNode f m.nodeid s = some (some c) := by
            rw [hr.lookupNode_eq, hfound]
          obtain ⟨-, b, hb, hbid, hname⟩ := hr.lookupNode_some hlook
          obtain ⟨n, hn, hnb⟩ := Fuse.exists_of_parentOf hb
          obtain rfl := hr.nodeid_inj b q m.nodeid hbid (Fuse.nodeidOf_eq hm)
          unfold findNode
          dsimp only
          rw [hlook, Option.bind_some]
          dsimp only
          rw [incNlookup_eq hn, Option.map_some]
          refine ⟨_, _, ids, names, rfl, hr.lookedUp hn, hctr, Nat.le_refl _,
            .again c n hn ?_ (by simp) rfl⟩
          intro u hu
          obtain rfl := Option.some.inj hu
          rw [Fuse.nameOf_eq hn] at hname
          exact ⟨hnb, hname⟩
      | none =>
          have hlook : lookupNode f m.nodeid s = some none := by
            rw [hr.lookupNode_eq, hfound]
          unfold findNode
          dsimp only
          rw [hlook, Option.bind_some]
          dsimp only
          obtain ⟨f', r, hadd, hctr', hissue, hcases⟩ :=
            addNode_spec hr hctr hlen hm hp hlook
          refine ⟨f', r, ?_⟩
          rcases hcases with ⟨rfl, hr', hheap⟩ | ⟨rfl, hr', hlt, hheap⟩
          · exact ⟨ids, names, hadd, hr', hctr', hissue, .nomem hheap⟩
          · exact ⟨p :: ids, p :: names, hadd, hr', hctr', hissue, .added s rfl hlt hheap⟩

end Mergerfs.Libfuse
