import Mergerfs.Libfuse.NodeAdd
import Mathlib.Tactic.Tauto

/-!
# Forgetting, removing and renaming nodes

`forget_node` gives back lookups of the kernel, and the node is freed when it was the
last reference. `remove_node` and `rename_node` take a node out of its place, and
`rename_node` puts it elsewhere, over the node that is there. All of them leave a state
at rest, keep the nodes that the kernel knows, and leave the others in their places.
-/

namespace Mergerfs.Libfuse

variable {f f' : Fuse} {ids names : List Ptr} {p q x : Ptr} {n m : Node} {i : Ino}
  {s : Name}

/-! ## Forgetting a node -/

structure Forgotten (f f' : Fuse) (p : Ptr) (k : ℕ) : Prop where
  sub : ∀ x m, f'.heap x = some m → ∃ n, f.heap x = some n ∧
    m = { n with refctr := m.refctr, nlookup := if x = p then n.nlookup - k else n.nlookup }
  gone : ∀ x n, f.heap x = some n → f'.heap x = none →
    n.nlookup = 0 ∨ x = p ∧ n.nlookup = k

theorem forgetNode_spec (hr : AtRest f ids names) (hn : f.heap p = some n)
    (hroot : n.nodeid ≠ fuseRootId) {k : ℕ} (hk : 0 < k) (hle : k ≤ n.nlookup)
    (hwait : forgetWaits f p k = false) (hpin : LocksPinned f names) :
    ∃ f' ids' names', forgetNode f n.nodeid k = some f' ∧ AtRest f' ids' names' ∧
      f'.ctr = f.ctr ∧ f'.generation = f.generation ∧ Forgotten f f' p k := by
  have hpids : p ∈ ids := (hr.mem_ids p).mpr (by rw [hn]; rfl)
  have hcount := hr.counted p n hn
  rw [if_pos (by omega)] at hcount
  have hother : ∀ x, x ≠ p →
      (f.setNode p { n with nlookup := n.nlookup - k }).heap x = f.heap x :=
    fun x hx => Fuse.heap_setNode_of_ne hx
  have hsame : (f.setNode p { n with nlookup := n.nlookup - k }).parentOf = f.parentOf :=
    (Fuse.sameNames_setNode (m := { n with nlookup := n.nlookup - k }) hn rfl rfl
      rfl).parent
  have hback : ∀ x l, (f.setNode p { n with nlookup := n.nlookup - k }).heap x = some l →
      ∃ l', f.heap x = some l' ∧
        l = { l' with nlookup := if x = p then l'.nlookup - k else l'.nlookup } := by
    intro x l hl
    by_cases hx : x = p
    · rw [hx, Fuse.heap_setNode_self] at hl
      obtain rfl := Option.some.inj hl
      exact ⟨n, hx ▸ hn, by rw [if_pos hx]⟩
    · rw [hother x hx] at hl
      exact ⟨l, hl, by rw [if_neg hx]⟩
  -- an unlocked node pins nothing
  have hpinned : n.nlookup = k ∨ k < n.nlookup := by omega
  have hpin' : LocksPinned (f.setNode p { n with nlookup := n.nlookup - k }) names := by
    intro x l hl hlock
    obtain ⟨l', hl', heq⟩ := hback x l hl
    rw [heq] at hlock
    obtain ⟨y, j, hy, hj, hpos, hylock⟩ := hpin x l' hl' hlock
    by_cases hyp : y = p
    · rw [hyp, hn] at hj
      obtain rfl := Option.some.inj hj
      refine ⟨p, _, by rw [Above, hsame]; exact hyp ▸ hy, Fuse.heap_setNode_self, ?_,
        hylock⟩
      dsimp only
      rcases hpinned with heq | hlt
      · unfold forgetWaits at hwait
        rw [hn] at hwait
        simp [heq] at hwait
        exact absurd hwait hylock
      · omega
    · exact ⟨y, j, by rw [Above, hsame]; exact hy, (hother y hyp).trans hj, hpos, hylock⟩
  unfold forgetNode
  rw [if_neg hroot, hr.getNode_eq_some hpids (Fuse.nodeidOf_eq hn), Option.bind_some, hn,
    Option.bind_some, if_neg (by omega)]
  dsimp only
  split_ifs with hlast
  · have hc₁ : Consistent (f.setNode p { n with nlookup := n.nlookup - k }) ids names
        (fun _ => False) (bump (fun _ => 0) p) 0 := by
      refine hr.toConsistent.setNode hn rfl rfl rfl ?_ ?_ fun h => absurd h hroot
      · unfold bump
        dsimp only
        rw [if_pos rfl, if_neg (by omega)]
        omega
      · intro x hx
        unfold bump
        rw [if_neg hx]
    obtain ⟨f', ids', names', hunref, hc', hdrops⟩ :=
      unrefNode_spec (names.length + 1) _ ids names _ _ 0 p _ hc₁ (Nat.lt_succ_self _)
        Fuse.heap_setNode_self (fun _ _ => id) hpin'
    refine ⟨f', ids', names', hunref, ⟨hc', ?_⟩, hdrops.ctr, hdrops.generation, ?_, ?_⟩
    · intro x l hl
      obtain ⟨l₁, hl₁, -⟩ := hdrops.sub x l hl
      refine hdrops.alive x l₁ l hl₁ hl ?_
      obtain ⟨l', hl', heq⟩ := hback x l₁ hl₁
      rw [heq]
      exact hr.alive x l' hl'
    · intro x l hl
      obtain ⟨l₁, hl₁, heq₁⟩ := hdrops.sub x l hl
      obtain ⟨l', hl', heq⟩ := hback x l₁ hl₁
      refine ⟨l', hl', ?_⟩
      calc l = { l₁ with refctr := l.refctr } := heq₁
        _ = _ := by rw [heq]
    · intro x l hl hgone
      by_cases hx : x = p
      · rw [hx, hn] at hl
        obtain rfl := Option.some.inj hl
        exact .inr ⟨hx, by omega⟩
      · exact .inl (hdrops.gone x l ((hother x hx).trans hl) hgone)
  · refine ⟨_, ids, names, rfl, ⟨?_, ?_⟩, rfl, rfl, ?_, ?_⟩
    · refine hr.toConsistent.setNode hn rfl rfl rfl ?_ (fun _ _ => rfl)
        fun h => absurd h hroot
      dsimp only
      rw [if_pos (by omega)]
      exact hcount
    · intro x l hl
      obtain ⟨l', hl', heq⟩ := hback x l hl
      rw [heq]
      exact hr.alive x l' hl'
    · intro x l hl
      obtain ⟨l', hl', heq⟩ := hback x l hl
      refine ⟨l', hl', ?_⟩
      rw [heq]
    · intro x l hl hgone
      by_cases hx : x = p
      · rw [hx, Fuse.heap_setNode_self] at hgone
        cases hgone
      · rw [hother x hx, hl] at hgone
        cases hgone

/-! ## Taking names away and giving them anew -/

/-- Nodes keep what they are, and their places except for those that are `moved`; the
others may go if the kernel does not know them. -/
structure Moves (f f' : Fuse) (moved : Ptr → Prop) : Prop where
  node : ∀ x m, f'.heap x = some m → ∃ n, f.heap x = some n ∧ m.nodeid = n.nodeid ∧
    m.generation = n.generation ∧ m.nlookup = n.nlookup ∧ m.treelock = n.treelock ∧
    (¬ moved x → m.parent = n.parent ∧ m.name = n.name)
  gone : ∀ x n, f.heap x = some n → f'.heap x = none → n.nlookup = 0

theorem Moves.refl (f : Fuse) (moved : Ptr → Prop) : Moves f f moved where
  node x m hm := ⟨m, hm, rfl, rfl, rfl, rfl, fun _ => ⟨rfl, rfl⟩⟩
  gone x n hn hnone := by
    rw [hn] at hnone
    cases hnone

theorem Moves.trans {g : Fuse} {moved : Ptr → Prop} (h : Moves f g moved)
    (h' : Moves g f' moved) : Moves f f' moved where
  node x m hm := by
    obtain ⟨k, hk, hid, hgen, hlook, hlock, hplace⟩ := h'.node x m hm
    obtain ⟨n, hn, hid', hgen', hlook', hlock', hplace'⟩ := h.node x k hk
    refine ⟨n, hn, hid.trans hid', hgen.trans hgen', hlook.trans hlook',
      hlock.trans hlock', fun hx => ?_⟩
    exact ⟨(hplace hx).1.trans (hplace' hx).1, (hplace hx).2.trans (hplace' hx).2⟩
  gone x n hn hnone := by
    cases hk : g.heap x with
    | none => exact h.gone x n hn hk
    | some k =>
        obtain ⟨n', hn', -, -, hlook, -⟩ := h.node x k hk
        rw [hn] at hn'
        obtain rfl := Option.some.inj hn'
        rw [← hlook]
        exact h'.gone x k hk hnone

theorem Moves.mono {moved moved' : Ptr → Prop} (h : Moves f f' moved)
    (hsub : ∀ x, moved x → moved' x) : Moves f f' moved' where
  node x m hm := by
    obtain ⟨n, hn, hid, hgen, hlook, hlock, hplace⟩ := h.node x m hm
    exact ⟨n, hn, hid, hgen, hlook, hlock, fun hx => hplace fun hx' => hx (hsub x hx')⟩
  gone := h.gone

theorem Moves.known {moved : Ptr → Prop} (h : Moves f f' moved) (hn : f.heap x = some n)
    (hpos : 0 < n.nlookup) :
    ∃ m, f'.heap x = some m ∧ m.nodeid = n.nodeid ∧ m.nlookup = n.nlookup := by
  cases hm : f'.heap x with
  | none =>
      have := h.gone x n hn hm
      omega
  | some m =>
      obtain ⟨n', hn', hid, -, hlook, -⟩ := h.node x m hm
      rw [hn] at hn'
      obtain rfl := Option.some.inj hn'
      exact ⟨m, rfl, hid, hlook⟩

theorem Moves.place {moved : Ptr → Prop} (h : Moves f f' moved) (hx : ¬ moved x)
    (hlive : (f'.heap x).isSome) :
    f'.parentOf x = f.parentOf x ∧ f'.nameOf x = f.nameOf x := by
  obtain ⟨m, hm⟩ := Option.isSome_iff_exists.mp hlive
  obtain ⟨n, hn, -, -, -, -, hkeep⟩ := h.node x m hm
  rw [Fuse.parentOf_eq hm, Fuse.nameOf_eq hm, Fuse.parentOf_eq hn, Fuse.nameOf_eq hn]
  exact hkeep hx

/-- If one node is moved, to `q` or nowhere, the others have the parents they had. -/
theorem Moves.parentOf_or (h : Moves f f' (· = p)) (hp : ∀ b, f'.parentOf p = some b → b = q)
    {b : Ptr} (hb : f'.parentOf x = some b) : f.parentOf x = some b ∨ b = q := by
  by_cases hx : x = p
  · exact .inr (hp b (hx ▸ hb))
  · obtain ⟨m, hm, -⟩ := Fuse.exists_of_parentOf hb
    rw [← (h.place hx (by rw [hm]; rfl)).1]
    exact .inl hb

theorem unlinkNode_spec (hr : AtRest f ids names) (hp : p ∈ names)
    (hpin : LocksPinned f (names.erase p)) :
    ∃ f' ids' names', unlinkNode f p = some f' ∧ AtRest f' ids' names' ∧
      f'.ctr = f.ctr ∧ f'.generation = f.generation ∧ Moves f f' (· = p) ∧
      (∃ m, f'.heap p = some m ∧ m.name = none ∧ m.parent = none) ∧
      (∀ x, ¬ Above f names p x → f'.heap x = f.heap x) ∧
      ∀ x, x ∈ names' ↔ x ∈ names ∧ x ≠ p ∧ (f'.heap x).isSome := by
  obtain ⟨n, q, hn, hq⟩ := hr.live_of_mem hp
  obtain ⟨f', g, ids', names', hunhash, hc, hdrops, hgp, hheap, hctr, hgen⟩ :=
    unhashName_spec (unrefNode_spec names.length) hr.toConsistent (Nat.le_refl _) hp hn hq
      (fun _ _ => id) hpin
  have hself : f'.heap p = some { n with name := none, parent := none } := by
    rw [hheap, Function.update_self]
  have hother : ∀ x, x ≠ p → f'.heap x = g.heap x := by
    intro x hx
    rw [hheap, Function.update_of_ne hx]
  refine ⟨f', ids', names', hunhash, ⟨hc, ?_⟩, hctr.trans hdrops.ctr,
    hgen.trans hdrops.generation, ⟨?_, ?_⟩, ⟨_, hself, rfl, rfl⟩, ?_, ?_⟩
  · intro x k hk
    by_cases hx : x = p
    · rw [hx, hself] at hk
      obtain rfl := Option.some.inj hk
      exact hr.alive p n hn
    · rw [hother x hx] at hk
      obtain ⟨l, hl, -⟩ := hdrops.sub x k hk
      exact hdrops.alive x l k hl hk (hr.alive x l hl)
  · intro x k hk
    by_cases hx : x = p
    · rw [hx, hself] at hk
      obtain rfl := Option.some.inj hk
      exact ⟨n, hx ▸ hn, rfl, rfl, rfl, rfl, fun h => absurd hx h⟩
    · rw [hother x hx] at hk
      obtain ⟨l, hl, heq⟩ := hdrops.sub x k hk
      refine ⟨l, hl, ?_, ?_, ?_, ?_, fun _ => ⟨?_, ?_⟩⟩ <;> rw [heq]
  · intro x k hk hgone
    have hx : x ≠ p := by
      rintro rfl
      rw [hself] at hgone
      cases hgone
    rw [hother x hx] at hgone
    exact hdrops.gone x k hk hgone
  · intro x hx
    rw [hother x fun h => hx (h ▸ .refl)]
    refine hdrops.other x fun h => hx (.head ⟨hp, ?_⟩ h.mono_erase)
    rw [Fuse.parentOf_eq hn, hq]
  · intro x
    rw [hdrops.names x, hr.nameTable.nodup.mem_erase_iff]
    by_cases hx : x = p
    · simp [hx]
    · rw [hother x hx]
      tauto

theorem removeNode_spec (hr : AtRest f ids names)
    (hpin : ∀ p, lookupNode f i s = some (some p) → LocksPinned f (names.erase p)) :
    ∃ f' ids' names', removeNode f i s = some f' ∧ AtRest f' ids' names' ∧
      f'.ctr = f.ctr ∧ f'.generation = f.generation ∧
      Moves f f' (fun x => lookupNode f i s = some (some x)) ∧
      ∀ p, lookupNode f i s = some (some p) →
        ∃ m, f'.heap p = some m ∧ m.name = none ∧ m.parent = none := by
  unfold removeNode
  obtain ⟨found, hfound⟩ : ∃ found, lookupNode f i s = some found :=
    ⟨_, hr.lookupNode_eq i s⟩
  rw [hfound, Option.bind_some]
  cases found with
  | none =>
      refine ⟨f, ids, names, rfl, hr, rfl, rfl, .refl f _, ?_⟩
      intro p hp
      cases hp
  | some p =>
      obtain ⟨f', ids', names', hunlink, hr', hctr, hgen, hmoves, hself, -, -⟩ :=
        unlinkNode_spec hr (hr.lookupNode_some hfound).1 (hpin p hfound)
      refine ⟨f', ids', names', hunlink, hr', hctr, hgen, ?_, ?_⟩
      · exact hmoves.mono fun x hx => by rw [hx]
      · intro x hx
        obtain rfl : p = x := Option.some.inj (Option.some.inj hx)
        exact hself

theorem AtRest.hashName (hr : AtRest f ids names) (hn : f.heap p = some n)
    (hp : p ∉ names) (hroot : n.nodeid ≠ fuseRootId) (hm : f.heap q = some m)
    (hqp : ¬ Above f names q p)
    (hfree : ∀ c ∈ names, f.parentOf c = some q → f.nameOf c ≠ some s)
    (hmem : ¬ (32 ≤ s.length ∧ ¬ f.drawn)) :
    ∃ f', hashName f p m.nodeid s = some (f', true) ∧ AtRest f' ids (p :: names) ∧
      f'.ctr = f.ctr ∧ f'.generation = f.generation ∧ Moves f f' (· = p) ∧
      f'.heap p = some { n with name := some s, parent := some q } := by
  have hq : q ∈ ids := (hr.mem_ids q).mpr (by rw [hm]; rfl)
  obtain ⟨f', hhash, hshape, hcounted, huse, hid, hheap, hctr, hgen⟩ :=
    hashName_spec hr.toShape hr.counted hr.name_use hq (Fuse.nodeidOf_eq hm) hn hp hm hqp
      hfree hmem
  have hne : q ≠ p := fun h => hqp (h ▸ .refl)
  have hself : f'.heap p = some { n with name := some s, parent := some q } := by
    rw [hheap, Function.update_self]
  have hparent : f'.heap q = some { m with refctr := m.refctr + 1 } := by
    rw [hheap, Function.update_of_ne hne, Function.update_self]
  have hother : ∀ x, x ≠ p → x ≠ q → f'.heap x = f.heap x := by
    intro x hxp hxq
    rw [hheap, Function.update_of_ne hxp, Function.update_of_ne hxq]
  -- every node is one that was there, with its counts and its place but for `p`
  have hnode : ∀ x k, f'.heap x = some k → ∃ l, f.heap x = some l ∧
      l.refctr ≤ k.refctr ∧ k.nodeid = l.nodeid ∧ k.generation = l.generation ∧
      k.nlookup = l.nlookup ∧ k.treelock = l.treelock ∧
      (x ≠ p → k.parent = l.parent ∧ k.name = l.name) := by
    intro x k hk
    by_cases hxp : x = p
    · rw [hxp, hself] at hk
      obtain rfl := Option.some.inj hk
      exact ⟨n, hxp ▸ hn, Nat.le_refl _, rfl, rfl, rfl, rfl, fun h => absurd hxp h⟩
    by_cases hxq : x = q
    · rw [hxq, hparent] at hk
      obtain rfl := Option.some.inj hk
      exact ⟨m, hxq ▸ hm, Nat.le_succ _, rfl, rfl, rfl, rfl, fun _ => ⟨rfl, rfl⟩⟩
    · rw [hother x hxp hxq] at hk
      exact ⟨k, hk, Nat.le_refl _, rfl, rfl, rfl, rfl, fun _ => ⟨rfl, rfl⟩⟩
  have hlive : ∀ x, (f'.heap x).isSome = (f.heap x).isSome := by
    intro x
    by_cases hxp : x = p
    · rw [hxp, hself, hn]
      rfl
    by_cases hxq : x = q
    · rw [hxq, hparent, hm]
      rfl
    · rw [hother x hxp hxq]
  refine ⟨f', hhash, ⟨⟨hshape, ?_, hcounted, ?_, huse, ?_⟩, ?_⟩, hctr, hgen, ⟨?_, ?_⟩,
    hself⟩
  · intro x
    rw [hr.mem_ids, hlive]
  · rw [hid, hr.id_use]
  · obtain ⟨r, k, hrk, hrid, hrpar, hrlook⟩ := hr.root
    have hrp : r ≠ p := by
      rintro rfl
      rw [hn] at hrk
      obtain rfl := Option.some.inj hrk
      exact hroot hrid
    by_cases hrq : r = q
    · rw [hrq, hm] at hrk
      obtain rfl := Option.some.inj hrk
      exact ⟨q, _, hparent, hrid, hrpar, hrlook⟩
    · exact ⟨r, k, (hother r hrp hrq).trans hrk, hrid, hrpar, hrlook⟩
  · intro x k hk
    obtain ⟨l, hl, hle, -⟩ := hnode x k hk
    exact Nat.lt_of_lt_of_le (hr.alive x l hl) hle
  · intro x k hk
    obtain ⟨l, hl, -, hrest⟩ := hnode x k hk
    exact ⟨l, hl, hrest⟩
  · intro x k hk hnone
    have := hlive x
    rw [hk, hnone] at this
    cases this

theorem LocksPinned.mono {names' : List Ptr} (h : LocksPinned f names)
    (hsub : ∀ x ∈ names, x ∈ names') : LocksPinned f names' := by
  intro x k hk hlock
  obtain ⟨y, l, hy, hrest⟩ := h x k hk hlock
  exact ⟨y, l, hy.mono hsub fun _ _ => rfl, hrest⟩

/-- The locks stay pinned as long as the ways up from the known nodes stay. -/
theorem Moves.locksPinned {names' : List Ptr} {moved : Ptr → Prop}
    (h : Moves f f' moved) (hpin : LocksPinned f names)
    (hstep : ∀ a b, Up f names a b → (f'.heap a).isSome →
      Up f' names' a b ∧ (f'.heap b).isSome) : LocksPinned f' names' := by
  intro x k hk hlock
  obtain ⟨l, hl, -, -, -, hlocks, -⟩ := h.node x k hk
  rw [hlocks] at hlock
  obtain ⟨y, j, hy, hj, hpos, hylock⟩ := hpin x l hl hlock
  obtain ⟨j', hj', -, hlook⟩ := h.known hj hpos
  have habove : (f'.heap y).isSome → Above f' names' y x := by
    clear hj hj'
    induction hy using Relation.ReflTransGen.head_induction_on with
    | refl => exact fun _ => .refl
    | head hab _ ih =>
        intro ha
        obtain ⟨hab', hb⟩ := hstep _ _ hab ha
        exact .head hab' (ih hb)
  obtain ⟨j'', hj'', -, -, -, hlocks', -⟩ := h.node y j' hj'
  rw [hj] at hj''
  obtain rfl := Option.some.inj hj''
  exact ⟨y, j', habove (by rw [hj']; rfl), hj', hlook ▸ hpos, hlocks' ▸ hylock⟩

theorem AtRest.hide (hr : AtRest f ids names) (hn : f.heap p = some n) :
    AtRest (f.setNode p { n with isHidden := true }) ids names ∧
      Moves f (f.setNode p { n with isHidden := true }) (· = p) := by
  refine ⟨⟨?_, ?_⟩, ?_, ?_⟩
  · refine hr.toConsistent.setNode hn rfl rfl rfl (hr.counted p n hn) (fun _ _ => rfl) ?_
    intro hid
    by_contra hzero
    exact hr.ne_root hn (Nat.eq_zero_of_not_pos hzero) hid
  · intro x k hk
    by_cases hx : x = p
    · rw [hx, Fuse.heap_setNode_self] at hk
      obtain rfl := Option.some.inj hk
      exact hr.alive p n hn
    · rw [Fuse.heap_setNode_of_ne hx] at hk
      exact hr.alive x k hk
  · intro x k hk
    by_cases hx : x = p
    · rw [hx, Fuse.heap_setNode_self] at hk
      obtain rfl := Option.some.inj hk
      exact ⟨n, hx ▸ hn, rfl, rfl, rfl, rfl, fun h => absurd hx h⟩
    · rw [Fuse.heap_setNode_of_ne hx] at hk
      exact ⟨k, hk, rfl, rfl, rfl, rfl, fun _ => ⟨rfl, rfl⟩⟩
  · intro x k hk hnone
    by_cases hx : x = p
    · rw [hx, Fuse.heap_setNode_self] at hnone
      cases hnone
    · rw [Fuse.heap_setNode_of_ne hx, hk] at hnone
      cases hnone

/-- The state in which `p` has no name any more: at once, or once it is unlinked. -/
theorem unlinked_spec (hr : AtRest f ids names) (hn : f.heap p = some n)
    (hp : p ∈ names ∨ n.name = none ∧ n.parent = none)
    (hpin : LocksPinned f (names.erase p)) :
    ∃ f' ids' names', unlinkNode f p = some f' ∧ AtRest f' ids' names' ∧
      f'.ctr = f.ctr ∧ f'.generation = f.generation ∧ Moves f f' (· = p) ∧
      (∃ m, f'.heap p = some m ∧ m.name = none ∧ m.parent = none) ∧
      (∀ x, ¬ Above f names p x → f'.heap x = f.heap x) ∧
      ∀ x, x ∈ names' ↔ x ∈ names ∧ x ≠ p ∧ (f'.heap x).isSome := by
  rcases hp with hp | ⟨hname, hparent⟩
  · exact unlinkNode_spec hr hp hpin
  · refine ⟨f, ids, names, ?_, hr, rfl, rfl, .refl f _, ⟨n, hn, hname, hparent⟩,
      fun _ _ => rfl, ?_⟩
    · unfold unlinkNode unhashName
      rw [hn, Option.bind_some, if_pos hname]
    · intro x
      refine ⟨fun hx => ?_, fun hx => hx.1⟩
      obtain ⟨k, b, hk, hb⟩ := hr.live_of_mem hx
      refine ⟨hx, ?_, by rw [hk]; rfl⟩
      rintro rfl
      rw [hn] at hk
      obtain rfl := Option.some.inj hk
      rw [hparent] at hb
      cases hb

theorem relink_spec (hr : AtRest f ids names) (hn : f.heap p = some n)
    (hp : p ∈ names ∨ n.name = none ∧ n.parent = none) (hroot : n.nodeid ≠ fuseRootId)
    (hm : f.heap q = some m) (hpos : 0 < m.nlookup) (hqp : ¬ Above f names q p)
    (hfree : ∀ c ∈ names, c ≠ p → f.parentOf c = some q → f.nameOf c ≠ some s)
    (hide : Bool) (hpin : LocksPinned f (names.erase p)) :
    ∃ f' r ids' names', relink f p m.nodeid s hide = some (f', r) ∧
      AtRest f' ids' names' ∧ f'.ctr = f.ctr ∧ f'.generation = f.generation ∧
      Moves f f' (· = p) ∧ (∀ b, f'.parentOf p = some b → b = q) ∧
      ∃ k, f'.heap p = some k ∧
        (r = .ok → k.parent = some q ∧ k.name = some s ∧ (hide → k.isHidden)) := by
  obtain ⟨f₁, ids₁, names₁, hunlink, hr₁, hctr₁, hgen₁, hmoves₁, ⟨n₁, hn₁, hname₁, hpar₁⟩,
    -, hnames₁⟩ := unlinked_spec hr hn hp hpin
  obtain ⟨m₁, hm₁, hmid, hmlook⟩ := hmoves₁.known hm hpos
  have hpn₁ : p ∉ names₁ := fun h => ((hnames₁ p).mp h).2.1 rfl
  have hq₁ : q ∈ ids₁ := (hr₁.mem_ids q).mpr (by rw [hm₁]; rfl)
  -- the other names are where they were
  have hplace : ∀ x ∈ names₁, f₁.parentOf x = f.parentOf x ∧ f₁.nameOf x = f.nameOf x := by
    intro x hx
    obtain ⟨-, hxp, hlive⟩ := (hnames₁ x).mp hx
    exact hmoves₁.place hxp hlive
  have hroot₁ : n₁.nodeid ≠ fuseRootId := by
    obtain ⟨l, hl, hid, -⟩ := hmoves₁.node p n₁ hn₁
    rw [hn] at hl
    obtain rfl := Option.some.inj hl
    rwa [hid]
  have hqp₁ : ¬ Above f₁ names₁ q p := fun h =>
    hqp (h.mono (fun x hx => ((hnames₁ x).mp hx).1) fun x hx => (hplace x hx).1)
  have hfree₁ : ∀ c ∈ names₁, f₁.parentOf c = some q → f₁.nameOf c ≠ some s := by
    intro c hc
    rw [(hplace c hc).1, (hplace c hc).2]
    exact hfree c ((hnames₁ c).mp hc).1 ((hnames₁ c).mp hc).2.1
  unfold relink
  rw [hunlink, Option.bind_some, ← hmid]
  by_cases hfail : 32 ≤ s.length ∧ ¬ f₁.drawn
  · rw [hashName_nomem hr₁.toShape hq₁ (Fuse.nodeidOf_eq hm₁) hn₁ hfail, Option.bind_some]
    have hsame : (f₁.draw.setNode p { n₁ with name := none }).heap = f₁.heap := by
      funext x
      by_cases hx : x = p
      · rw [hx, Fuse.heap_setNode_self, hn₁, ← hname₁]
      · rw [Fuse.heap_setNode_of_ne hx, Fuse.draw_heap]
    have hself : (f₁.draw.setNode p { n₁ with name := none }).heap p = some n₁ := by
      rw [hsame, hn₁]
    refine ⟨_, _, ids₁, names₁, rfl, hr₁.congr hsame rfl rfl, hctr₁, hgen₁, ?_, ?_, n₁,
      hself, RenameResult.noConfusion⟩
    · constructor
      · intro x k hk
        rw [hsame] at hk
        exact hmoves₁.node x k hk
      · intro x k hk hnone
        rw [hsame] at hnone
        exact hmoves₁.gone x k hk hnone
    · intro b hb
      rw [Fuse.parentOf_eq hself, hpar₁] at hb
      cases hb
  · obtain ⟨f₂, hhash, hr₂, hctr₂, hgen₂, hmoves₂, hself₂⟩ :=
      hr₁.hashName hn₁ hpn₁ hroot₁ hm₁ hqp₁ hfree₁ hfail
    have hmoves := hmoves₁.trans hmoves₂
    rw [hhash, Option.bind_some]
    dsimp only
    rw [if_pos rfl, hself₂, Option.map_some]
    cases hide with
    | false =>
        refine ⟨f₂, .ok, ids₁, p :: names₁, rfl, hr₂, hctr₂.trans hctr₁, hgen₂.trans hgen₁,
          hmoves, fun b hb => ?_, _, hself₂, fun _ => ⟨rfl, rfl, nofun⟩⟩
        rw [Fuse.parentOf_eq hself₂] at hb
        exact (Option.some.inj hb).symm
    | true =>
        obtain ⟨hr₃, hmark⟩ := hr₂.hide hself₂
        refine ⟨_, _, ids₁, p :: names₁, rfl, hr₃, hctr₂.trans hctr₁, hgen₂.trans hgen₁,
          hmoves.trans hmark, fun b hb => ?_, _, Fuse.heap_setNode_self,
          fun _ => ⟨rfl, rfl, fun _ => rfl⟩⟩
        rw [if_pos rfl, Fuse.parentOf_eq Fuse.heap_setNode_self] at hb
        exact (Option.some.inj hb).symm

def untouched (f : Fuse) (names : List Ptr) (places : List (Ino × Name)) : List Ptr :=
  names.filter fun x => ∀ place ∈ places, lookupNode f place.1 place.2 ≠ some (some x)

theorem renameNode_spec {olddir : Ino} {oldname : Name} (hr : AtRest f ids names)
    (hm : f.heap q = some m) (hpos : 0 < m.nlookup)
    (hqp : ∀ p, lookupNode f olddir oldname = some (some p) → ¬ Above f names q p)
    (hide : Bool)
    (hpin : LocksPinned f (untouched f names [(olddir, oldname), (m.nodeid, s)])) :
    ∃ f' r ids' names', renameNode f olddir oldname m.nodeid s hide = some (f', r) ∧
      AtRest f' ids' names' ∧ f'.ctr = f.ctr ∧ f'.generation = f.generation ∧
      Moves f f' (fun x => lookupNode f olddir oldname = some (some x) ∨
        lookupNode f m.nodeid s = some (some x)) ∧
      (∀ p, lookupNode f olddir oldname = some (some p) → r = .ok →
        f'.parentOf p = some q ∧ f'.nameOf p = some s) ∧
      ∀ x b, f'.parentOf x = some b → f.parentOf x = some b ∨ b = q := by
  obtain ⟨node, hnode⟩ : ∃ node, lookupNode f olddir oldname = some node :=
    ⟨_, hr.lookupNode_eq olddir oldname⟩
  obtain ⟨newnode, hnew⟩ : ∃ newnode, lookupNode f m.nodeid s = some newnode :=
    ⟨_, hr.lookupNode_eq m.nodeid s⟩
  unfold renameNode
  rw [hnode, Option.bind_some, hnew, Option.bind_some]
  cases node with
  | none =>
      exact ⟨f, .ok, ids, names, rfl, hr, rfl, rfl, .refl f _, nofun, fun _ _ => .inl⟩
  | some p =>
      obtain ⟨hp, b, hb, hbid, hbname⟩ := hr.lookupNode_some hnode
      obtain ⟨n, hn, hnb⟩ := Fuse.exists_of_parentOf hb
      have hqp := hqp p hnode
      -- the root has no parent
      have hroot : n.nodeid ≠ fuseRootId := by
        intro hid
        obtain ⟨r, k, hrk, hrid, hrpar, -⟩ := hr.root
        obtain rfl := hr.nodeid_inj p r fuseRootId (by rw [Fuse.nodeidOf_eq hn, hid])
          (by rw [Fuse.nodeidOf_eq hrk, hrid])
        rw [hn] at hrk
        obtain rfl := Option.some.inj hrk
        rw [hrpar] at hnb
        cases hnb
      have huntouched : ∀ x ∈ untouched f names [(olddir, oldname), (m.nodeid, s)],
          x ∈ names ∧ x ≠ p ∧ newnode ≠ some x := by
        intro x hx
        obtain ⟨hx, hplaces⟩ := List.mem_filter.mp hx
        rw [decide_eq_true_iff] at hplaces
        refine ⟨hx, ?_, ?_⟩
        · rintro rfl
          exact hplaces (olddir, oldname) (by simp) hnode
        · rintro rfl
          exact hplaces (m.nodeid, s) (by simp) hnew
      have hpin_p : LocksPinned f (names.erase p) := hpin.mono fun x hx =>
        (List.mem_erase_of_ne (huntouched x hx).2.1).mpr (huntouched x hx).1
      cases newnode with
      | none =>
          have hfree : ∀ c ∈ names, c ≠ p → f.parentOf c = some q →
              f.nameOf c ≠ some s := fun c hc _ hcq =>
            hr.lookupNode_none hnew hc hcq (Fuse.nodeidOf_eq hm)
          obtain ⟨f', r, ids', names', hrelink, hr', hctr, hgen, hmoves, hgoes, k, hk,
            hok⟩ := relink_spec hr hn (.inl hp) hroot hm hpos hqp hfree hide hpin_p
          refine ⟨f', r, ids', names', hrelink, hr', hctr, hgen, ?_, ?_,
            fun x b => hmoves.parentOf_or hgoes⟩
          · exact hmoves.mono fun x hx => .inl (by rw [hx])
          · intro x hx hrok
            obtain rfl : p = x := Option.some.inj (Option.some.inj hx)
            rw [Fuse.parentOf_eq hk, Fuse.nameOf_eq hk]
            exact ⟨(hok hrok).1, (hok hrok).2.1⟩
      | some p' =>
          cases hide with
          | true =>
              exact ⟨f, .busy, ids, names, rfl, hr, rfl, rfl, .refl f _,
                fun _ _ => RenameResult.noConfusion, fun _ _ => .inl⟩
          | false =>
              obtain ⟨hp', c, hc, hcid, hcname⟩ := hr.lookupNode_some hnew
              obtain rfl := hr.nodeid_inj c q m.nodeid hcid (Fuse.nodeidOf_eq hm)
              have hpin_p' : LocksPinned f (names.erase p') := hpin.mono fun x hx =>
                (List.mem_erase_of_ne fun h => (huntouched x hx).2.2 (by rw [h])).mpr
                  (huntouched x hx).1
              obtain ⟨f₁, ids₁, names₁, hunlink, hr₁, hctr₁, hgen₁, hmoves₁,
                ⟨k₁, hk₁, hkname, hkparent⟩, hframe, hnames₁⟩ :=
                unlinkNode_spec hr hp' hpin_p'
              obtain ⟨m₁, hm₁, hmid, hmlook⟩ := hmoves₁.known hm hpos
              have hplace : ∀ x ∈ names₁,
                  f₁.parentOf x = f.parentOf x ∧ f₁.nameOf x = f.nameOf x := by
                intro x hx
                obtain ⟨-, hxp, hlive⟩ := (hnames₁ x).mp hx
                exact hmoves₁.place hxp hlive
              -- the node is still there, with or without its name
              have hn₁ : ∃ n₁, f₁.heap p = some n₁ ∧ n₁.nodeid = n.nodeid ∧
                  (p ∈ names₁ ∨ n₁.name = none ∧ n₁.parent = none) := by
                by_cases hpp : p = p'
                · subst hpp
                  obtain ⟨l, hl, hid, -⟩ := hmoves₁.node p k₁ hk₁
                  rw [hn] at hl
                  obtain rfl := Option.some.inj hl
                  exact ⟨k₁, hk₁, hid, .inr ⟨hkname, hkparent⟩⟩
                · have hnot : ¬ Above f names p' p := by
                    intro h
                    rcases Relation.ReflTransGen.cases_head h with heq | ⟨d, hd, hdp⟩
                    · exact hpp heq.symm
                    · obtain rfl : c = d := Option.some.inj (hc.symm.trans hd.2)
                      exact hqp hdp
                  have hn' := (hframe p hnot).trans hn
                  exact ⟨n, hn', rfl, .inl ((hnames₁ p).mpr ⟨hp, hpp, by rw [hn']; rfl⟩)⟩
              obtain ⟨n₁, hn₁, hnid, hp₁⟩ := hn₁
              have hqp₁ : ¬ Above f₁ names₁ c p := fun h =>
                hqp (h.mono (fun x hx => ((hnames₁ x).mp hx).1) fun x hx =>
                  (hplace x hx).1)
              have hfree₁ : ∀ x ∈ names₁, x ≠ p → f₁.parentOf x = some c →
                  f₁.nameOf x ≠ some s := by
                intro x hx _
                obtain ⟨hxn, hxp', -⟩ := (hnames₁ x).mp hx
                rw [(hplace x hx).1, (hplace x hx).2]
                intro hxc hxs
                exact hxp' (hr.name_inj x hxn p' hp' (hxc.trans hc.symm)
                  (hxs.trans hcname.symm))
              have hpin₁ : LocksPinned f₁ (names₁.erase p) := by
                refine hmoves₁.locksPinned hpin ?_
                rintro x d ⟨hx, hd⟩ hlive
                obtain ⟨hxn, hxp, hxp'⟩ := huntouched x hx
                have hx₁ : x ∈ names₁ :=
                  (hnames₁ x).mpr ⟨hxn, fun h => hxp' (by rw [h]), hlive⟩
                have hd₁ : f₁.parentOf x = some d := (hplace x hx₁).1.trans hd
                refine ⟨⟨(List.mem_erase_of_ne hxp).mpr hx₁, hd₁⟩, ?_⟩
                obtain ⟨e, _, j, he, -, hj⟩ := hr₁.linked x hx₁
                obtain rfl : d = e := Option.some.inj (hd₁.symm.trans he)
                obtain ⟨l, hl, -⟩ := Fuse.exists_of_nodeidOf hj
                rw [hl]
                rfl
              obtain ⟨f', r, ids', names', hrelink, hr', hctr, hgen, hmoves, hgoes, k, hk,
                hok⟩ := relink_spec hr₁ hn₁ hp₁ (by rwa [hnid]) hm₁ (hmlook ▸ hpos)
                  hqp₁ hfree₁ false hpin₁
              rw [hmid] at hrelink
              refine ⟨f', r, ids', names', ?_, hr', hctr.trans hctr₁, hgen.trans hgen₁, ?_,
                ?_, ?_⟩
              · dsimp only
                rw [if_neg Bool.false_ne_true, hunlink, Option.bind_some, hrelink]
              · refine (hmoves₁.mono fun x hx => ?_).trans (hmoves.mono fun x hx => ?_)
                · exact .inr (by rw [hx])
                · exact .inl (by rw [hx])
              · intro x hx hrok
                obtain rfl : p = x := Option.some.inj (Option.some.inj hx)
                rw [Fuse.parentOf_eq hk, Fuse.nameOf_eq hk]
                exact ⟨(hok hrok).1, (hok hrok).2.1⟩
              · intro x b hb
                rcases hmoves.parentOf_or hgoes hb with hb | hb
                · refine hmoves₁.parentOf_or (fun d hd => ?_) hb
                  rw [Fuse.parentOf_eq hk₁, hkparent] at hd
                  cases hd
                · exact .inr hb

end Mergerfs.Libfuse
