import Mergerfs.Libfuse.TreelockLost

/-!
# The queue of path locks

What the requests have locked is seen as a list of paths that were given out (`Held`),
each with its claim: the nodes on the way up, and the one locked for writing. Trying an
element of the queue again, and waking up the whole queue, keep the words those of the
claims, and every path given out that of its target.
-/

namespace Mergerfs.Libfuse

open LockWord (Claim Guards)
open Forest (Walk)

variable {f f' : Fuse} {ids names : List Ptr} {p q x : Ptr} {n m : Node} {i : Ino}
  {s : Name} {word : Ptr → ℤ} {held : Held} {others : List (Claim Ptr)}

def claimOf (f : Fuse) (held : Held) : Claim Ptr where
  reads := (getNode f held.target.nodeid).elim [] fun p =>
    (Forest.wayUp f.parentOf (f.nameTable.use + 1) p).dropLast
  writes := held.wnode

theorem Granted.claimOf_eq {l : List Ptr} {r : Ptr} (h : Granted f held p l r)
    (hr : AtRest f ids names) : claimOf f held = ⟨l, held.wnode⟩ := by
  obtain ⟨hget, -⟩ := hr.getNode_of_nodeidOf h.base
  have hlen := h.walk.length_le hr.acyclic hr.mem_names_of_parent
  have huse := hr.name_use
  unfold claimOf
  rw [hget, Option.elim_some, h.walk.wayUp_eq (hr.parentOf_root h.root) (by omega),
    List.dropLast_concat]

theorem claimOf_relock : claimOf (f.relock word) held = claimOf f held := by
  unfold claimOf getNode getNodeNocheck
  rw [Fuse.sameNames_relock.nodeid, Fuse.sameNames_relock.parent]
  rfl

/-- A path that was given out, of a node that the kernel knows, with a node locked for
writing that the kernel knows too. -/
structure Good (f : Fuse) (held : Held) : Prop where
  granted : ∃ p l r n, Granted f held p l r ∧ f.heap p = some n ∧ 0 < n.nlookup
  wnode : ∀ x, held.wnode = some x → ∃ n, f.heap x = some n ∧ 0 < n.nlookup

theorem Good.relock : Good (f.relock word) held ↔ Good f held := by
  constructor
  · rintro ⟨⟨p, l, r, n, hgranted, hn, hpos⟩, hwnode⟩
    obtain ⟨k, hk, rfl⟩ := Fuse.exists_of_heap_relock hn
    refine ⟨⟨p, l, r, k, Granted.relock.mp hgranted, hk, hpos⟩, fun x hx => ?_⟩
    obtain ⟨m, hm, hmpos⟩ := hwnode x hx
    obtain ⟨k', hk', rfl⟩ := Fuse.exists_of_heap_relock hm
    exact ⟨k', hk', hmpos⟩
  · rintro ⟨⟨p, l, r, n, hgranted, hn, hpos⟩, hwnode⟩
    refine ⟨⟨p, l, r, _, Granted.relock.mpr hgranted, Fuse.heap_relock hn, hpos⟩,
      fun x hx => ?_⟩
    obtain ⟨m, hm, hmpos⟩ := hwnode x hx
    exact ⟨_, Fuse.heap_relock hm, hmpos⟩

theorem Good.not_offRoot {b : Ptr} (h : Good f held) (hr : AtRest f ids names)
    (hb : f.nodeidOf b = some held.target.nodeid) : ¬ OffRoot f b := by
  obtain ⟨⟨p, l, r, n, hgranted, -⟩, -⟩ := h
  obtain rfl := hr.nodeid_inj b p held.target.nodeid hb hgranted.base
  exact fun hoff => hoff.ne_root hr hgranted.walk hgranted.root

theorem Good.clear (h : Good f held) (hr : AtRest f ids names)
    (hwnode : ∀ x b, held.wnode = some x → f.parentOf x = some b → ¬ OffRoot f b) :
    Clear f (claimOf f held) := by
  rintro x b (hx | hx) hb hoff
  · obtain ⟨⟨p, l, r, n, hgranted, -⟩, -⟩ := h
    rw [hgranted.claimOf_eq hr] at hx
    obtain ⟨l', hrest, hmem⟩ := hgranted.walk.exists_suffix hx
    cases hrest with
    | nil => cases hmem
    | cons hb' hrest =>
        obtain rfl := Option.some.inj (hb.symm.trans hb')
        exact hoff.ne_root hr hrest hgranted.root
  · exact hwnode x b hx hb hoff

/-- What is locked for writing has the name that the path ends in. -/
def Placed (f : Fuse) (held : Held) : Prop :=
  ∀ x, held.wnode = some x →
    ∃ dir name, held.target = .change dir name ∧ lookupNode f dir name = some (some x)

theorem Placed.relock (hr : AtRest f ids names) :
    Placed (f.relock word) held ↔ Placed f held := by
  unfold Placed
  simp only [hr.lookupNode_relock]

theorem Placed.nodeidOf_parent {b : Ptr} (h : Placed f held) (hr : AtRest f ids names)
    (hx : held.wnode = some x) (hb : f.parentOf x = some b) :
    f.nodeidOf b = some held.target.nodeid := by
  obtain ⟨dir, name, htarget, hlookup⟩ := h x hx
  obtain ⟨-, b', hb', hid, -⟩ := hr.lookupNode_some hlookup
  obtain rfl := Option.some.inj (hb.symm.trans hb')
  rw [hid, htarget]
  rfl

theorem Placed.clear (h : Placed f held) (hgood : Good f held) (hr : AtRest f ids names) :
    Clear f (claimOf f held) :=
  hgood.clear hr fun _ _ hx hb => hgood.not_offRoot hr (h.nodeidOf_parent hr hx hb)

abbrev claimsOf (f : Fuse) (helds : List Held) : List (Claim Ptr) := helds.map (claimOf f)

theorem claimsOf_relock (helds : List Held) :
    claimsOf (f.relock word) helds = claimsOf f helds := by
  unfold claimsOf
  exact List.map_congr_left fun _ _ => claimOf_relock

/-- The words of the locks are those of the paths, and of the claims of others. -/
def Locked (f : Fuse) (helds : List Held) (others : List (Claim Ptr)) : Prop :=
  (∀ held ∈ helds, Good f held) ∧
    Guards treelockWaitOffset f.word (claimsOf f helds ++ others)

def Few (k : ℕ) (others : List (Claim Ptr)) : Prop := others.length + k + 2 < 2147483648

theorem Few.bound {k : ℕ} {claims : List (Claim Ptr)} (h : Few k others)
    (hle : claims.length ≤ others.length + k) :
    (claims.length : ℤ) + 2 < -treelockWaitOffset := by
  unfold Few at h
  unfold treelockWaitOffset
  omega

namespace Locked

variable {a b : List Held}

theorem split (h : Locked f (a ++ b) others) : Locked f a (claimsOf f b ++ others) := by
  refine ⟨fun held hheld => h.1 held (List.mem_append_left b hheld), ?_⟩
  rw [← List.append_assoc, ← List.map_append]
  exact h.2

theorem join (h : Locked f a (claimsOf f b ++ others)) (hb : ∀ held ∈ b, Good f held) :
    Locked f (a ++ b) others := by
  refine ⟨fun held hheld => ?_, ?_⟩
  · rcases List.mem_append.mp hheld with hheld | hheld
    · exact h.1 held hheld
    · exact hb held hheld
  · rw [claimsOf, List.map_append, List.append_assoc]
    exact h.2

theorem perm (h : Locked f a others) (hab : a.Perm b) : Locked f b others :=
  ⟨fun held hheld => h.1 held (hab.mem_iff.mpr hheld),
    h.2.perm ((hab.map _).append_right others)⟩

end Locked

def touches (f : Fuse) (held : Held) (x : Ptr) : Prop :=
  x ∈ (claimOf f held).reads ∨ held.wnode = some x

/-- The locks change, from those of `helds` to those of `helds'`. What is locked against
others, and not for `helds`, is left alone. -/
structure Relocks (f f' : Fuse) (helds helds' : List Held) (others : List (Claim Ptr)) :
    Prop where
  relock : ∃ word, f' = f.relock word
  locked : Locked f' helds' others
  aloof : ∀ x, f.word x < 0 → (∀ held ∈ helds, ¬ touches f held x) →
    f'.word x = f.word x ∧ ∀ held ∈ helds', ¬ touches f held x

namespace Relocks

variable {a b c : List Held}

theorem refl (h : Locked f a others) : Relocks f f a a others :=
  ⟨⟨f.word, by rw [Fuse.relock_word]⟩, h, fun _ _ ha => ⟨rfl, ha⟩⟩

theorem claimOf_eq (h : Relocks f f' a b others) : claimOf f' held = claimOf f held := by
  obtain ⟨word, rfl⟩ := h.relock
  exact claimOf_relock

theorem claimsOf_eq (h : Relocks f f' a b others) (c : List Held) :
    claimsOf f' c = claimsOf f c :=
  List.map_congr_left fun _ _ => h.claimOf_eq

theorem touches_iff (h : Relocks f f' a b others) : touches f' held x ↔ touches f held x := by
  unfold touches
  rw [h.claimOf_eq]

theorem good_iff (h : Relocks f f' a b others) : Good f' held ↔ Good f held := by
  obtain ⟨word, rfl⟩ := h.relock
  exact Good.relock

theorem atRest (h : Relocks f f' a b others) (hr : AtRest f ids names) :
    AtRest f' ids names := by
  obtain ⟨word, rfl⟩ := h.relock
  exact hr.relock word

theorem placed_iff (h : Relocks f f' a b others) (hr : AtRest f ids names) :
    Placed f' held ↔ Placed f held := by
  obtain ⟨word, rfl⟩ := h.relock
  exact Placed.relock hr

theorem lost_iff (h : Relocks f f' a b others) {t : Target} : Lost f' t ↔ Lost f t := by
  obtain ⟨word, rfl⟩ := h.relock
  exact Lost.relock

theorem clear_iff (h : Relocks f f' a b others) {c : Claim Ptr} :
    Clear f' c ↔ Clear f c := by
  obtain ⟨word, rfl⟩ := h.relock
  exact Clear.relock

theorem trans {f'' : Fuse} (h : Relocks f f' a b others) (h' : Relocks f' f'' b c others) :
    Relocks f f'' a c others where
  relock := by
    obtain ⟨word, rfl⟩ := h.relock
    obtain ⟨word', rfl⟩ := h'.relock
    exact ⟨word', Fuse.relock_relock⟩
  locked := h'.locked
  aloof x hx ha := by
    obtain ⟨hword, hb⟩ := h.aloof x hx ha
    obtain ⟨hword', hc⟩ := h'.aloof x (by rwa [hword])
      fun held hheld => by rw [h.touches_iff]; exact hb held hheld
    refine ⟨hword'.trans hword, fun held hheld => ?_⟩
    rw [← h.touches_iff]
    exact hc held hheld

theorem perm {a' b' : List Held} (h : Relocks f f' a b others) (ha : a.Perm a')
    (hb : b.Perm b') : Relocks f f' a' b' others where
  relock := h.relock
  locked := h.locked.perm hb
  aloof x hx ha' := by
    obtain ⟨hword, hb'⟩ := h.aloof x hx fun held hheld => ha' held (ha.mem_iff.mp hheld)
    exact ⟨hword, fun held hheld => hb' held (hb.mem_iff.mpr hheld)⟩

theorem frame (h : Relocks f f' a b (claimsOf f c ++ others)) (hc : ∀ held ∈ c, Good f held) :
    Relocks f f' (a ++ c) (b ++ c) others where
  relock := h.relock
  locked := by
    have hlocked := h.locked
    rw [← h.claimsOf_eq] at hlocked
    exact hlocked.join fun held hheld => h.good_iff.mpr (hc held hheld)
  aloof x hx hac := by
    obtain ⟨hword, hb⟩ :=
      h.aloof x hx fun held hheld => hac held (List.mem_append_left c hheld)
    refine ⟨hword, fun held hheld => ?_⟩
    rcases List.mem_append.mp hheld with hheld | hheld
    · exact hb held hheld
    · exact hac held (List.mem_append_right a hheld)

end Relocks

/-! ## One path -/

theorem unlockHeld_spec (hr : AtRest f ids names) {locked : Option Held}
    (h : Locked f locked.toList others) (hfew : Few 0 others) :
    ∃ f', unlockHeld f locked = some f' ∧ Relocks f f' locked.toList [] others := by
  obtain ⟨hgood, hg⟩ := h
  cases locked with
  | none => exact ⟨f, rfl, .refl ⟨nofun, hg⟩⟩
  | some held =>
      obtain ⟨⟨p, l, r, n, hgranted, -⟩, -⟩ := hgood held List.mem_cons_self
      have hclaim := hgranted.claimOf_eq hr
      rw [Option.toList_some, claimsOf, List.map_singleton, List.singleton_append,
        hclaim] at hg
      obtain ⟨word, hunlock, hgw, hsame⟩ := unlockPath_spec none hr hgranted.base
        hgranted.walk (.inr ⟨rfl, hgranted.root⟩) hgranted.live hg
        (hfew.bound (Nat.le_refl _))
      refine ⟨_, hunlock, ⟨word, rfl⟩, ⟨nofun, hgw⟩, fun x _ hx => ⟨?_, nofun⟩⟩
      have hx := hx held List.mem_cons_self
      unfold touches at hx
      rw [hclaim, not_or] at hx
      exact hsame x hx.1 hx.2

def WriteKnown (f : Fuse) : Target → Prop
  | .change dir name => ∀ x, lookupNode f dir name = some (some x) →
      ∃ n, f.heap x = some n ∧ 0 < n.nlookup
  | _ => True

def TargetKnown (f : Fuse) (t : Target) : Prop :=
  (∃ p n, f.heap p = some n ∧ n.nodeid = t.nodeid ∧ 0 < n.nlookup) ∧ WriteKnown f t

/-- A path more is locked, or there is none to be had: at once, or ever. -/
theorem tryGetPath_locked (hr : AtRest f ids names) {t : Target} (hknown : TargetKnown f t)
    (h : Locked f [] others) (hfew : Few 1 others) :
    ∃ f' r, tryGetPath f t = some (f', r) ∧
      (∀ held, r = .ok held → held.target = t ∧ Placed f held ∧
        Relocks f f' [] [held] others) ∧
      (∀ err, r = .error err → Relocks f f' [] [] others) ∧
      (r = .error .again → others ≠ []) ∧ (r = .error .noent → Lost f t) := by
  obtain ⟨⟨p, n, hn, hid, hpos⟩, hwrite⟩ := hknown
  have hbase : f.nodeidOf p = some t.nodeid := by rw [Fuse.nodeidOf_eq hn, hid]
  obtain ⟨f', r, htry, htried⟩ :=
    tryGetPath_spec hr t hbase h.2 (hfew.bound (Nat.le_add_right _ _))
  refine ⟨f', r, htry, ?_⟩
  cases htried with
  | ok word held l root htarget hgranted hread hwnode hgw hshut =>
      refine ⟨?_, nofun, nofun, nofun⟩
      intro held' heq
      obtain rfl := Except.ok.inj heq
      refine ⟨htarget, fun x hx => ?_, ⟨word, rfl⟩, ⟨?_, ?_⟩, fun x hx _ => ⟨hshut x hx, ?_⟩⟩
      · obtain ⟨i, s, rfl, hlookup, -⟩ := hwnode x hx
        exact ⟨i, s, htarget, hlookup⟩
      · intro h hh
        obtain rfl := List.mem_singleton.mp hh
        refine Good.relock.mpr ⟨⟨p, l, root, n, hgranted, hn, hpos⟩, fun x hx => ?_⟩
        obtain ⟨i, s, rfl, hlookup, -⟩ := hwnode x hx
        exact hwrite x hlookup
      · rw [claimsOf_relock, claimsOf, List.map_singleton, List.singleton_append,
          hgranted.claimOf_eq hr]
        exact hgw
      · intro h hh
        obtain rfl := List.mem_singleton.mp hh
        unfold touches
        rw [hgranted.claimOf_eq hr]
        rintro (hxl | hxw)
        · have := hread x hxl
          omega
        · obtain ⟨_, _, -, -, h0⟩ := hwnode x hxw
          omega
  | again word x _ _ hx _ _ hgw hshut =>
      refine ⟨nofun, fun _ _ => ⟨⟨word, rfl⟩, ⟨nofun, hgw⟩, ?_⟩, fun _ hnil => ?_, nofun⟩
      · exact fun y hy _ => ⟨hshut y hy, nofun⟩
      · obtain ⟨c, hc, -⟩ := h.2.exists_claim hx
        rw [hnil] at hc
        cases hc
  | noent word l q hwalk hparent hroot hgw hshut =>
      refine ⟨nofun, fun _ _ => ⟨⟨word, rfl⟩, ⟨nofun, hgw⟩, ?_⟩, nofun,
        fun _ => ⟨p, hbase, l, q, hwalk, hparent, hroot⟩⟩
      exact fun y hy _ => ⟨hshut y hy, nofun⟩

theorem Relocks.targetKnown {a b : List Held} (h : Relocks f f' a b others)
    (hr : AtRest f ids names) {t : Target} (ht : TargetKnown f t) : TargetKnown f' t := by
  obtain ⟨word, rfl⟩ := h.relock
  obtain ⟨⟨p, n, hn, hid, hpos⟩, hwrite⟩ := ht
  refine ⟨⟨p, _, Fuse.heap_relock hn, hid, hpos⟩, ?_⟩
  cases t with
  | node i => trivial
  | name i s => trivial
  | change i s =>
      intro x hx
      rw [hr.lookupNode_relock] at hx
      obtain ⟨m, hm, hmpos⟩ := hwrite x hx
      exact ⟨_, Fuse.heap_relock hm, hmpos⟩

theorem few_append {k j : ℕ} {claims : List (Claim Ptr)} (h : Few (k + j) others)
    (hlen : claims.length ≤ j) : Few k (claims ++ others) := by
  unfold Few at h ⊢
  rw [List.length_append]
  omega

theorem Few.mono {k j : ℕ} (h : Few k others) (hle : j ≤ k) : Few j others := by
  unfold Few at h ⊢
  omega

/-! ## One element -/

def PathElement.helds (e : PathElement) : List Held := e.locked1.toList ++ e.locked2.toList

def PathElement.targets (e : PathElement) : List Target := e.target1 :: e.target2.toList

/-- An element has locked paths of its targets, all of them when it is done. -/
structure ElementOk (e : PathElement) : Prop where
  target1 : ∀ held, e.locked1 = some held → held.target = e.target1
  target2 : ∀ held, e.locked2 = some held → e.target2 = some held.target
  done : e.done = some none → e.locked1.isSome ∧ (e.locked2.isSome ∨ e.target2 = none)

theorem unlockHeld_frame (hr : AtRest f ids names) {locked : Option Held} {rest : List Held}
    (h : Locked f (locked.toList ++ rest) others) (hfew : Few rest.length others) :
    ∃ f', unlockHeld f locked = some f' ∧ Relocks f f' (locked.toList ++ rest) rest others := by
  obtain ⟨f', hunlock, hrelocks⟩ := unlockHeld_spec hr h.split
    (few_append (by rwa [Nat.zero_add]) (Nat.le_of_eq (List.length_map _)))
  exact ⟨f', hunlock, hrelocks.frame fun held hheld =>
    h.1 held (List.mem_append_right _ hheld)⟩

structure Retried (f f' : Fuse) (t : Target) (locked locked' : Option Held)
    (err : Option PathError) (rest : List Held) (others : List (Claim Ptr)) : Prop where
  target : ∀ held, locked' = some held → held.target = t
  relocks : Relocks f f' (locked.toList ++ rest) (locked'.toList ++ rest) others
  keeps : locked.isSome → locked' = locked ∧ err = none
  busy : locked' = none → err = none → rest = [] → others ≠ []
  placed : ∀ held, locked' = some held → locked = some held ∨ Placed f held
  lost : err ≠ none → Lost f t
  fails : locked = none → Lost f t → (∀ c ∈ claimsOf f rest ++ others, Clear f c) →
    err ≠ none

theorem tryElement_spec (hr : AtRest f ids names) {t : Target} (hknown : TargetKnown f t)
    {locked : Option Held} (htarget : ∀ held, locked = some held → held.target = t)
    {rest : List Held} (h : Locked f (locked.toList ++ rest) others)
    (hfew : Few (1 + rest.length) others) :
    ∃ f' locked' err, tryElement f t locked = some (f', locked', err) ∧
      Retried f f' t locked locked' err rest others := by
  cases locked with
  | some held =>
      exact ⟨f, some held, none, rfl, htarget, .refl h, fun _ => ⟨rfl, rfl⟩, nofun,
        fun _ => .inl, fun hne => absurd rfl hne, nofun⟩
  | none =>
      have hfew' : Few 1 (claimsOf f rest ++ others) :=
        few_append hfew (Nat.le_of_eq (List.length_map _))
      have hgood : ∀ held ∈ rest, Good f held := h.1
      obtain ⟨f', r, htry, hok, herr, hagain, hnoent⟩ :=
        tryGetPath_locked hr hknown h.split hfew'
      -- a lost path is refused at once
      have hfails : Lost f t → (∀ c ∈ claimsOf f rest ++ others, Clear f c) →
          r = .error .noent := by
        intro hlost hclear
        obtain ⟨f'', htry'⟩ := tryGetPath_lost hr hlost h.split.2
          (hfew'.bound (Nat.le_add_right _ _)) hclear
        exact (Prod.mk.inj (Option.some.inj (htry.symm.trans htry'))).2
      unfold tryElement
      dsimp only
      rw [htry, Option.map_some]
      cases r with
      | ok held =>
          obtain ⟨hheld, hplaced, hrelocks⟩ := hok held rfl
          refine ⟨f', some held, none, rfl, ?_, hrelocks.frame hgood, nofun, nofun, ?_,
            fun hne => absurd rfl hne, fun _ hlost hclear => nomatch hfails hlost hclear⟩
          · intro held' heq
            rw [← Option.some.inj heq, hheld]
          · intro held' heq
            rw [← Option.some.inj heq]
            exact .inr hplaced
      | error err =>
          have hrelocks := (herr err rfl).frame hgood
          cases err with
          | again =>
              refine ⟨f', none, none, rfl, nofun, hrelocks, nofun, fun _ _ hnil => ?_, nofun,
                fun hne => absurd rfl hne, fun _ hlost hclear => nomatch hfails hlost hclear⟩
              have := hagain rfl
              rwa [hnil] at this
          | noent =>
              exact ⟨f', none, some .noent, rfl, nofun, hrelocks, nofun, fun _ => nofun, nofun,
                fun _ => hnoent rfl, fun _ _ _ => nofun⟩

theorem queueElementUnlock_spec (hr : AtRest f ids names) {e : PathElement}
    (h : Locked f e.helds others) (hfew : Few 2 others) :
    ∃ f', queueElementUnlock f e =
        some (f', { e with locked1 := none, locked2 := none }) ∧
      Relocks f f' e.helds [] others := by
  have hlen : e.locked2.toList.length ≤ 2 := by cases e.locked2 <;> simp
  obtain ⟨f₁, hunlock, hrelocks⟩ := unlockHeld_frame hr h (hfew.mono hlen)
  obtain ⟨f₂, hunlock₂, hrelocks₂⟩ := unlockHeld_spec (hrelocks.atRest hr) hrelocks.locked
    (hfew.mono (Nat.zero_le 2))
  refine ⟨f₂, ?_, hrelocks.trans hrelocks₂⟩
  unfold queueElementUnlock
  rw [hunlock, Option.bind_some, hunlock₂, Option.map_some]

theorem failElement_spec (hr : AtRest f ids names) {e : PathElement} (err : PathError)
    (h : Locked f e.helds others) (hfew : Few 2 others) :
    ∃ f', failElement f e err = some (f',
        { e with locked1 := none, locked2 := none, done := some (some err) }) ∧
      Relocks f f' e.helds [] others := by
  obtain ⟨f', hunlock, hrelocks⟩ := queueElementUnlock_spec hr h hfew
  refine ⟨f', ?_, hrelocks⟩
  unfold failElement
  rw [hunlock, Option.map_some]

/-- The paths of an element lead to what is locked for writing. One that was refused has
given its paths back, and still has no hope. -/
structure Orderly (f : Fuse) (e : PathElement) : Prop where
  placed : ∀ held ∈ e.helds, Placed f held
  refused : ∀ err, e.done = some (some err) → e.helds = [] ∧ ∃ t ∈ e.targets, Lost f t

theorem Relocks.orderly_iff {a b : List Held} (h : Relocks f f' a b others)
    (hr : AtRest f ids names) {e : PathElement} : Orderly f' e ↔ Orderly f e := by
  constructor
  · rintro ⟨hplaced, hrefused⟩
    refine ⟨fun held hheld => (h.placed_iff hr).mp (hplaced held hheld), fun err herr => ?_⟩
    obtain ⟨hnil, t, ht, hlost⟩ := hrefused err herr
    exact ⟨hnil, t, ht, h.lost_iff.mp hlost⟩
  · rintro ⟨hplaced, hrefused⟩
    refine ⟨fun held hheld => (h.placed_iff hr).mpr (hplaced held hheld), fun err herr => ?_⟩
    obtain ⟨hnil, t, ht, hlost⟩ := hrefused err herr
    exact ⟨hnil, t, ht, h.lost_iff.mpr hlost⟩

theorem Orderly.fresh (t1 : Target) (t2 : Option Target) :
    Orderly f ⟨t1, t2, none, none, none⟩ :=
  ⟨fun _ h => absurd h List.not_mem_nil, nofun⟩

/-- What trying an element again leaves of it. An element with one path keeps it, is
done once it has it, and gets it if nobody else has locks. -/
structure Woken (f : Fuse) (e e' : PathElement) (others : List (Claim Ptr)) : Prop where
  ok : ElementOk e'
  target1 : e'.target1 = e.target1
  target2 : e'.target2 = e.target2
  keeps : e.target2 = none → e.locked1.isSome → e'.locked1.isSome
  done : e.target2 = none → e'.locked1.isSome → e'.done = some none
  free : e.target2 = none → others = [] → e'.done.isSome
  orderly : (∀ c ∈ others, Clear f c) → Orderly f e → Orderly f e'

theorem ElementOk.unlocked {e : PathElement} (hdone : e.done ≠ some none)
    (h1 : e.locked1 = none) (h2 : e.locked2 = none) : ElementOk e where
  target1 held h := by
    rw [h1] at h
    cases h
  target2 held h := by
    rw [h2] at h
    cases h
  done h := absurd h hdone

theorem trySecond_spec (hr : AtRest f ids names) {target2 : Option Target}
    (hknown : ∀ t, target2 = some t → TargetKnown f t) {locked1 locked2 : Option Held}
    (htarget : ∀ held, locked2 = some held → target2 = some held.target)
    (h : Locked f (locked1.toList ++ locked2.toList) others) (hfew : Few 2 others) :
    ∃ f' locked' err, trySecond f target2 locked2 = some (f', locked', err) ∧
      (∀ held, locked' = some held → target2 = some held.target) ∧
      Relocks f f' (locked1.toList ++ locked2.toList)
        (locked1.toList ++ locked'.toList) others ∧
      (target2 = none → locked' = none ∧ err = none) ∧
      ∀ t, target2 = some t → Retried f f' t locked2 locked' err locked1.toList others := by
  have hlen : locked1.toList.length ≤ 1 := by cases locked1 <;> simp
  cases target2 with
  | none =>
      refine ⟨f, locked2, none, rfl, htarget, .refl h, fun _ => ⟨?_, rfl⟩, nofun⟩
      cases locked2 with
      | none => rfl
      | some held => cases htarget held rfl
  | some t =>
      obtain ⟨f', locked', err, htry, hretried⟩ :=
        tryElement_spec hr (hknown t rfl)
          (fun held hheld => (Option.some.inj (htarget held hheld)).symm)
          (h.perm List.perm_append_comm) (hfew.mono (by omega))
      refine ⟨f', locked', err, htry, fun held hheld => ?_, ?_, nofun, fun t' ht' => ?_⟩
      · rw [hretried.target held hheld]
      · exact hretried.relocks.perm List.perm_append_comm List.perm_append_comm
      · obtain rfl := Option.some.inj ht'
        exact hretried

theorem Woken.waiting {e e' : PathElement} (hok : ElementOk e') (h1 : e'.target1 = e.target1)
    (h2 : e'.target2 = e.target2) (hnone : e.target2 = none → e'.locked1 = none)
    (hwait : e.target2 = none → e.locked1 = none ∧ others ≠ [])
    (horderly : (∀ c ∈ others, Clear f c) → Orderly f e → Orderly f e') :
    Woken f e e' others where
  ok := hok
  target1 := h1
  target2 := h2
  keeps hsingle := by
    rw [(hwait hsingle).1]
    exact nofun
  done hsingle := by
    rw [hnone hsingle]
    exact nofun
  free hsingle hnil := absurd hnil (hwait hsingle).2
  orderly := horderly

section

variable {e : PathElement} {f₁ f₂ : Fuse} {locked1 locked2 : Option Held}
  {err1 err2 : Option PathError}

theorem Orderly.placed_retried (h : Orderly f e) (hr : AtRest f ids names)
    (h1 : Retried f f₁ e.target1 e.locked1 locked1 err1 e.locked2.toList others)
    (hnone : e.target2 = none → locked2 = none)
    (h2 : ∀ t, e.target2 = some t →
      Retried f₁ f₂ t e.locked2 locked2 err2 locked1.toList others) :
    ∀ held ∈ locked1.toList ++ locked2.toList, Placed f held := by
  intro held hheld
  rcases List.mem_append.mp hheld with hheld | hheld
  · rcases h1.placed held (Option.mem_toList.mp hheld) with hlocked | hplaced
    · exact h.placed held (List.mem_append_left _ (Option.mem_toList.mpr hlocked))
    · exact hplaced
  · have hlocked2 := Option.mem_toList.mp hheld
    cases ht : e.target2 with
    | none =>
        rw [hnone ht] at hlocked2
        cases hlocked2
    | some t =>
        rcases (h2 t ht).placed held hlocked2 with hlocked | hplaced
        · exact h.placed held (List.mem_append_right _ (Option.mem_toList.mpr hlocked))
        · exact (h1.relocks.placed_iff hr).mp hplaced

theorem Orderly.done_ne (h : Orderly f e) (hr : AtRest f ids names)
    (hclear : ∀ c ∈ others, Clear f c)
    (h1 : Retried f f₁ e.target1 e.locked1 locked1 none e.locked2.toList others)
    (h2 : ∀ t, e.target2 = some t →
      Retried f₁ f₂ t e.locked2 locked2 none locked1.toList others) (err : PathError) :
    e.done ≠ some (some err) := by
  intro hdone
  obtain ⟨hnil, t, ht, hlost⟩ := h.refused err hdone
  obtain ⟨hnone1, hnone2⟩ : e.locked1 = none ∧ e.locked2 = none := by
    simpa [PathElement.helds] using hnil
  rcases List.mem_cons.mp ht with rfl | ht
  · refine h1.fails hnone1 hlost ?_ rfl
    rw [hnone2]
    exact hclear
  · refine (h2 t (Option.mem_toList.mp ht)).fails hnone2 (h1.relocks.lost_iff.mpr hlost)
      (fun c hc => ?_) rfl
    rcases List.mem_append.mp hc with hc | hc
    · -- what the element has got just now is not off the root
      obtain ⟨held, hheld, rfl⟩ := List.mem_map.mp hc
      have hplaced : Placed f held :=
        (h1.placed held (Option.mem_toList.mp hheld)).resolve_left (by simp [hnone1])
      exact ((h1.relocks.placed_iff hr).mpr hplaced).clear
        (h1.relocks.locked.1 held (List.mem_append_left _ hheld)) (h1.relocks.atRest hr)
    · exact h1.relocks.clear_iff.mpr (hclear c hc)

end

theorem queueElementWakeup_spec (hr : AtRest f ids names) {e : PathElement}
    (hok : ElementOk e) (hknown : ∀ t ∈ e.targets, TargetKnown f t) (first : Bool)
    (h : Locked f e.helds others) (hfew : Few 2 others) :
    ∃ f' e', queueElementWakeup f first e = some (f', e') ∧
      Relocks f f' e.helds e'.helds others ∧ Woken f e e' others := by
  have hlen : e.locked2.toList.length ≤ 1 := by cases e.locked2 <;> simp
  obtain ⟨f₁, locked1, err1, htry1, hretried1⟩ :=
    tryElement_spec hr (hknown _ List.mem_cons_self) hok.target1 h (hfew.mono (by omega))
  have hrelocks1 := hretried1.relocks
  have hkeep1 := hretried1.keeps
  have hr₁ := hrelocks1.atRest hr
  unfold queueElementWakeup
  rw [htry1, Option.bind_some]
  cases err1 with
  | some err =>
      obtain ⟨f₂, hfail, hrelocks2⟩ := failElement_spec (e := { e with locked1 := locked1 })
        hr₁ err hrelocks1.locked hfew
      refine ⟨f₂, _, hfail, hrelocks1.trans hrelocks2, .unlocked nofun rfl rfl, rfl, rfl, ?_,
        nofun, fun _ _ => rfl, fun _ _ => ⟨nofun, fun _ _ => ⟨rfl, ?_⟩⟩⟩
      · intro _ hsome
        cases (hkeep1 hsome).2
      · exact ⟨_, List.mem_cons_self, hretried1.lost nofun⟩
  | none =>
      obtain ⟨f₂, locked2, err2, htry2, htarget2, hrelocks2, hnone2, hretried2⟩ :=
        trySecond_spec hr₁ (fun t ht => hrelocks1.targetKnown hr
          (hknown t (by simp [PathElement.targets, ht]))) hok.target2 hrelocks1.locked hfew
      have hr₂ := hrelocks2.atRest hr₁
      have hrelocks := hrelocks1.trans hrelocks2
      dsimp only
      rw [htry2, Option.bind_some]
      cases err2 with
      | some err =>
          obtain ⟨f₃, hfail, hrelocks3⟩ := failElement_spec
            (e := { e with locked1 := locked1, locked2 := locked2 }) hr₂ err
            hrelocks2.locked hfew
          refine ⟨f₃, _, hfail, hrelocks.trans hrelocks3, .unlocked nofun rfl rfl, rfl, rfl, ?_,
            nofun, fun _ _ => rfl, fun _ _ => ⟨nofun, fun _ _ => ⟨rfl, ?_⟩⟩⟩
          · intro hsingle
            cases (hnone2 hsingle).2
          · cases ht : e.target2 with
            | none => cases (hnone2 ht).2
            | some t =>
                refine ⟨t, ?_, hrelocks1.lost_iff.mp ((hretried2 t ht).lost nofun)⟩
                exact List.mem_cons_of_mem _ (Option.mem_toList.mpr rfl)
      | none =>
          have hplaced : Orderly f e → ∀ held ∈ locked1.toList ++ locked2.toList,
              Placed f held := fun horderly =>
            horderly.placed_retried hr hretried1 (fun ht => (hnone2 ht).1) hretried2
          dsimp only
          by_cases hall : locked1.isSome ∧ (locked2.isSome ∨ e.target2 = none)
          · rw [if_pos hall]
            exact ⟨f₂, _, rfl, hrelocks, ⟨hretried1.target, htarget2, fun _ => hall⟩, rfl, rfl,
              fun _ _ => hall.1, fun _ _ => rfl, fun _ _ => rfl,
              fun _ horderly => ⟨hplaced horderly, nofun⟩⟩
          rw [if_neg hall]
          have hdone : e.done ≠ some none := by
            intro hd
            obtain ⟨h1, h2⟩ := hok.done hd
            refine hall ⟨by rw [(hkeep1 h1).1]; exact h1, h2.imp_left fun h2 => ?_⟩
            obtain ⟨held, hheld⟩ := Option.isSome_iff_exists.mp h2
            rw [((hretried2 _ (hok.target2 held hheld)).keeps h2).1]
            exact h2
          have hrefused : (∀ c ∈ others, Clear f c) → Orderly f e →
              ∀ err, e.done ≠ some (some err) := fun hclear horderly =>
            horderly.done_ne hr hclear hretried1 hretried2
          -- with one path only, it is the path that was not to be had
          have hnone : e.target2 = none → locked1 = none := by
            intro hsingle
            rw [← Option.not_isSome_iff_eq_none]
            exact fun hsome => hall ⟨hsome, .inr hsingle⟩
          have hwait : e.target2 = none → e.locked1 = none ∧ others ≠ [] := by
            intro hsingle
            constructor
            · rw [← Option.not_isSome_iff_eq_none]
              intro hsome
              rw [← (hkeep1 hsome).1, hnone hsingle] at hsome
              cases hsome
            · refine hretried1.busy (hnone hsingle) rfl ?_
              cases hlocked : e.locked2 with
              | none => rfl
              | some held =>
                  have := hok.target2 held hlocked
                  rw [hsingle] at this
                  cases this
          cases first with
          | true =>
              rw [if_pos rfl]
              exact ⟨f₂, _, rfl, hrelocks, .waiting
                ⟨hretried1.target, htarget2, fun hd => absurd hd hdone⟩ rfl rfl hnone hwait
                fun hclear horderly => ⟨hplaced horderly,
                  fun err herr => absurd herr (hrefused hclear horderly err)⟩⟩
          | false =>
              rw [if_neg Bool.false_ne_true]
              obtain ⟨f₃, hunlock, hrelocks3⟩ := queueElementUnlock_spec
                (e := { e with locked1 := locked1, locked2 := locked2 }) hr₂
                hrelocks2.locked hfew
              exact ⟨f₃, _, hunlock, hrelocks.trans hrelocks3, .waiting
                (.unlocked hdone rfl rfl) rfl rfl (fun _ => rfl) hwait
                fun hclear horderly => ⟨nofun,
                  fun err herr => absurd herr (hrefused hclear horderly err)⟩⟩

/-! ## The queue -/

def LockQueueElement.helds : LockQueueElement → List Held
  | .path e => e.helds
  | .forget _ _ => []

def queueHelds (q : List LockQueueElement) : List Held := q.flatMap LockQueueElement.helds

theorem queueHelds_cons (el : LockQueueElement) (q : List LockQueueElement) :
    queueHelds (el :: q) = el.helds ++ queueHelds q := rfl

theorem PathElement.length_helds_le (e : PathElement) : e.helds.length ≤ 2 := by
  unfold PathElement.helds
  cases e.locked1 <;> cases e.locked2 <;> simp

theorem LockQueueElement.length_helds_le (el : LockQueueElement) : el.helds.length ≤ 2 := by
  cases el with
  | path e => exact e.length_helds_le
  | forget i k => exact Nat.zero_le 2

theorem length_flatMap_le_two {α : Type*} (helds : α → List Held)
    (h : ∀ x, (helds x).length ≤ 2) (l : List α) :
    (l.flatMap helds).length ≤ 2 * l.length := by
  induction l with
  | nil => exact Nat.le_refl 0
  | cons x l ih =>
      have := h x
      rw [List.flatMap_cons, List.length_append, List.length_cons]
      omega

theorem length_queueHelds_le (q : List LockQueueElement) :
    (queueHelds q).length ≤ 2 * q.length :=
  length_flatMap_le_two _ LockQueueElement.length_helds_le q

def Wakes : LockQueueElement → LockQueueElement → Prop
  | .path e, .path e' => ElementOk e' ∧ e'.target1 = e.target1 ∧ e'.target2 = e.target2
  | .forget i k, el => el = .forget i k
  | _, _ => False

def Tryable (f : Fuse) : LockQueueElement → Prop
  | .path e => ElementOk e ∧ ∀ t ∈ e.targets, TargetKnown f t
  | .forget i _ => ∃ p, f.nodeidOf p = some i

theorem Relocks.tryable {a b : List Held} (h : Relocks f f' a b others)
    (hr : AtRest f ids names) {el : LockQueueElement} (hel : Tryable f el) :
    Tryable f' el := by
  cases el with
  | path e => exact ⟨hel.1, fun t ht => h.targetKnown hr (hel.2 t ht)⟩
  | forget i k =>
      obtain ⟨word, rfl⟩ := h.relock
      obtain ⟨p, hp⟩ := hel
      exact ⟨p, by rw [Fuse.sameNames_relock.nodeid, hp]⟩

/-- All requests in the queue are for one path, and those that have it are done. -/
def OnePath (q : List LockQueueElement) : Prop :=
  ∀ e, .path e ∈ q → e.target2 = none ∧ (e.locked1.isSome → e.done = some none)

def Waits (q : List LockQueueElement) : Prop := ∃ e, .path e ∈ q ∧ e.done = none

/-- What waking up the queue does if all requests are for one path: the locks are kept,
and nobody waits without a lock of somebody. -/
structure Settles (q q' : List LockQueueElement) (others : List (Claim Ptr)) : Prop where
  onePath : OnePath q'
  keeps : queueHelds q ≠ [] → queueHelds q' ≠ []
  waits : Waits q' → queueHelds q' ≠ [] ∨ others ≠ []

theorem OnePath.tail {el : LockQueueElement} {q : List LockQueueElement}
    (h : OnePath (el :: q)) : OnePath q := fun e he => h e (List.mem_cons_of_mem el he)

theorem Settles.nil : Settles [] [] others :=
  ⟨fun _ h => absurd h List.not_mem_nil, id, fun ⟨_, h, _⟩ => absurd h List.not_mem_nil⟩

theorem Settles.forget {q q' : List LockQueueElement} {k : ℕ} (h : Settles q q' others) :
    Settles (.forget i k :: q) (.forget i k :: q') others where
  onePath e he := by
    rcases List.mem_cons.mp he with he | he
    · cases he
    · exact h.onePath e he
  keeps := h.keeps
  waits := by
    rintro ⟨e, he, hdone⟩
    rcases List.mem_cons.mp he with he | he
    · cases he
    · exact h.waits ⟨e, he, hdone⟩

/-- The first element is woken up while the others have what they had, the others while
it has what it got. -/
theorem Settles.path {e e' : PathElement} {q q' : List LockQueueElement}
    (hone : e.target2 = none) (hok : ElementOk e)
    (he : Woken f e e' (claimsOf f (queueHelds q) ++ others))
    (h : Settles q q' (claimsOf f' e'.helds ++ others)) :
    Settles (.path e :: q) (.path e' :: q') others where
  onePath x hx := by
    rcases List.mem_cons.mp hx with hx | hx
    · cases hx
      exact ⟨he.target2.trans hone, he.done hone⟩
    · exact h.onePath x hx
  keeps := by
    rw [queueHelds_cons, queueHelds_cons, Ne, Ne, List.append_eq_nil_iff,
      List.append_eq_nil_iff]
    rintro hne ⟨hnil, hnil'⟩
    refine hne ⟨?_, by_contra fun h' => h.keeps h' hnil'⟩
    have hlocked1 : e.locked1 = none := by
      rw [← Option.not_isSome_iff_eq_none]
      intro hsome
      obtain ⟨held, hheld⟩ := Option.isSome_iff_exists.mp (he.keeps hone hsome)
      simp [LockQueueElement.helds, PathElement.helds, hheld] at hnil
    have hlocked2 : e.locked2 = none := by
      cases hlocked : e.locked2 with
      | none => rfl
      | some held =>
          have := hok.target2 held hlocked
          rw [hone] at this
          cases this
    simp [LockQueueElement.helds, PathElement.helds, hlocked1, hlocked2]
  waits := by
    rintro ⟨x, hx, hdone⟩
    rw [queueHelds_cons, Ne, List.append_eq_nil_iff]
    rcases List.mem_cons.mp hx with hx | hx
    · cases hx
      by_contra hnone
      rw [not_or, not_not, not_not] at hnone
      obtain ⟨⟨-, hnil⟩, hothers⟩ := hnone
      have hq : queueHelds q = [] := by_contra fun h' => h.keeps h' hnil
      have := he.free hone (by rw [hq, hothers]; rfl)
      rw [hdone] at this
      cases this
    · rcases h.waits ⟨x, hx, hdone⟩ with hne | hne
      · exact .inl fun hnil => hne hnil.2
      · by_cases hothers : others = []
        · left
          rintro ⟨hnil, -⟩
          refine hne ?_
          rw [hothers, List.append_nil, claimsOf, List.map_eq_nil_iff]
          exact hnil
        · exact .inr hothers

theorem clear_of_orderly {q : List LockQueueElement} (hr : AtRest f ids names)
    (hgood : ∀ held ∈ queueHelds q, Good f held)
    (h : ∀ e, .path e ∈ q → Orderly f e) : ∀ c ∈ claimsOf f (queueHelds q), Clear f c := by
  intro c hc
  obtain ⟨held, hheld, rfl⟩ := List.mem_map.mp hc
  obtain ⟨el, hel, hmem⟩ := List.mem_flatMap.mp hheld
  cases el with
  | path e => exact ((h e hel).placed held hmem).clear (hgood held hheld) hr
  | forget i k => cases hmem

/-- Waking up the queue: every element keeps its targets, and the words stay those of
what the elements have locked. -/
theorem wakeUpFrom_spec (q : List LockQueueElement) (hr : AtRest f ids names) (first : Bool)
    (htry : ∀ el ∈ q, Tryable f el) (h : Locked f (queueHelds q) others)
    (hfew : Few (2 * q.length) others) :
    ∃ f' q', wakeUpFrom first f q = some (f', q') ∧ List.Forall₂ Wakes q q' ∧
      Relocks f f' (queueHelds q) (queueHelds q') others ∧
      (OnePath q → Settles q q' others) ∧
      ((∀ c ∈ others, Clear f c) → (∀ e, .path e ∈ q → Orderly f e) →
        ∀ e, .path e ∈ q' → Orderly f e) := by
  induction q generalizing f first others with
  | nil => exact ⟨f, [], rfl, .nil, .refl h, fun _ => .nil, fun _ => id⟩
  | cons el q ih =>
      have hq : ∀ held ∈ queueHelds q, Good f held :=
        fun held hheld => h.1 held (List.mem_append_right _ hheld)
      have hlen := length_queueHelds_le q
      rw [List.length_cons] at hfew
      cases el with
      | forget i k =>
          obtain ⟨p, hp⟩ := htry _ List.mem_cons_self
          obtain ⟨f', q', hwake, hwakes, hrelocks, hsettles, horderly⟩ := ih hr false
            (fun el hel => htry el (List.mem_cons_of_mem _ hel)) h (hfew.mono (by omega))
          refine ⟨f', .forget i k :: q', ?_, .cons rfl hwakes, hrelocks,
            fun hone => (hsettles hone.tail).forget, fun hclear hq e he => ?_⟩
          · unfold wakeUpFrom
            rw [(hr.getNode_of_nodeidOf hp).1, Option.bind_some, hwake, Option.map_some]
          · exact horderly hclear (fun e he => hq e (List.mem_cons_of_mem _ he)) e
              ((List.mem_cons.mp he).resolve_left nofun)
      | path e =>
          obtain ⟨hok, hknown⟩ := htry _ List.mem_cons_self
          have hsplit : Locked f e.helds (claimsOf f (queueHelds q) ++ others) := h.split
          obtain ⟨f₁, e', hwake₁, hrelocks₁, hwoken⟩ := queueElementWakeup_spec hr hok hknown
            first hsplit (few_append (hfew.mono (by omega))
              (Nat.le_of_eq (List.length_map _)))
          have hframe₁ := hrelocks₁.frame hq
          have hr₁ := hrelocks₁.atRest hr
          obtain ⟨f₂, q', hwake₂, hwakes, hrelocks₂, hsettles, horderly⟩ := ih hr₁ false
            (fun el hel => hrelocks₁.tryable hr (htry el (List.mem_cons_of_mem _ hel)))
            (hframe₁.locked.perm List.perm_append_comm).split
            (few_append (hfew.mono (by have := e'.length_helds_le; omega))
              (Nat.le_of_eq (List.length_map _)))
          have hframe₂ := (hrelocks₂.frame fun held hheld =>
            hframe₁.locked.1 held (List.mem_append_left _ hheld)).perm
            List.perm_append_comm List.perm_append_comm
          refine ⟨f₂, .path e' :: q', ?_,
            .cons ⟨hwoken.ok, hwoken.target1, hwoken.target2⟩ hwakes,
            hframe₁.trans hframe₂, fun hone => ?_, fun hclear horder x hx => ?_⟩
          · unfold wakeUpFrom
            rw [hwake₁, Option.bind_some]
            dsimp only
            rw [hwake₂, Option.map_some]
          · exact .path (hone e List.mem_cons_self).1 hok hwoken (hsettles hone.tail)
          · have hrest : ∀ e, .path e ∈ q → Orderly f e := fun e he =>
              horder e (List.mem_cons_of_mem _ he)
            -- first the head, while the others have what they had
            have he' : Orderly f e' := by
              refine hwoken.orderly (fun c hc => ?_) (horder e List.mem_cons_self)
              rcases List.mem_append.mp hc with hc | hc
              · exact clear_of_orderly hr hq hrest c hc
              · exact hclear c hc
            rcases List.mem_cons.mp hx with hx | hx
            · obtain rfl := LockQueueElement.path.inj hx
              exact he'
            · refine (hrelocks₁.orderly_iff hr).mp (horderly (fun c hc => ?_)
                (fun e he => (hrelocks₁.orderly_iff hr).mpr (hrest e he)) x hx)
              rcases List.mem_append.mp hc with hc | hc
              · obtain ⟨held, hheld, rfl⟩ := List.mem_map.mp hc
                exact ((hrelocks₁.placed_iff hr).mpr (he'.placed held hheld)).clear
                  (hframe₁.locked.1 held (List.mem_append_left _ hheld)) hr₁
              · exact hrelocks₁.clear_iff.mpr (hclear c hc)

/-! ## Asking for paths -/

/-- A request gets its paths, or nothing is locked for it. -/
theorem tryGetPaths_spec (hr : AtRest f ids names) {t1 : Target} {t2 : Option Target}
    (hknown : ∀ t ∈ t1 :: t2.toList, TargetKnown f t) (h : Locked f [] others)
    (hfew : Few 2 others) :
    ∃ f' r, tryGetPaths f t1 t2 = some (f', r) ∧
      (∀ held1 held2, r = .ok (held1, held2) →
        Relocks f f' [] (held1 :: held2.toList) others ∧
        ∀ held ∈ held1 :: held2.toList, Placed f held) ∧
      (∀ err, r = .error err → Relocks f f' [] [] others) ∧
      (r = .error .again → t2 = none → others ≠ []) := by
  obtain ⟨f₁, r, htry, hok, herr, hagain, -⟩ := tryGetPath_locked hr
    (hknown t1 List.mem_cons_self) h (hfew.mono (by omega))
  unfold tryGetPaths
  rw [htry, Option.bind_some]
  cases r with
  | error err =>
      refine ⟨f₁, _, rfl, nofun, fun _ _ => herr err rfl, fun heq _ => hagain ?_⟩
      rw [Except.error.inj heq]
  | ok held1 =>
      obtain ⟨htarget, hplaced, hrelocks⟩ := hok held1 rfl
      cases t2 with
      | none =>
          refine ⟨f₁, _, rfl, ?_, nofun, nofun⟩
          intro held1' held2 heq
          cases heq
          refine ⟨hrelocks, fun held hheld => ?_⟩
          rw [List.mem_singleton.mp hheld]
          exact hplaced
      | some t =>
          have hr₁ := hrelocks.atRest hr
          have hgood : ∀ held ∈ [held1], Good f₁ held := hrelocks.locked.1
          obtain ⟨f₂, r, htry₂, hok₂, herr₂, -⟩ := tryGetPath_locked hr₁
            (hrelocks.targetKnown hr (hknown t (by simp)))
            (Locked.split (a := []) (b := [held1]) hrelocks.locked)
            (few_append hfew (Nat.le_refl 1))
          dsimp only
          rw [htry₂, Option.bind_some]
          cases r with
          | ok held2 =>
              refine ⟨f₂, _, rfl, ?_, nofun, nofun⟩
              intro held1' held2' heq
              cases heq
              obtain ⟨-, hplaced₂, hrelocks₂⟩ := hok₂ held2 rfl
              refine ⟨hrelocks.trans ((hrelocks₂.frame hgood).perm (.refl _)
                List.perm_append_comm), fun held hheld => ?_⟩
              rcases List.mem_pair.mp hheld with rfl | rfl
              · exact hplaced
              · exact (hrelocks.placed_iff hr).mp hplaced₂
          | error err =>
              have hrelocks₂ := hrelocks.trans ((herr₂ err rfl).frame hgood)
              have hlocked : Locked f₂ (some held1).toList others := hrelocks₂.locked
              obtain ⟨f₃, hunlock, hrelocks₃⟩ := unlockHeld_spec
                (hrelocks₂.atRest hr) hlocked (hfew.mono (Nat.zero_le 2))
              refine ⟨f₃, .error err, ?_, nofun, fun _ _ => hrelocks₂.trans hrelocks₃, nofun⟩
              unfold unlockHeld at hunlock
              dsimp only at hunlock ⊢
              rw [htarget] at hunlock
              rw [hunlock, Option.map_some]

end Mergerfs.Libfuse
