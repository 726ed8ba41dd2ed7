import Mergerfs.Libfuse.TreelockQueue
import Mergerfs.Libfuse.NodeRun

/-!
# Locked paths while the nodes change

Requests find, forget, remove and rename nodes while others have locked paths. As long
as only nodes that are locked for writing lose their places, a path that was given out
stays the path of its target: nothing on its way up is freed or moved. And as the locked
nodes are all on the way up from one that the kernel knows, no locked node is freed.
-/

namespace Mergerfs.Libfuse

open LockWord (Claim Guards readers writers)
open Forest (Walk)

variable {f f' : Fuse} {ids names ids' names' : List Ptr} {p q x : Ptr} {n m : Node}
  {i : Ino} {s : Name} {held : Held} {helds : List Held} {others : List (Claim Ptr)}

/-- The locked nodes that the kernel knows stay, and so do all places except of nodes
that are locked for writing for one of `helds`, which move from the directory of that path
to that of another one. -/
structure Keeps (f f' : Fuse) (helds : List Held) : Prop where
  known : ∀ x n, f.heap x = some n → 0 < n.nlookup →
    n.treelock ≠ 0 ∨ n.nodeid = fuseRootId →
    ∃ m, f'.heap x = some m ∧ m.nodeid = n.nodeid ∧ 0 < m.nlookup
  place : ∀ x n m, f.heap x = some n → f'.heap x = some m →
    m.parent = n.parent ∧ m.name = n.name ∨
    ∃ held ∈ helds, held.wnode = some x ∧
      (∃ b, n.parent = some b ∧ f.nodeidOf b = some held.target.nodeid) ∧
      ∀ b, m.parent = some b → ∃ held' ∈ helds, f.nodeidOf b = some held'.target.nodeid
  word : ∀ x, (f'.heap x).isSome → f'.word x = f.word x

theorem Keeps.mono {mine : List Held} (h : Keeps f f' mine)
    (hsub : ∀ held ∈ mine, held ∈ helds) : Keeps f f' helds where
  known := h.known
  place x n m hn hm := (h.place x n m hn hm).imp_right
    fun ⟨held, hheld, hx, hleaves, hgoes⟩ => ⟨held, hsub held hheld, hx, hleaves,
      fun b hb => (hgoes b hb).imp fun _ => And.imp_left (hsub _)⟩
  word := h.word

/-! ## What the locks say -/

namespace Locked

variable (h : Locked f helds [])

include h

theorem guards : Guards treelockWaitOffset f.word (claimsOf f helds) := by
  have := h.2
  rwa [List.append_nil] at this

theorem wnode_ne {held' : Held} (hheld : held ∈ helds) (hheld' : held' ∈ helds)
    (hx : x ∈ (claimOf f held).reads) : held'.wnode ≠ some x := by
  intro hw
  have hreads := LockWord.readers_pos (List.mem_map_of_mem hheld) hx
  have hwrites : 0 < writers (claimsOf f helds) x :=
    LockWord.writers_pos (List.mem_map_of_mem hheld') hw
  have := (h.guards.readers_eq_zero hwrites).1
  unfold claimsOf at this
  omega

theorem exists_touches (hx : f.word x ≠ 0) : ∃ held ∈ helds, touches f held x := by
  obtain ⟨c, hc, hcx⟩ := h.guards.exists_claim hx
  obtain ⟨held, hheld, rfl⟩ := List.mem_map.mp hc
  exact ⟨held, hheld, hcx⟩

variable (hfew : Few 0 (claimsOf f helds))

include hfew

theorem word_ne_zero (hheld : held ∈ helds) (hx : touches f held x) : f.word x ≠ 0 := by
  refine h.guards.ne_zero_of_mem (List.mem_map_of_mem hheld) hx ?_
  have := hfew.bound (Nat.le_refl _)
  omega

theorem treelock_ne_zero (hheld : held ∈ helds) (hx : touches f held x)
    (hn : f.heap x = some n) : n.treelock ≠ 0 := by
  rw [← Fuse.word_eq hn]
  exact h.word_ne_zero hfew hheld hx

/-- Locked nodes are on the way up from a node that the kernel knows, as long as the
nodes on the locked paths are among the names. -/
theorem locksPinned (hr : AtRest f ids names) {l : List Ptr}
    (hl : ∀ x ∈ names, (∀ held ∈ helds, held.wnode ≠ some x) → x ∈ l) :
    LocksPinned f l := by
  intro x n hn hlock
  rw [← Fuse.word_eq hn] at hlock
  obtain ⟨held, hheld, hx⟩ := h.exists_touches hlock
  obtain ⟨⟨p, path, r, k, hgranted, hk, hpos⟩, hwnode⟩ := h.1 held hheld
  rcases hx with hx | hx
  · have hclaim := hgranted.claimOf_eq hr
    have hread : ∀ y ∈ path, y ∈ (claimOf f held).reads := by
      rw [hclaim]
      exact fun _ => id
    rw [hclaim] at hx
    have hp : p ∈ path := by
      refine hgranted.walk.start_mem ?_
      rintro rfl
      cases hgranted.walk with
      | nil => cases hx
      | cons hq _ =>
          rw [hr.parentOf_root hgranted.root] at hq
          cases hq
    refine ⟨p, k, hgranted.walk.above ?_ hx, hk, hpos, ?_⟩
    · intro y hy
      obtain ⟨q, hq⟩ := hgranted.walk.exists_parent hy
      exact hl y (hr.mem_names_of_parent y q hq) fun held' hheld' =>
        h.wnode_ne hheld hheld' (hread y hy)
    · exact h.treelock_ne_zero hfew hheld (.inl (hread p hp)) hk
  · obtain ⟨m, hm, hmpos⟩ := hwnode x hx
    rw [hn] at hm
    obtain rfl := Option.some.inj hm
    exact ⟨x, n, .refl, hn, hmpos, h.treelock_ne_zero hfew hheld (.inr hx) hn⟩

/-! ## What stays locked -/

variable (hr' : AtRest f' ids' names') (hkeep : Keeps f f' helds)

include hr' hkeep

omit hfew in
theorem keeps_walk (hheld : held ∈ helds) {l : List Ptr} {r : Ptr}
    (hl : ∀ x ∈ l, x ∈ (claimOf f held).reads) (hwalk : Walk f.parentOf p l r)
    (hp : (f'.heap p).isSome) :
    Walk f'.parentOf p l r ∧
      ∀ x ∈ l, (f'.heap x).isSome ∧ f'.nameOf x = f.nameOf x := by
  induction hwalk with
  | nil p => exact ⟨.nil p, nofun⟩
  | @cons p b r l hpb _ ih =>
      obtain ⟨n, hn, hnb⟩ := Fuse.exists_of_parentOf hpb
      obtain ⟨m, hm⟩ := Option.isSome_iff_exists.mp hp
      have hsame : m.parent = n.parent ∧ m.name = n.name := by
        refine (hkeep.place p n m hn hm).resolve_right ?_
        rintro ⟨held', hheld', hw, -⟩
        exact h.wnode_ne hheld hheld' (hl p List.mem_cons_self) hw
      have hpb' : f'.parentOf p = some b := by
        rw [Fuse.parentOf_eq hm, hsame.1, hnb]
      obtain ⟨hwalk, hnames⟩ := ih (fun x hx => hl x (List.mem_cons_of_mem p hx))
        (hr'.live_parent hpb').1
      refine ⟨.cons hpb' hwalk, fun x hx => ?_⟩
      rcases List.mem_cons.mp hx with rfl | hx
      · exact ⟨hp, by rw [Fuse.nameOf_eq hm, Fuse.nameOf_eq hn, hsame.2]⟩
      · exact hnames x hx

variable (hr : AtRest f ids names)

include hr

theorem keeps_granted (hheld : held ∈ helds) {l : List Ptr} {r : Ptr}
    (hgranted : Granted f held p l r) (hn : f.heap p = some n) (hpos : 0 < n.nlookup) :
    Granted f' held p l r ∧ (∀ x ∈ l, (f'.heap x).isSome) ∧
      ∃ m, f'.heap p = some m ∧ 0 < m.nlookup := by
  have hclaim := hgranted.claimOf_eq hr
  have hroot : ∃ m, f'.heap r = some m ∧ m.nodeid = fuseRootId := by
    obtain ⟨r', k, hk, hid, -, hkpos⟩ := hr.root
    obtain rfl := hr.nodeid_inj r r' fuseRootId hgranted.root
      (by rw [Fuse.nodeidOf_eq hk, hid])
    obtain ⟨m, hm, hmid, -⟩ := hkeep.known r k hk hkpos (.inr hid)
    exact ⟨m, hm, hmid.trans hid⟩
  obtain ⟨k, hk, hkid⟩ := hroot
  obtain ⟨m, hm, hmid, hmpos⟩ : ∃ m, f'.heap p = some m ∧ m.nodeid = n.nodeid ∧
      0 < m.nlookup := by
    refine hkeep.known p n hn hpos ?_
    by_cases hpr : p = r
    · have hid := hgranted.root
      rw [← hpr, Fuse.nodeidOf_eq hn] at hid
      exact .inr (Option.some.inj hid)
    · refine .inl (h.treelock_ne_zero hfew hheld (.inl ?_) hn)
      rw [hclaim]
      exact hgranted.walk.start_mem hpr
  obtain ⟨hwalk, hnames⟩ := h.keeps_walk hr' hkeep hheld
    (fun x hx => by rw [hclaim]; exact hx) hgranted.walk (by rw [hm]; rfl)
  refine ⟨⟨?_, hwalk, ?_, ?_, ?_⟩, fun x hx => (hnames x hx).1, m, hm, hmpos⟩
  · rw [Fuse.nodeidOf_eq hm, hmid, ← Fuse.nodeidOf_eq hn, hgranted.base]
  · rw [Fuse.nodeidOf_eq hk, hkid]
  · rw [hgranted.path]
    unfold Fuse.pathBytes
    congr 2
    refine List.flatMap_congr fun x hx => ?_
    rw [(hnames x (List.mem_reverse.mp hx)).2]
  · intro x hx
    obtain ⟨j, hj, hjpos⟩ := (h.1 held hheld).wnode x hx
    obtain ⟨j', hj', -⟩ := hkeep.known x j hj hjpos
      (.inl (h.treelock_ne_zero hfew hheld (.inr hx) hj))
    rw [hj']
    rfl

theorem keeps_claimOf (hheld : held ∈ helds) : claimOf f' held = claimOf f held := by
  obtain ⟨⟨p, l, r, n, hgranted, hn, hpos⟩, -⟩ := h.1 held hheld
  have hgranted' := (h.keeps_granted hfew hr' hkeep hr hheld hgranted hn hpos).1
  rw [hgranted'.claimOf_eq hr', hgranted.claimOf_eq hr]

theorem keeps_live (hheld : held ∈ helds) (hx : touches f held x) : (f'.heap x).isSome := by
  obtain ⟨⟨p, l, r, n, hgranted, hn, hpos⟩, -⟩ := h.1 held hheld
  obtain ⟨hgranted', hlive, -⟩ := h.keeps_granted hfew hr' hkeep hr hheld hgranted hn hpos
  rcases hx with hx | hx
  · rw [hgranted.claimOf_eq hr] at hx
    exact hlive x hx
  · exact hgranted'.live x hx

theorem keeps_word (x : Ptr) : f'.word x = f.word x := by
  cases hx : f'.heap x with
  | some m => exact hkeep.word x (by rw [hx]; rfl)
  | none =>
      have h0 : f'.word x = 0 := by
        unfold Fuse.word
        rw [hx]
        rfl
      rw [h0]
      by_contra hne
      obtain ⟨held, hheld, htouch⟩ := h.exists_touches (Ne.symm hne)
      have := h.keeps_live hfew hr' hkeep hr hheld htouch
      rw [hx] at this
      cases this

theorem keeps_nodeidOf (hheld : held ∈ helds) {b : Ptr}
    (hb : f.nodeidOf b = some held.target.nodeid) :
    f'.nodeidOf b = some held.target.nodeid := by
  obtain ⟨⟨p, l, r, n, hgranted, hn, hpos⟩, -⟩ := h.1 held hheld
  obtain rfl := hr.nodeid_inj b p held.target.nodeid hb hgranted.base
  exact (h.keeps_granted hfew hr' hkeep hr hheld hgranted hn hpos).1.base

theorem keeps : Locked f' helds [] := by
  refine ⟨fun held hheld => ?_, ?_⟩
  · obtain ⟨⟨p, l, r, n, hgranted, hn, hpos⟩, hwnode⟩ := h.1 held hheld
    obtain ⟨hgranted', -, m, hm, hmpos⟩ :=
      h.keeps_granted hfew hr' hkeep hr hheld hgranted hn hpos
    refine ⟨⟨p, l, r, m, hgranted', hm, hmpos⟩, fun x hx => ?_⟩
    obtain ⟨k, hk, hkpos⟩ := hwnode x hx
    obtain ⟨k', hk', -, hkpos'⟩ := hkeep.known x k hk hkpos
      (.inl (h.treelock_ne_zero hfew hheld (.inr hx) hk))
    exact ⟨k', hk', hkpos'⟩
  · rw [claimsOf, List.map_congr_left fun held => h.keeps_claimOf hfew hr' hkeep hr,
      List.append_nil]
    exact h.guards.congr (h.keeps_word hfew hr' hkeep hr)

end Locked

/-! ## What is locked for writing -/

/-- What is locked for writing has no name, or one in a directory whose path is locked
for the same request. -/
def Near (f : Fuse) (group : List Held) : Prop :=
  ∀ held ∈ group, ∀ x b, held.wnode = some x → f.parentOf x = some b →
    ∃ held' ∈ group, f.nodeidOf b = some held'.target.nodeid

theorem Near.of_placed {group : List Held} (hr : AtRest f ids names)
    (h : ∀ held ∈ group, Placed f held) : Near f group := fun held hheld _ _ hx hb =>
  ⟨held, hheld, (h held hheld).nodeidOf_parent hr hx hb⟩

theorem Near.clear {group : List Held} (h : Near f group) (hr : AtRest f ids names)
    (hgood : ∀ held ∈ group, Good f held) : ∀ held ∈ group, Clear f (claimOf f held) := by
  intro held hheld
  refine (hgood held hheld).clear hr fun x b hx hb => ?_
  obtain ⟨held', hheld', hid⟩ := h held hheld x b hx hb
  exact (hgood held' hheld').not_offRoot hr hid

theorem Near.relocks {a b group : List Held} (h : Near f group)
    (hrelocks : Relocks f f' a b others) : Near f' group := by
  obtain ⟨word, rfl⟩ := hrelocks.relock
  intro held hheld x b hx hb
  rw [Fuse.sameNames_relock.parent] at hb
  rw [Fuse.sameNames_relock.nodeid]
  exact h held hheld x b hx hb

def Sole (mine group : List Held) : Prop :=
  ∀ held ∈ mine, ∀ held' ∈ group, ∀ x, held.wnode = some x → held'.wnode ≠ some x

theorem Locked.sole {mine group : List Held} (h : Locked f (mine ++ group) []) :
    Sole mine group := by
  intro held hheld held' hheld' x hx hx'
  have hmine : 0 < writers (claimsOf f mine) x :=
    LockWord.writers_pos (List.mem_map_of_mem hheld) hx
  have hgroup : 0 < writers (claimsOf f group) x :=
    LockWord.writers_pos (List.mem_map_of_mem hheld') hx'
  have hsum : writers (claimsOf f (mine ++ group)) x =
      writers (claimsOf f mine) x + writers (claimsOf f group) x := by
    unfold writers claimsOf
    rw [List.map_append, List.countP_append]
  have hpos : 0 < writers (claimsOf f (mine ++ group)) x := by omega
  have := (h.guards.readers_eq_zero hpos).2
  omega

section

variable {mine : List Held} (h : Locked f helds []) (hfew : Few 0 (claimsOf f helds))
  (hr : AtRest f ids names) (hr' : AtRest f' ids' names') (hkeep : Keeps f f' mine)
  (hmine : ∀ held ∈ mine, held ∈ helds)

include h hfew hr hr' hkeep hmine

theorem Near.keeps {group : List Held} (hnear : Near f group)
    (hgroup : ∀ held ∈ group, held ∈ helds)
    (halone : (∀ held ∈ mine, held ∈ group) ∨ Sole mine group) : Near f' group := by
  intro held hheld x b hx hb
  have hall := hkeep.mono hmine
  obtain ⟨m, hm, hmb⟩ := Fuse.exists_of_parentOf hb
  obtain ⟨n, hn, -⟩ := (h.1 held (hgroup held hheld)).wnode x hx
  have hnew : ∃ held' ∈ group, f.nodeidOf b = some held'.target.nodeid := by
    rcases hkeep.place x n m hn hm with hsame | ⟨held₁, hheld₁, hx₁, -, hgoes⟩
    · exact hnear held hheld x b hx (by rw [Fuse.parentOf_eq hn, ← hsame.1, hmb])
    · rcases halone with hsub | hsole
      · exact (hgoes b hmb).imp fun _ => And.imp_left (hsub _)
      · exact absurd hx (hsole held₁ hheld₁ held hheld x hx₁)
  obtain ⟨held', hheld', hid⟩ := hnew
  exact ⟨held', hheld', h.keeps_nodeidOf hfew hr' hall hr (hgroup held' hheld') hid⟩

theorem Placed.keeps (hplaced : Placed f held) (hheld : held ∈ helds)
    (hsole : Sole mine [held]) : Placed f' held := by
  intro x hx
  have hall := hkeep.mono hmine
  obtain ⟨dir, name, htarget, hlookup⟩ := hplaced x hx
  obtain ⟨-, b, hb, hid, hname⟩ := hr.lookupNode_some hlookup
  obtain ⟨n, hn, -⟩ := (h.1 held hheld).wnode x hx
  obtain ⟨m, hm⟩ := Option.isSome_iff_exists.mp
    (h.keeps_live hfew hr' hall hr hheld (.inr hx))
  obtain ⟨hparent, hsame⟩ : m.parent = n.parent ∧ m.name = n.name := by
    refine (hkeep.place x n m hn hm).resolve_right ?_
    rintro ⟨held', hheld', hx', -⟩
    exact hsole held' hheld' held (List.mem_singleton_self held) x hx' hx
  rw [Fuse.parentOf_eq hn, ← hparent, ← Fuse.parentOf_eq hm] at hb
  rw [Fuse.nameOf_eq hn, ← hsame, ← Fuse.nameOf_eq hm] at hname
  have hdir : dir = held.target.nodeid := by rw [htarget]; rfl
  refine ⟨dir, name, htarget,
    hr'.lookupNode_of_place (hr'.mem_names_of_parent x b hb) hb ?_ hname⟩
  rw [hdir] at hid ⊢
  exact h.keeps_nodeidOf hfew hr' hall hr hheld hid

omit hfew in
/-- What is off the root stays there: nobody has a path to move it. -/
theorem OffRoot.keeps (hoff : OffRoot f p) (hp : (f.heap p).isSome)
    (hp' : (f'.heap p).isSome) : OffRoot f' p := by
  obtain ⟨l, q, hwalk, hnone, hroot⟩ := hoff
  induction hwalk with
  | nil p =>
      obtain ⟨n, hn⟩ := Option.isSome_iff_exists.mp hp
      obtain ⟨m, hm⟩ := Option.isSome_iff_exists.mp hp'
      rw [Fuse.parentOf_eq hn] at hnone
      refine ⟨[], p, .nil p, ?_, fun hid => hroot ?_⟩
      · rw [Fuse.parentOf_eq hm]
        rcases hkeep.place p n m hn hm with hsame | ⟨-, -, -, ⟨b, hb, -⟩, -⟩
        · rw [hsame.1, hnone]
        · rw [hnone] at hb
          cases hb
      · -- the root is another node, before and after
        obtain ⟨r, k, hk, hkid, -, hkpos⟩ := hr.root
        obtain ⟨k', hk', hkid', -⟩ := hkeep.known r k hk hkpos (.inr hkid)
        obtain rfl := hr'.nodeid_inj p r fuseRootId hid
          (by rw [Fuse.nodeidOf_eq hk', hkid', hkid])
        rw [Fuse.nodeidOf_eq hk, hkid]
  | @cons p b q l hpb hwalk ih =>
      obtain ⟨n, hn, hnb⟩ := Fuse.exists_of_parentOf hpb
      obtain ⟨m, hm⟩ := Option.isSome_iff_exists.mp hp'
      rcases hkeep.place p n m hn hm with hsame | ⟨held, hheld, -, ⟨b', hb', hid⟩, -⟩
      · have hpb' : f'.parentOf p = some b := by rw [Fuse.parentOf_eq hm, hsame.1, hnb]
        obtain ⟨l', q', hwalk', hend⟩ :=
          ih (hr.live_parent hpb).1 (hr'.live_parent hpb').1 hnone hroot
        exact ⟨p :: l', q', .cons hpb' hwalk', hend⟩
      · obtain rfl := Option.some.inj (hnb.symm.trans hb')
        exact absurd ⟨l, q, hwalk, hnone, hroot⟩
          ((h.1 held (hmine held hheld)).not_offRoot hr hid)

end

/-! ## What the requests keep -/

theorem Moves.keeps {moved : Ptr → Prop} (h : Moves f f' moved)
    (hmoved : ∀ x n, moved x → f.heap x = some n → ∃ held ∈ helds, held.wnode = some x ∧
      ∃ b, n.parent = some b ∧ f.nodeidOf b = some held.target.nodeid)
    (hgoes : ∀ x b, moved x → f'.parentOf x = some b →
      ∃ held ∈ helds, f.nodeidOf b = some held.target.nodeid) :
    Keeps f f' helds where
  known x n hn hpos _ := by
    obtain ⟨m, hm, hid, hlook⟩ := h.known hn hpos
    exact ⟨m, hm, hid, by rwa [hlook]⟩
  place x n m hn hm := by
    obtain ⟨n', hn', -, -, -, -, hplace⟩ := h.node x m hm
    obtain rfl := Option.some.inj (hn.symm.trans hn')
    by_cases hx : moved x
    · obtain ⟨held, hheld, hxw, hleaves⟩ := hmoved x n hx hn
      exact .inr ⟨held, hheld, hxw, hleaves, fun b hb =>
        hgoes x b hx (by rw [Fuse.parentOf_eq hm, hb])⟩
    · exact .inl (hplace hx)
  word x hx := by
    obtain ⟨m, hm⟩ := Option.isSome_iff_exists.mp hx
    obtain ⟨n, hn, -, -, -, hlock, -⟩ := h.node x m hm
    rw [Fuse.word_eq hm, Fuse.word_eq hn, hlock]

theorem Found.node {name : Option Name} {addr : Ptr} {r : Option Ptr}
    (h : Found f f' q m name addr r) (hm : f.heap q = some m) (hfree : f.heap addr = none)
    (hn : f.heap x = some n) :
    ∃ k, f'.heap x = some k ∧ k.nodeid = n.nodeid ∧ k.parent = n.parent ∧
      k.name = n.name ∧ k.treelock = n.treelock ∧ n.nlookup ≤ k.nlookup := by
  have hxa : x ≠ addr := by
    rintro rfl
    rw [hfree] at hn
    cases hn
  cases h with
  | again p k hk _ _ hf =>
      rw [hf]
      by_cases hx : x = p
      · rw [hx, hk] at hn
        obtain rfl := Option.some.inj hn
        rw [hx, Fuse.heap_setNode_self]
        exact ⟨_, rfl, rfl, rfl, rfl, rfl, Nat.le_succ _⟩
      · rw [Fuse.heap_setNode_of_ne hx]
        exact ⟨n, hn, rfl, rfl, rfl, rfl, Nat.le_refl _⟩
  | added s _ _ hf =>
      rw [hf, Function.update_of_ne hxa]
      by_cases hx : x = q
      · rw [hx, hm] at hn
        obtain rfl := Option.some.inj hn
        rw [hx, Function.update_self]
        exact ⟨_, rfl, rfl, rfl, rfl, rfl, Nat.le_refl _⟩
      · rw [Function.update_of_ne hx]
        exact ⟨n, hn, rfl, rfl, rfl, rfl, Nat.le_refl _⟩
  | nomem hf =>
      rw [hf]
      exact ⟨n, hn, rfl, rfl, rfl, rfl, Nat.le_refl _⟩

theorem Found.word_new {name : Option Name} {addr : Ptr} {r : Option Ptr}
    (h : Found f f' q m name addr r) (hm : f.heap q = some m) (hx : f.heap x = none) :
    f'.word x = 0 := by
  have hxq : x ≠ q := by
    rintro rfl
    rw [hm] at hx
    cases hx
  unfold Fuse.word
  cases h with
  | again p k hk _ _ hf =>
      have hxp : x ≠ p := by
        rintro rfl
        rw [hk] at hx
        cases hx
      rw [hf, Fuse.heap_setNode_of_ne hxp, hx]
      rfl
  | added s _ _ hf =>
      rw [hf]
      by_cases hxa : x = addr
      · rw [hxa, Function.update_self]
        rfl
      · rw [Function.update_of_ne hxa, Function.update_of_ne hxq, hx]
        rfl
  | nomem hf =>
      rw [hf, hx]
      rfl

theorem Found.keeps {name : Option Name} {addr : Ptr} {r : Option Ptr}
    (h : Found f f' q m name addr r) (hm : f.heap q = some m) (hfree : f.heap addr = none) :
    Keeps f f' helds where
  known x n hn hpos _ := by
    obtain ⟨k, hk, hid, -, -, -, hle⟩ := h.node hm hfree hn
    exact ⟨k, hk, hid, Nat.lt_of_lt_of_le hpos hle⟩
  place x n k hn hk := by
    obtain ⟨k', hk', -, hparent, hname, -⟩ := h.node hm hfree hn
    obtain rfl := Option.some.inj (hk.symm.trans hk')
    exact .inl ⟨hparent, hname⟩
  word x _ := by
    cases hn : f.heap x with
    | some n =>
        obtain ⟨k, hk, -, -, -, hlock, -⟩ := h.node hm hfree hn
        rw [Fuse.word_eq hn, Fuse.word_eq hk, hlock]
    | none =>
        rw [h.word_new hm hn]
        unfold Fuse.word
        rw [hn]
        rfl

theorem Forgotten.keeps {k : ℕ} (h : Forgotten f f' p k) (hn : f.heap p = some n)
    (hroot : n.nodeid ≠ fuseRootId) (hle : k ≤ n.nlookup)
    (hwait : forgetWaits f p k = false) : Keeps f f' helds where
  known x l hl hpos hlock := by
    have hx : x = p → l.nlookup ≠ k := by
      rintro rfl heq
      obtain rfl := Option.some.inj (hn.symm.trans hl)
      unfold forgetWaits at hwait
      rw [hn, Option.any_some, decide_eq_false_iff_not] at hwait
      exact hlock.elim (fun h => hwait ⟨heq, h⟩) hroot
    cases hm : f'.heap x with
    | none =>
        rcases h.gone x l hl hm with h0 | ⟨hxp, heq⟩
        · omega
        · exact absurd heq (hx hxp)
    | some m =>
        obtain ⟨l', hl', heq⟩ := h.sub x m hm
        obtain rfl := Option.some.inj (hl.symm.trans hl')
        rw [heq]
        refine ⟨_, rfl, rfl, ?_⟩
        dsimp only
        by_cases hxp : x = p
        · rw [if_pos hxp]
          have := hx hxp
          subst hxp
          obtain rfl := Option.some.inj (hn.symm.trans hl)
          omega
        · rw [if_neg hxp]
          exact hpos
  place x l m hl hm := by
    obtain ⟨l', hl', heq⟩ := h.sub x m hm
    obtain rfl := Option.some.inj (hl.symm.trans hl')
    rw [heq]
    exact .inl ⟨rfl, rfl⟩
  word x hx := by
    obtain ⟨m, hm⟩ := Option.isSome_iff_exists.mp hx
    obtain ⟨l, hl, heq⟩ := h.sub x m hm
    rw [Fuse.word_eq hm, Fuse.word_eq hl, heq]

/-! ## How often the kernel has looked an id up -/

def lookups (f : Fuse) (i : Ino) : ℕ := ((nodeOf f i).map Node.nlookup).getD 0

theorem AtRest.lookups_eq (hr : AtRest f ids names) (hn : f.heap p = some n) :
    lookups f n.nodeid = n.nlookup := by
  unfold lookups nodeOf
  rw [hr.getNode_eq hn, Option.bind_some, hn]
  rfl

theorem AtRest.exists_of_lookups (hr : AtRest f ids names) (h : 0 < lookups f i) :
    ∃ p n, f.heap p = some n ∧ n.nodeid = i ∧ n.nlookup = lookups f i := by
  unfold lookups at h
  cases hnode : nodeOf f i with
  | none =>
      rw [hnode] at h
      cases h
  | some n =>
      obtain ⟨p, hp, hn⟩ := Option.bind_eq_some_iff.mp hnode
      have hid := hr.getNode_some hp
      rw [Fuse.nodeidOf_eq hn] at hid
      obtain rfl := Option.some.inj hid
      exact ⟨p, n, hn, rfl, (hr.lookups_eq hn).symm⟩

theorem AtRest.lookups_le (hr : AtRest f ids names) (hr' : AtRest f' ids' names') (d : ℕ)
    (h : ∀ x n, f.heap x = some n → 0 < n.nlookup → n.nodeid = i →
      (∃ m, f'.heap x = some m ∧ m.nodeid = n.nodeid ∧ n.nlookup ≤ m.nlookup + d) ∨
        n.nlookup ≤ d) : lookups f i ≤ lookups f' i + d := by
  by_cases hpos : 0 < lookups f i
  · obtain ⟨x, n, hn, hid, hlook⟩ := hr.exists_of_lookups hpos
    rcases h x n hn (by omega) hid with ⟨m, hm, hmid, hle⟩ | hle
    · have := hr'.lookups_eq hm
      rw [hmid, hid] at this
      omega
    · omega
  · omega

/-! ## Requests that change the nodes -/

/-- What a request may do to the nodes that has the paths `mine`, while others have
locked theirs: `given` says how many lookups of an id it takes back. -/
structure Serves (f f' : Fuse) (mine : List Held) (given : Ino → ℕ) : Prop where
  rest : ∃ ids names, AtRest f' ids names
  ctr : f'.ctr < 2 ^ 32
  keeps : Keeps f f' mine
  lookups : ∀ i, lookups f i ≤ lookups f' i + given i
  stays : ∀ x n, f.heap x = some n → 0 < n.nlookup →
    (∃ m, f'.heap x = some m ∧ m.nodeid = n.nodeid) ∨ Libfuse.lookups f' n.nodeid = 0

theorem Serves.refl (hr : AtRest f ids names) (hctr : f.ctr < 2 ^ 32) :
    Serves f f helds fun _ => 0 where
  rest := ⟨ids, names, hr⟩
  ctr := hctr
  keeps :=
    { known := fun _ n hn hpos _ => ⟨n, hn, rfl, hpos⟩
      place := fun _ _ _ hn hm => .inl (Option.some.inj (hm.symm.trans hn) ▸ ⟨rfl, rfl⟩)
      word := fun _ _ => rfl }
  lookups _ := Nat.le_refl _
  stays _ n hn _ := .inl ⟨n, hn, rfl⟩

theorem Serves.mono {mine : List Held} {given : Ino → ℕ} (h : Serves f f' mine given)
    (hsub : ∀ held ∈ mine, held ∈ helds) : Serves f f' helds given :=
  ⟨h.rest, h.ctr, h.keeps.mono hsub, h.lookups, h.stays⟩

theorem Serves.nodeidOf_eq {mine : List Held} {given : Ino → ℕ} (h : Serves f f' mine given)
    (hr : AtRest f ids names) (hp : f.nodeidOf p = some i) (hpos : 0 < Libfuse.lookups f i)
    (hpos' : 0 < Libfuse.lookups f' i) : f'.nodeidOf p = some i := by
  obtain ⟨p', n, hn, hid, hlook⟩ := hr.exists_of_lookups hpos
  obtain rfl := hr.nodeid_inj p p' i hp (by rw [Fuse.nodeidOf_eq hn, hid])
  obtain ⟨m, hm, hmid⟩ := (h.stays p n hn (by omega)).resolve_right (by rw [hid]; omega)
  rw [Fuse.nodeidOf_eq hm, hmid, hid]

theorem AtRest.found_parent (hr : AtRest f ids names) (hx : lookupNode f i s = some (some x))
    (hn : f.heap x = some n) : ∃ b, n.parent = some b ∧ f.nodeidOf b = some i := by
  obtain ⟨-, b, hb, hbid, -⟩ := hr.lookupNode_some hx
  rw [Fuse.parentOf_eq hn] at hb
  exact ⟨b, hb, hbid⟩

/-- A node that is locked for writing is not above a directory whose path is locked. -/
theorem Locked.not_above {held' : Held} (h : Locked f helds []) (hr : AtRest f ids names)
    (hheld : held ∈ helds) (hheld' : held' ∈ helds) (hx : held'.wnode = some x)
    (hparent : f.parentOf x ≠ none) (hbase : f.nodeidOf q = some held.target.nodeid) :
    ¬ Above f names q x := by
  intro habove
  obtain ⟨⟨p, l, r, n, hgranted, -⟩, -⟩ := h.1 held hheld
  obtain rfl := hr.nodeid_inj q p held.target.nodeid hbase hgranted.base
  have hroot := hr.parentOf_root hgranted.root
  rcases hgranted.walk.mem_of_above hroot habove with hmem | rfl
  · refine h.wnode_ne hheld hheld' ?_ hx
    rw [hgranted.claimOf_eq hr]
    exact hmem
  · exact hparent hroot

section

variable {mine : List Held} (hr : AtRest f ids names) (hctr : f.ctr < 2 ^ 32)
  (h : Locked f helds []) (hfew : Few 0 (claimsOf f helds))

include hr hctr

theorem Moves.serves {moved : Ptr → Prop} (hmoves : Moves f f' moved)
    (hr' : AtRest f' ids' names') (hctr' : f'.ctr = f.ctr) (hkeeps : Keeps f f' mine) :
    Serves f f' mine fun _ => 0 where
  rest := ⟨ids', names', hr'⟩
  ctr := by rwa [hctr']
  keeps := hkeeps
  lookups i := hr.lookups_le hr' 0 fun x n hn hpos _ => by
    obtain ⟨m, hm, hid, hlook⟩ := hmoves.known hn hpos
    exact .inl ⟨m, hm, hid, Nat.le_of_eq hlook.symm⟩
  stays x n hn hpos := by
    obtain ⟨m, hm, hid, -⟩ := hmoves.known hn hpos
    exact .inl ⟨m, hm, hid⟩

theorem findNode_serves {name : Option Name} {addr : Ptr} (hm : f.heap q = some m)
    (hfree : f.heap addr = none) (huse : f.idTable.use + 2 < 2 ^ 32) :
    ∃ f' r, findNode f m.nodeid name addr = some (f', r) ∧
      Serves f f' mine fun _ => 0 := by
  obtain ⟨f', r, ids', names', hfind, hr', hctr', -, hfound⟩ :=
    findNode_spec hr hctr (by rwa [← hr.id_use]) hm hfree name
  refine ⟨f', r, hfind, ⟨ids', names', hr'⟩, hctr', hfound.keeps hm hfree, fun i => ?_, ?_⟩
  · refine hr.lookups_le hr' 0 fun x n hn _ _ => ?_
    obtain ⟨k, hk, hid, -, -, -, hle⟩ := hfound.node hm hfree hn
    exact .inl ⟨k, hk, hid, hle⟩
  · intro x n hn _
    obtain ⟨k, hk, hid, -⟩ := hfound.node hm hfree hn
    exact .inl ⟨k, hk, hid⟩

include h hfew

theorem forgetNode_serves (hn : f.heap p = some n) (hroot : n.nodeid ≠ fuseRootId) {k : ℕ}
    (hk : 0 < k) (hle : k ≤ n.nlookup) (hwait : forgetWaits f p k = false) :
    ∃ f', forgetNode f n.nodeid k = some f' ∧
      Serves f f' mine fun i => if i = n.nodeid then k else 0 := by
  obtain ⟨f', ids', names', hforget, hr', hctr', -, hforgotten⟩ := forgetNode_spec hr hn hroot
    hk hle hwait (h.locksPinned hfew hr fun x hx _ => hx)
  -- a node with lookups stays, unless it was the one to be forgotten
  have hnode : ∀ x l, f.heap x = some l → 0 < l.nlookup →
      (∃ m, f'.heap x = some m ∧ m.nodeid = l.nodeid ∧
        l.nlookup ≤ m.nlookup + if l.nodeid = n.nodeid then k else 0) ∨
      x = p ∧ f'.heap x = none ∧ l.nlookup = k := by
    intro x l hl hpos
    cases hm : f'.heap x with
    | none =>
        rcases hforgotten.gone x l hl hm with h0 | ⟨hx, heq⟩
        · omega
        · exact .inr ⟨hx, rfl, heq⟩
    | some m =>
        obtain ⟨l', hl', heq⟩ := hforgotten.sub x m hm
        obtain rfl := Option.some.inj (hl.symm.trans hl')
        refine .inl ⟨m, rfl, by rw [heq], ?_⟩
        rw [heq]
        dsimp only
        by_cases hx : x = p
        · subst hx
          obtain rfl := Option.some.inj (hn.symm.trans hl)
          rw [if_pos rfl, if_pos rfl]
          omega
        · rw [if_neg hx]
          omega
  refine ⟨f', hforget, ⟨ids', names', hr'⟩, by rwa [hctr'],
    hforgotten.keeps hn hroot hle hwait, fun i => ?_, ?_⟩
  · refine hr.lookups_le hr' _ fun x l hl hpos hid => ?_
    rcases hnode x l hl hpos with ⟨m, hm, hmid, hle⟩ | ⟨hx, -, heq⟩
    · exact .inl ⟨m, hm, hmid, by rwa [hid] at hle⟩
    · subst hx
      obtain rfl := Option.some.inj (hn.symm.trans hl)
      exact .inr (by rw [if_pos hid.symm, heq])
  · intro x l hl hpos
    rcases hnode x l hl hpos with ⟨m, hm, hmid, -⟩ | ⟨hx, hnone, -⟩
    · exact .inl ⟨m, hm, hmid⟩
    · right
      by_contra hne
      obtain ⟨y, j, hj, hjid, -⟩ := hr'.exists_of_lookups (Nat.pos_of_ne_zero hne)
      obtain ⟨j', hj', heq⟩ := hforgotten.sub y j hj
      have hid : j'.nodeid = l.nodeid := by rw [← hjid, heq]
      obtain rfl := hr.nodeid_inj y x l.nodeid (by rw [Fuse.nodeidOf_eq hj', hid])
        (Fuse.nodeidOf_eq hl)
      rw [hnone] at hj
      cases hj

variable (hmine : ∀ held ∈ mine, held ∈ helds)

include hmine

/-- A name is removed that the request has locked for writing. -/
theorem removeNode_serves (hheld : held ∈ mine) (htarget : held.target.nodeid = i)
    (hw : ∀ x, lookupNode f i s = some (some x) → held.wnode = some x) :
    ∃ f', removeNode f i s = some f' ∧ Serves f f' mine fun _ => 0 := by
  have hpin : ∀ p, lookupNode f i s = some (some p) → LocksPinned f (names.erase p) := by
    intro p hp
    refine h.locksPinned hfew hr fun x hx hfree => (List.mem_erase_of_ne ?_).mpr hx
    rintro rfl
    exact hfree held (hmine held hheld) (hw x hp)
  obtain ⟨f', ids', names', hremove, hr', hctr', -, hmoves, hgone⟩ := removeNode_spec hr hpin
  refine ⟨f', hremove, hmoves.serves hr hctr hr' hctr'
    (hmoves.keeps (fun x n hx hn => ?_) fun x b hx hb => ?_)⟩
  · rw [← htarget] at hx
    exact ⟨held, hheld, hw x (htarget ▸ hx), hr.found_parent hx hn⟩
  · obtain ⟨m, hm, -, hnone⟩ := hgone x hx
    rw [Fuse.parentOf_eq hm, hnone] at hb
    cases hb

/-- A node is renamed whose name, and the one in its new place, the request has locked
for writing. -/
theorem renameNode_serves {held' : Held} {newdir : Ino} {newname : Name}
    (hheld : held ∈ mine) (htarget : held.target.nodeid = i)
    (hw : ∀ x, lookupNode f i s = some (some x) → held.wnode = some x)
    (hheld' : held' ∈ mine) (htarget' : held'.target.nodeid = newdir)
    (hw' : ∀ x, lookupNode f newdir newname = some (some x) → held'.wnode = some x)
    (hide : Bool) :
    ∃ f' r, renameNode f i s newdir newname hide = some (f', r) ∧
      Serves f f' mine fun _ => 0 := by
  obtain ⟨⟨q, l, root, m, hgranted, hm, hpos⟩, -⟩ := h.1 held' (hmine held' hheld')
  have hbase := hgranted.base
  rw [htarget', Fuse.nodeidOf_eq hm] at hbase
  obtain rfl := Option.some.inj hbase
  have hpin : LocksPinned f (untouched f names [(i, s), (m.nodeid, newname)]) := by
    refine h.locksPinned hfew hr fun x hx hfree => List.mem_filter.mpr ⟨hx, ?_⟩
    rw [decide_eq_true_iff]
    intro place hplace hfound
    rcases List.mem_pair.mp hplace with rfl | rfl
    · exact hfree held (hmine held hheld) (hw x hfound)
    · exact hfree held' (hmine held' hheld') (hw' x hfound)
  have hnot : ∀ p, lookupNode f i s = some (some p) → ¬ Above f names q p := by
    intro p hp
    obtain ⟨-, b, hb, -⟩ := hr.lookupNode_some hp
    refine h.not_above hr (hmine held' hheld') (hmine held hheld) (hw p hp) ?_ hgranted.base
    rw [hb]
    exact Option.some_ne_none b
  obtain ⟨f', r, ids', names', hrename, hr', hctr', -, hmoves, -, hgoes⟩ :=
    renameNode_spec hr hm hpos hnot hide hpin
  have hleaves : ∀ x n, (lookupNode f i s = some (some x) ∨
      lookupNode f m.nodeid newname = some (some x)) → f.heap x = some n →
      ∃ held ∈ mine, held.wnode = some x ∧
        ∃ b, n.parent = some b ∧ f.nodeidOf b = some held.target.nodeid := by
    rintro x n (hx | hx) hn
    · exact ⟨held, hheld, hw x hx, by rw [htarget]; exact hr.found_parent hx hn⟩
    · exact ⟨held', hheld', hw' x hx, by rw [htarget']; exact hr.found_parent hx hn⟩
  refine ⟨f', r, hrename, hmoves.serves hr hctr hr' hctr'
    (hmoves.keeps hleaves fun x b hx hb => ?_)⟩
  rcases hgoes x b hb with hb | rfl
  · obtain ⟨n, hn, hnb⟩ := Fuse.exists_of_parentOf hb
    obtain ⟨held₁, hheld₁, -, b', hb', hid⟩ := hleaves x n hx hn
    obtain rfl := Option.some.inj (hnb.symm.trans hb')
    exact ⟨held₁, hheld₁, hid⟩
  · exact ⟨held', hheld', by rw [htarget', Fuse.nodeidOf_eq hm]⟩

end

end Mergerfs.Libfuse
