import Mergerfs.Libfuse.Node

/-!
# The load of the node tables

A table grows by one bucket for every node beyond half of its size, and shrinks by some
as nodes go. As long as memory is given, there are never more nodes in a table than it
has buckets in use. This does not depend on what the nodes are: every function on the
nodes only inserts into the tables and takes out of them.
-/

namespace Mergerfs.Libfuse

open LinearHash (Table)
open LinearHash.Table (Loaded)

variable {f f' : Fuse} {p : Ptr}

/-- Both tables have their buckets, and memory is given whenever it is asked for. -/
structure Fuse.Roomy (f : Fuse) : Prop where
  name : f.nameTable.Loaded
  id : f.idTable.Loaded
  memory : ∀ b ∈ f.memory, b = true

namespace Fuse.Roomy

theorem drawn (h : f.Roomy) : f.drawn = true := by
  unfold Fuse.drawn
  cases hmem : f.memory with
  | nil => rfl
  | cons b rest => exact h.memory b (by rw [hmem]; exact List.mem_cons_self)

theorem congr (h : f.Roomy) (hname : f'.nameTable = f.nameTable)
    (hid : f'.idTable = f.idTable) (hmem : ∀ b ∈ f'.memory, b ∈ f.memory) : f'.Roomy where
  name := by
    rw [hname]
    exact h.name
  id := by
    rw [hid]
    exact h.id
  memory b hb := h.memory b (hmem b hb)

theorem setNode (h : f.Roomy) (p : Ptr) (n : Node) : (f.setNode p n).Roomy :=
  h.congr rfl rfl fun _ hb => hb

theorem freeNode (h : f.Roomy) (p : Ptr) : (f.freeNode p).Roomy :=
  h.congr rfl rfl fun _ hb => hb

theorem draw (h : f.Roomy) : f.draw.Roomy := h.congr rfl rfl fun _ => List.mem_of_mem_tail

theorem hashId (h : f.Roomy) (hf : hashId f p = some f') : f'.Roomy := by
  unfold Libfuse.hashId at hf
  rw [h.drawn] at hf
  obtain ⟨t, ht, rfl⟩ := Option.map_eq_some_iff.mp hf
  exact ⟨h.name, h.id.insert ht, h.draw.memory⟩

theorem unhashId (h : f.Roomy) (hf : unhashId f p = some f') : f'.Roomy := by
  unfold Libfuse.unhashId at hf
  obtain ⟨found, hfound, hf⟩ := Option.bind_eq_some_iff.mp hf
  cases found with
  | none =>
      obtain rfl := Option.some.inj hf
      exact h
  | some t =>
      obtain ⟨t', ht', rfl⟩ := Option.map_eq_some_iff.mp hf
      have ht := LinearHash.Table.unchain_loaded hfound h.id
      exact ⟨h.name, ht.settle (by omega) (by decide) ht', h.draw.memory⟩

theorem hashName {parentid : Ino} {name : Name} {ok : Bool} (h : f.Roomy)
    (hf : hashName f p parentid name = some (f', ok)) : f'.Roomy := by
  unfold Libfuse.hashName at hf
  obtain ⟨parent, -, hf⟩ := Option.bind_eq_some_iff.mp hf
  split_ifs at hf with hfail
  · exact absurd h.drawn hfail.2
  · obtain ⟨m, -, hf⟩ := Option.bind_eq_some_iff.mp hf
    obtain ⟨n, -, hf⟩ := Option.bind_eq_some_iff.mp hf
    have hset := ((h.draw.setNode parent { m with refctr := m.refctr + 1 }).setNode p
      { n with name := some name, parent := some parent })
    dsimp only at hf
    rw [hset.drawn] at hf
    obtain ⟨t, ht, hf⟩ := Option.map_eq_some_iff.mp hf
    obtain rfl := (Prod.mk.inj hf).1
    exact ⟨h.name.insert ht, h.id, hset.draw.memory⟩

/-! ## Along the references -/

def Keeps (unref : Fuse → Ptr → Option Fuse) : Prop :=
  ∀ f q f', Fuse.Roomy f → unref f q = some f' → f'.Roomy

variable {unref : Fuse → Ptr → Option Fuse}

theorem unhashName (hunref : Keeps unref) (h : f.Roomy)
    (hf : unhashName f unref p = some f') : f'.Roomy := by
  unfold Libfuse.unhashName at hf
  obtain ⟨n, -, hf⟩ := Option.bind_eq_some_iff.mp hf
  split_ifs at hf with hname
  · obtain rfl := Option.some.inj hf
    exact h
  · obtain ⟨parent, -, hf⟩ := Option.bind_eq_some_iff.mp hf
    obtain ⟨_, -, hf⟩ := Option.bind_eq_some_iff.mp hf
    obtain ⟨t, ht, hf⟩ := Option.bind_eq_some_iff.mp hf
    obtain ⟨g, hg, hf⟩ := Option.bind_eq_some_iff.mp hf
    obtain ⟨n', -, hf⟩ := Option.bind_eq_some_iff.mp hf
    obtain ⟨t', ht', rfl⟩ := Option.map_eq_some_iff.mp hf
    have hout : ({ f with nameTable := t } : Fuse).Roomy :=
      ⟨LinearHash.Table.unchain_loaded (Option.join_eq_some_iff.mp ht) h.name, h.id,
        h.memory⟩
    have hset := (hunref _ parent g hout hg).setNode p
      { n' with name := none, parent := none }
    exact ⟨hset.name.settle (by omega) (by decide) ht', hset.id, hset.draw.memory⟩

theorem deleteNode (hunref : Keeps unref) (h : f.Roomy)
    (hf : deleteNode f unref p = some f') : f'.Roomy := by
  unfold Libfuse.deleteNode at hf
  obtain ⟨n, -, hf⟩ := Option.bind_eq_some_iff.mp hf
  split_ifs at hf with hlock
  obtain ⟨g, hg, hf⟩ := Option.bind_eq_some_iff.mp hf
  obtain ⟨g', hg', rfl⟩ := Option.map_eq_some_iff.mp hf
  exact ((h.unhashName hunref hg).unhashId hg').freeNode p

theorem keeps_unrefLoop (fuel : ℕ) : Keeps (unrefLoop fuel) := by
  induction fuel with
  | zero => exact fun _ _ _ _ => nofun
  | succ fuel ih =>
      intro f q f' h hf
      unfold unrefLoop at hf
      obtain ⟨n, -, hf⟩ := Option.bind_eq_some_iff.mp hf
      split_ifs at hf with h0 hlast
      · exact (h.setNode q _).deleteNode ih hf
      · obtain rfl := Option.some.inj hf
        exact h.setNode q _

theorem keeps_unrefNode : Keeps unrefNode :=
  fun f q f' => keeps_unrefLoop (f.nameTable.use + 1) f q f'

/-! ## The requests -/

theorem incNlookup (h : f.Roomy) (hf : incNlookup f p = some f') : f'.Roomy := by
  obtain ⟨n, -, rfl⟩ := Option.map_eq_some_iff.mp hf
  exact h.setNode p _

theorem advanceCtr (h : f.Roomy) : (advanceCtr f).Roomy := h.congr rfl rfl fun _ hb => hb

theorem nextIdLoop {fuel : ℕ} (h : f.Roomy) (hf : nextIdLoop fuel f = some f') :
    f'.Roomy := by
  induction fuel generalizing f with
  | zero => cases hf
  | succ fuel ih =>
      unfold Libfuse.nextIdLoop at hf
      dsimp only at hf
      split_ifs at hf with hskip
      · exact ih h.advanceCtr hf
      · obtain ⟨found, -, hf⟩ := Option.bind_eq_some_iff.mp hf
        split_ifs at hf
        · obtain rfl := Option.some.inj hf
          exact h.advanceCtr
        · exact ih h.advanceCtr hf

theorem addNode {parent : Ino} {name : Name} {r : Option Ptr} (h : f.Roomy)
    (hf : addNode f parent name p = some (f', r)) : f'.Roomy := by
  unfold Libfuse.addNode at hf
  rw [h.drawn, if_neg (not_not.mpr rfl)] at hf
  obtain ⟨f₁, h₁, hf⟩ := Option.bind_eq_some_iff.mp hf
  obtain ⟨⟨f₂, ok⟩, h₂, hf⟩ := Option.bind_eq_some_iff.mp hf
  have hroom := ((h.draw.nextIdLoop h₁).setNode p _).hashName h₂
  dsimp only at hf
  split_ifs at hf
  · obtain ⟨f₃, h₃, hf⟩ := Option.bind_eq_some_iff.mp hf
    obtain ⟨f₄, h₄, hf⟩ := Option.map_eq_some_iff.mp hf
    obtain rfl := (Prod.mk.inj hf).1
    exact (hroom.hashId h₃).incNlookup h₄
  · obtain rfl := (Prod.mk.inj (Option.some.inj hf)).1
    exact hroom.freeNode p

theorem findNode {parent : Ino} {name : Option Name} {r : Option Ptr} (h : f.Roomy)
    (hf : findNode f parent name p = some (f', r)) : f'.Roomy := by
  -- a node that is there is only counted
  have hagain : ∀ q, (Libfuse.incNlookup f q).map (fun f => (f, some q)) = some (f', r) →
      f'.Roomy := by
    intro q hf
    obtain ⟨g, hg, hf⟩ := Option.map_eq_some_iff.mp hf
    obtain rfl := (Prod.mk.inj hf).1
    exact h.incNlookup hg
  unfold Libfuse.findNode at hf
  cases name with
  | none =>
      obtain ⟨q, -, hf⟩ := Option.bind_eq_some_iff.mp hf
      exact hagain q hf
  | some name =>
      obtain ⟨found, -, hf⟩ := Option.bind_eq_some_iff.mp hf
      cases found with
      | some q => exact hagain q hf
      | none => exact h.addNode hf

theorem forgetNode {nodeid : Ino} {k : ℕ} (h : f.Roomy)
    (hf : forgetNode f nodeid k = some f') : f'.Roomy := by
  unfold Libfuse.forgetNode at hf
  split_ifs at hf with hroot
  · obtain rfl := Option.some.inj hf
    exact h
  · obtain ⟨q, -, hf⟩ := Option.bind_eq_some_iff.mp hf
    obtain ⟨n, -, hf⟩ := Option.bind_eq_some_iff.mp hf
    split_ifs at hf with hfew hlast
    · exact keeps_unrefNode _ q f' (h.setNode q _) hf
    · obtain rfl := Option.some.inj hf
      exact h.setNode q _

theorem unlinkNode (h : f.Roomy) (hf : unlinkNode f p = some f') : f'.Roomy :=
  h.unhashName keeps_unrefNode hf

theorem removeNode {dir : Ino} {name : Name} (h : f.Roomy)
    (hf : removeNode f dir name = some f') : f'.Roomy := by
  obtain ⟨found, -, hf⟩ := Option.bind_eq_some_iff.mp hf
  cases found with
  | none =>
      obtain rfl := Option.some.inj hf
      exact h
  | some q => exact h.unlinkNode hf

theorem relink {newdir : Ino} {newname : Name} {hide : Bool} {r : RenameResult}
    (h : f.Roomy) (hf : relink f p newdir newname hide = some (f', r)) : f'.Roomy := by
  unfold Libfuse.relink at hf
  obtain ⟨f₁, h₁, hf⟩ := Option.bind_eq_some_iff.mp hf
  obtain ⟨⟨f₂, ok⟩, h₂, hf⟩ := Option.bind_eq_some_iff.mp hf
  have hroom := (h.unlinkNode h₁).hashName h₂
  dsimp only at hf
  split_ifs at hf with hok hhide
  · obtain ⟨n, -, hf⟩ := Option.map_eq_some_iff.mp hf
    obtain rfl := (Prod.mk.inj hf).1
    exact hroom.setNode p _
  · obtain ⟨n, -, hf⟩ := Option.map_eq_some_iff.mp hf
    obtain rfl := (Prod.mk.inj hf).1
    exact hroom
  · obtain rfl := (Prod.mk.inj (Option.some.inj hf)).1
    exact hroom

theorem renameNode {olddir newdir : Ino} {oldname newname : Name} {hide : Bool}
    {r : RenameResult} (h : f.Roomy)
    (hf : renameNode f olddir oldname newdir newname hide = some (f', r)) :
    f'.Roomy := by
  unfold Libfuse.renameNode at hf
  obtain ⟨node, -, hf⟩ := Option.bind_eq_some_iff.mp hf
  obtain ⟨newnode, -, hf⟩ := Option.bind_eq_some_iff.mp hf
  cases node with
  | none =>
      obtain rfl := (Prod.mk.inj (Option.some.inj hf)).1
      exact h
  | some q =>
      cases newnode with
      | none => exact h.relink hf
      | some q' =>
          dsimp only at hf
          split_ifs at hf
          · obtain rfl := (Prod.mk.inj (Option.some.inj hf)).1
            exact h
          · obtain ⟨f₁, h₁, hf⟩ := Option.bind_eq_some_iff.mp hf
            exact (h.unlinkNode h₁).relink hf

theorem fuseNew {r : Ptr} {memory : List Bool} (hmem : ∀ b ∈ memory, b = true)
    (hf : fuseNew r memory = some f') : f'.Roomy := by
  have hinit : nodeTableInit.Loaded :=
    LinearHash.Table.loaded_init (by decide) (by decide)
  obtain ⟨f₁, h₁, hf⟩ := Option.bind_eq_some_iff.mp hf
  refine (incNlookup (setNode ⟨hinit, hinit, hmem⟩ r _) h₁).hashId hf

end Fuse.Roomy

end Mergerfs.Libfuse
