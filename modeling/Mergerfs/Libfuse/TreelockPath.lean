import Mergerfs.Libfuse.Treelock
import Mergerfs.Libfuse.NodeMove

/-!
# Locking and unlocking a path

The lock functions change nothing but the words of the locks (`relock`), and they keep
the words those of a list of claims: `tryGetPath` adds the claim of the path it gives
out, or none if it fails, and `unlockPath` takes it away again. No assertion fails.
-/

namespace Mergerfs.Libfuse

open LockWord (Claim Guards)
open Forest (Walk)

variable {f f' : Fuse} {ids names : List Ptr} {p q x : Ptr} {n m : Node} {i : Ino}
  {s : Name}

/-! ## Words -/

namespace Fuse

def word (f : Fuse) (x : Ptr) : ℤ := ((f.heap x).map Node.treelock).getD 0

def relock (f : Fuse) (word : Ptr → ℤ) : Fuse :=
  { f with heap := fun x => (f.heap x).map fun n => { n with treelock := word x } }

variable {word word' : Ptr → ℤ}

theorem word_eq (h : f.heap p = some n) : f.word p = n.treelock := by
  rw [Fuse.word, h, Option.map_some, Option.getD_some]

theorem heap_relock (h : f.heap p = some n) :
    (f.relock word).heap p = some { n with treelock := word p } := by
  unfold relock
  dsimp only
  rw [h, Option.map_some]

theorem isSome_heap_relock : ((f.relock word).heap p).isSome = (f.heap p).isSome :=
  Option.isSome_map

theorem exists_of_heap_relock (h : (f.relock word).heap p = some m) :
    ∃ n, f.heap p = some n ∧ m = { n with treelock := word p } := by
  obtain ⟨n, hn, rfl⟩ := Option.map_eq_some_iff.mp h
  exact ⟨n, hn, rfl⟩

theorem word_relock (h : (f.heap x).isSome) : (f.relock word).word x = word x := by
  obtain ⟨n, hn⟩ := Option.isSome_iff_exists.mp h
  rw [word_eq (heap_relock hn)]

theorem sameNames_relock : SameNames f (f.relock word) := by
  refine ⟨?_, ?_, ?_⟩ <;> funext x
  · unfold nodeidOf relock
    rw [Option.map_map]
    rfl
  · unfold parentOf relock
    rw [Option.bind_map]
    rfl
  · unfold nameOf relock
    rw [Option.bind_map]
    rfl

@[simp] theorem relock_relock : (f.relock word).relock word' = f.relock word' := by
  unfold relock
  simp only [Option.map_map]
  rfl

@[simp] theorem relock_word : f.relock f.word = f := by
  unfold relock Fuse.word
  congr 1
  funext x
  cases f.heap x <;> rfl

theorem setNode_treelock (h : f.heap p = some n) (v : ℤ) :
    f.setNode p { n with treelock := v } = f.relock (Function.update f.word p v) := by
  unfold setNode relock
  congr 1
  funext x
  by_cases hx : x = p
  · rw [hx, Function.update_self, h, Option.map_some, Function.update_self]
  · rw [Function.update_of_ne hx, Function.update_of_ne hx]
    unfold Fuse.word
    cases f.heap x <;> rfl

theorem word_setNode_treelock (v : ℤ) :
    (f.setNode p { n with treelock := v }).word = Function.update f.word p v := by
  funext x
  by_cases hx : x = p
  · rw [hx, word_eq heap_setNode_self, Function.update_self]
  · rw [Function.update_of_ne hx]
    unfold Fuse.word
    rw [heap_setNode_of_ne hx]

end Fuse

theorem AtRest.relock (hr : AtRest f ids names) (word : Ptr → ℤ) :
    AtRest (f.relock word) ids names where
  toShape := hr.toShape.congr Fuse.sameNames_relock rfl rfl
  mem_ids x := by rw [hr.mem_ids, Fuse.isSome_heap_relock]
  counted := by
    intro x k hk
    obtain ⟨n, hn, rfl⟩ := Fuse.exists_of_heap_relock hk
    rw [Fuse.sameNames_relock.parent]
    exact hr.counted x n hn
  id_use := hr.id_use
  name_use := hr.name_use
  root := by
    obtain ⟨r, k, hk, hid, hparent, hlook⟩ := hr.root
    exact ⟨r, _, Fuse.heap_relock hk, hid, hparent, hlook⟩
  alive := by
    intro x k hk
    obtain ⟨n, hn, rfl⟩ := Fuse.exists_of_heap_relock hk
    exact hr.alive x n hn

/-! ## The way up -/

def Fuse.pathBytes (f : Fuse) (l : List Ptr) : List UInt8 :=
  l.reverse.flatMap fun x => 47 :: (f.nameOf x).getD []

theorem Fuse.pathBytes_snoc (l : List Ptr) (hname : f.nameOf x = some s) :
    f.pathBytes (l ++ [x]) = 47 :: s ++ f.pathBytes l := by
  unfold Fuse.pathBytes
  rw [List.reverse_append, List.reverse_singleton, List.singleton_append,
    List.flatMap_cons, hname, Option.getD_some]

namespace AtRest

variable (hr : AtRest f ids names)

include hr

theorem mem_names_of_parent (x q : Ptr) (h : f.parentOf x = some q) : x ∈ names :=
  (hr.mem_names x q h).resolve_right id

theorem parentOf_root (h : f.nodeidOf x = some fuseRootId) : f.parentOf x = none := by
  obtain ⟨r, k, hk, hid, hparent, -⟩ := hr.root
  obtain rfl := hr.nodeid_inj x r fuseRootId h (by rw [Fuse.nodeidOf_eq hk, hid])
  rw [Fuse.parentOf_eq hk, hparent]

theorem live_parent (h : f.parentOf x = some q) :
    (f.heap q).isSome ∧ ∃ s, f.nameOf x = some s := by
  obtain ⟨b, s, j, hb, hs, hj⟩ := hr.linked x (hr.mem_names_of_parent x q h)
  obtain rfl : q = b := Option.some.inj (h.symm.trans hb)
  obtain ⟨k, hk, -⟩ := Fuse.exists_of_nodeidOf hj
  exact ⟨by rw [hk]; rfl, s, hs⟩

end AtRest

/-- How far a walk up from `base` gets: it has read the nodes of `l`, and ends at the
root, or at a node that is locked or has no name. -/
def Reaches (f : Fuse) (base : Ptr) (s : List UInt8) (l : List Ptr) : Climbed → Prop
  | .top path => ∃ r, Walk f.parentOf base l r ∧ f.nodeidOf r = some fuseRootId ∧
      path = f.pathBytes l ++ s
  | .stuck .again q => Walk f.parentOf base l q ∧ f.word q < 0 ∧
      ∃ b, f.parentOf q = some b
  | .stuck .noent q => Walk f.parentOf base l q ∧ f.parentOf q = none ∧
      f.nodeidOf q ≠ some fuseRootId ∧ (f.heap q).isSome

variable {claims : List (Claim Ptr)} {w : Option Ptr} {base : Ptr}

theorem climb_spec (fuel : ℕ) (word : Ptr → ℤ) {done : List Ptr} (path : List UInt8)
    (hr : AtRest f ids names) (hbase : Walk f.parentOf base done p)
    (hp : (f.heap p).isSome) (hfuel : names.length < fuel + done.length)
    (hg : Guards treelockWaitOffset (f.relock word).word (⟨done, w⟩ :: claims))
    (hbound : (claims.length : ℤ) + 2 < -treelockWaitOffset)
    (hsame : ∀ x, x ∉ done → (f.relock word).word x = f.word x)
    (hpos : ∀ x ∈ done, 0 ≤ f.word x) :
    ∃ word' out l, climb true fuel (f.relock word) p (f.pathBytes done ++ path) =
        some (f.relock word', out) ∧
      Guards treelockWaitOffset (f.relock word').word (⟨l, w⟩ :: claims) ∧
      (∀ x, x ∉ l → (f.relock word').word x = f.word x) ∧ (∀ x ∈ l, 0 ≤ f.word x) ∧
      Reaches f base path l out := by
  induction fuel generalizing word done p with
  | zero =>
      have := hbase.length_le hr.acyclic hr.mem_names_of_parent
      omega
  | succ fuel ih =>
      have hpd : p ∉ done := hbase.notMem hr.acyclic hr.mem_names_of_parent
      obtain ⟨n, hn⟩ := Option.isSome_iff_exists.mp hp
      have hn' : (f.relock word).heap p = some { n with treelock := word p } :=
        Fuse.heap_relock hn
      have hword : f.word p = word p := by
        rw [← hsame p hpd, Fuse.word_relock hp]
      unfold climb
      rw [hn', Option.bind_some]
      by_cases hroot : n.nodeid = fuseRootId
      · rw [if_pos hroot]
        refine ⟨word, _, done, rfl, hg, hsame, hpos, p, hbase, ?_, rfl⟩
        rw [Fuse.nodeidOf_eq hn, hroot]
      rw [if_neg hroot]
      dsimp only
      cases hparent : n.parent with
      | none =>
          refine ⟨word, .stuck .noent p, done, ?_, hg, hsame, hpos, hbase, ?_, ?_, hp⟩
          · cases n.name <;> rfl
          · rw [Fuse.parentOf_eq hn, hparent]
          · rw [Fuse.nodeidOf_eq hn]
            exact fun h => hroot (Option.some.inj h)
      | some b =>
          have hpb : f.parentOf p = some b := by rw [Fuse.parentOf_eq hn, hparent]
          obtain ⟨hb, s, hs⟩ := hr.live_parent hpb
          have hname : n.name = some s := by rw [← Fuse.nameOf_eq hn, hs]
          rw [hname]
          dsimp only
          rw [if_pos rfl]
          by_cases hneg : word p < 0
          · rw [if_pos hneg]
            exact ⟨word, _, done, rfl, hg, hsame, hpos, hbase, by rwa [hword], b, hpb⟩
          · rw [if_neg hneg]
            have hset := Fuse.setNode_treelock hn' (word p + 1)
            have hwords := Fuse.word_setNode_treelock (f := f.relock word) (p := p)
              (n := { n with treelock := word p }) (word p + 1)
            dsimp only at hset hwords
            rw [hparent, hname] at hset hwords
            rw [hset, Fuse.relock_relock] at hwords
            rw [hset, Fuse.relock_relock, ← List.append_assoc, ← Fuse.pathBytes_snoc _ hs]
            have hread := hg.read hpd (by rw [Fuse.word_relock hp]; omega) hbound
            rw [Fuse.word_relock hp, ← hwords] at hread
            refine ih _ (hbase.snoc hpb) hb ?_ hread ?_ ?_
            · rw [List.length_append, List.length_singleton]
              omega
            · intro x hx
              rw [List.mem_append, List.mem_singleton, not_or] at hx
              rw [hwords, Function.update_of_ne hx.2, hsame x hx.1]
            · intro x hx
              rcases List.mem_append.mp hx with hx | hx
              · exact hpos x hx
              · rw [List.mem_singleton.mp hx, hword]
                omega

/-! ## Giving a path back -/

theorem unlockLoop_spec (fuel : ℕ) {l : List Ptr} (stop : Option Ptr)
    (hr : AtRest f ids names) (hwalk : Walk f.parentOf p l q) (hp : (f.heap p).isSome)
    (hfuel : l.length < fuel)
    (hstop : stop = some q ∨ stop = none ∧ f.nodeidOf q = some fuseRootId)
    (hg : Guards treelockWaitOffset f.word (⟨l, w⟩ :: claims))
    (hbound : (claims.length : ℤ) + 2 < -treelockWaitOffset) :
    ∃ word, unlockLoop fuel f (some p) stop = some (f.relock word) ∧
      Guards treelockWaitOffset (f.relock word).word (⟨[], w⟩ :: claims) ∧
      ∀ x, x ∉ l → (f.relock word).word x = f.word x := by
  induction l generalizing f p fuel with
  | nil =>
      cases hwalk
      obtain ⟨fuel, rfl⟩ := Nat.exists_eq_add_of_lt hfuel
      obtain ⟨n, hn⟩ := Option.isSome_iff_exists.mp hp
      refine ⟨f.word, ?_, by rwa [Fuse.relock_word], fun x _ => by rw [Fuse.relock_word]⟩
      rw [Fuse.relock_word]
      unfold unlockLoop
      rcases hstop with rfl | ⟨rfl, hroot⟩
      · rw [if_pos rfl]
      · rw [Fuse.nodeidOf_eq hn] at hroot
        rw [if_neg (by simp), Option.bind_some, hn, Option.bind_some,
          if_pos (Option.some.inj hroot)]
  | cons y l ih =>
      have hnot := hwalk.notMem hr.acyclic hr.mem_names_of_parent
      have hnodup := hwalk.nodup hr.acyclic hr.mem_names_of_parent
      obtain _ | ⟨hpb, hwalk⟩ := hwalk
      obtain ⟨fuel, rfl⟩ := Nat.exists_eq_add_of_lt hfuel
      obtain ⟨n, hn⟩ := Option.isSome_iff_exists.mp hp
      have hne : ¬ some y = stop := by
        rcases hstop with rfl | ⟨rfl, -⟩
        · intro h
          exact hnot (Option.some.inj h ▸ List.mem_cons_self)
        · exact Option.some_ne_none y
      have hroot : n.nodeid ≠ fuseRootId := by
        intro h
        have := hr.parentOf_root (x := y) (by rw [Fuse.nodeidOf_eq hn, h])
        rw [hpb] at this
        cases this
      obtain ⟨h0, hoff, hwrite, hg'⟩ := hg.unread (List.nodup_cons.mp hnodup).1 hbound
      have hset := Fuse.setNode_treelock hn (LockWord.leave treelockWaitOffset n.treelock)
      rw [Fuse.word_eq hn] at h0 hoff hwrite hg'
      have hwords := Fuse.word_setNode_treelock (f := f) (p := y) (n := n)
        (LockWord.leave treelockWaitOffset n.treelock)
      rw [← hwords, hset] at hg'
      have hparents : (f.relock (Function.update f.word y
          (LockWord.leave treelockWaitOffset n.treelock))).parentOf = f.parentOf :=
        Fuse.sameNames_relock.parent
      have hids : (f.relock (Function.update f.word y
          (LockWord.leave treelockWaitOffset n.treelock))).nodeidOf = f.nodeidOf :=
        Fuse.sameNames_relock.nodeid
      obtain ⟨word, hloop, hgw, hsame⟩ := ih (l.length + 1 + fuel) (hr.relock _)
        (by rwa [hparents]) (by rw [Fuse.isSome_heap_relock]; exact (hr.live_parent hpb).1)
        (by omega) (by rwa [hids]) hg'
      rw [Fuse.relock_relock] at hloop hgw
      refine ⟨word, ?_, hgw, ?_⟩
      · rw [Fuse.parentOf_eq hn] at hpb
        unfold unlockLoop
        rw [if_neg hne, Option.bind_some, hn, Option.bind_some, if_neg hroot,
          if_neg (by simpa [treelockWrite] using ⟨h0, hoff, hwrite⟩), hset, hpb]
        exact hloop
      · intro x hx
        rw [List.mem_cons, not_or] at hx
        have := hsame x hx.2
        rwa [← hset, hwords, Function.update_of_ne hx.1, hset, Fuse.relock_relock] at this

theorem AtRest.getNode_of_nodeidOf (hr : AtRest f ids names) (h : f.nodeidOf p = some i) :
    getNode f i = some p ∧ (f.heap p).isSome := by
  obtain ⟨n, hn, rfl⟩ := Fuse.exists_of_nodeidOf h
  have hlive : (f.heap p).isSome := by rw [hn]; rfl
  exact ⟨hr.getNode_eq_some ((hr.mem_ids p).mpr hlive) h, hlive⟩

/-- `unlock_path` gives back exactly the claim of the path. -/
theorem unlockPath_spec {l : List Ptr} (stop : Option Ptr) (hr : AtRest f ids names)
    (hid : f.nodeidOf p = some i) (hwalk : Walk f.parentOf p l q)
    (hstop : stop = some q ∨ stop = none ∧ f.nodeidOf q = some fuseRootId)
    (hw : ∀ x, w = some x → (f.heap x).isSome)
    (hg : Guards treelockWaitOffset f.word (⟨l, w⟩ :: claims))
    (hbound : (claims.length : ℤ) + 2 < -treelockWaitOffset) :
    ∃ word, unlockPath f i w stop = some (f.relock word) ∧
      Guards treelockWaitOffset (f.relock word).word claims ∧
      ∀ x, x ∉ l → w ≠ some x → (f.relock word).word x = f.word x := by
  have hlen := hwalk.length_le hr.acyclic hr.mem_names_of_parent
  -- the walk, once the write lock is given back
  have hloop : ∀ word, Guards treelockWaitOffset (f.relock word).word (⟨l, none⟩ :: claims) →
      ∃ word', ((getNode (f.relock word) i).bind fun p =>
          unlockLoop ((f.relock word).nameTable.use + 2) (f.relock word) (some p) stop) =
            some (f.relock word') ∧
        Guards treelockWaitOffset (f.relock word').word claims ∧
        ∀ x, x ∉ l → (f.relock word').word x = (f.relock word).word x := by
    intro word hgw
    have hr' := hr.relock word
    have hid' : (f.relock word).nodeidOf p = some i := by
      rw [Fuse.sameNames_relock.nodeid, hid]
    obtain ⟨hget, hlive⟩ := hr'.getNode_of_nodeidOf hid'
    have huse := hr'.name_use
    obtain ⟨word', hunlock, hgw', hsame⟩ := unlockLoop_spec
      ((f.relock word).nameTable.use + 2) stop hr'
      (by rwa [Fuse.sameNames_relock.parent]) hlive (by omega)
      (by rwa [Fuse.sameNames_relock.nodeid]) hgw hbound
    rw [Fuse.relock_relock] at hunlock hgw' hsame
    rw [hget, Option.bind_some]
    exact ⟨word', hunlock, LockWord.Guards.cons_nil_iff.mp hgw', hsame⟩
  unfold unlockPath
  cases w with
  | none =>
      obtain ⟨word', hunlock, hgw', hsame⟩ := hloop f.word (by rwa [Fuse.relock_word])
      rw [Fuse.relock_word] at hunlock hsame
      exact ⟨word', hunlock, hgw', fun x hx _ => hsame x hx⟩
  | some x =>
      obtain ⟨n, hn⟩ := Option.isSome_iff_exists.mp (hw x rfl)
      obtain ⟨hword, hg'⟩ := hg.unwrite
      rw [Fuse.word_eq hn] at hword
      have hset := Fuse.setNode_treelock hn 0
      have hwords := Fuse.word_setNode_treelock (f := f) (p := x) (n := n) 0
      rw [← hwords, hset] at hg'
      obtain ⟨word', hunlock, hgw', hsame⟩ := hloop _ hg'
      refine ⟨word', ?_, hgw', ?_⟩
      · dsimp only
        unfold unlockWnode
        rw [hn, Option.bind_some, if_pos (show _ = treelockWrite from hword),
          Option.bind_some, hset]
        exact hunlock
      · intro y hy hne
        rw [hsame y hy, ← hset, hwords,
          Function.update_of_ne fun h => hne (by rw [h])]

/-! ## Taking a path -/

theorem AtRest.lookupNode_relock (hr : AtRest f ids names) (word : Ptr → ℤ) (i : Ino)
    (s : Name) : lookupNode (f.relock word) i s = lookupNode f i s := by
  rw [(hr.relock word).lookupNode_eq, hr.lookupNode_eq, Fuse.sameNames_relock.nodeid,
    Fuse.sameNames_relock.parent, Fuse.sameNames_relock.name]

/-- The node with the name is locked for writing if nobody has it; otherwise its readers
are told that somebody waits. -/
theorem lockWnode_spec (hr : AtRest f ids names) (i : Ino) (s : Name)
    (hg : Guards treelockWaitOffset f.word claims)
    (hbound : (claims.length : ℤ) + 2 < -treelockWaitOffset) :
    (∃ word, Guards treelockWaitOffset (f.relock word).word claims ∧
      lockWnode f i s = some (f.relock word, .error .again) ∧
      (∀ x, f.word x < 0 → (f.relock word).word x = f.word x) ∧
      ∃ x, lookupNode f i s = some (some x) ∧ f.word x ≠ 0) ∨
    ∃ word wnode, Guards treelockWaitOffset (f.relock word).word (⟨[], wnode⟩ :: claims) ∧
      lockWnode f i s = some (f.relock word, .ok wnode) ∧
      lookupNode f i s = some wnode ∧ (∀ x, wnode = some x → f.word x = 0) ∧
      ∀ x, (f.relock word).word x = if wnode = some x then -1 else f.word x := by
  obtain ⟨found, hfound⟩ : ∃ found, lookupNode f i s = some found :=
    ⟨_, hr.lookupNode_eq i s⟩
  unfold lockWnode
  rw [hfound, Option.bind_some]
  cases found with
  | none =>
      refine .inr ⟨f.word, none, ?_, ?_, rfl, nofun, ?_⟩
      · rw [Fuse.relock_word]
        exact LockWord.Guards.cons_nil_iff.mpr hg
      · rw [Fuse.relock_word]
      · intro x
        rw [Fuse.relock_word, if_neg (by simp)]
  | some x =>
      obtain ⟨n, _, hn, -⟩ := hr.live_of_mem (hr.lookupNode_some hfound).1
      dsimp only
      rw [hn, Option.map_some]
      by_cases hfree : n.treelock = 0
      · rw [if_neg (not_not.mpr hfree)]
        have hset := Fuse.setNode_treelock hn treelockWrite
        have hwrite := (LockWord.Guards.cons_nil_iff.mpr hg).write
          (by rw [Fuse.word_eq hn, hfree]) hbound
        rw [show (-1 : ℤ) = treelockWrite from rfl,
          ← Fuse.word_setNode_treelock (n := n), hset] at hwrite
        refine .inr ⟨_, some x, hwrite, by rw [hset], rfl, ?_, ?_⟩
        · intro y hy
          rw [← Option.some.inj hy, Fuse.word_eq hn, hfree]
        intro y
        rw [← hset, Fuse.word_setNode_treelock]
        by_cases hy : y = x
        · rw [hy, Function.update_self, if_pos rfl]
          rfl
        · rw [Function.update_of_ne hy, if_neg fun h => hy (Option.some.inj h).symm]
      · rw [if_pos hfree]
        have hbusy : ∃ y, some (some x) = some (some y) ∧ f.word y ≠ 0 :=
          ⟨x, rfl, by rw [Fuse.word_eq hn]; exact hfree⟩
        by_cases hpos : 0 < n.treelock
        · have hset := Fuse.setNode_treelock hn (n.treelock + treelockWaitOffset)
          have hwant := hg.want (x := x) (by rw [Fuse.word_eq hn]; exact hpos) (by omega)
          rw [Fuse.word_eq hn, ← Fuse.word_setNode_treelock (n := n), hset] at hwant
          refine .inl ⟨_, hwant, by rw [if_pos hpos, hset], ?_, hbusy⟩
          intro y hy
          rw [← hset, Fuse.word_setNode_treelock, Function.update_of_ne]
          rintro rfl
          rw [Fuse.word_eq hn] at hy
          omega
        · refine .inl ⟨f.word, by rwa [Fuse.relock_word], ?_, ?_, hbusy⟩
          · rw [if_neg hpos, Fuse.relock_word]
          · rw [Fuse.relock_word]
            exact fun _ _ => rfl

/-- What a path is that was given out: the names of the nodes on the way up from the
node of the target to the root, and the node that is locked for writing has the name. -/
structure Granted (f : Fuse) (held : Held) (p : Ptr) (l : List Ptr) (r : Ptr) : Prop where
  base : f.nodeidOf p = some held.target.nodeid
  walk : Walk f.parentOf p l r
  root : f.nodeidOf r = some fuseRootId
  path : held.path = shown (f.pathBytes l ++ held.target.suffix)
  live : ∀ x, held.wnode = some x → (f.heap x).isSome

theorem climbPath_spec (hr : AtRest f ids names) (t : Target)
    (hid : f.nodeidOf p = some t.nodeid)
    (hw : ∀ x, w = some x → (f.heap x).isSome)
    (hg : Guards treelockWaitOffset f.word (⟨[], w⟩ :: claims))
    (hbound : (claims.length : ℤ) + 2 < -treelockWaitOffset) :
    (∃ word held l r, climbPath f t w = some (f.relock word, .ok held) ∧
      held.target = t ∧ held.wnode = w ∧ Granted f held p l r ∧ (∀ x ∈ l, 0 ≤ f.word x) ∧
      Guards treelockWaitOffset (f.relock word).word (⟨l, w⟩ :: claims) ∧
      ∀ x, f.word x < 0 → (f.relock word).word x = f.word x) ∨
    ∃ word err, climbPath f t w = some (f.relock word, .error err) ∧
      Guards treelockWaitOffset (f.relock word).word claims ∧
      (∀ x, f.word x < 0 → w ≠ some x → (f.relock word).word x = f.word x) ∧
      (err = .again → ∃ l q b, Walk f.parentOf p l q ∧ f.parentOf q = some b ∧
        f.word q < 0) ∧
      (err = .noent → ∃ l q, Walk f.parentOf p l q ∧ f.parentOf q = none ∧
        f.nodeidOf q ≠ some fuseRootId) := by
  obtain ⟨hget, hp⟩ := hr.getNode_of_nodeidOf hid
  have huse := hr.name_use
  obtain ⟨word, out, l, hclimb, hgw, hsame, hpos, hreach⟩ := climb_spec
    (f.nameTable.use + 1) f.word t.suffix hr (.nil p) hp (by simp only [List.length_nil]; omega)
    (by rwa [Fuse.relock_word]) hbound (by simp) nofun
  rw [Fuse.relock_word] at hclimb
  have hneg : ∀ x, f.word x < 0 → x ∉ l := by
    intro x hx hxl
    have := hpos x hxl
    omega
  have hback : ∀ {q}, Walk f.parentOf p l q → ∃ word',
      unlockPath (f.relock word) t.nodeid w (some q) = some (f.relock word') ∧
        Guards treelockWaitOffset (f.relock word').word claims ∧
        ∀ x, f.word x < 0 → w ≠ some x → (f.relock word').word x = f.word x := by
    intro q hwalk
    obtain ⟨word', hunlock, hgw', hkeep⟩ := unlockPath_spec (some q) (hr.relock word)
      (by rw [Fuse.sameNames_relock.nodeid, hid])
      (by rwa [Fuse.sameNames_relock.parent]) (.inl rfl)
      (fun x hx => by rw [Fuse.isSome_heap_relock]; exact hw x hx) hgw hbound
    rw [Fuse.relock_relock] at hunlock hgw' hkeep
    refine ⟨word', hunlock, hgw', fun x hx hwx => ?_⟩
    rw [hkeep x (hneg x hx) hwx, hsame x (hneg x hx)]
  unfold climbPath
  rw [hget, Option.bind_some, show t.suffix = f.pathBytes [] ++ t.suffix from rfl, hclimb,
    Option.bind_some]
  cases out with
  | top path =>
      obtain ⟨r, hwalk, hroot, rfl⟩ := hreach
      exact .inl ⟨word, _, l, r, rfl, rfl, rfl, ⟨hid, hwalk, hroot, rfl, hw⟩, hpos, hgw,
        fun x hx => hsame x (hneg x hx)⟩
  | stuck err q =>
      right
      cases err with
      | again =>
          obtain ⟨hwalk, hlt, b, hb⟩ := hreach
          obtain ⟨word', hunlock, hgw', hkeep⟩ := hback hwalk
          refine ⟨word', .again, ?_, hgw', hkeep, fun _ => ⟨l, q, b, hwalk, hb, hlt⟩, nofun⟩
          dsimp only
          rw [hunlock, Option.map_some]
      | noent =>
          obtain ⟨hwalk, hparent, hroot, -⟩ := hreach
          obtain ⟨word', hunlock, hgw', hkeep⟩ := hback hwalk
          refine ⟨word', .noent, ?_, hgw', hkeep, nofun,
            fun _ => ⟨l, q, hwalk, hparent, hroot⟩⟩
          dsimp only
          rw [hunlock, Option.map_some]

theorem AtRest.ne_of_walk {l : List Ptr} (hr : AtRest f ids names)
    (hx : f.parentOf x = some p) (hwalk : Walk f.parentOf p l q) : x ≠ q := by
  rintro rfl
  have hloop := hwalk.snoc hx
  have hnot := hloop.notMem hr.acyclic hr.mem_names_of_parent
  cases hwalk with
  | nil => exact hnot List.mem_cons_self
  | cons => exact hnot List.mem_cons_self

theorem Granted.relock {held : Held} {l : List Ptr} {r : Ptr} {word : Ptr → ℤ} :
    Granted (f.relock word) held p l r ↔ Granted f held p l r := by
  have hsame : Fuse.SameNames f (f.relock word) := Fuse.sameNames_relock
  have hbytes : (f.relock word).pathBytes l = f.pathBytes l := by
    unfold Fuse.pathBytes
    rw [hsame.name]
  constructor
  · rintro ⟨hbase, hwalk, hroot, hpath, hlive⟩
    rw [hsame.nodeid] at hbase hroot
    rw [hsame.parent] at hwalk
    rw [hbytes] at hpath
    refine ⟨hbase, hwalk, hroot, hpath, fun x hx => ?_⟩
    rw [← Fuse.isSome_heap_relock]
    exact hlive x hx
  · rintro ⟨hbase, hwalk, hroot, hpath, hlive⟩
    refine ⟨?_, ?_, ?_, ?_, fun x hx => by rw [Fuse.isSome_heap_relock]; exact hlive x hx⟩
    · rw [hsame.nodeid, hbase]
    · rwa [hsame.parent]
    · rw [hsame.nodeid, hroot]
    · rw [hbytes, hpath]

def Shut (f f' : Fuse) : Prop := ∀ x, f.word x < 0 → f'.word x = f.word x

/-- What `try_get_path` can do: give out a path with its claim, or leave the claims as
they are because somebody has a lock on the way up or below its start, or because a name
is missing. -/
inductive Tried (f : Fuse) (claims : List (Claim Ptr)) (t : Target) (p : Ptr) :
    Fuse → Except PathError Held → Prop
  | ok (word : Ptr → ℤ) (held : Held) (l : List Ptr) (r : Ptr) (htarget : held.target = t)
      (hgranted : Granted f held p l r) (hread : ∀ x ∈ l, 0 ≤ f.word x)
      (hwrite : ∀ x, held.wnode = some x → ∃ i s, t = .change i s ∧
        lookupNode f i s = some (some x) ∧ f.word x = 0)
      (hg : Guards treelockWaitOffset (f.relock word).word (⟨l, held.wnode⟩ :: claims))
      (hshut : Shut f (f.relock word)) :
      Tried f claims t p (f.relock word) (.ok held)
  | again (word : Ptr → ℤ) (x b : Ptr) (l : List Ptr) (hx : f.word x ≠ 0)
      (hb : f.parentOf x = some b) (hwalk : Walk f.parentOf p l b)
      (hg : Guards treelockWaitOffset (f.relock word).word claims)
      (hshut : Shut f (f.relock word)) :
      Tried f claims t p (f.relock word) (.error .again)
  | noent (word : Ptr → ℤ) (l : List Ptr) (q : Ptr) (hwalk : Walk f.parentOf p l q)
      (hparent : f.parentOf q = none) (hroot : f.nodeidOf q ≠ some fuseRootId)
      (hg : Guards treelockWaitOffset (f.relock word).word claims)
      (hshut : Shut f (f.relock word)) :
      Tried f claims t p (f.relock word) (.error .noent)

theorem tryGetPath_spec (hr : AtRest f ids names) (t : Target)
    (hid : f.nodeidOf p = some t.nodeid) (hg : Guards treelockWaitOffset f.word claims)
    (hbound : (claims.length : ℤ) + 2 < -treelockWaitOffset) :
    ∃ f' r, tryGetPath f t = some (f', r) ∧ Tried f claims t p f' r := by
  have hnil := LockWord.Guards.cons_nil_iff.mpr hg
  -- a path without a write lock
  have hplain : ∃ f' r, climbPath f t none = some (f', r) ∧ Tried f claims t p f' r := by
    rcases climbPath_spec (w := none) hr t hid nofun hnil hbound with
      ⟨word, held, l, r, hclimb, htarget, hwnode, hgranted, hread, hgw, hshut⟩ |
      ⟨word, err, hclimb, hgw, hkeep, hagain, hnoent⟩
    · refine ⟨_, _, hclimb,
        .ok word held l r htarget hgranted hread ?_ (hwnode ▸ hgw) hshut⟩
      rw [hwnode]
      exact nofun
    · have hshut : Shut f (f.relock word) := fun x hx => hkeep x hx nofun
      cases err with
      | again =>
          obtain ⟨l, q, b, hwalk, hb, hneg⟩ := hagain rfl
          exact ⟨_, _, hclimb,
            .again word q b _ (by omega) hb (hwalk.snoc hb) hgw hshut⟩
      | noent =>
          obtain ⟨l, q, hwalk, hparent, hroot⟩ := hnoent rfl
          exact ⟨_, _, hclimb, .noent word l q hwalk hparent hroot hgw hshut⟩
  cases t with
  | node i => exact hplain
  | name i s => exact hplain
  | change i s =>
      unfold tryGetPath
      dsimp only
      rcases lockWnode_spec hr i s hg hbound with
        ⟨word, hgw, hlock, hshut, x, hlookup, hx⟩ |
        ⟨word, wnode, hgw, hlock, hlookup, hzero, hwords⟩
      · rw [hlock, Option.bind_some]
        obtain ⟨-, b, hb, hbi, -⟩ := hr.lookupNode_some hlookup
        obtain rfl := hr.nodeid_inj b p i hbi hid
        exact ⟨_, _, rfl, .again word x b [] hx hb (.nil b) hgw hshut⟩
      rw [hlock, Option.bind_some]
      dsimp only
      have hfree : ∀ x, f.word x < 0 → wnode ≠ some x := by
        intro x hx hw
        have := hzero x hw
        omega
      have hlive : ∀ x, wnode = some x → ((f.relock word).heap x).isSome := by
        rintro x rfl
        obtain ⟨n, _, hn, -⟩ := hr.live_of_mem (hr.lookupNode_some hlookup).1
        rw [Fuse.isSome_heap_relock, hn]
        rfl
      rcases climbPath_spec (hr.relock word) (.change i s)
          (by rw [Fuse.sameNames_relock.nodeid, hid]) hlive hgw hbound with
        ⟨word', held, l, r, hclimb, htarget, hwnode, hgranted, hread, hgw', hkeep⟩ |
        ⟨word', err, hclimb, hgw', hkeep, hagain, hnoent⟩
      · rw [Fuse.relock_relock] at hclimb hgw' hkeep
        refine ⟨_, _, hclimb, .ok word' held l r htarget (Granted.relock.mp hgranted) ?_ ?_
          (hwnode ▸ hgw') fun x hx => ?_⟩
        · intro x hx
          have := hread x hx
          rw [hwords] at this
          split_ifs at this
          · omega
          · exact this
        · intro x hx
          rw [hwnode] at hx
          exact ⟨i, s, rfl, by rw [hlookup, hx], hzero x hx⟩
        · have hsame := hwords x
          rw [if_neg (hfree x hx)] at hsame
          rw [hkeep x (by rw [hsame]; exact hx), hsame]
      · rw [Fuse.relock_relock] at hclimb hgw' hkeep
        have hshut : Shut f (f.relock word') := by
          intro x hx
          have hsame := hwords x
          rw [if_neg (hfree x hx)] at hsame
          rw [hkeep x (by rw [hsame]; exact hx) (hfree x hx), hsame]
        rw [Fuse.sameNames_relock.parent] at hagain hnoent
        rw [Fuse.sameNames_relock.nodeid] at hnoent
        cases err with
        | again =>
            obtain ⟨l, q, d, hwalk, hd, hneg⟩ := hagain rfl
            refine ⟨_, _, hclimb, .again word' q d _ ?_ hd (hwalk.snoc hd) hgw' hshut⟩
            rw [hwords] at hneg
            split_ifs at hneg with hq
            · -- the node that was just locked is not on the way up
              rw [hq] at hlookup
              obtain ⟨-, b, hb, hbi, -⟩ := hr.lookupNode_some hlookup
              obtain rfl := hr.nodeid_inj b p i hbi hid
              exact absurd rfl (hr.ne_of_walk hb hwalk)
            · omega
        | noent =>
            obtain ⟨l, q, hwalk, hparent, hroot⟩ := hnoent rfl
            exact ⟨_, _, hclimb, .noent word' l q hwalk hparent hroot hgw' hshut⟩

/-! ## The path as it is now -/

theorem climb_false_spec {fuel : ℕ} {l : List Ptr} {path : List UInt8}
    (hr : AtRest f ids names) (hwalk : Walk f.parentOf p l q) (hp : (f.heap p).isSome)
    (hroot : f.nodeidOf q = some fuseRootId) (hfuel : l.length < fuel) :
    climb false fuel f p path = some (f, .top (f.pathBytes l ++ path)) := by
  induction hwalk generalizing fuel path with
  | nil p =>
      obtain ⟨fuel, rfl⟩ := Nat.exists_eq_add_of_lt hfuel
      obtain ⟨n, hn⟩ := Option.isSome_iff_exists.mp hp
      rw [Fuse.nodeidOf_eq hn] at hroot
      unfold climb
      rw [hn, Option.bind_some, if_pos (Option.some.inj hroot)]
      rfl
  | @cons p b q l hpb hwalk ih =>
      obtain ⟨fuel, rfl⟩ := Nat.exists_eq_add_of_lt hfuel
      obtain ⟨n, hn⟩ := Option.isSome_iff_exists.mp hp
      obtain ⟨hb, s, hs⟩ := hr.live_parent hpb
      have hne : n.nodeid ≠ fuseRootId := by
        intro h
        have := hr.parentOf_root (x := p) (by rw [Fuse.nodeidOf_eq hn, h])
        rw [hpb] at this
        cases this
      have hcons : f.pathBytes (p :: l) = f.pathBytes l ++ 47 :: s := by
        unfold Fuse.pathBytes
        rw [List.reverse_cons, List.flatMap_append, List.flatMap_singleton, hs,
          Option.getD_some]
      rw [Fuse.parentOf_eq hn] at hpb
      rw [Fuse.nameOf_eq hn] at hs
      unfold climb
      rw [hn, Option.bind_some, if_neg hne, hs, hpb]
      dsimp only
      rw [if_neg Bool.false_ne_true, ih hb hroot (by rw [List.length_cons]; omega), hcons,
        List.append_assoc]

/-- A path that was given out is the path as it is now. -/
theorem Granted.pathNow_eq {held : Held} {l : List Ptr} {r : Ptr}
    (h : Granted f held p l r) (hr : AtRest f ids names) :
    pathNow f held.target = some (.ok held.path) := by
  obtain ⟨hget, hp⟩ := hr.getNode_of_nodeidOf h.base
  have hlen := h.walk.length_le hr.acyclic hr.mem_names_of_parent
  have huse := hr.name_use
  unfold pathNow
  rw [hget, Option.bind_some, climb_false_spec hr h.walk hp h.root (by omega),
    Option.map_some, h.path]

end Mergerfs.Libfuse
