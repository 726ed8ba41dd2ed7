import Mergerfs.Libfuse.NodeMove
import Mergerfs.Libfuse.NodeLoad
import Mergerfs.Library.Along

/-!
# Runs of requests on the nodes

The kernel keeps to what it knows: it looks names up in nodes it has looked up itself
and not forgotten, it forgets no more than it has looked up, and it moves no directory
below itself. Then a run of its requests, in any order, always has a result: no lookup
aborts, no assertion fails, no freed node is read and no table is left. At its end the
nodes that are there are exactly those at or above a node that the kernel knows.
-/

namespace Mergerfs.Libfuse

open LinearHash.Table (Holds)

variable {f f' : Fuse} {ids names : List Ptr} {p q x : Ptr} {n m : Node} {i : Ino}
  {s : Name}

/-! ## The requests -/

inductive Request
  | lookup (parent : Ino) (name : Option Name) (addr : Ptr)
  | forget (nodeid : Ino) (nlookup : ℕ)
  | remove (dir : Ino) (name : Name)
  | rename (olddir : Ino) (oldname : Name) (newdir : Ino) (newname : Name) (hide : Bool)

def serve (f : Fuse) : Request → Option Fuse
  | .lookup parent name addr => (findNode f parent name addr).map Prod.fst
  | .forget nodeid nlookup => forgetNode f nodeid nlookup
  | .remove dir name => removeNode f dir name
  | .rename olddir oldname newdir newname hide =>
      (renameNode f olddir oldname newdir newname hide).map Prod.fst

def nodeOf (f : Fuse) (i : Ino) : Option Node := (getNode f i).bind f.heap

/-- The kernel has looked the id up and not forgotten it. -/
def known (f : Fuse) (i : Ino) : Bool := (nodeOf f i).any fun n => 0 < n.nlookup

def isBelow (f : Fuse) (q p : Ptr) : Bool :=
  p ∈ Forest.wayUp f.parentOf (f.nameTable.use + 1) q

def nests (f : Fuse) (olddir : Ino) (oldname : Name) (newdir : Ino) : Bool :=
  match (lookupNode f olddir oldname).join, getNode f newdir with
  | some p, some q => isBelow f q p
  | _, _ => false

/-- What a kernel asks for. The address of a new node is one that is free, and there
are ids left. -/
def Allowed (f : Fuse) : Request → Prop
  | .lookup parent _ addr =>
      known f parent ∧ f.heap addr = none ∧ f.idTable.use + 2 < 2 ^ 32
  | .forget nodeid nlookup =>
      nodeid = fuseRootId ∨ 0 < nlookup ∧ (nodeOf f nodeid).any fun n => nlookup ≤ n.nlookup
  | .remove _ _ => True
  | .rename olddir oldname newdir _ _ =>
      known f newdir ∧ nests f olddir oldname newdir = false

instance (f : Fuse) : ∀ request, Decidable (Allowed f request)
  | .lookup _ _ _ => inferInstanceAs (Decidable (_ ∧ _ ∧ _))
  | .forget _ _ => inferInstanceAs (Decidable (_ ∨ _))
  | .remove _ _ => inferInstanceAs (Decidable True)
  | .rename _ _ _ _ _ => inferInstanceAs (Decidable (_ ∧ _))

theorem Shape.getNode_some {loose : Ptr → Prop} (hs : Shape f ids names loose)
    (h : getNode f i = some p) : f.nodeidOf p = some i := by
  unfold getNode at h
  rw [hs.getNodeNocheck_eq, Option.join_some] at h
  have := List.find?_some h
  rwa [decide_eq_true_iff] at this

theorem AtRest.exists_of_nodeOf (hr : AtRest f ids names) {P : Node → Bool}
    (h : (nodeOf f i).any P) : ∃ p n, f.heap p = some n ∧ n.nodeid = i ∧ P n := by
  cases hnode : nodeOf f i with
  | none =>
      rw [hnode] at h
      cases h
  | some n =>
      rw [hnode, Option.any_some] at h
      obtain ⟨p, hp, hn⟩ := Option.bind_eq_some_iff.mp hnode
      have hid := hr.getNode_some hp
      rw [Fuse.nodeidOf_eq hn] at hid
      exact ⟨p, n, hn, Option.some.inj hid, h⟩

theorem AtRest.getNode_eq (hr : AtRest f ids names) (hn : f.heap p = some n) :
    getNode f n.nodeid = some p :=
  hr.getNode_eq_some ((hr.mem_ids p).mpr (by rw [hn]; rfl)) (Fuse.nodeidOf_eq hn)

theorem AtRest.isBelow_of_above (hr : AtRest f ids names) (h : Above f names q p) :
    isBelow f q p = true := by
  unfold isBelow
  rw [decide_eq_true_iff, hr.name_use]
  exact hr.acyclic.mem_wayUp h

/-! ## One request -/

/-- Every node was there, or it has a new id and is not locked. -/
structure Effect (f f' : Fuse) : Prop where
  node : ∀ x m, f'.heap x = some m →
    (∃ n, f.heap x = some n ∧ m.nodeid = n.nodeid ∧ m.generation = n.generation ∧
      m.treelock = n.treelock) ∨
    m.nodeid = f'.ctr ∧ m.nodeid ≠ fuseRootId ∧ m.generation = f'.generation ∧
      m.treelock = 0 ∧ f.issue < f'.issue
  issue : f.issue ≤ f'.issue

theorem Moves.effect {moved : Ptr → Prop} (h : Moves f f' moved) (hctr : f'.ctr = f.ctr)
    (hgen : f'.generation = f.generation) : Effect f f' where
  node x m hm := by
    obtain ⟨n, hn, hid, hgen, -, hlock, -⟩ := h.node x m hm
    exact .inl ⟨n, hn, hid, hgen, hlock⟩
  issue := by
    unfold Fuse.issue
    rw [hctr, hgen]

/-- What holds of the nodes between the requests if nothing is locked. -/
structure Resting (f : Fuse) : Prop where
  rest : ∃ ids names, AtRest f ids names
  ctr : f.ctr < 2 ^ 32
  unlocked : ∀ x n, f.heap x = some n → n.treelock = 0
  issued : ∀ x n, f.heap x = some n →
    n.generation * 2 ^ 32 + n.nodeid < (n.generation + 1) * 2 ^ 32 ∧
    if n.nodeid = fuseRootId then n.generation = 0
    else n.generation * 2 ^ 32 + n.nodeid ≤ f.issue

theorem Resting.locksPinned (h : Resting f) (names : List Ptr) : LocksPinned f names :=
  fun x n hn hlock => absurd (h.unlocked x n hn) hlock

theorem serve_lookup (h : Resting f) {parent : Ino} {name : Option Name}
    (hallowed : Allowed f (.lookup parent name p)) :
    ∃ f', serve f (.lookup parent name p) = some f' ∧ (∃ ids names, AtRest f' ids names) ∧
      f'.ctr < 2 ^ 32 ∧ Effect f f' := by
  obtain ⟨ids, names, hr⟩ := h.rest
  obtain ⟨hknown, hfree, hroom⟩ := hallowed
  obtain ⟨q, m, hm, rfl, -⟩ := hr.exists_of_nodeOf hknown
  rw [hr.id_use] at hroom
  obtain ⟨f', r, ids', names', hfind, hr', hctr, hissue, hfound⟩ :=
    findNode_spec hr h.ctr hroom hm hfree name
  refine ⟨f', ?_, ⟨ids', names', hr'⟩, hctr, ?_, hissue⟩
  · change (findNode f m.nodeid name p).map Prod.fst = some f'
    rw [hfind, Option.map_some]
  intro x k hk
  cases hfound with
  | again c n hn _ _ heq =>
      rw [heq] at hk
      by_cases hx : x = c
      · rw [hx, Fuse.heap_setNode_self] at hk
        obtain rfl := Option.some.inj hk
        exact .inl ⟨n, hx ▸ hn, rfl, rfl, rfl⟩
      · rw [Fuse.heap_setNode_of_ne hx] at hk
        exact .inl ⟨k, hk, rfl, rfl, rfl⟩
  | added s _ hlt heq =>
      rw [heq] at hk
      by_cases hx : x = p
      · rw [hx, Function.update_self] at hk
        obtain rfl := Option.some.inj hk
        refine .inr ⟨rfl, ?_, rfl, rfl, hlt⟩
        -- the root is there already, and has no parent
        intro hroot
        obtain ⟨c, l, hl, hlid, hlpar, -⟩ := hr'.root
        have hp : f'.heap p = some (newNode f' q s) := by rw [heq, Function.update_self]
        obtain rfl := hr'.nodeid_inj p c fuseRootId (by rw [Fuse.nodeidOf_eq hp, hroot])
          (by rw [Fuse.nodeidOf_eq hl, hlid])
        rw [hp] at hl
        obtain rfl := Option.some.inj hl
        cases hlpar
      rw [Function.update_of_ne hx] at hk
      by_cases hxq : x = q
      · rw [hxq, Function.update_self] at hk
        obtain rfl := Option.some.inj hk
        exact .inl ⟨m, hxq ▸ hm, rfl, rfl, rfl⟩
      · rw [Function.update_of_ne hxq] at hk
        exact .inl ⟨k, hk, rfl, rfl, rfl⟩
  | nomem heq =>
      rw [heq] at hk
      exact .inl ⟨k, hk, rfl, rfl, rfl⟩

theorem serve_forget (h : Resting f) {k : ℕ} (hallowed : Allowed f (.forget i k)) :
    ∃ f', serve f (.forget i k) = some f' ∧ (∃ ids names, AtRest f' ids names) ∧
      f'.ctr < 2 ^ 32 ∧ Effect f f' := by
  obtain ⟨ids, names, hr⟩ := h.rest
  by_cases hroot : i = fuseRootId
  · refine ⟨f, ?_, h.rest, h.ctr, ?_, Nat.le_refl _⟩
    · change forgetNode f i k = some f
      unfold forgetNode
      rw [if_pos hroot]
    · exact fun x m hm => .inl ⟨m, hm, rfl, rfl, rfl⟩
  · obtain ⟨hpos, hany⟩ := hallowed.resolve_left hroot
    obtain ⟨p, n, hn, rfl, hle⟩ := hr.exists_of_nodeOf hany
    rw [decide_eq_true_iff] at hle
    have hwait : forgetWaits f p k = false := by
      unfold forgetWaits
      rw [hn]
      simp [h.unlocked p n hn]
    obtain ⟨f', ids', names', hforget, hr', hctr, hgen, hforgot⟩ :=
      forgetNode_spec hr hn hroot hpos hle hwait (h.locksPinned names)
    refine ⟨f', hforget, ⟨ids', names', hr'⟩, hctr ▸ h.ctr, ?_, ?_⟩
    · intro x m hm
      obtain ⟨l, hl, heq⟩ := hforgot.sub x m hm
      refine .inl ⟨l, hl, ?_, ?_, ?_⟩ <;> rw [heq]
    · unfold Fuse.issue
      rw [hctr, hgen]

/-- Every request that is allowed is served, in any state at rest. -/
theorem serve_spec (h : Resting f) {request : Request} (hallowed : Allowed f request) :
    ∃ f', serve f request = some f' ∧ (∃ ids names, AtRest f' ids names) ∧
      f'.ctr < 2 ^ 32 ∧ Effect f f' := by
  cases request with
  | lookup parent name addr => exact serve_lookup h hallowed
  | forget nodeid nlookup => exact serve_forget h hallowed
  | remove dir name =>
      obtain ⟨ids, names, hr⟩ := h.rest
      obtain ⟨f', ids', names', hremove, hr', hctr, hgen, hmoves, -⟩ :=
        removeNode_spec (i := dir) (s := name) hr fun p _ => h.locksPinned _
      exact ⟨f', hremove, ⟨ids', names', hr'⟩, hctr ▸ h.ctr, hmoves.effect hctr hgen⟩
  | rename olddir oldname newdir newname hide =>
      obtain ⟨ids, names, hr⟩ := h.rest
      obtain ⟨hknown, hnests⟩ := hallowed
      obtain ⟨q, m, hm, rfl, hpos⟩ := hr.exists_of_nodeOf hknown
      rw [decide_eq_true_iff] at hpos
      have hqp : ∀ p, lookupNode f olddir oldname = some (some p) →
          ¬ Above f names q p := by
        intro p hp habove
        unfold nests at hnests
        rw [hp, Option.join_some, hr.getNode_eq hm] at hnests
        dsimp only at hnests
        rw [hr.isBelow_of_above habove] at hnests
        cases hnests
      obtain ⟨f', r, ids', names', hrename, hr', hctr, hgen, hmoves, -⟩ :=
        renameNode_spec (s := newname) hr hm hpos hqp hide (h.locksPinned _)
      refine ⟨f', ?_, ⟨ids', names', hr'⟩, hctr ▸ h.ctr, hmoves.effect hctr hgen⟩
      change (renameNode f olddir oldname m.nodeid newname hide).map Prod.fst = some f'
      rw [hrename, Option.map_some]

theorem Resting.serve (h : Resting f) {request : Request} (hallowed : Allowed f request) :
    ∃ f', serve f request = some f' ∧ Resting f' ∧ Effect f f' := by
  obtain ⟨f', hserve, hrest, hctr, heffect⟩ := serve_spec h hallowed
  refine ⟨f', hserve, ⟨hrest, hctr, ?_, ?_⟩, heffect⟩
  · intro x m hm
    rcases heffect.node x m hm with ⟨n, hn, -, -, hlock⟩ | ⟨-, -, -, hlock, -⟩
    · rw [hlock, h.unlocked x n hn]
    · exact hlock
  · intro x m hm
    rcases heffect.node x m hm with ⟨n, hn, hid, hgen, -⟩ | ⟨hid, hroot, hgen, -, -⟩
    · have := h.issued x n hn
      have hissue := heffect.issue
      rw [hid, hgen]
      refine ⟨this.1, ?_⟩
      split_ifs at this ⊢ with hroot
      · exact this.2
      · exact Nat.le_trans this.2 hissue
    · rw [if_neg hroot, hid, hgen]
      exact ⟨by omega, Nat.le_refl _⟩

/-! ## The first state -/

theorem fuseNew_spec (r : Ptr) (memory : List Bool) :
    ∃ f, fuseNew r memory = some f ∧ Resting f := by
  set root : Node :=
    { nodeid := fuseRootId, generation := 0, refctr := 1, parent := none,
      name := some [47], nlookup := 1, isHidden := false, treelock := 0 } with hroot
  set g : Fuse :=
    { heap := Function.update (Function.update (fun _ => none) r (some
        { root with refctr := 0, nlookup := 0 })) r (some root),
      nameTable := nodeTableInit, idTable := nodeTableInit, ctr := 0, generation := 0,
      memory := memory } with hg
  have hinit : ∀ hash : Ptr → ℕ, Holds nodeTableMinSize hash nodeTableInit [] :=
    fun hash => LinearHash.Table.holds_init (by decide) (by decide)
  have hheap : ∀ x, g.heap x = if x = r then some root else none := by
    intro x
    by_cases hx : x = r
    · rw [hx, if_pos rfl]
      exact Function.update_self ..
    · rw [if_neg hx]
      exact (Function.update_of_ne hx ..).trans (Function.update_of_ne hx ..)
  have honly : ∀ x n, g.heap x = some n → x = r ∧ n = root := by
    intro x n hx
    rw [hheap] at hx
    split_ifs at hx with hxr
    exact ⟨hxr, (Option.some.inj hx).symm⟩
  have hself : g.heap r = some root := by rw [hheap, if_pos rfl]
  have hparent : ∀ x, g.parentOf x = none := by
    intro x
    unfold Fuse.parentOf
    rw [hheap]
    split_ifs <;> rfl
  obtain ⟨t, ht, hholds⟩ := (hinit g.idKeyOf).insert g.drawn (x := r) List.not_mem_nil
  have huse := LinearHash.Table.insert_use ht
  refine ⟨{ g.draw with idTable := t }, ?_, ⟨[r], [], ?_⟩, by change 0 < 2 ^ 32; omega, ?_,
    ?_⟩
  · unfold fuseNew incNlookup
    dsimp only
    rw [Fuse.heap_setNode_self, Option.map_some, Option.bind_some]
    change (nodeTableInit.insert g.idKeyOf r g.drawn).map _ = _
    rw [ht, Option.map_some]
    rfl
  · constructor
    · constructor
      case toShape =>
        constructor
        case idTable => exact hholds
        case nameTable => exact hinit _
        case nodeid_inj =>
          intro a b i ha hb
          obtain ⟨na, hna, -⟩ := Fuse.exists_of_nodeidOf ha
          obtain ⟨nb, hnb, -⟩ := Fuse.exists_of_nodeidOf hb
          rw [(honly a na hna).1, (honly b nb hnb).1]
        case linked => exact fun _ => nofun
        case name_inj => exact fun _ => nofun
        case mem_names =>
          intro a b hb
          change g.parentOf a = some b at hb
          rw [hparent] at hb
          cases hb
        case unnamed =>
          intro a u ha _
          obtain ⟨na, hna, -⟩ := Option.bind_eq_some_iff.mp ha
          obtain ⟨rfl, rfl⟩ := honly a na hna
          exact Fuse.nodeidOf_eq hna
        case acyclic => exact ⟨fun _ => 0, fun _ _ h => absurd h.1 List.not_mem_nil⟩
      case mem_ids =>
        intro x
        change x ∈ [r] ↔ (g.heap x).isSome
        rw [List.mem_singleton, hheap]
        split_ifs with hx <;> simp [hx]
      case counted =>
        intro x k hk
        obtain ⟨-, rfl⟩ := honly x k hk
        rfl
      case id_use => exact huse
      case name_use => rfl
      case root => exact ⟨r, root, hself, rfl, rfl, Nat.one_pos⟩
    · intro x k hk
      obtain ⟨-, rfl⟩ := honly x k hk
      exact Nat.one_pos
  · intro x k hk
    obtain ⟨-, rfl⟩ := honly x k hk
    rfl
  · intro x k hk
    obtain ⟨-, rfl⟩ := honly x k hk
    exact ⟨by decide, rfl⟩

/-! ## Runs -/

def Runs (f : Fuse) (requests : List Request) (f' : Fuse) : Prop :=
  Along.alongM serve Allowed f requests ∧ requests.foldlM serve f = some f'

variable {requests : List Request}

theorem runs_one {request : Request} (hallowed : Allowed f request)
    (h : serve f request = some f') : Runs f [request] f' := by
  refine ⟨⟨hallowed, fun _ _ => trivial⟩, ?_⟩
  rw [List.foldlM_cons, h]
  rfl

/-- What every request keeps by its effect holds at the end of a run. -/
theorem Resting.runs_of_effect {I : Fuse → Prop}
    (hkeep : ∀ f f', Resting f → Effect f f' → I f → I f') (h : Resting f) (hI : I f)
    (hrun : Runs f requests f') : Resting f' ∧ I f' := by
  have hstep : ∀ g request g', Resting g ∧ I g → Allowed g request →
      Libfuse.serve g request = some g' → Resting g' ∧ I g' := by
    intro g request g' hg hallowed hserve
    obtain ⟨g₁, hserve₁, hg₁, heffect⟩ := hg.1.serve hallowed
    obtain rfl : g₁ = g' := Option.some.inj (hserve₁.symm.trans hserve)
    exact ⟨hg₁, hkeep g g₁ hg.1 heffect hg.2⟩
  exact Along.foldlM_of_alongM hstep ⟨h, hI⟩ hrun.1 hrun.2

theorem Resting.runs (h : Resting f) (hrun : Runs f requests f') : Resting f' :=
  (h.runs_of_effect (I := fun _ => True) (fun _ _ _ _ => id) trivial hrun).1

/-- Every run of allowed requests has a result, and each id is found exactly if there
is a node with it. -/
theorem run_served (r : Ptr) (memory : List Bool) (f₀ : Fuse) (requests : List Request)
    (h₀ : fuseNew r memory = some f₀) (h : Along.alongM serve Allowed f₀ requests) :
    ∃ f, requests.foldlM serve f₀ = some f ∧
      (∀ p n, f.heap p = some n → getNode f n.nodeid = some p) ∧
      ∀ i, (∀ p n, f.heap p = some n → n.nodeid ≠ i) → getNodeNocheck f i = some none := by
  obtain ⟨g, hg, hrest⟩ := fuseNew_spec r memory
  obtain rfl : g = f₀ := Option.some.inj (hg.symm.trans h₀)
  obtain ⟨f, hrun, hf⟩ := Along.exists_foldlM_of_alongM (I := Resting)
    (fun g request hg hallowed => by
      obtain ⟨g', hserve, hg', -⟩ := hg.serve hallowed
      exact ⟨g', hserve, hg'⟩) hrest h
  obtain ⟨ids, names, hr⟩ := hf.rest
  refine ⟨f, hrun, fun p n hn => hr.getNode_eq hn, ?_⟩
  intro i hi
  rw [hr.getNodeNocheck_eq, List.find?_eq_none.mpr]
  intro p _ hp
  rw [decide_eq_true_iff] at hp
  obtain ⟨n, hn, hid⟩ := Fuse.exists_of_nodeidOf hp
  exact hi p n hn hid

/-- A directory with a file is looked up and forgotten, and the file renamed to the root
before it is forgotten and looked up again. -/
def sampleRequests : List Request :=
  [.lookup 1 (some [97]) 1, .lookup 2 (some [98]) 2, .forget 2 1,
    .rename 2 [98] 1 [99] false, .lookup 1 none 3, .forget 3 1, .lookup 1 (some [99]) 1]

theorem run_served_sample :
    ∃ f₀ f, fuseNew 0 [] = some f₀ ∧ Along.alongM serve Allowed f₀ sampleRequests ∧
      sampleRequests.foldlM serve f₀ = some f ∧
      ∀ p n, f.heap p = some n → getNode f n.nodeid = some p := by
  obtain ⟨f₀, h₀, h⟩ := (Option.any_eq_true
    (fun f => Along.alongM serve Allowed f sampleRequests) (fuseNew 0 [])).mp
    (by decide +kernel)
  rw [decide_eq_true_iff] at h
  obtain ⟨f, hrun, hfound, -⟩ := run_served 0 [] f₀ sampleRequests h₀ h
  exact ⟨f₀, f, h₀, h, hrun, hfound⟩

theorem exists_runs_sample : ∃ f₀ f, fuseNew 0 [] = some f₀ ∧ Runs f₀ sampleRequests f ∧
    ∃ n q m, f.heap 1 = some n ∧ n.parent = some q ∧ n.name = some [99] ∧
      f.heap q = some m ∧ m.nodeid = 1 := by
  obtain ⟨f₀, h₀, h⟩ := (Option.any_eq_true
    (fun f => Along.alongM serve Allowed f sampleRequests ∧
      (sampleRequests.foldlM serve f).any fun f => (f.heap 1).any fun n =>
        n.name = some [99] ∧ n.parent.any fun q => (f.heap q).any fun m => m.nodeid = 1)
    (fuseNew 0 [])).mp (by decide +kernel)
  rw [decide_eq_true_iff] at h
  simp only [Option.any_eq_true, decide_eq_true_iff] at h
  obtain ⟨hallowed, f, hf, n, hn, hname, q, hq, m, hm, hid⟩ := h
  exact ⟨f₀, f, h₀, ⟨hallowed, hf⟩, n, q, m, hn, hq, hname, hm, hid⟩

theorem AtRest.isSome_of_isBelow (hr : AtRest f ids names) (hq : (f.heap q).isSome)
    (h : isBelow f q p = true) : (f.heap p).isSome := by
  unfold isBelow at h
  rw [decide_eq_true_iff] at h
  generalize f.nameTable.use + 1 = fuel at h
  induction fuel generalizing q with
  | zero => cases h
  | succ fuel ih =>
      unfold Forest.wayUp at h
      rcases List.mem_cons.mp h with rfl | h
      · exact hq
      · cases hb : f.parentOf q with
        | none =>
            rw [hb] at h
            cases h
        | some b =>
            rw [hb] at h
            have hqn := (hr.mem_names q b hb).resolve_right id
            obtain ⟨b', _, j, hb', -, hj⟩ := hr.linked q hqn
            obtain rfl : b = b' := Option.some.inj (hb.symm.trans hb')
            obtain ⟨k, hk, -⟩ := Fuse.exists_of_nodeidOf hj
            exact ih (by rw [hk]; rfl) h

/-- A node is there exactly as long as the kernel knows it or one below it: nothing is
freed too early, and nothing leaks. -/
theorem run_live_iff (r : Ptr) (memory : List Bool) (f₀ f : Fuse)
    (requests : List Request) (h₀ : fuseNew r memory = some f₀)
    (h : Runs f₀ requests f) (p : Ptr) :
    (f.heap p).isSome ↔
      ∃ q m, f.heap q = some m ∧ 0 < m.nlookup ∧ isBelow f q p = true := by
  obtain ⟨g, hg, hrest⟩ := fuseNew_spec r memory
  obtain rfl : g = f₀ := Option.some.inj (hg.symm.trans h₀)
  obtain ⟨ids, names, hr⟩ := (hrest.runs h).rest
  constructor
  · intro hp
    -- a node that the kernel does not know is referred to by one below it
    have hdown : ∀ x, (f.heap x).isSome → ¬ (∃ m, f.heap x = some m ∧ 0 < m.nlookup) →
        ∃ c, Up f names c x ∧ (f.heap c).isSome := by
      intro x hx hunknown
      obtain ⟨m, hm⟩ := Option.isSome_iff_exists.mp hx
      have hzero : ¬ 0 < m.nlookup := fun hpos => hunknown ⟨m, hm, hpos⟩
      have hcount := hr.counted x m hm
      have hpos := hr.alive x m hm
      rw [if_neg hzero] at hcount
      obtain ⟨c, hc⟩ := Forest.exists_up_of_children
        (show 0 < Forest.children f.parentOf names x by omega)
      obtain ⟨k, _, hk, -⟩ := hr.live_of_mem hc.1
      exact ⟨c, hc, by rw [hk]; rfl⟩
    obtain ⟨q, hq, m, hm, hpos⟩ := hr.acyclic.exists_below hdown hp
    exact ⟨q, m, hm, hpos, hr.isBelow_of_above hq⟩
  · rintro ⟨q, m, hm, -, hbelow⟩
    exact hr.isSome_of_isBelow (by rw [hm]; rfl) hbelow

theorem run_live_iff_sample :
    ∃ f₀ f, fuseNew 0 [] = some f₀ ∧ Runs f₀ sampleRequests f ∧
      ∀ p, (f.heap p).isSome ↔
        ∃ q m, f.heap q = some m ∧ 0 < m.nlookup ∧ isBelow f q p = true := by
  obtain ⟨f₀, f, h₀, h, -⟩ := exists_runs_sample
  exact ⟨f₀, f, h₀, h, run_live_iff 0 [] f₀ f sampleRequests h₀ h⟩

/-- The nodes are found by the id of their parent and their name, and by no other; in
particular no two have the same name in one parent. -/
theorem run_lookupNode_iff (r : Ptr) (memory : List Bool) (f₀ f : Fuse)
    (requests : List Request) (h₀ : fuseNew r memory = some f₀)
    (h : Runs f₀ requests f) (i : Ino) (s : Name) :
    (lookupNode f i s).isSome ∧
      ∀ p, lookupNode f i s = some (some p) ↔
        ∃ n q m, f.heap p = some n ∧ n.parent = some q ∧ n.name = some s ∧
          f.heap q = some m ∧ m.nodeid = i := by
  obtain ⟨g, hg, hrest⟩ := fuseNew_spec r memory
  obtain rfl : g = f₀ := Option.some.inj (hg.symm.trans h₀)
  obtain ⟨ids, names, hr⟩ := (hrest.runs h).rest
  refine ⟨by rw [hr.lookupNode_eq]; rfl, fun p => ⟨fun hp => ?_, ?_⟩⟩
  · obtain ⟨-, q, hq, hqi, hname⟩ := hr.lookupNode_some hp
    obtain ⟨n, hn, hnq⟩ := Fuse.exists_of_parentOf hq
    obtain ⟨m, hm, hmi⟩ := Fuse.exists_of_nodeidOf hqi
    rw [Fuse.nameOf_eq hn] at hname
    exact ⟨n, q, m, hn, hnq, hname, hm, hmi⟩
  · rintro ⟨n, q, m, hn, hq, hname, hm, hmi⟩
    have hpq : f.parentOf p = some q := by rw [Fuse.parentOf_eq hn, hq]
    exact hr.lookupNode_of_place ((hr.mem_names p q hpq).resolve_right id) hpq
      (by rw [Fuse.nodeidOf_eq hm, hmi]) (by rw [Fuse.nameOf_eq hn, hname])

/-- The file is found under its new name. -/
theorem run_lookupNode_iff_sample :
    ∃ f₀ f, fuseNew 0 [] = some f₀ ∧ Runs f₀ sampleRequests f ∧
      lookupNode f 1 [99] = some (some 1) := by
  obtain ⟨f₀, f, h₀, h, hplace⟩ := exists_runs_sample
  exact ⟨f₀, f, h₀, h,
    ((run_lookupNode_iff 0 [] f₀ f sampleRequests h₀ h 1 [99]).2 1).mpr hplace⟩

theorem serve_roomy {request : Request} (h : f.Roomy) (hf : serve f request = some f') :
    f'.Roomy := by
  cases request with
  | lookup parent name addr =>
      obtain ⟨⟨g, r⟩, hg, rfl⟩ := Option.map_eq_some_iff.mp hf
      exact h.findNode hg
  | forget nodeid nlookup => exact h.forgetNode hf
  | remove dir name => exact h.removeNode hf
  | rename olddir oldname newdir newname hide =>
      obtain ⟨⟨g, r⟩, hg, rfl⟩ := Option.map_eq_some_iff.mp hf
      exact h.renameNode hg

/-- As long as memory is given, the nodes are never more than the buckets in use, in
both tables. -/
theorem run_load (r : Ptr) (memory : List Bool) (f₀ f : Fuse) (requests : List Request)
    (hmem : ∀ b ∈ memory, b = true) (h₀ : fuseNew r memory = some f₀)
    (h : Runs f₀ requests f) :
    ∃ live named : List Ptr, live.Nodup ∧ named.Nodup ∧
      (∀ p, p ∈ live ↔ (f.heap p).isSome) ∧
      (∀ p, p ∈ named ↔ ∃ q, f.parentOf p = some q) ∧
      live.length ≤ f.idTable.size / 2 + f.idTable.split ∧
      named.length ≤ f.nameTable.size / 2 + f.nameTable.split := by
  obtain ⟨g, hg, hrest⟩ := fuseNew_spec r memory
  obtain rfl : g = f₀ := Option.some.inj (hg.symm.trans h₀)
  obtain ⟨ids, names, hr⟩ := (hrest.runs h).rest
  have hroom : f.Roomy := Along.foldlM_of_alongM
    (fun g request g' hg _ hserve => serve_roomy hg hserve)
    (Fuse.Roomy.fuseNew hmem h₀) h.1 h.2
  refine ⟨ids, names, hr.idTable.nodup, hr.nameTable.nodup, hr.mem_ids, ?_, ?_, ?_⟩
  · intro p
    constructor
    · intro hp
      obtain ⟨q, _, _, hq, -⟩ := hr.linked p hp
      exact ⟨q, hq⟩
    · rintro ⟨q, hq⟩
      exact (hr.mem_names p q hq).resolve_right id
  · rw [← hr.id_use]
    exact hroom.id.1
  · have := hr.name_use
    rw [Nat.add_zero] at this
    rw [← this]
    exact hroom.name.1

theorem run_load_sample :
    ∃ f₀ f, fuseNew 0 [] = some f₀ ∧ Runs f₀ sampleRequests f ∧
      ∃ live : List Ptr, live.Nodup ∧ (∀ p, p ∈ live ↔ (f.heap p).isSome) ∧
        live.length ≤ f.idTable.size / 2 + f.idTable.split := by
  obtain ⟨f₀, f, h₀, h, -⟩ := exists_runs_sample
  obtain ⟨live, -, hnodup, -, hlive, -, hle, -⟩ :=
    run_load 0 [] f₀ f sampleRequests (by simp) h₀ h
  exact ⟨f₀, f, h₀, h, live, hnodup, hlive, hle⟩

/-! ## Ids and generations -/

/-- No node has the number `c` of an id and its generation, and none will get it. -/
theorem Resting.issue_gone {c : ℕ} (h : Resting f) (hle : c ≤ f.issue)
    (hgone : ∀ x m, f.heap x = some m → m.generation * 2 ^ 32 + m.nodeid ≠ c)
    (hrun : Runs f requests f') :
    ∀ x m, f'.heap x = some m → m.generation * 2 ^ 32 + m.nodeid ≠ c := by
  have hkeep : ∀ g g', Resting g → Effect g g' →
      (c ≤ g.issue ∧ ∀ x m, g.heap x = some m → m.generation * 2 ^ 32 + m.nodeid ≠ c) →
      c ≤ g'.issue ∧
        ∀ x m, g'.heap x = some m → m.generation * 2 ^ 32 + m.nodeid ≠ c := by
    rintro g g' - heffect ⟨hle, hgone⟩
    refine ⟨Nat.le_trans hle heffect.issue, ?_⟩
    intro x m hm
    rcases heffect.node x m hm with ⟨n, hn, hid, hgen, -⟩ | ⟨hid, -, hgen, -, hlt⟩
    · rw [hid, hgen]
      exact hgone x n hn
    · rw [hid, hgen]
      change g'.issue ≠ c
      omega
  exact (h.runs_of_effect hkeep ⟨hle, hgone⟩ hrun).2.2

theorem Resting.generation_le (h : Resting f) (hn : f.heap p = some n) :
    n.generation ≤ f.generation := by
  have hissued := (h.issued p n hn).2
  have hctr := h.ctr
  unfold Fuse.issue at hissued
  split_ifs at hissued with hroot <;> omega

/-- The pair of the id and the generation of a node that is gone never comes back, as
long as the generation has not gone through all of its 32 bits. -/
theorem run_pair_gone (r : Ptr) (memory : List Bool) (f₀ f₁ f₂ f₃ : Fuse)
    (before between after : List Request) (h₀ : fuseNew r memory = some f₀)
    (h₁ : Runs f₀ before f₁) (h₂ : Runs f₁ between f₂) (h₃ : Runs f₂ after f₃)
    (hgen : f₃.generation < 2 ^ 32) (p : Ptr) (n : Node) (hn : f₁.heap p = some n)
    (hgone : ∀ x m, f₂.heap x = some m → m.nodeid = n.nodeid →
      m.generation % 2 ^ 32 ≠ n.generation % 2 ^ 32) (x : Ptr) (m : Node)
    (hm : f₃.heap x = some m) (hid : m.nodeid = n.nodeid) :
    m.generation % 2 ^ 32 ≠ n.generation % 2 ^ 32 := by
  obtain ⟨g, hg, hrest⟩ := fuseNew_spec r memory
  obtain rfl : g = f₀ := Option.some.inj (hg.symm.trans h₀)
  have hrest₁ := hrest.runs h₁
  -- the ids given out only grow
  have hissue : ∀ {a b : Fuse} {requests}, Resting a → Runs a requests b →
      a.issue ≤ b.issue := by
    intro a b requests ha hab
    exact (ha.runs_of_effect (I := fun c => a.issue ≤ c.issue)
      (fun _ _ _ heffect hle => Nat.le_trans hle heffect.issue) (Nat.le_refl _) hab).2
  have hrest₂ := hrest₁.runs h₂
  have hrest₃ := hrest₂.runs h₃
  have hle₂ := hissue hrest₁ h₂
  have hle₃ := hissue hrest₂ h₃
  obtain ⟨hlt, hissued⟩ := hrest₁.issued p n hn
  have hgm := hrest₃.generation_le hm
  have hgn := hrest₁.generation_le hn
  have hctr₁ := hrest₁.ctr
  have hctr₂ := hrest₂.ctr
  have hctr₃ := hrest₃.ctr
  by_cases hroot : n.nodeid = fuseRootId
  · -- the root is always there
    exfalso
    rw [if_pos hroot] at hissued
    obtain ⟨ids, names, hr⟩ := hrest₂.rest
    obtain ⟨c, l, hl, hlid, -, -⟩ := hr.root
    have := (hrest₂.issued c l hl).2
    rw [if_pos hlid] at this
    exact hgone c l hl (hlid.trans hroot.symm) (by rw [this, hissued])
  · rw [if_neg hroot] at hissued
    have hgone₂ : ∀ x m, f₂.heap x = some m →
        m.generation * 2 ^ 32 + m.nodeid ≠ n.generation * 2 ^ 32 + n.nodeid := by
      intro y k hk heq
      have hklt := (hrest₂.issued y k hk).1
      have hkgen : k.generation = n.generation := by omega
      rw [hkgen] at heq
      exact hgone y k hk (Nat.add_left_cancel heq) (by rw [hkgen])
    have hgone₃ := hrest₂.issue_gone (Nat.le_trans hissued hle₂) hgone₂ h₃ x m hm
    unfold Fuse.issue at hle₂ hle₃
    rw [hid] at hgone₃
    intro heq
    rw [Nat.mod_eq_of_lt (by omega), Nat.mod_eq_of_lt (by omega)] at heq
    exact hgone₃ (by rw [heq])

/-- The file gets another id when it is looked up again. -/
theorem run_pair_gone_again :
    ∃ f₀ f₁ f₂ f₃ n, fuseNew 0 [] = some f₀ ∧ Runs f₀ [.lookup 1 (some [97]) 1] f₁ ∧
      Runs f₁ [.forget 2 1] f₂ ∧ Runs f₂ [.lookup 1 (some [97]) 1] f₃ ∧
      f₁.heap 1 = some n ∧ ∀ m, f₃.heap 1 = some m → m.nodeid = n.nodeid →
        m.generation % 2 ^ 32 ≠ n.generation % 2 ^ 32 := by
  obtain ⟨f₀, h₀, h⟩ := (Option.any_eq_true (fun f =>
    Allowed f (.lookup 1 (some [97]) 1) ∧
      (serve f (.lookup 1 (some [97]) 1)).any fun f₁ =>
        (f₁.heap 1).any (fun n => n.nodeid = 2) ∧ Allowed f₁ (.forget 2 1) ∧
        (serve f₁ (.forget 2 1)).any fun f₂ =>
          getNode f₂ 2 = none ∧ Allowed f₂ (.lookup 1 (some [97]) 1) ∧
          (serve f₂ (.lookup 1 (some [97]) 1)).any fun f₃ => f₃.generation < 2 ^ 32)
    (fuseNew 0 [])).mp (by decide +kernel)
  simp only [decide_eq_true_eq, Option.any_eq_true] at h
  obtain ⟨ha₁, f₁, h₁, ⟨n, hn, hid⟩, ha₂, f₂, h₂, hnone, ha₃, f₃, h₃, hgen⟩ := h
  have hrun₁ := runs_one ha₁ h₁
  have hrun₂ := runs_one ha₂ h₂
  have hrun₃ := runs_one ha₃ h₃
  refine ⟨f₀, f₁, f₂, f₃, n, h₀, hrun₁, hrun₂, hrun₃, hn, ?_⟩
  intro m hm
  refine run_pair_gone 0 [] f₀ f₁ f₂ f₃ _ _ _ h₀ hrun₁ hrun₂ hrun₃ hgen 1 n hn ?_ 1 m hm
  -- no node has the id after the forget
  intro x k hk hkid
  obtain ⟨g, hg, hrest⟩ := fuseNew_spec 0 []
  obtain rfl : g = f₀ := Option.some.inj (hg.symm.trans h₀)
  obtain ⟨ids, names, hr⟩ := ((hrest.runs hrun₁).runs hrun₂).rest
  have := hr.getNode_eq hk
  rw [hkid, hid, hnone] at this
  cases this

end Mergerfs.Libfuse
