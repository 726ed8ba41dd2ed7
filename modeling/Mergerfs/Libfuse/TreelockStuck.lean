import Mergerfs.Libfuse.TreelockRun

/-!
# A request for two paths can wait forever

The first request of the queue may keep one of its two paths while it waits for the
other one. If a node on the path it has is on the way up of the other one too, and
somebody else waits to lock that node for writing, nobody can read it any more: the
request waits for its own lock. No run leads out of that, and no request gets a path at
or below the node again.
-/

namespace Mergerfs.Libfuse

open LockWord (Claim)
open Forest (Walk)

variable {f f' : Fuse} {ids names : List Ptr} {s s' : Session} {p x : Ptr} {t : Target}
  {held : Held} {e : PathElement} {others : List (Claim Ptr)}

theorem exists_walk_through (hr : AtRest f ids names) (hgood : Good f held)
    (hx : x ∈ (claimOf f held).reads) {l : List Ptr} (hwalk : Walk f.parentOf p l x) :
    ∃ l' r, Walk f.parentOf p l' r ∧ f.nodeidOf r = some fuseRootId ∧ x ∈ l' := by
  obtain ⟨⟨b, l', r, n, hgranted, -⟩, -⟩ := hgood
  rw [hgranted.claimOf_eq hr] at hx
  obtain ⟨l'', hrest, hmem⟩ := hgranted.walk.exists_suffix hx
  exact ⟨l ++ l'', r, hwalk.append hrest, hgranted.root, List.mem_append_right l hmem⟩

/-- No path is to be had whose way up passes a node that is locked against readers. -/
theorem tryGetPath_shut (hr : AtRest f ids names) (hbase : f.nodeidOf p = some t.nodeid)
    (h : Locked f [] others) (hfew : Few 1 others) {l : List Ptr} {r : Ptr}
    (hwalk : Walk f.parentOf p l r) (hroot : f.nodeidOf r = some fuseRootId) (hx : x ∈ l)
    (hword : f.word x < 0) : ∃ f', tryGetPath f t = some (f', .error .again) := by
  have hnone := hr.parentOf_root hroot
  obtain ⟨f', result, htry, htried⟩ :=
    tryGetPath_spec hr t hbase h.2 (hfew.bound (Nat.le_add_right _ _))
  cases htried with
  | ok word held l' r' _ hgranted hread _ _ _ =>
      obtain ⟨rfl, -⟩ := hwalk.unique hgranted.walk hnone (hr.parentOf_root hgranted.root)
      have := hread x hx
      omega
  | again => exact ⟨_, htry⟩
  | noent word l' q hwalk' hparent hq _ _ =>
      obtain ⟨-, rfl⟩ := hwalk.unique hwalk' hnone hparent
      exact absurd hroot hq

def Session.restHelds (s : Session) : List Held :=
  s.granted ++ (queueHelds s.lockq.tail ++ s.leaked)

/-- The request `e` is the first of the queue and has one path, `held`. The node `x` on
it is on the way up of its other path too, and is locked against readers, with nobody
else on it. -/
structure Stuck (e : PathElement) (held : Held) (t : Target) (x : Ptr) (s : Session) :
    Prop where
  head : s.lockq.head? = some (.path e)
  word : s.fuse.word x < 0
  mine : x ∈ (claimOf s.fuse held).reads
  alone : ∀ other ∈ s.restHelds, ¬ touches s.fuse other x
  below : ∃ p l, s.fuse.nodeidOf p = some t.nodeid ∧ Walk s.fuse.parentOf p l x

/-- A request for two paths that waits with one of them, for the other one, of `t`. -/
inductive Partly (e : PathElement) (held : Held) (t : Target) : Prop
  | first (hdone : e.done = none) (hlocked1 : e.locked1 = some held)
      (hlocked2 : e.locked2 = none) (htarget2 : e.target2 = some t)
  | second (hdone : e.done = none) (hlocked1 : e.locked1 = none)
      (hlocked2 : e.locked2 = some held) (htarget1 : e.target1 = t)

namespace Partly

theorem done (h : Partly e held t) : e.done = none := by
  cases h with
  | first hdone => exact hdone
  | second hdone => exact hdone

theorem helds_eq (h : Partly e held t) : e.helds = [held] := by
  unfold PathElement.helds
  cases h with
  | first _ hlocked1 hlocked2 _ =>
      rw [hlocked1, hlocked2]
      rfl
  | second _ hlocked1 hlocked2 _ =>
      rw [hlocked1, hlocked2]
      rfl

theorem mem_targets (h : Partly e held t) : t ∈ e.targets := by
  cases h with
  | first _ _ _ htarget2 => exact List.mem_cons_of_mem _ (Option.mem_toList.mpr htarget2)
  | second _ _ _ htarget1 =>
      rw [← htarget1]
      exact List.mem_cons_self

end Partly

namespace Stuck

theorem exists_rest (h : Stuck e held t x s) : ∃ rest, s.lockq = .path e :: rest :=
  List.head?_eq_some_iff.mp h.head

theorem mem_helds (h : Stuck e held t x s) (he : Partly e held t) : held ∈ s.helds := by
  obtain ⟨rest, hrest⟩ := h.exists_rest
  refine List.mem_append_right _ (List.mem_append_left _ ?_)
  rw [hrest, queueHelds_cons]
  change held ∈ e.helds ++ _
  rw [he.helds_eq]
  exact List.mem_cons_self

theorem relocks (h : Stuck e held t x s) {a b : List Held}
    (hrelocks : Relocks s.fuse s'.fuse a b others) (ha : ∀ h ∈ a, h ∈ s.restHelds)
    (hhead : s'.lockq.head? = some (.path e))
    (hrest : ∀ h ∈ s'.restHelds, h ∈ b ∨ h ∈ s.restHelds) : Stuck e held t x s' := by
  obtain ⟨hword, hb⟩ := hrelocks.aloof x h.word fun other hother =>
    h.alone other (ha other hother)
  obtain ⟨p, l, hp, hwalk⟩ := h.below
  refine ⟨hhead, by rw [hword]; exact h.word, ?_, fun other hother => ?_, p, l, ?_, ?_⟩
  · rw [hrelocks.claimOf_eq]
    exact h.mine
  · rw [hrelocks.touches_iff]
    exact (hrest other hother).elim (hb other) (h.alone other)
  · obtain ⟨word, hfuse⟩ := hrelocks.relock
    rw [hfuse, Fuse.sameNames_relock.nodeid, hp]
  · obtain ⟨word, hfuse⟩ := hrelocks.relock
    rw [hfuse, Fuse.sameNames_relock.parent]
    exact hwalk

end Stuck

theorem Session.restHelds_subset (s : Session) : ∀ h ∈ s.restHelds, h ∈ s.helds := by
  intro h hh
  unfold Session.restHelds at hh
  unfold Session.helds
  rcases List.mem_append.mp hh with hh | hh
  · exact List.mem_append_left _ hh
  · refine List.mem_append_right _ ?_
    rcases List.mem_append.mp hh with hh | hh
    · obtain ⟨el, hel, hh⟩ := List.mem_flatMap.mp hh
      exact List.mem_append_left _
        (List.mem_flatMap.mpr ⟨el, List.mem_of_mem_tail hel, hh⟩)
    · exact List.mem_append_right _ hh

/-- The nodes between the other path and `x` stay: to move one of them a request would
need a path through `x`. -/
theorem Stuck.keeps_walk (h : Stuck e held t x s) (he : Partly e held t) (hs : Sound s)
    (hs' : Sound s') {given : Ino → ℕ} (hserves : Serves s.fuse s'.fuse s.granted given)
    {l : List Ptr} (hwalk : Walk s.fuse.parentOf p l x) (hp : (s'.fuse.heap p).isSome) :
    Walk s'.fuse.parentOf p l x := by
  obtain ⟨ids, names, hr⟩ := hs.rest
  obtain ⟨ids', names', hr'⟩ := hs'.rest
  have hgood := hs.locked.1 held (h.mem_helds he)
  have hmine := h.mine
  have halone := h.alone
  clear h
  induction hwalk with
  | nil p => exact .nil p
  | @cons p b x l hpb hwalk ih =>
      obtain ⟨n, hn, hnb⟩ := Fuse.exists_of_parentOf hpb
      obtain ⟨m, hm⟩ := Option.isSome_iff_exists.mp hp
      rcases hserves.keeps.place p n m hn hm with
        hsame | ⟨other, hother, -, ⟨b', hb', hdir⟩, -⟩
      · have hpb' : s'.fuse.parentOf p = some b := by rw [Fuse.parentOf_eq hm, hsame.1, hnb]
        exact .cons hpb' (ih (hr'.live_parent hpb').1 hmine halone)
      · -- the directory of the path is below `x`
        obtain rfl : b = b' := Option.some.inj (hnb.symm.trans hb')
        obtain ⟨l', r, hthrough, hroot, hmem⟩ := exists_walk_through hr hgood hmine hwalk
        obtain ⟨⟨b', l'', r', k, hgranted, -⟩, -⟩ :=
          hs.locked.1 other (s.granted_subset other hother)
        obtain rfl := hr.nodeid_inj b b' _ hdir hgranted.base
        obtain ⟨rfl, -⟩ := hthrough.unique hgranted.walk (hr.parentOf_root hroot)
          (hr.parentOf_root hgranted.root)
        refine absurd (.inl ?_) (halone other (List.mem_append_left _ hother))
        rw [hgranted.claimOf_eq hr]
        exact hmem

theorem Stuck.serves (h : Stuck e held t x s) (he : Partly e held t) (hs : Sound s)
    (hs' : Sound s') {given : Ino → ℕ} (hserves : Serves s.fuse s'.fuse s.granted given)
    (hhead : s'.lockq.head? = some (.path e))
    (hrest : ∀ h ∈ s'.restHelds, h ∈ s.restHelds) : Stuck e held t x s' := by
  obtain ⟨ids, names, hr⟩ := hs.rest
  obtain ⟨ids', names', hr'⟩ := hs'.rest
  have hfew := hs.few.mono (Nat.zero_le 2)
  have hkeeps := hserves.keeps.mono s.granted_subset
  obtain ⟨p, l, hp, hwalk⟩ := h.below
  have htarget : ∀ s : Session, s.lockq.head? = some (.path e) → Sound s →
      0 < lookups s.fuse t.nodeid := by
    intro s hhead hs
    have hmem : LockQueueElement.path e ∈ s.lockq := List.mem_of_mem_head? hhead
    exact Nat.zero_lt_of_lt (hs.backed.known _ hmem t he.mem_targets)
  -- the node of the other path is still there
  have hp' := hserves.nodeidOf_eq hr hp (htarget s h.head hs) (htarget s' hhead hs')
  obtain ⟨m, hm, -⟩ := Fuse.exists_of_nodeidOf hp'
  refine ⟨hhead, ?_, ?_, fun other hother => ?_, p, l, hp', ?_⟩
  · rw [hs.locked.keeps_word hfew hr' hkeeps hr]
    exact h.word
  · rw [hs.locked.keeps_claimOf hfew hr' hkeeps hr (h.mem_helds he)]
    exact h.mine
  · have hmem := hrest other hother
    unfold touches
    rw [hs.locked.keeps_claimOf hfew hr' hkeeps hr (s.restHelds_subset other hmem)]
    exact h.alone other hmem
  · exact h.keeps_walk he hs hs' hserves hwalk (by rw [hm]; rfl)

/-- The request is tried again, and keeps waiting with the path it has. -/
theorem queueElementWakeup_partly (he : Partly e held t)
    (htry : tryGetPath f t = some (f', .error .again)) :
    queueElementWakeup f true e = some (f', e) := by
  obtain ⟨t1, t2, locked1, locked2, done⟩ := e
  unfold queueElementWakeup trySecond tryElement
  cases he with
  | first hdone hlocked1 hlocked2 htarget2 =>
      dsimp only at hdone hlocked1 hlocked2 htarget2 ⊢
      subst hdone hlocked1 hlocked2 htarget2
      dsimp only
      rw [Option.bind_some]
      dsimp only
      rw [htry]
      rfl
  | second hdone hlocked1 hlocked2 htarget1 =>
      dsimp only at hdone hlocked1 hlocked2 htarget1 ⊢
      subst hdone hlocked1 hlocked2 htarget1
      dsimp only
      rw [htry]
      cases t2 <;> rfl

theorem Stuck.wake (h : Stuck e held t x s) (he : Partly e held t)
    (hr : AtRest s.fuse ids names) (hlocked : Locked s.fuse s.helds [])
    (hfew : Few 2 (claimsOf s.fuse s.helds)) (htry : ∀ el ∈ s.lockq, Tryable s.fuse el)
    (hlen : 2 * (s.holders.length + s.lockq.length) + s.leaked.length + 4 < 2147483648)
    {q' : List LockQueueElement} (hwake : wakeUpFrom true s.fuse s.lockq = some (f', q')) :
    Stuck e held t x { s with fuse := f', lockq := q' } := by
  obtain ⟨rest, hrest⟩ := h.exists_rest
  obtain ⟨p, l, hp, hwalk⟩ := h.below
  obtain ⟨l', r, hthrough, hroot, hmem⟩ :=
    exists_walk_through hr (hlocked.1 held (h.mem_helds he)) h.mine hwalk
  have hnone : Locked s.fuse [] (claimsOf s.fuse s.helds ++ []) :=
    Locked.split (a := []) hlocked
  have hfew1 : Few 1 (claimsOf s.fuse s.helds ++ []) := by
    rw [List.append_nil]
    exact hfew.mono (by omega)
  -- the first request does not get its other path
  obtain ⟨f₁, hagain⟩ := tryGetPath_shut hr hp hnone hfew1 hthrough hroot hmem h.word
  have hknown : TargetKnown s.fuse t :=
    (htry (.path e) (by rw [hrest]; exact List.mem_cons_self)).2 t he.mem_targets
  obtain ⟨f₂, result, htry₂, -, herr, -, -⟩ := tryGetPath_locked hr hknown hnone hfew1
  obtain ⟨rfl, rfl⟩ := Prod.mk.inj (Option.some.inj (htry₂.symm.trans hagain))
  have hrelocks := herr .again rfl
  have hframe : Relocks s.fuse f₂ s.helds s.helds [] := hrelocks.frame hlocked.1
  have h₂ : Stuck e held t x { s with fuse := f₂ } :=
    h.relocks hrelocks nofun h.head fun _ => .inr
  -- the others do not get to `x`
  have hperm : s.helds.Perm (queueHelds rest ++ (e.helds ++ (s.granted ++ s.leaked))) := by
    unfold Session.helds
    rw [hrest, queueHelds_cons, List.append_assoc]
    refine (List.perm_append_comm_assoc _ _ _).trans ?_
    refine (List.Perm.append_left _ (List.perm_append_comm_assoc _ _ _)).trans ?_
    exact List.perm_append_comm_assoc _ _ _
  have hsplit : Locked f₂ (queueHelds rest)
      (claimsOf f₂ (e.helds ++ (s.granted ++ s.leaked)) ++ []) :=
    (hframe.locked.perm hperm).split
  obtain ⟨f₃, rest', hwake₃, -, hrelocks₃, -⟩ := wakeUpFrom_spec rest (hframe.atRest hr) false
    (fun el hel => hframe.tryable hr (htry el (by rw [hrest]; exact List.mem_cons_of_mem _ hel)))
    hsplit (by
      have := length_flatMap_le_two _ Holder.length_helds_le s.holders
      have := e.length_helds_le
      rw [hrest, List.length_cons] at hlen
      unfold Few claimsOf Session.granted
      rw [List.append_nil, List.length_map, List.length_append, List.length_append]
      omega)
  have hqueue : wakeUpFrom true s.fuse s.lockq = some (f₃, .path e :: rest') := by
    rw [hrest]
    unfold wakeUpFrom
    rw [queueElementWakeup_partly he hagain, Option.bind_some]
    dsimp only
    rw [hwake₃, Option.map_some]
  obtain ⟨rfl, rfl⟩ := Prod.mk.inj (Option.some.inj (hqueue.symm.trans hwake))
  refine h₂.relocks hrelocks₃ ?_ rfl ?_
  · intro other hother
    refine List.mem_append_right _ (List.mem_append_left _ ?_)
    rwa [hrest]
  · intro other hother
    rcases List.mem_append.mp hother with hother | hother
    · exact .inr (List.mem_append_left _ hother)
    · rcases List.mem_append.mp hother with hother | hother
      · exact .inl hother
      · exact .inr (List.mem_append_right _ (List.mem_append_right _ hother))

theorem Session.mem_restHelds {other : Held} : other ∈ s.restHelds ↔
    (∃ h ∈ s.holders, other ∈ h.helds) ∨ (∃ el ∈ s.lockq.tail, other ∈ el.helds) ∨
      other ∈ s.leaked := by
  unfold Session.restHelds Session.granted queueHelds
  rw [List.mem_append, List.mem_append, List.mem_flatMap, List.mem_flatMap]

theorem Stuck.eraseIdx (h : Stuck e held t x s) {k : ℕ} {el : LockQueueElement}
    (hk : s.lockq[k]? = some el) (hne : el ≠ .path e) :
    (s.lockq.eraseIdx k).head? = some (.path e) ∧ el ∈ s.lockq.tail ∧
      ∀ el' ∈ (s.lockq.eraseIdx k).tail, el' ∈ s.lockq.tail := by
  obtain ⟨rest, hrest⟩ := h.exists_rest
  rw [hrest] at hk ⊢
  cases k with
  | zero => exact absurd (Option.some.inj hk).symm hne
  | succ k => exact ⟨rfl, List.mem_of_getElem? hk, fun el' => List.mem_of_mem_eraseIdx⟩

/-- A request that has no path yet goes to the end of the queue. -/
theorem Stuck.append (h : Stuck e held t x s) {el : LockQueueElement} (hel : el.helds = [])
    (f : Fuse) :
    (s.lockq ++ [el]).head? = some (.path e) ∧
      ∀ other ∈ { s with fuse := f, lockq := s.lockq ++ [el] }.restHelds,
        other ∈ s.restHelds := by
  obtain ⟨rest, hrest⟩ := h.exists_rest
  refine ⟨by rw [hrest]; rfl, fun other hother => ?_⟩
  rw [Session.mem_restHelds] at hother ⊢
  refine hother.imp_right (Or.imp_left fun ⟨el', hmem, hother⟩ => ?_)
  rw [hrest] at hmem ⊢
  rcases List.mem_append.mp hmem with hmem | hmem
  · exact ⟨el', hmem, hother⟩
  · rw [List.mem_singleton.mp hmem, hel] at hother
    cases hother

theorem Stuck.passed (h : Stuck e held t x s) (hfuse : s'.fuse = s.fuse)
    (hhead : s'.lockq.head? = some (.path e))
    (hrest : ∀ h ∈ s'.restHelds, h ∈ s.restHelds) : Stuck e held t x s' where
  head := hhead
  word := by
    rw [hfuse]
    exact h.word
  mine := by
    rw [hfuse]
    exact h.mine
  alone other hother := by
    rw [hfuse]
    exact h.alone other (hrest other hother)
  below := by
    rw [hfuse]
    exact h.below

theorem Stuck.freePath (h : Stuck e held t x s) (he : Partly e held t) (hs : Sound s)
    {k : ℕ} {holder : Holder} {f₁ : Fuse} {q' : List LockQueueElement}
    (hk : s.holders[k]? = some holder)
    (hunlock : Relocks s.fuse f₁ holder.helds [] (claimsOf s.fuse
      { s with holders := s.holders.eraseIdx k }.helds ++ []))
    (htry : ∀ el ∈ s.lockq, Tryable f₁ el)
    (hwake : wakeUpFrom true f₁ s.lockq = some (f', q')) :
    Stuck e held t x
      { s with fuse := f', lockq := q', holders := s.holders.eraseIdx k } := by
  obtain ⟨ids, names, hr⟩ := hs.rest
  have hsub : ∀ other ∈ { s with holders := s.holders.eraseIdx k }.helds, other ∈ s.helds := by
    intro other hother
    rcases List.mem_append.mp hother with hother | hother
    · obtain ⟨holder', hmem, hother⟩ := List.mem_flatMap.mp hother
      exact List.mem_append_left _
        (List.mem_flatMap.mpr ⟨holder', List.mem_of_mem_eraseIdx hmem, hother⟩)
    · exact List.mem_append_right _ hother
  have h₁ : Stuck e held t x { s with fuse := f₁, holders := s.holders.eraseIdx k } := by
    refine h.relocks hunlock (fun other hother => ?_) h.head fun other hother => .inr ?_
    · exact Session.mem_restHelds.mpr (.inl ⟨holder, List.mem_of_getElem? hk, hother⟩)
    · rw [Session.mem_restHelds] at hother ⊢
      exact hother.imp_left fun ⟨holder', hmem, hother⟩ =>
        ⟨holder', List.mem_of_mem_eraseIdx hmem, hother⟩
  have hlocked : Locked f₁ { s with holders := s.holders.eraseIdx k }.helds [] :=
    (hunlock.frame fun other hother => hs.locked.1 other (hsub other hother)).locked
  have hlen := Roster.length_eraseIdx hk
  have hsize := hs.size
  have hrest := { s with holders := s.holders.eraseIdx k }.length_helds_le
  dsimp only at hrest
  refine h₁.wake he (hunlock.atRest hr) hlocked ?_ htry ?_ hwake
  · unfold Few claimsOf
    rw [List.length_map]
    change List.length (Session.helds { s with holders := s.holders.eraseIdx k }) + 2 + 2 < _
    omega
  · dsimp only
    omega

theorem Stuck.turn (h : Stuck e held t x s) (he : Partly e held t) (hs : Sound s)
    (hs' : Sound s') {event : Event} (hturn : Turn s event s') : Stuck e held t x s' := by
  cases hturn with
  | idle => exact h
  | granted f' holder hrelocks =>
      refine h.relocks hrelocks nofun h.head fun other hother => ?_
      rw [Session.mem_restHelds] at hother
      rcases hother with ⟨holder', hmem, hother⟩ | hother
      · rcases List.mem_cons.mp hmem with rfl | hmem
        · exact .inl hother
        · exact .inr (Session.mem_restHelds.mpr (.inl ⟨holder', hmem, hother⟩))
      · exact .inr (Session.mem_restHelds.mpr (.inr hother))
  | queued f' t1 t2 _ hrelocks _ =>
      have hnone : LockQueueElement.helds (.path ⟨t1, t2, none, none, none⟩) = [] := rfl
      obtain ⟨hhead, hsub⟩ := h.append hnone f'
      exact h.relocks hrelocks nofun hhead fun other hother => .inr (hsub other hother)
  | refused f' hrelocks => exact h.relocks hrelocks nofun h.head fun _ => .inr
  | resumed k e' held' hk hdone hlocked =>
      obtain ⟨hhead, hmem, hsub⟩ := h.eraseIdx hk (by
        rintro ⟨rfl⟩
        rw [he.done] at hdone
        cases hdone)
      refine h.passed rfl hhead fun other hother => ?_
      rw [Session.mem_restHelds] at hother ⊢
      rcases hother with ⟨holder, hholder, hother⟩ | ⟨el, hel, hother⟩ | hother
      · rcases List.mem_cons.mp hholder with rfl | hholder
        · refine .inr (.inl ⟨.path e', hmem, ?_⟩)
          change other ∈ e'.locked1.toList ++ _
          rw [hlocked]
          exact hother
        · exact .inl ⟨holder, hholder, hother⟩
      · exact .inr (.inl ⟨el, hsub el hel, hother⟩)
      · exact .inr (.inr hother)
  | failed k e' err hk hdone =>
      obtain ⟨hhead, hmem, hsub⟩ := h.eraseIdx hk (by
        rintro ⟨rfl⟩
        rw [he.done] at hdone
        cases hdone)
      refine h.passed rfl hhead fun other hother => ?_
      rw [Session.mem_restHelds] at hother ⊢
      rcases hother with hother | ⟨el, hel, hother⟩ | hother
      · exact .inl hother
      · exact .inr (.inl ⟨el, hsub el hel, hother⟩)
      · rcases List.mem_append.mp hother with hother | hother
        · exact .inr (.inl ⟨.path e', hmem, hother⟩)
        · exact .inr (.inr hother)
  | freed k holder f₁ f' q' hk hunlock htry hwake _ =>
      exact h.freePath he hs hk hunlock htry hwake
  | forgetQueued i n =>
      have hnone : LockQueueElement.helds (.forget i n) = [] := rfl
      obtain ⟨hhead, hsub⟩ := h.append hnone s.fuse
      exact h.passed rfl hhead hsub
  | served f' given holders hholders hserves =>
      refine h.serves he hs hs' hserves h.head fun other hother => ?_
      unfold Session.restHelds Session.granted at hother ⊢
      rwa [flatMap_helds_eq hholders] at hother
  | forgot k i n f' hk hserves =>
      obtain ⟨hhead, -, hsub⟩ := h.eraseIdx hk nofun
      refine h.serves he hs hs' hserves hhead fun other hother => ?_
      rw [Session.mem_restHelds] at hother ⊢
      exact hother.imp_right (Or.imp_left fun ⟨el, hel, hother⟩ => ⟨el, hsub el hel, hother⟩)

/-! ## Runs -/

theorem Session.perm_restHelds (hhead : s.lockq.head? = some (.path e))
    (he : e.helds = [held]) : s.helds.Perm (held :: s.restHelds) := by
  obtain ⟨rest, hrest⟩ := List.head?_eq_some_iff.mp hhead
  unfold Session.helds Session.restHelds Session.granted
  rw [hrest, queueHelds_cons, List.append_assoc]
  change (_ ++ (e.helds ++ _)).Perm _
  rw [he]
  exact List.perm_middle

theorem Session.readers_eq (hhead : s.lockq.head? = some (.path e)) (he : e.helds = [held])
    (hx : x ∈ (claimOf s.fuse held).reads) : s.readers x =
      s.restHelds.countP (fun other => x ∈ (claimOf s.fuse other).reads) + 1 := by
  unfold Session.readers
  rw [(Session.perm_restHelds hhead he).countP_eq, List.countP_cons_of_pos (by simpa using hx)]

/-- In the state before a run the first request of the queue waits with one of its two
paths, a node on it is locked against readers and on the way up of the other path, and no
other path passes it. Then the request waits as before after the run, whatever the run is,
and still no other path passes the node. -/
theorem run_stuck (r : Ptr) (memory : List Bool) (f₀ : Fuse) (before after : List Event)
    (s s' : Session) (e : PathElement) (held : Held) (t : Target) (x : Ptr)
    (h₀ : fuseNew r memory = some f₀) (hbefore : (Session.start f₀).Runs before s)
    (hhead : s.lockq.head? = some (.path e)) (he : Partly e held t)
    (hx : x ∈ (claimOf s.fuse held).reads)
    (hbelow : (getNode s.fuse t.nodeid).any fun p => isBelow s.fuse p x)
    (hword : s.fuse.word x < 0) (halone : s.readers x = 1) (hafter : s.Runs after s') :
    s'.lockq.head? = some (.path e) ∧ s'.readers x = 1 := by
  have hs := (Sound.start h₀).runs hbefore
  obtain ⟨ids, names, hr⟩ := hs.rest
  have hheld : held ∈ s.helds :=
    (Session.perm_restHelds hhead he.helds_eq).mem_iff.mpr List.mem_cons_self
  have hstuck : Stuck e held t x s := by
    refine ⟨hhead, hword, hx, fun other hother => ?_, ?_⟩
    · rw [Session.readers_eq hhead he.helds_eq hx, Nat.add_eq_right, List.countP_eq_zero]
        at halone
      rintro (hreads | hwrites)
      · exact halone other hother (by simpa using hreads)
      · exact hs.locked.wnode_ne hheld (s.restHelds_subset other hother) hx hwrites
    · obtain ⟨p, hp, hbelow⟩ := (Option.any_eq_true _ _).mp hbelow
      unfold isBelow at hbelow
      rw [decide_eq_true_iff] at hbelow
      obtain ⟨l, hl⟩ := Forest.exists_walk_of_mem_wayUp hbelow
      exact ⟨p, l, hr.getNode_some hp, hl⟩
  obtain ⟨-, hstuck'⟩ := hs.runs_of_turn (I := Stuck e held t x) (P := fun _ => True)
    (fun s event s' hs hs' _ hturn h => h.turn he hs hs' hturn) hstuck (fun _ _ => trivial)
    hafter
  refine ⟨hstuck'.head, ?_⟩
  rw [Session.readers_eq hstuck'.head he.helds_eq hstuck'.mine, Nat.add_eq_right,
    List.countP_eq_zero]
  intro other hother hreads
  exact hstuck'.alone other hother (.inl (by simpa using hreads))

/-- In the directory `d` with the files `a` and `b`, the file `i` is open twice while `a` is
to be renamed over `b`. When the first is done, `d` is to be renamed, and then the second
is done. -/
def stuckEvents (i : Ino) : List Event :=
  [.getPath (.name 1 [100]) none, .findNode 0 false 1, .freePath 0,
    .getPath (.name 2 [97]) none, .findNode 0 false 2, .freePath 0,
    .getPath (.name 2 [98]) none, .findNode 0 false 3, .freePath 0,
    .getPath (.node i) none, .getPath (.node i) none,
    .getPath (.change 2 [97]) (some (.change 2 [98])), .freePath 0,
    .getPath (.change 1 [100]) (some (.change 1 [101])), .freePath 0]

def stuckAfter : List Event := [.resume 0, .resume 1, .getPath (.node 3) none]

/-- The rename in `d` waits with the path `held`, nobody has another one, and there are runs
after that. -/
theorem exists_runs_stuck (i : Ino) (e : PathElement) (held : Held)
    (h : (fuseNew 0 []).any (fun f =>
      (Along.tryRun Session.step Session.Allowed (.start f) (stuckEvents i)).any fun s =>
        s.holders = [] ∧ s.lockq.head? = some (.path e) ∧ 1 ∈ (claimOf s.fuse held).reads ∧
        ((getNode s.fuse 2).any fun p => isBelow s.fuse p 1) ∧ s.fuse.word 1 < 0 ∧
        s.readers 1 = 1 ∧
        (Along.tryRun Session.step Session.Allowed s stuckAfter).isSome) = true) :
    ∃ f₀ s s', fuseNew 0 [] = some f₀ ∧ (Session.start f₀).Runs (stuckEvents i) s ∧
      s.holders = [] ∧ s.lockq.head? = some (.path e) ∧ 1 ∈ (claimOf s.fuse held).reads ∧
      ((getNode s.fuse 2).any fun p => isBelow s.fuse p 1) ∧ s.fuse.word 1 < 0 ∧
      s.readers 1 = 1 ∧ s.Runs stuckAfter s' := by
  obtain ⟨f₀, h₀, h⟩ := (Option.any_eq_true _ _).mp h
  obtain ⟨s, hs, hstate⟩ := (Option.any_eq_true _ _).mp h
  rw [decide_eq_true_iff] at hstate
  obtain ⟨hnone, hhead, hx, hbelow, hword, halone, hafter⟩ := hstate
  obtain ⟨s', hs'⟩ := Option.isSome_iff_exists.mp hafter
  exact ⟨f₀, s, s', h₀, Along.of_tryRun hs, hnone, hhead, hx, hbelow, hword, halone,
    Along.of_tryRun hs'⟩

/-- Nobody has a path any more, and both renames wait: the first with its first path if
`b` is open, with its second if `a` is. -/
theorem run_stuck_rename :
    (∃ (s s' : Session) (e : PathElement), s.holders = [] ∧ e.locked2 = none ∧
      s.Runs stuckAfter s' ∧ s'.lockq.head? = some (.path e) ∧ s'.readers 1 = 1) ∧
    ∃ (s s' : Session) (e : PathElement), s.holders = [] ∧ e.locked1 = none ∧
      s.Runs stuckAfter s' ∧ s'.lockq.head? = some (.path e) ∧ s'.readers 1 = 1 := by
  let a : Target := .change 2 [97]
  let b : Target := .change 2 [98]
  constructor
  · let held : Held := ⟨a, [47, 100, 47, 97], some 2⟩
    let e : PathElement := ⟨a, some b, some held, none, none⟩
    obtain ⟨f₀, s, s', h₀, hbefore, hnone, hhead, hx, hbelow, hword, halone, hafter⟩ :=
      exists_runs_stuck 4 e held (by decide +kernel)
    exact ⟨s, s', e, hnone, rfl, hafter,
      run_stuck 0 [] f₀ (stuckEvents 4) stuckAfter s s' e held b 1 h₀ hbefore hhead
        (.first rfl rfl rfl rfl) hx hbelow hword halone hafter⟩
  · let held : Held := ⟨b, [47, 100, 47, 98], some 3⟩
    let e : PathElement := ⟨a, some b, none, some held, none⟩
    obtain ⟨f₀, s, s', h₀, hbefore, hnone, hhead, hx, hbelow, hword, halone, hafter⟩ :=
      exists_runs_stuck 3 e held (by decide +kernel)
    exact ⟨s, s', e, hnone, rfl, hafter,
      run_stuck 0 [] f₀ (stuckEvents 3) stuckAfter s s' e held a 1 h₀ hbefore hhead
        (.second rfl rfl rfl rfl) hx hbelow hword halone hafter⟩

end Mergerfs.Libfuse
