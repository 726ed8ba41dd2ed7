import Mergerfs.Libfuse.TreelockKeep
import Mergerfs.Library.Roster
import Mathlib.Algebra.GroupWithZero.Nat

/-!
# Runs of requests side by side

Threads serve requests of the kernel at the same time; what each does while it has
`f->lock` is an event, and a run is any order of events that the kernel's requests can
lead to. In every run no assertion fails, nobody reads a freed node, and the paths that
were given out stay the paths of their nodes until they are given back.

The kernel asks only for nodes it knows, and counts the lookups that a waiting `forget`
takes back as gone. A node that a request has locked for writing stays in its place until
the request moves it. If there is none, the kernel does not let anybody make the name
meanwhile.
-/

namespace Mergerfs.Libfuse

open LockWord (Claim)

variable {f f' : Fuse} {ids names : List Ptr} {s s' : Session} {q q' : List LockQueueElement}
  {i : Ino} {k : ℕ} {held : Held}

/-! ## Requests in flight -/

def Holder.helds (h : Holder) : List Held := h.first :: h.second.toList

def Holder.unmoved (h : Holder) : List Held :=
  match h.stage with
  | .fresh => h.helds
  | .hidden => [h.first]
  | .changed => []

namespace LockQueueElement

def targets : LockQueueElement → List Target
  | .path e => e.targets
  | .forget _ _ => []

/-- The lookups of an id that the element is about to take back. -/
def given (i : Ino) : LockQueueElement → ℕ
  | .path _ => 0
  | .forget j k => if j = i then k else 0

end LockQueueElement

def pending (q : List LockQueueElement) (i : Ino) : ℕ :=
  (q.map (LockQueueElement.given i)).sum

def Awaited (q : List LockQueueElement) (i : Ino) : Prop :=
  ∃ el ∈ q, ∃ t ∈ el.targets, t.nodeid = i

instance : Decidable (Awaited q i) :=
  inferInstanceAs (Decidable (∃ el ∈ q, ∃ t ∈ el.targets, t.nodeid = i))

namespace Session

/-- All paths that are locked, by requests that have theirs, in the queue, and lost. -/
def helds (s : Session) : List Held :=
  s.holders.flatMap Holder.helds ++ (queueHelds s.lockq ++ s.leaked)

def start (f : Fuse) : Session := ⟨f, [], [], []⟩

/-- One request more can have two paths, and no word runs over. -/
def Room (s : Session) : Prop :=
  2 * (s.holders.length + s.lockq.length + 1) + s.leaked.length + 4 < 2147483648

instance : Decidable s.Room :=
  inferInstanceAs (Decidable (2 * _ + _ + _ < _))

end Session

instance : ∀ t, Decidable (WriteKnown f t)
  | .node _ => inferInstanceAs (Decidable True)
  | .name _ _ => inferInstanceAs (Decidable True)
  | .change dir name => decidable_of_iff
      (∀ x ∈ (lookupNode f dir name).join, (f.heap x).any fun n => 0 < n.nlookup)
      (forall_congr' fun x => by simp [Option.any_eq_true, Option.join_eq_some_iff])

def Vacant (f : Fuse) : Target → Prop
  | .change dir name => lookupNode f dir name = some none
  | _ => True

instance : ∀ t, Decidable (Vacant f t)
  | .node _ => inferInstanceAs (Decidable True)
  | .name _ _ => inferInstanceAs (Decidable True)
  | .change _ _ => inferInstanceAs (Decidable (_ = _))

/-- What the kernel sees to before a request changes names: where there was no node to
lock, or where the request has hidden it, nobody makes the name. -/
def Holder.Expects (f : Fuse) (h : Holder) : Prop :=
  match h.stage with
  | .fresh => ∀ held ∈ h.helds, held.wnode = none → Vacant f held.target
  | .hidden => (h.first.wnode = none → Vacant f h.first.target) ∧
      ∀ held ∈ h.second.toList, Vacant f held.target
  | .changed => False

instance : ∀ h : Holder, Decidable (h.Expects f)
  | ⟨_, _, .fresh⟩ => inferInstanceAs (Decidable (∀ held ∈ _, _ → _))
  | ⟨_, _, .hidden⟩ => inferInstanceAs (Decidable (_ ∧ ∀ held ∈ _, _))
  | ⟨_, _, .changed⟩ => inferInstanceAs (Decidable False)

/-- What the threads do for a kernel that keeps to what it knows. -/
def Session.Allowed (s : Session) : Event → Prop
  | .getPath t1 t2 => s.Room ∧ ∀ t ∈ t1 :: t2.toList,
      pending s.lockq t.nodeid < lookups s.fuse t.nodeid ∧ WriteKnown s.fuse t
  | .resume _ => True
  | .freePath _ => ∀ el ∈ s.lockq, ∀ t ∈ el.targets, WriteKnown s.fuse t
  | .forget i k => i = fuseRootId ∨ s.Room ∧ 0 < k ∧
      k + pending s.lockq i ≤ lookups s.fuse i ∧
      (Awaited s.lockq i → k + pending s.lockq i < lookups s.fuse i)
  | .resumeForget _ => True
  | .findNode _ _ addr => s.fuse.heap addr = none ∧ s.fuse.idTable.use + 2 < 2 ^ 32
  | .removeNode k => ∀ h ∈ s.holders[k]?, h.stage = .fresh ∧ h.Expects s.fuse
  | .hideNode k _ _ => ∀ h ∈ s.holders[k]?, h.stage = .fresh ∧ h.Expects s.fuse
  | .renameNode k => ∀ h ∈ s.holders[k]?, h.Expects s.fuse

instance : ∀ event, Decidable (s.Allowed event)
  | .getPath _ _ => inferInstanceAs (Decidable (_ ∧ _))
  | .resume _ => inferInstanceAs (Decidable True)
  | .freePath _ => inferInstanceAs (Decidable (∀ el ∈ s.lockq, ∀ t ∈ el.targets, _))
  | .forget _ _ => inferInstanceAs (Decidable (_ ∨ _))
  | .resumeForget _ => inferInstanceAs (Decidable True)
  | .findNode _ _ _ => inferInstanceAs (Decidable (_ ∧ _))
  | .removeNode k => inferInstanceAs (Decidable (∀ h ∈ s.holders[k]?, _ ∧ _))
  | .hideNode k _ _ => inferInstanceAs (Decidable (∀ h ∈ s.holders[k]?, _ ∧ _))
  | .renameNode k => inferInstanceAs (Decidable (∀ h ∈ s.holders[k]?, _))

/-! ## What holds between the events -/

/-- What waits in the queue is known to the kernel: the nodes of paths have lookups
that no waiting `forget` takes back. -/
structure Backed (f : Fuse) (q : List LockQueueElement) : Prop where
  ok : ∀ e, .path e ∈ q → ElementOk e
  known : ∀ el ∈ q, ∀ t ∈ el.targets, pending q t.nodeid < lookups f t.nodeid
  forgets : ∀ i k, .forget i k ∈ q → 0 < k ∧ i ≠ fuseRootId ∧ pending q i ≤ lookups f i

/-- What is locked for writing is where its request looks for it, and no lock is lost. -/
structure Tidy (s : Session) : Prop where
  leaked : s.leaked = []
  near : ∀ h ∈ s.holders, Near s.fuse h.helds
  placed : ∀ h ∈ s.holders, ∀ held ∈ h.unmoved, Placed s.fuse held
  orderly : ∀ e, .path e ∈ s.lockq → Orderly s.fuse e

structure Sound (s : Session) : Prop where
  rest : ∃ ids names, AtRest s.fuse ids names
  ctr : s.fuse.ctr < 2 ^ 32
  locked : Locked s.fuse s.helds []
  size : 2 * (s.holders.length + s.lockq.length) + s.leaked.length + 4 < 2147483648
  backed : Backed s.fuse s.lockq
  tidy : Tidy s

theorem Holder.length_helds_le (h : Holder) : h.helds.length ≤ 2 := by
  unfold Holder.helds
  cases h.second <;> simp

theorem Session.length_helds_le (s : Session) : s.helds.length ≤
    2 * (s.holders.length + s.lockq.length) + s.leaked.length := by
  have := length_flatMap_le_two _ Holder.length_helds_le s.holders
  have := length_queueHelds_le s.lockq
  unfold Session.helds
  rw [List.length_append, List.length_append]
  omega

theorem Sound.few (h : Sound s) : Few 2 (claimsOf s.fuse s.helds) := by
  have := s.length_helds_le
  have := h.size
  unfold Few claimsOf
  rw [List.length_map]
  omega

/-! ## Pending lookups -/

theorem pending_cons (el : LockQueueElement) :
    pending (el :: q) i = el.given i + pending q i := rfl

theorem pending_append : pending (q ++ q') i = pending q i + pending q' i := by
  unfold pending
  rw [List.map_append, List.sum_append]

theorem pending_eraseIdx {el : LockQueueElement} (h : q[k]? = some el) :
    pending q i = el.given i + pending (q.eraseIdx k) i :=
  ((Roster.perm_eraseIdx h).map _).sum_nat

theorem Wakes.given {el el' : LockQueueElement} (h : Wakes el el') :
    el'.given i = el.given i := by
  cases el with
  | path e =>
      cases el' with
      | path e' => rfl
      | forget j k => cases h
  | forget j k => rw [show el' = .forget j k from h]

theorem Wakes.targets {el el' : LockQueueElement} (h : Wakes el el') :
    el'.targets = el.targets := by
  cases el with
  | path e =>
      cases el' with
      | path e' =>
          change e'.target1 :: e'.target2.toList = e.target1 :: e.target2.toList
          rw [h.2.1, h.2.2]
      | forget j k => cases h
  | forget j k => rw [show el' = .forget j k from h]

theorem pending_wakes (h : List.Forall₂ Wakes q q') : pending q' i = pending q i := by
  induction h with
  | nil => rfl
  | cons hel _ ih => rw [pending_cons, pending_cons, hel.given, ih]

theorem exists_wakes (h : List.Forall₂ Wakes q q') :
    ∀ el' ∈ q', ∃ el ∈ q, Wakes el el' := by
  induction h with
  | nil => exact fun _ h => absurd h List.not_mem_nil
  | cons hel _ ih =>
      intro el' hel'
      rcases List.mem_cons.mp hel' with rfl | hel'
      · exact ⟨_, List.mem_cons_self, hel⟩
      · obtain ⟨el, hmem, hwakes⟩ := ih el' hel'
        exact ⟨el, List.mem_cons_of_mem _ hmem, hwakes⟩

namespace Backed

theorem nil : Backed f [] :=
  ⟨fun _ h => absurd h List.not_mem_nil, fun _ h => absurd h List.not_mem_nil,
    fun _ _ h => absurd h List.not_mem_nil⟩

theorem mono (h : Backed f q) (hle : ∀ i, lookups f i ≤ lookups f' i) : Backed f' q where
  ok := h.ok
  known el hel t ht := Nat.lt_of_lt_of_le (h.known el hel t ht) (hle _)
  forgets i k hk := by
    obtain ⟨hpos, hroot, hbound⟩ := h.forgets i k hk
    exact ⟨hpos, hroot, Nat.le_trans hbound (hle i)⟩

theorem wakes (h : Backed f q) (hq : List.Forall₂ Wakes q q') : Backed f q' where
  ok e he := by
    obtain ⟨el, -, hwakes⟩ := exists_wakes hq _ he
    cases el with
    | path e' => exact hwakes.1
    | forget j k => cases show LockQueueElement.path e = .forget j k from hwakes
  known el hel t ht := by
    obtain ⟨el', hel', hwakes⟩ := exists_wakes hq _ hel
    rw [pending_wakes hq]
    exact h.known el' hel' t (hwakes.targets ▸ ht)
  forgets i k hk := by
    obtain ⟨el', hel', hwakes⟩ := exists_wakes hq _ hk
    cases el' with
    | path e => cases hwakes
    | forget j n =>
        obtain ⟨rfl, rfl⟩ := LockQueueElement.forget.inj hwakes
        rw [pending_wakes hq]
        exact h.forgets i k hel'

theorem eraseIdx {el : LockQueueElement} (h : Backed f q) (hk : q[k]? = some el)
    (hle : ∀ i, lookups f i ≤ lookups f' i + el.given i) : Backed f' (q.eraseIdx k) where
  ok e he := h.ok e (List.mem_of_mem_eraseIdx he)
  known el' hel' t ht := by
    have := h.known el' (List.mem_of_mem_eraseIdx hel') t ht
    have := hle t.nodeid
    rw [pending_eraseIdx hk] at *
    omega
  forgets i n hn := by
    obtain ⟨hpos, hroot, hbound⟩ := h.forgets i n (List.mem_of_mem_eraseIdx hn)
    have := hle i
    rw [pending_eraseIdx hk] at hbound
    exact ⟨hpos, hroot, by omega⟩

theorem forget (h : Backed f q) (hle : ∀ j, lookups f j ≤ lookups f' j + if j = i then k else 0)
    (hbound : k + pending q i ≤ lookups f i)
    (hawaited : Awaited q i → k + pending q i < lookups f i) : Backed f' q where
  ok := h.ok
  known el hel t ht := by
    have := h.known el hel t ht
    have hle := hle t.nodeid
    by_cases hid : t.nodeid = i
    · subst hid
      have := hawaited ⟨el, hel, t, ht, rfl⟩
      rw [if_pos rfl] at hle
      omega
    · rw [if_neg hid] at hle
      omega
  forgets j n hn := by
    obtain ⟨hpos, hroot, hle'⟩ := h.forgets j n hn
    have hle := hle j
    refine ⟨hpos, hroot, ?_⟩
    by_cases hid : j = i
    · subst hid
      rw [if_pos rfl] at hle
      omega
    · rw [if_neg hid] at hle
      omega

end Backed

/-! ## One event -/

theorem Holder.unmoved_subset (h : Holder) : ∀ held ∈ h.unmoved, held ∈ h.helds := by
  intro held hheld
  unfold Holder.unmoved at hheld
  split at hheld
  · exact hheld
  · rw [List.mem_singleton.mp hheld]
    exact List.mem_cons_self
  · cases hheld

def Session.granted (s : Session) : List Held := s.holders.flatMap Holder.helds

/-- What an event can do. While one request locks and unlocks its paths, the claims of
the others stay. -/
inductive Turn (s : Session) (event : Event) : Session → Prop
  | idle : Turn s event s
  | granted (f' : Fuse) (h : Holder)
      (hrelocks : Relocks s.fuse f' [] h.helds (claimsOf s.fuse s.helds ++ [])) :
      Turn s event { s with fuse := f', holders := h :: s.holders }
  | queued (f' : Fuse) (t1 : Target) (t2 : Option Target) (hevent : event = .getPath t1 t2)
      (hrelocks : Relocks s.fuse f' [] [] (claimsOf s.fuse s.helds ++ []))
      (hbusy : t2 = none → s.helds ≠ []) :
      Turn s event
        { s with fuse := f', lockq := s.lockq ++ [.path ⟨t1, t2, none, none, none⟩] }
  | refused (f' : Fuse) (hrelocks : Relocks s.fuse f' [] [] (claimsOf s.fuse s.helds ++ [])) :
      Turn s event { s with fuse := f' }
  | resumed (k : ℕ) (e : PathElement) (held : Held) (hk : s.lockq[k]? = some (.path e))
      (hdone : e.done = some none) (hlocked : e.locked1 = some held) :
      Turn s event
        { s with
          lockq := s.lockq.eraseIdx k
          holders := ⟨held, e.locked2, .fresh⟩ :: s.holders }
  | failed (k : ℕ) (e : PathElement) (err : PathError) (hk : s.lockq[k]? = some (.path e))
      (hdone : e.done = some (some err)) :
      Turn s event { s with lockq := s.lockq.eraseIdx k, leaked := e.helds ++ s.leaked }
  | freed (k : ℕ) (h : Holder) (f₁ f' : Fuse) (q' : List LockQueueElement)
      (hk : s.holders[k]? = some h)
      (hunlock : Relocks s.fuse f₁ h.helds [] (claimsOf s.fuse
        { s with holders := s.holders.eraseIdx k }.helds ++ []))
      (htry : ∀ el ∈ s.lockq, Tryable f₁ el)
      (hwake : wakeUpFrom true f₁ s.lockq = some (f', q'))
      (hsettles : OnePath s.lockq → Settles s.lockq q' (claimsOf f₁
        ((s.holders.eraseIdx k).flatMap Holder.helds ++ s.leaked) ++ [])) :
      Turn s event { s with fuse := f', lockq := q', holders := s.holders.eraseIdx k }
  | forgetQueued (i : Ino) (n : ℕ) :
      Turn s event { s with lockq := s.lockq ++ [.forget i n] }
  | served (f' : Fuse) (given : Ino → ℕ) (holders : List Holder)
      (hholders : holders.map Holder.helds = s.holders.map Holder.helds)
      (hserves : Serves s.fuse f' s.granted given) :
      Turn s event { s with fuse := f', holders := holders }
  | forgot (k : ℕ) (i : Ino) (n : ℕ) (f' : Fuse) (hk : s.lockq[k]? = some (.forget i n))
      (hserves : Serves s.fuse f' s.granted (LockQueueElement.given · (.forget i n))) :
      Turn s event { s with fuse := f', lockq := s.lockq.eraseIdx k }

theorem Relocks.lookups_eq {a b : List Held} {others : List (Claim Ptr)}
    (h : Relocks f f' a b others) : lookups f' i = lookups f i := by
  obtain ⟨word, rfl⟩ := h.relock
  have hget : getNode (f.relock word) i = getNode f i := by
    unfold getNode getNodeNocheck
    rw [Fuse.sameNames_relock.nodeid]
    rfl
  unfold lookups nodeOf
  rw [hget]
  cases getNode f i with
  | none => rfl
  | some p =>
      change (((f.heap p).map _).map _).getD 0 = _
      rw [Option.map_map]
      rfl

theorem Relocks.ctr_eq {a b : List Held} {others : List (Claim Ptr)}
    (h : Relocks f f' a b others) : f'.ctr = f.ctr := by
  obtain ⟨word, rfl⟩ := h.relock
  rfl

theorem Tidy.relocks (hr : AtRest f ids names) (hrelocks : Relocks f f' s.helds s'.helds [])
    (hfuse : s'.fuse = f') (h : Tidy { s' with fuse := f }) : Tidy s' where
  leaked := h.leaked
  near holder hholder := by
    rw [hfuse]
    exact (h.near holder hholder).relocks hrelocks
  placed holder hholder held hheld := by
    rw [hfuse, hrelocks.placed_iff hr]
    exact h.placed holder hholder held hheld
  orderly e he := by
    rw [hfuse, hrelocks.orderly_iff hr]
    exact h.orderly e he

theorem Sound.relocked (h : Sound s)
    (hrelocks : Relocks s.fuse s'.fuse s.helds s'.helds [])
    (hsize : 2 * (s'.holders.length + s'.lockq.length) + s'.leaked.length + 4 < 2147483648)
    (hbacked : Backed s.fuse s'.lockq) (htidy : Tidy { s' with fuse := s.fuse }) :
    Sound s' where
  rest := by
    obtain ⟨ids, names, hr⟩ := h.rest
    exact ⟨ids, names, hrelocks.atRest hr⟩
  ctr := by
    rw [hrelocks.ctr_eq]
    exact h.ctr
  locked := hrelocks.locked
  size := hsize
  backed := hbacked.mono fun i => Nat.le_of_eq hrelocks.lookups_eq.symm
  tidy := by
    obtain ⟨ids, names, hr⟩ := h.rest
    exact htidy.relocks hr hrelocks rfl

namespace Tidy

theorem cons (h : Tidy s) (hr : AtRest s.fuse ids names) {held1 : Held} {held2 : Option Held}
    (hplaced : ∀ held ∈ held1 :: held2.toList, Placed s.fuse held) :
    Tidy { s with holders := ⟨held1, held2, .fresh⟩ :: s.holders } where
  leaked := h.leaked
  near holder hholder := by
    rcases List.mem_cons.mp hholder with rfl | hholder
    · exact .of_placed hr hplaced
    · exact h.near holder hholder
  placed holder hholder := by
    rcases List.mem_cons.mp hholder with rfl | hholder
    · exact hplaced
    · exact h.placed holder hholder
  orderly := h.orderly

theorem queue (h : Tidy s) (horderly : ∀ e, .path e ∈ q → Orderly s.fuse e) :
    Tidy { s with lockq := q } :=
  ⟨h.leaked, h.near, h.placed, horderly⟩

theorem eraseIdx (h : Tidy s) (k : ℕ) : Tidy { s with lockq := s.lockq.eraseIdx k } :=
  h.queue fun e he => h.orderly e (List.mem_of_mem_eraseIdx he)

theorem append (h : Tidy s) {el : LockQueueElement}
    (hel : ∀ e, el = .path e → Orderly s.fuse e) :
    Tidy { s with lockq := s.lockq ++ [el] } := by
  refine h.queue fun e he => ?_
  rcases List.mem_append.mp he with he | he
  · exact h.orderly e he
  · exact hel e (List.mem_singleton.mp he).symm

theorem release (h : Tidy s) (k : ℕ) : Tidy { s with holders := s.holders.eraseIdx k } where
  leaked := h.leaked
  near holder hholder := h.near holder (List.mem_of_mem_eraseIdx hholder)
  placed holder hholder := h.placed holder (List.mem_of_mem_eraseIdx hholder)
  orderly := h.orderly

end Tidy

theorem Backed.append_path (h : Backed f q) {t1 : Target} {t2 : Option Target}
    (hknown : ∀ t ∈ t1 :: t2.toList, pending q t.nodeid < lookups f t.nodeid) :
    Backed f (q ++ [.path ⟨t1, t2, none, none, none⟩]) where
  ok e he := by
    rcases List.mem_append.mp he with he | he
    · exact h.ok e he
    · obtain rfl := LockQueueElement.path.inj (List.mem_singleton.mp he)
      exact .unlocked nofun rfl rfl
  known el hel t ht := by
    rw [pending_append]
    rcases List.mem_append.mp hel with hel | hel
    · exact h.known el hel t ht
    · obtain rfl := List.mem_singleton.mp hel
      exact hknown t ht
  forgets i k hk := by
    rw [pending_append]
    rcases List.mem_append.mp hk with hk | hk
    · exact h.forgets i k hk
    · cases List.mem_singleton.mp hk

theorem targetKnown_of_lookups (hr : AtRest f ids names) {t : Target}
    (hpos : 0 < lookups f t.nodeid) (hwrite : WriteKnown f t) : TargetKnown f t := by
  obtain ⟨p, n, hn, hid, hlook⟩ := hr.exists_of_lookups hpos
  exact ⟨⟨p, n, hn, hid, by omega⟩, hwrite⟩

theorem Sound.getPath (h : Sound s) {t1 : Target} {t2 : Option Target}
    (hallowed : s.Allowed (.getPath t1 t2)) :
    ∃ s', s.getPath t1 t2 = some s' ∧ Sound s' ∧ Turn s (.getPath t1 t2) s' := by
  obtain ⟨hroom, hknown⟩ := hallowed
  obtain ⟨ids, names, hr⟩ := h.rest
  have hfew := h.few
  have hgood := h.locked.1
  have hnone : Locked s.fuse [] (claimsOf s.fuse s.helds ++ []) :=
    Locked.split (a := []) h.locked
  have htargets : ∀ t ∈ t1 :: t2.toList, TargetKnown s.fuse t := fun t ht =>
    targetKnown_of_lookups hr (Nat.zero_lt_of_lt (hknown t ht).1) (hknown t ht).2
  obtain ⟨f', r, htry, hok, herr, hagain⟩ := tryGetPaths_spec hr htargets hnone
    (by rwa [List.append_nil])
  unfold Session.getPath
  rw [htry, Option.map_some]
  unfold Session.Room at hroom
  cases r with
  | ok helds =>
      obtain ⟨held1, held2⟩ := helds
      have hrelocks := (hok held1 held2 rfl).1
      refine ⟨_, rfl, h.relocked ?_ ?_ h.backed (h.tidy.cons hr (hok held1 held2 rfl).2),
        .granted f' ⟨held1, held2, .fresh⟩ hrelocks⟩
      · refine (hrelocks.frame hgood).perm (.refl _) (.of_eq ?_)
        unfold Session.helds
        rw [List.flatMap_cons, List.append_assoc]
        rfl
      · dsimp only
        rw [List.length_cons]
        omega
  | error err =>
      have hrelocks := herr err rfl
      have hframe : Relocks s.fuse f' s.helds s.helds [] := hrelocks.frame hgood
      cases err with
      | again =>
          refine ⟨_, rfl, h.relocked ?_ ?_
            (h.backed.append_path fun t ht => (hknown t ht).1)
            (h.tidy.append fun e he => LockQueueElement.path.inj he ▸ .fresh t1 t2),
            .queued f' t1 t2 rfl hrelocks fun hnone hnil => ?_⟩
          · refine hframe.perm (.refl _) (.of_eq ?_)
            unfold Session.helds queueHelds
            rw [List.flatMap_append]
            simp [LockQueueElement.helds, PathElement.helds]
          · dsimp only
            rw [List.length_append, List.length_singleton]
            omega
          · exact hagain rfl hnone (by rw [hnil]; rfl)
      | noent =>
          exact ⟨_, rfl, h.relocked hframe h.size h.backed h.tidy, .refused f' hrelocks⟩

theorem queueHelds_eraseIdx {el : LockQueueElement} (h : q[k]? = some el) :
    (queueHelds q).Perm (el.helds ++ queueHelds (q.eraseIdx k)) :=
  (Roster.perm_eraseIdx h).flatMap_right _

/-- The paths of one request come first. -/
theorem Session.helds_eraseIdx {holder : Holder} (hk : s.holders[k]? = some holder) :
    s.helds.Perm (holder.helds ++ { s with holders := s.holders.eraseIdx k }.helds) := by
  refine (((Roster.perm_eraseIdx hk).flatMap_right Holder.helds).append_right _).trans ?_
  rw [List.flatMap_cons, List.append_assoc]
  exact .refl _

theorem Sound.resume (h : Sound s) (k : ℕ) :
    ∃ s', s.resume k = some s' ∧ Sound s' ∧ Turn s (.resume k) s' := by
  unfold Session.resume
  cases hk : s.lockq[k]? with
  | none => exact ⟨s, rfl, h, .idle⟩
  | some el =>
      cases el with
      | forget i n => exact ⟨s, rfl, h, .idle⟩
      | path e =>
          have hok := h.backed.ok e (List.mem_of_getElem? hk)
          have hlen := Roster.length_eraseIdx hk
          have hsize := h.size
          have hqueue := queueHelds_eraseIdx hk
          have hbacked : Backed s.fuse (s.lockq.eraseIdx k) :=
            h.backed.eraseIdx hk fun i => Nat.le_refl _
          have horderly := h.tidy.orderly e (List.mem_of_getElem? hk)
          have htidy := h.tidy.eraseIdx k
          dsimp only
          cases hdone : e.done with
          | none => exact ⟨s, rfl, h, .idle⟩
          | some result =>
              cases result with
              | none =>
                  obtain ⟨held, hheld⟩ := Option.isSome_iff_exists.mp (hok.done hdone).1
                  dsimp only
                  rw [hheld, Option.map_some]
                  have hhelds : (LockQueueElement.path e).helds =
                      held :: e.locked2.toList := by
                    change e.locked1.toList ++ _ = _
                    rw [hheld]
                    rfl
                  obtain ⟨ids, names, hr⟩ := h.rest
                  have hplaced : ∀ held' ∈ held :: e.locked2.toList,
                      Placed s.fuse held' := by
                    rw [← hhelds]
                    exact horderly.placed
                  refine ⟨_, rfl, h.relocked ((Relocks.refl h.locked).perm (.refl _) ?_) ?_
                    hbacked (htidy.cons hr hplaced), .resumed k e held hk hdone hheld⟩
                  · -- the paths of the element go to the front
                    unfold Session.helds
                    rw [List.flatMap_cons, List.append_assoc,
                      show Holder.helds ⟨held, e.locked2, .fresh⟩ = _ from hhelds.symm]
                    refine (((hqueue.append_right _).trans (.of_eq
                      (List.append_assoc _ _ _))).append_left _).trans ?_
                    exact List.perm_append_comm_assoc _ _ _
                  · dsimp only
                    rw [List.length_cons]
                    omega
              | some err =>
                  have hleaked : e.helds ++ s.leaked = [] := by
                    rw [(horderly.refused err hdone).1, h.tidy.leaked]
                    rfl
                  refine ⟨_, rfl, h.relocked ((Relocks.refl h.locked).perm (.refl _) ?_) ?_
                    hbacked ⟨hleaked, htidy.near, htidy.placed, htidy.orderly⟩,
                    .failed k e err hk hdone⟩
                  · unfold Session.helds
                    refine (((hqueue.append_right _).trans (.of_eq
                      (List.append_assoc _ _ _))).trans
                      (List.perm_append_comm_assoc _ _ _)).append_left _
                  · have := e.length_helds_le
                    change 2 * (s.holders.length + (s.lockq.eraseIdx k).length) +
                      (e.helds ++ s.leaked).length + 4 < 2147483648
                    rw [List.length_append]
                    omega

theorem Backed.tryable (h : Backed f q) (hr : AtRest f ids names)
    (hwrite : ∀ el ∈ q, ∀ t ∈ el.targets, WriteKnown f t) : ∀ el ∈ q, Tryable f el := by
  intro el hel
  cases el with
  | path e =>
      refine ⟨h.ok e hel, fun t ht => targetKnown_of_lookups hr ?_ (hwrite _ hel t ht)⟩
      exact Nat.zero_lt_of_lt (h.known _ hel t ht)
  | forget i n =>
      obtain ⟨hpos, -, hle⟩ := h.forgets i n hel
      have hgiven : n ≤ pending q i := by
        obtain ⟨k, hk⟩ := List.mem_iff_getElem?.mp hel
        rw [pending_eraseIdx hk]
        simp [LockQueueElement.given]
      obtain ⟨p, m, hm, hid, -⟩ := hr.exists_of_lookups (i := i) (f := f) (by omega)
      exact ⟨p, by rw [Fuse.nodeidOf_eq hm, hid]⟩

theorem Sound.freePath (h : Sound s) (hallowed : s.Allowed (.freePath k)) :
    ∃ s', s.freePath k = some s' ∧ Sound s' ∧ Turn s (.freePath k) s' := by
  obtain ⟨ids, names, hr⟩ := h.rest
  unfold Session.freePath
  cases hk : s.holders[k]? with
  | none => exact ⟨s, rfl, h, .idle⟩
  | some holder =>
      have hlen := Roster.length_eraseIdx hk
      have hsize := h.size
      have hrest := { s with holders := s.holders.eraseIdx k }.length_helds_le
      dsimp only at hrest
      have hperm := Session.helds_eraseIdx hk
      have hsecond : holder.second.toList.length ≤ 1 := by cases holder.second <;> simp
      have hlocked : Locked s.fuse ((some holder.first).toList ++ holder.second.toList)
          (claimsOf s.fuse { s with holders := s.holders.eraseIdx k }.helds ++ []) :=
        (h.locked.perm hperm).split
      have hfew : Few 1 (claimsOf s.fuse
          { s with holders := s.holders.eraseIdx k }.helds ++ []) := by
        unfold Few claimsOf
        rw [List.append_nil, List.length_map]
        omega
      obtain ⟨f₁, hunlock₁, hrelocks₁⟩ := unlockHeld_frame hr hlocked (hfew.mono hsecond)
      have hr₁ := hrelocks₁.atRest hr
      obtain ⟨f₂, hunlock₂, hrelocks₂⟩ := unlockHeld_spec hr₁ hrelocks₁.locked
        (hfew.mono (Nat.zero_le 1))
      have hunlock := hrelocks₁.trans hrelocks₂
      have hrelocks : Relocks s.fuse f₂ s.helds
          { s with holders := s.holders.eraseIdx k }.helds [] :=
        (hunlock.frame fun held hheld => h.locked.1 held
          (hperm.mem_iff.mpr (List.mem_append_right _ hheld))).perm hperm.symm (.refl _)
      have hr₂ := hrelocks₂.atRest hr₁
      have htry : ∀ el ∈ s.lockq, Tryable f₂ el := fun el hel =>
        hrelocks.tryable hr (h.backed.tryable hr hallowed el hel)
      have hsplit : Locked f₂ (queueHelds s.lockq) (claimsOf f₂
          ((s.holders.eraseIdx k).flatMap Holder.helds ++ s.leaked) ++ []) :=
        (hrelocks.locked.perm (List.perm_append_comm_assoc _ _ _)).split
      obtain ⟨f', q', hwake, hwakes, hrelocks', hsettles, horderly⟩ :=
        wakeUpFrom_spec s.lockq hr₂ true htry hsplit (by
          have := length_flatMap_le_two _ Holder.length_helds_le (s.holders.eraseIdx k)
          unfold Few claimsOf
          rw [List.length_append, List.length_map, List.length_append, List.length_nil]
          omega)
      have hgood : ∀ held ∈ (s.holders.eraseIdx k).flatMap Holder.helds ++ s.leaked,
          Good f₂ held := fun held hheld => hrelocks.locked.1 held
        ((List.perm_append_comm_assoc _ _ _).mem_iff.mpr (List.mem_append_right _ hheld))
      have hframe := (hrelocks'.frame hgood).perm (List.perm_append_comm_assoc _ _ _)
        (List.perm_append_comm_assoc _ _ _)
      -- nobody who keeps a path has locks off the root
      have hclear : ∀ c ∈ claimsOf f₂ ((s.holders.eraseIdx k).flatMap Holder.helds ++
          s.leaked) ++ [], Clear f₂ c := by
        intro c hc
        rw [List.append_nil, h.tidy.leaked, List.append_nil] at hc
        obtain ⟨held, hheld, rfl⟩ := List.mem_map.mp hc
        obtain ⟨holder', hholder', hheld⟩ := List.mem_flatMap.mp hheld
        have hnear := (h.tidy.near holder' (List.mem_of_mem_eraseIdx hholder')).relocks hrelocks
        exact hnear.clear hr₂ (fun held hheld => hgood held (List.mem_append_left _
          (List.mem_flatMap.mpr ⟨holder', hholder', hheld⟩))) held hheld
      have htidy := (h.tidy.release k).queue fun e he =>
        (hrelocks.orderly_iff hr).mp (horderly hclear (fun e he =>
          (hrelocks.orderly_iff hr).mpr (h.tidy.orderly e he)) e he)
      refine ⟨{ s with fuse := f', lockq := q', holders := s.holders.eraseIdx k }, ?_,
        h.relocked (hrelocks.trans hframe) ?_ (h.backed.wakes hwakes) htidy,
        .freed k holder f₂ f' q' hk hunlock htry hwake hsettles⟩
      · dsimp only
        rw [hunlock₁, Option.bind_some, hunlock₂, Option.bind_some, hwake, Option.map_some]
      · have := hwakes.length_eq
        dsimp only
        omega

theorem Session.granted_subset (s : Session) : ∀ held ∈ s.granted, held ∈ s.helds :=
  fun _ => List.mem_append_left _

theorem flatMap_helds_eq {holders holders' : List Holder}
    (h : holders'.map Holder.helds = holders.map Holder.helds) :
    holders'.flatMap Holder.helds = holders.flatMap Holder.helds := by
  rw [List.flatMap_def, List.flatMap_def, h]

theorem Sole.mono {mine mine' group group' : List Held} (h : Sole mine group)
    (hmine : ∀ held ∈ mine', held ∈ mine) (hgroup : ∀ held ∈ group', held ∈ group) :
    Sole mine' group' := fun held hheld held' hheld' =>
  h held (hmine held hheld) held' (hgroup held' hheld')

theorem Sound.served (h : Sound s) {mine : List Held} {given : Ino → ℕ}
    {holders : List Holder} (hserves : Serves s.fuse f' mine given)
    (hmine : ∀ held ∈ mine, held ∈ s.granted)
    (hholders : holders.map Holder.helds = s.holders.map Holder.helds)
    (hnear : ∀ h ∈ holders, Near f' h.helds)
    (hplaced : ∀ h ∈ holders, ∀ held ∈ h.unmoved, Placed f' held)
    (hbacked : Backed f' q) (hsub : ∀ el ∈ q, el ∈ s.lockq)
    (hhelds : (queueHelds s.lockq).Perm (queueHelds q)) (hlen : q.length ≤ s.lockq.length) :
    Sound { s with fuse := f', lockq := q, holders := holders } := by
  obtain ⟨ids, names, hr⟩ := h.rest
  obtain ⟨ids', names', hr'⟩ := hserves.rest
  have hfew := h.few.mono (Nat.zero_le 2)
  have hmine' : ∀ held ∈ mine, held ∈ s.helds := fun held hheld =>
    s.granted_subset held (hmine held hheld)
  have hsole : Sole s.granted (queueHelds s.lockq ++ s.leaked) := h.locked.sole
  refine ⟨hserves.rest, hserves.ctr, ?_, ?_, hbacked, h.tidy.leaked, hnear, hplaced, ?_⟩
  · have := h.locked.keeps hfew hr' (hserves.keeps.mono hmine') hr
    unfold Session.helds at this ⊢
    rw [flatMap_helds_eq hholders]
    exact this.perm ((hhelds.append_right _).append_left _)
  · have := h.size
    have hlength := congrArg List.length hholders
    rw [List.length_map, List.length_map] at hlength
    dsimp only
    omega
  · intro e he
    have hel := hsub _ he
    have hmem : ∀ held ∈ e.helds, held ∈ queueHelds s.lockq := fun held hheld =>
      List.mem_flatMap.mpr ⟨_, hel, hheld⟩
    refine ⟨fun held hheld => ?_, fun err herr => ?_⟩
    · refine ((h.tidy.orderly e hel).placed held hheld).keeps h.locked hfew hr hr'
        hserves.keeps hmine' ?_ (hsole.mono hmine fun held' hheld' => ?_)
      · exact List.mem_append_right _ (List.mem_append_left _ (hmem held hheld))
      · rw [List.mem_singleton.mp hheld']
        exact List.mem_append_left _ (hmem held hheld)
    · obtain ⟨hnil, t, ht, p, hp, hoff⟩ := (h.tidy.orderly e hel).refused err herr
      have hp' := hserves.nodeidOf_eq hr hp
        (Nat.zero_lt_of_lt (h.backed.known _ hel t ht))
        (Nat.zero_lt_of_lt (hbacked.known _ he t ht))
      obtain ⟨n, hn, -⟩ := Fuse.exists_of_nodeidOf hp
      obtain ⟨m, hm, -⟩ := Fuse.exists_of_nodeidOf hp'
      exact ⟨hnil, t, ht, p, hp', hoff.keeps h.locked hr hr' hserves.keeps hmine'
        (by rw [hn]; rfl) (by rw [hm]; rfl)⟩

theorem Sound.served_still (h : Sound s) {given : Ino → ℕ}
    (hserves : Serves s.fuse f' [] given) (hbacked : Backed f' q)
    (hsub : ∀ el ∈ q, el ∈ s.lockq)
    (hhelds : (queueHelds s.lockq).Perm (queueHelds q)) (hlen : q.length ≤ s.lockq.length) :
    Sound { s with fuse := f', lockq := q } := by
  obtain ⟨ids, names, hr⟩ := h.rest
  obtain ⟨ids', names', hr'⟩ := hserves.rest
  have hfew := h.few.mono (Nat.zero_le 2)
  have hnone : ∀ {group : List Held}, Sole [] group := fun held hheld =>
    absurd hheld List.not_mem_nil
  have hmine : ∀ held ∈ ([] : List Held), held ∈ s.helds := fun _ h =>
    absurd h List.not_mem_nil
  have hmem : ∀ holder ∈ s.holders, ∀ held ∈ holder.helds, held ∈ s.helds :=
    fun holder hholder held hheld =>
      s.granted_subset held (List.mem_flatMap.mpr ⟨holder, hholder, hheld⟩)
  refine h.served hserves (fun _ h => absurd h List.not_mem_nil) rfl
    (fun holder hholder => ?_) (fun holder hholder held hheld => ?_) hbacked hsub hhelds hlen
  · exact (h.tidy.near holder hholder).keeps h.locked hfew hr hr' hserves.keeps hmine
      (hmem holder hholder) (.inr hnone)
  · exact (h.tidy.placed holder hholder held hheld).keeps h.locked hfew hr hr' hserves.keeps
      hmine (hmem holder hholder held (holder.unmoved_subset held hheld)) hnone

/-- A request has changed the nodes of `mine`, which are among its paths. -/
theorem Sound.served_advance (h : Sound s) {mine : List Held} {holder : Holder}
    (stage : Stage) (hk : s.holders[k]? = some holder)
    (hserves : Serves s.fuse f' mine fun _ => 0)
    (hmine : ∀ held ∈ mine, held ∈ holder.helds)
    (hstage : ∀ held ∈ Holder.unmoved { holder with stage := stage },
      Placed s.fuse held ∧ Sole mine [held]) :
    Sound (s.advance k stage f') ∧ ∀ event, Turn s event (s.advance k stage f') := by
  obtain ⟨ids, names, hr⟩ := h.rest
  obtain ⟨ids', names', hr'⟩ := hserves.rest
  have hfew := h.few.mono (Nat.zero_le 2)
  have hmem : ∀ holder ∈ s.holders, ∀ held ∈ holder.helds, held ∈ s.granted :=
    fun holder hholder held hheld => List.mem_flatMap.mpr ⟨holder, hholder, hheld⟩
  have hholder := List.mem_of_getElem? hk
  have hgranted : ∀ held ∈ mine, held ∈ s.granted := fun held hheld =>
    hmem holder hholder held (hmine held hheld)
  have hmine' : ∀ held ∈ mine, held ∈ s.helds := fun held hheld =>
    s.granted_subset held (hgranted held hheld)
  have hsole : Sole mine ((s.holders.eraseIdx k).flatMap Holder.helds) :=
    (h.locked.perm (Session.helds_eraseIdx hk)).sole.mono hmine fun held =>
      List.mem_append_left _
  have hhelds : (s.holders.modify k fun h => { h with stage := stage }).map Holder.helds =
      s.holders.map Holder.helds := Roster.map_modify fun _ => rfl
  refine ⟨h.served hserves hgranted hhelds ?_ ?_ (h.backed.mono hserves.lookups)
    (fun _ => id) (.refl _) (Nat.le_refl _), fun event => .served f' _ _ hhelds
    (hserves.mono hgranted)⟩
  · intro holder' hholder'
    rcases Roster.mem_modify hk hholder' with rfl | hholder'
    · exact (h.tidy.near holder hholder).keeps h.locked hfew hr hr' hserves.keeps hmine'
        (fun held hheld => s.granted_subset held (hmem holder hholder held hheld)) (.inl hmine)
    · have hmem' := List.mem_of_mem_eraseIdx hholder'
      exact (h.tidy.near holder' hmem').keeps h.locked hfew hr hr' hserves.keeps hmine'
        (fun held hheld => s.granted_subset held (hmem holder' hmem' held hheld))
        (.inr (hsole.mono (fun _ => id) fun held hheld =>
          List.mem_flatMap.mpr ⟨holder', hholder', hheld⟩))
  · intro holder' hholder' held hheld
    rcases Roster.mem_modify hk hholder' with rfl | hholder'
    · obtain ⟨hplaced, hsole⟩ := hstage held hheld
      exact hplaced.keeps h.locked hfew hr hr' hserves.keeps hmine'
        (s.granted_subset held (hmem holder hholder held
          (Holder.unmoved_subset { holder with stage := stage } held hheld))) hsole
    · have hmem' := List.mem_of_mem_eraseIdx hholder'
      have hheld' := holder'.unmoved_subset held hheld
      refine (h.tidy.placed holder' hmem' held hheld).keeps h.locked hfew hr hr'
        hserves.keeps hmine' (s.granted_subset held (hmem holder' hmem' held hheld'))
        (hsole.mono (fun _ => id) fun held' hheld'' => ?_)
      rw [List.mem_singleton.mp hheld'']
      exact List.mem_flatMap.mpr ⟨holder', hholder', hheld'⟩

theorem Backed.append_forget (h : Backed f q) (hroot : i ≠ fuseRootId) (hk : 0 < k)
    (hbound : k + pending q i ≤ lookups f i)
    (hawaited : Awaited q i → k + pending q i < lookups f i) :
    Backed f (q ++ [.forget i k]) := by
  have hpending : ∀ j, pending (q ++ [.forget i k]) j =
      pending q j + if i = j then k else 0 := fun j => pending_append
  refine ⟨fun e he => ?_, fun el hel t ht => ?_, fun j n hn => ?_⟩
  · rcases List.mem_append.mp he with he | he
    · exact h.ok e he
    · cases List.mem_singleton.mp he
  · rw [hpending]
    rcases List.mem_append.mp hel with hmem | hmem
    · have := h.known el hmem t ht
      by_cases hid : i = t.nodeid
      · subst hid
        have := hawaited ⟨el, hmem, t, ht, rfl⟩
        rw [if_pos rfl]
        omega
      · rwa [if_neg hid]
    · obtain rfl := List.mem_singleton.mp hmem
      cases ht
  · rw [hpending]
    by_cases hid : i = j
    · subst hid
      rw [if_pos rfl]
      refine ⟨?_, hroot, by omega⟩
      rcases List.mem_append.mp hn with hn | hn
      · exact (h.forgets i n hn).1
      · obtain ⟨-, rfl⟩ := LockQueueElement.forget.inj (List.mem_singleton.mp hn)
        exact hk
    · rw [if_neg hid]
      rcases List.mem_append.mp hn with hn | hn
      · exact h.forgets j n hn
      · obtain ⟨rfl, -⟩ := LockQueueElement.forget.inj (List.mem_singleton.mp hn)
        exact absurd rfl hid

theorem Sound.forget (h : Sound s) (hallowed : s.Allowed (.forget i k)) :
    ∃ s', s.forget i k = some s' ∧ Sound s' ∧ Turn s (.forget i k) s' := by
  unfold Session.forget
  by_cases hroot : i = fuseRootId
  · rw [if_pos hroot]
    exact ⟨s, rfl, h, .idle⟩
  obtain ⟨hroom, hk, hbound, hawaited⟩ := hallowed.resolve_left hroot
  obtain ⟨ids, names, hr⟩ := h.rest
  obtain ⟨p, n, hn, rfl, hlook⟩ := hr.exists_of_lookups (i := i) (by omega)
  rw [if_neg hroot, hr.getNode_eq hn, Option.bind_some]
  cases hwait : forgetWaits s.fuse p k with
  | true =>
      refine ⟨_, rfl, h.relocked ((Relocks.refl h.locked).perm (.refl _) (.of_eq ?_)) ?_
        (h.backed.append_forget hroot hk hbound hawaited) (h.tidy.append nofun),
        .forgetQueued _ _⟩
      · unfold Session.helds queueHelds
        rw [List.flatMap_append]
        simp [LockQueueElement.helds]
      · unfold Session.Room at hroom
        dsimp only
        rw [List.length_append, List.length_singleton]
        omega
  | false =>
      obtain ⟨f', hforget, hserves⟩ : ∃ f', forgetNode s.fuse n.nodeid k = some f' ∧
          Serves s.fuse f' [] _ := forgetNode_serves hr h.ctr h.locked
        (h.few.mono (Nat.zero_le 2)) hn hroot hk (by omega) hwait
      rw [if_neg Bool.false_ne_true, hforget, Option.map_some]
      exact ⟨_, rfl, h.served_still hserves (h.backed.forget hserves.lookups hbound hawaited)
        (fun _ => id) (.refl _) (Nat.le_refl _),
        .served f' _ s.holders rfl (hserves.mono (List.forall_mem_nil _))⟩

theorem Sound.resumeForget (h : Sound s) (k : ℕ) :
    ∃ s', s.resumeForget k = some s' ∧ Sound s' ∧ Turn s (.resumeForget k) s' := by
  unfold Session.resumeForget
  cases hk : s.lockq[k]? with
  | none => exact ⟨s, rfl, h, .idle⟩
  | some el =>
      cases el with
      | path e => exact ⟨s, rfl, h, .idle⟩
      | forget i n =>
          obtain ⟨ids, names, hr⟩ := h.rest
          obtain ⟨hpos, hroot, hle⟩ := h.backed.forgets i n (List.mem_of_getElem? hk)
          have hgiven := pending_eraseIdx (i := i) hk
          rw [LockQueueElement.given, if_pos rfl] at hgiven
          obtain ⟨p, m, hm, rfl, hlook⟩ := hr.exists_of_lookups (i := i) (by omega)
          dsimp only
          rw [hr.getNode_eq hm, Option.bind_some]
          cases hwait : forgetWaits s.fuse p n with
          | true => exact ⟨s, rfl, h, .idle⟩
          | false =>
              obtain ⟨f', hforget, hserves⟩ : ∃ f', forgetNode s.fuse m.nodeid n = some f' ∧
                  Serves s.fuse f' [] _ := forgetNode_serves hr h.ctr h.locked
                (h.few.mono (Nat.zero_le 2)) hm hroot hpos (by omega) hwait
              have hgive : Serves s.fuse f' []
                  (LockQueueElement.given · (.forget m.nodeid n)) := by
                refine ⟨hserves.rest, hserves.ctr, hserves.keeps, fun j => ?_, hserves.stays⟩
                have := hserves.lookups j
                simpa only [LockQueueElement.given, eq_comm] using this
              rw [if_neg Bool.false_ne_true, hforget, Option.map_some]
              have hlen := Roster.length_eraseIdx hk
              exact ⟨_, rfl, h.served_still hgive (h.backed.eraseIdx hk hgive.lookups)
                (fun _ => List.mem_of_mem_eraseIdx) (queueHelds_eraseIdx hk) (by omega),
                .forgot k _ n f' hk (hgive.mono (List.forall_mem_nil _))⟩

theorem Sound.serve (h : Sound s) {event : Event}
    (hserves : Serves s.fuse f' [] fun _ => 0) :
    Sound { s with fuse := f' } ∧ Turn s event { s with fuse := f' } :=
  ⟨h.served_still hserves (h.backed.mono hserves.lookups) (fun _ => id) (.refl _)
    (Nat.le_refl _), .served f' _ s.holders rfl (hserves.mono (List.forall_mem_nil _))⟩

theorem Session.exists_of_targetOf {second : Bool} {t : Target}
    (h : s.targetOf k second = some t) :
    ∃ holder held, s.holders[k]? = some holder ∧ holder.get second = some held ∧
      held.target = t ∧ held ∈ holder.helds ∧ held ∈ s.granted := by
  obtain ⟨held, hget, rfl⟩ := Option.map_eq_some_iff.mp h
  obtain ⟨holder, hk, hget⟩ := Option.bind_eq_some_iff.mp hget
  have hmem : held ∈ holder.helds := by
    cases second with
    | false =>
        obtain rfl := Option.some.inj hget
        exact List.mem_cons_self
    | true => exact List.mem_cons_of_mem _ (Option.mem_toList.mpr hget)
  exact ⟨holder, held, hk, hget, rfl, hmem,
    List.mem_flatMap.mpr ⟨holder, List.mem_of_getElem? hk, hmem⟩⟩

theorem Sound.findNode (h : Sound s) {second : Bool} {addr : Ptr}
    (hallowed : s.Allowed (.findNode k second addr)) :
    ∃ s', s.findNode k second addr = some s' ∧ Sound s' ∧
      Turn s (.findNode k second addr) s' := by
  obtain ⟨hfree, huse⟩ := hallowed
  obtain ⟨ids, names, hr⟩ := h.rest
  -- the directory of a path is there
  have hserves : ∀ t name, s.targetOf k second = some t →
      ∃ f' r, Libfuse.findNode s.fuse t.nodeid name addr = some (f', r) ∧
        Serves s.fuse f' [] fun _ => 0 := by
    intro t name ht
    obtain ⟨_, held, -, -, rfl, -, hheld⟩ := s.exists_of_targetOf ht
    obtain ⟨⟨p, l, r, n, hgranted, hn, -⟩, -⟩ := h.locked.1 held (s.granted_subset held hheld)
    have hbase := hgranted.base
    rw [Fuse.nodeidOf_eq hn] at hbase
    rw [← Option.some.inj hbase]
    exact findNode_serves hr h.ctr hn hfree huse
  unfold Session.findNode
  cases ht : s.targetOf k second with
  | none => exact ⟨s, rfl, h, .idle⟩
  | some t =>
      cases t with
      | node dir =>
          obtain ⟨f', r, hfind, hserves⟩ := hserves _ none ht
          dsimp only [Target.nodeid] at hfind ⊢
          rw [hfind, Option.map_some]
          exact ⟨_, rfl, h.serve hserves⟩
      | name dir name =>
          obtain ⟨f', r, hfind, hserves⟩ := hserves _ (some name) ht
          dsimp only [Target.nodeid] at hfind ⊢
          rw [hfind, Option.map_some]
          exact ⟨_, rfl, h.serve hserves⟩
      | change dir name => exact ⟨s, rfl, h, .idle⟩

/-- What has the name is what is locked for writing, if it was and where nothing was. -/
theorem Placed.wnode_eq {dir : Ino} {name : Name} {x : Ptr} (h : Placed f held)
    (hvacant : held.wnode = none → Vacant f held.target)
    (htarget : held.target = .change dir name)
    (hx : lookupNode f dir name = some (some x)) : held.wnode = some x := by
  cases hw : held.wnode with
  | none =>
      have := hvacant hw
      rw [htarget] at this
      cases hx.symm.trans this
  | some y =>
      obtain ⟨dir', name', htarget', hy⟩ := h y hw
      rw [htarget] at htarget'
      cases htarget'
      cases hx.symm.trans hy
      rfl

theorem Sound.wnode_eq (h : Sound s) {holder : Holder} {dir : Ino} {name : Name} {x : Ptr}
    (hk : s.holders[k]? = some holder) (hexpects : holder.Expects s.fuse)
    (hheld : held ∈ holder.helds) (htarget : held.target = .change dir name)
    (hx : lookupNode s.fuse dir name = some (some x)) : held.wnode = some x := by
  have hplaced := h.tidy.placed holder (List.mem_of_getElem? hk)
  unfold Holder.unmoved at hplaced
  unfold Holder.Expects at hexpects
  cases hstage : holder.stage with
  | fresh =>
      rw [hstage] at hplaced hexpects
      exact (hplaced held hheld).wnode_eq (hexpects held hheld) htarget hx
  | hidden =>
      rw [hstage] at hplaced hexpects
      rcases List.mem_cons.mp hheld with rfl | hheld
      · exact (hplaced _ (List.mem_singleton_self _)).wnode_eq hexpects.1 htarget hx
      · have := hexpects.2 held hheld
        rw [htarget] at this
        cases hx.symm.trans this
  | changed =>
      rw [hstage] at hexpects
      exact hexpects.elim

theorem Sound.removeNode (h : Sound s) (hallowed : s.Allowed (.removeNode k)) :
    ∃ s', s.removeNode k = some s' ∧ Sound s' ∧ Turn s (.removeNode k) s' := by
  obtain ⟨ids, names, hr⟩ := h.rest
  unfold Session.removeNode
  cases ht : s.targetOf k false with
  | none => exact ⟨s, rfl, h, .idle⟩
  | some t =>
      cases t with
      | node dir => exact ⟨s, rfl, h, .idle⟩
      | name dir name => exact ⟨s, rfl, h, .idle⟩
      | change dir name =>
          obtain ⟨holder, held, hk, -, htarget, hmem, hheld⟩ := s.exists_of_targetOf ht
          obtain ⟨f', hremove, hserves⟩ : ∃ f', Libfuse.removeNode s.fuse dir name = some f' ∧
              Serves s.fuse f' [held] _ := removeNode_serves hr h.ctr h.locked
            (h.few.mono (Nat.zero_le 2))
            (List.forall_mem_singleton.mpr (s.granted_subset held hheld))
            (List.mem_singleton_self held) (by rw [htarget]; rfl)
            fun x => h.wnode_eq hk (hallowed holder hk).2 hmem htarget
          obtain ⟨hs, hturn⟩ := h.served_advance .changed hk hserves
            (List.forall_mem_singleton.mpr hmem) (List.forall_mem_nil _)
          dsimp only
          rw [hremove, Option.map_some]
          exact ⟨_, rfl, hs, hturn _⟩

theorem renameNode_taken (dir : Ino) (name : Name) {newdir : Ino} {newname : Name} {x : Ptr}
    (hr : AtRest f ids names) (hx : lookupNode f newdir newname = some (some x)) :
    ∃ r, renameNode f dir name newdir newname true = some (f, r) := by
  unfold renameNode
  rw [hr.lookupNode_eq dir name, Option.bind_some, hx, Option.bind_some]
  cases names.find? _ with
  | none => exact ⟨.ok, rfl⟩
  | some p => exact ⟨.busy, rfl⟩

theorem Sound.sole_second (h : Sound s) {holder : Holder} (hk : s.holders[k]? = some holder)
    (hsecond : holder.second = some held) : Sole [held] [holder.first] := by
  have hperm : s.helds.Perm ([held] ++ ([holder.first] ++
      { s with holders := s.holders.eraseIdx k }.helds)) := by
    refine (Session.helds_eraseIdx hk).trans ?_
    change (holder.first :: holder.second.toList ++ _).Perm _
    rw [hsecond]
    exact List.Perm.swap _ _ _
  exact (h.locked.perm hperm).sole.mono (fun _ => id) fun _ => List.mem_append_left _

theorem Sound.unmoved_hide (h : Sound s) {holder : Holder} {second : Bool}
    (hk : s.holders[k]? = some holder) (hfresh : holder.stage = .fresh)
    (hget : holder.get second = some held) :
    ∀ held' ∈ Holder.unmoved
        { holder with stage := if second then .hidden else .changed },
      Placed s.fuse held' ∧ Sole [held] [held'] := by
  cases second with
  | false => exact List.forall_mem_nil _
  | true =>
      intro held' hheld'
      obtain rfl : held' = holder.first := List.mem_singleton.mp hheld'
      refine ⟨h.tidy.placed holder (List.mem_of_getElem? hk) _ ?_, h.sole_second hk hget⟩
      unfold Holder.unmoved
      rw [hfresh]
      exact List.mem_cons_self

theorem Sound.hideNode (h : Sound s) {second : Bool} {newname : Name}
    (hallowed : s.Allowed (.hideNode k second newname)) :
    ∃ s', s.hideNode k second newname = some s' ∧ Sound s' ∧
      Turn s (.hideNode k second newname) s' := by
  obtain ⟨ids, names, hr⟩ := h.rest
  unfold Session.hideNode
  cases ht : s.targetOf k second with
  | none => exact ⟨s, rfl, h, .idle⟩
  | some t =>
      cases t with
      | node dir => exact ⟨s, rfl, h, .idle⟩
      | name dir name => exact ⟨s, rfl, h, .idle⟩
      | change dir name =>
          obtain ⟨holder, held, hk, hget, htarget, hmem, hheld⟩ := s.exists_of_targetOf ht
          obtain ⟨hfresh, hexpects⟩ := hallowed holder hk
          have hstage := h.unmoved_hide hk hfresh hget
          have hmine := List.forall_mem_singleton.mpr hmem
          dsimp only
          obtain ⟨found, hfound⟩ : ∃ found, lookupNode s.fuse dir newname = some found :=
            ⟨_, hr.lookupNode_eq dir newname⟩
          cases found with
          | some x =>
              obtain ⟨r, hrename⟩ := renameNode_taken dir name hr hfound
              obtain ⟨hs, hturn⟩ := h.served_advance _ hk (.refl hr h.ctr) hmine hstage
              rw [hrename, Option.map_some]
              exact ⟨_, rfl, hs, hturn _⟩
          | none =>
              have hdir : held.target.nodeid = dir := by rw [htarget]; rfl
              obtain ⟨f', r, hrename, hserves⟩ : ∃ f' r, Libfuse.renameNode s.fuse dir name dir
                  newname true = some (f', r) ∧ Serves s.fuse f' [held] _ :=
                renameNode_serves hr h.ctr h.locked (h.few.mono (Nat.zero_le 2))
                (List.forall_mem_singleton.mpr (s.granted_subset held hheld))
                (List.mem_singleton_self held) hdir
                (fun x => h.wnode_eq hk hexpects hmem htarget) (List.mem_singleton_self held)
                hdir (fun x hx => by rw [hfound] at hx; cases hx) true
              obtain ⟨hs, hturn⟩ := h.served_advance _ hk hserves hmine hstage
              rw [hrename, Option.map_some]
              exact ⟨_, rfl, hs, hturn _⟩

theorem Sound.renameNode (h : Sound s) (hallowed : s.Allowed (.renameNode k)) :
    ∃ s', s.renameNode k = some s' ∧ Sound s' ∧ Turn s (.renameNode k) s' := by
  obtain ⟨ids, names, hr⟩ := h.rest
  by_cases hchange : ∃ olddir oldname newdir newname,
      s.targetOf k false = some (.change olddir oldname) ∧
        s.targetOf k true = some (.change newdir newname)
  · obtain ⟨olddir, oldname, newdir, newname, ht1, ht2⟩ := hchange
    obtain ⟨holder, held, hk, -, htarget, hmem, hheld⟩ := s.exists_of_targetOf ht1
    obtain ⟨_, held', hk', -, htarget', hmem', hheld'⟩ := s.exists_of_targetOf ht2
    obtain rfl := Option.some.inj (hk.symm.trans hk')
    have hmine : ∀ held₁ ∈ [held, held'], held₁ ∈ holder.helds := by
      intro held₁ h₁
      rcases List.mem_pair.mp h₁ with rfl | rfl
      · exact hmem
      · exact hmem'
    have hexpects := hallowed holder hk
    obtain ⟨f', r, hrename, hserves⟩ : ∃ f' r, Libfuse.renameNode s.fuse olddir oldname newdir
        newname false = some (f', r) ∧ Serves s.fuse f' [held, held'] _ :=
      renameNode_serves hr h.ctr h.locked (h.few.mono (Nat.zero_le 2))
      (fun held₁ h₁ => s.granted_subset held₁ (List.mem_flatMap.mpr
        ⟨holder, List.mem_of_getElem? hk, hmine held₁ h₁⟩))
      List.mem_cons_self (by rw [htarget]; rfl)
      (fun x => h.wnode_eq hk hexpects hmem htarget)
      (List.mem_cons_of_mem _ (List.mem_singleton_self _)) (by rw [htarget']; rfl)
      (fun x => h.wnode_eq hk hexpects hmem' htarget') false
    obtain ⟨hs, hturn⟩ := h.served_advance .changed hk hserves hmine
      (List.forall_mem_nil _)
    refine ⟨s.advance k .changed f', ?_, hs, hturn _⟩
    unfold Session.renameNode
    rw [ht1, ht2]
    dsimp only
    rw [hrename, Option.map_some]
  · refine ⟨s, ?_, h, .idle⟩
    unfold Session.renameNode
    split
    · rename_i olddir oldname newdir newname ht1 ht2
      exact absurd ⟨olddir, oldname, newdir, newname, ht1, ht2⟩ hchange
    · rfl

/-- Every event has a result, and does what a turn can do. -/
theorem Sound.step (h : Sound s) {event : Event} (hallowed : s.Allowed event) :
    ∃ s', s.step event = some s' ∧ Sound s' ∧ Turn s event s' := by
  cases event with
  | getPath t1 t2 => exact h.getPath hallowed
  | resume k => exact h.resume k
  | freePath k => exact h.freePath hallowed
  | forget i k => exact h.forget hallowed
  | resumeForget k => exact h.resumeForget k
  | findNode k second addr => exact h.findNode hallowed
  | removeNode k => exact h.removeNode hallowed
  | hideNode k second newname => exact h.hideNode hallowed
  | renameNode k => exact h.renameNode hallowed

/-! ## Runs -/

theorem Sound.start {r : Ptr} {memory : List Bool} (h : fuseNew r memory = some f) :
    Sound (.start f) := by
  obtain ⟨g, hg, hrest⟩ := fuseNew_spec r memory
  obtain rfl := Option.some.inj (hg.symm.trans h)
  have hword : ∀ x, g.word x = 0 := by
    intro x
    cases hx : g.heap x with
    | none =>
        unfold Fuse.word
        rw [hx]
        rfl
    | some n => rw [Fuse.word_eq hx, hrest.unlocked x n hx]
  refine ⟨hrest.rest, hrest.ctr, ⟨fun _ h => absurd h List.not_mem_nil, fun x => ?_⟩,
    by simp [Session.start], .nil, rfl, fun _ h => absurd h List.not_mem_nil,
    fun _ h => absurd h List.not_mem_nil, fun _ h => absurd h List.not_mem_nil⟩
  exact .inr ⟨rfl, .inl (hword x)⟩

def Session.Runs (s : Session) (events : List Event) (s' : Session) : Prop :=
  Along.alongM Session.step Session.Allowed s events ∧ events.foldlM Session.step s = some s'

/-- What every turn of some kind of events keeps holds at the end of a run of them. -/
theorem Sound.runs_of_turn {I : Session → Prop} {P : Event → Prop} {events : List Event}
    (hkeep : ∀ s event s', Sound s → Sound s' → P event → Turn s event s' → I s → I s')
    (h : Sound s) (hI : I s) (hevents : ∀ event ∈ events, P event)
    (hrun : s.Runs events s') : Sound s' ∧ I s' := by
  refine Along.foldlM_of_alongM (I := fun s => Sound s ∧ I s) ?_ ⟨h, hI⟩
    (hrun.1.and (Along.alongM_of_forall hevents)) hrun.2
  rintro s event s' ⟨hs, hI⟩ ⟨hallowed, hevent⟩ hstep
  obtain ⟨s₁, hstep₁, hs₁, hturn⟩ := hs.step hallowed
  obtain rfl := Option.some.inj (hstep₁.symm.trans hstep)
  exact ⟨hs₁, hkeep s event s₁ hs hs₁ hevent hturn hI⟩

theorem Sound.runs {events : List Event} (h : Sound s) (hrun : s.Runs events s') : Sound s' :=
  (h.runs_of_turn (I := fun _ => True) (P := fun _ => True) (fun _ _ _ _ _ _ _ => id) trivial
    (fun _ _ => trivial) hrun).1

/-- Every run of requests side by side has a result: no assertion fails. The paths that
requests have are the paths of their nodes at that moment, and a request that gets an
error has given back what it had. -/
theorem run_paths (r : Ptr) (memory : List Bool) (f₀ : Fuse) (events : List Event)
    (h₀ : fuseNew r memory = some f₀)
    (h : Along.alongM Session.step Session.Allowed (.start f₀) events) :
    ∃ s, events.foldlM Session.step (.start f₀) = some s ∧
      (∀ holder ∈ s.holders, ∀ held ∈ holder.helds,
        pathNow s.fuse held.target = some (.ok held.path)) ∧
      s.leaked = [] := by
  obtain ⟨s, hrun, hs⟩ := Along.exists_foldlM_of_alongM (I := Sound)
    (fun s event hs hallowed => by
      obtain ⟨s', hstep, hs', -⟩ := hs.step hallowed
      exact ⟨s', hstep, hs'⟩) (Sound.start h₀) h
  obtain ⟨ids, names, hr⟩ := hs.rest
  refine ⟨s, hrun, fun holder hholder held hheld => ?_, hs.tidy.leaked⟩
  obtain ⟨⟨p, l, root, n, hgranted, -⟩, -⟩ := hs.locked.1 held
    (s.granted_subset held (List.mem_flatMap.mpr ⟨holder, hholder, hheld⟩))
  exact hgranted.pathNow_eq hr

/-- A file is opened while its directory is to be renamed, and opened again after that;
then the kernel forgets it. -/
def sampleEvents : List Event :=
  [.getPath (.name 1 [97]) none, .findNode 0 false 1, .freePath 0,
    .getPath (.name 2 [98]) none, .findNode 0 false 2, .freePath 0,
    .getPath (.node 3) none, .getPath (.change 1 [97]) (some (.change 1 [99])),
    .freePath 0, .resume 0, .renameNode 0, .getPath (.node 3) none, .freePath 0,
    .resume 0, .forget 3 1]

theorem exists_runs_sampleEvents : ∃ f₀ s, fuseNew 0 [] = some f₀ ∧
    (Session.start f₀).Runs sampleEvents s ∧
    s.holders.map (fun h => h.first.path) = [[47, 99, 47, 98]] ∧
    (s.fuse.heap 1).any fun n => n.treelock = 1 := by
  obtain ⟨f₀, h₀, h⟩ := (Option.any_eq_true
    (fun f => (Along.tryRun Session.step Session.Allowed (.start f) sampleEvents).any
      fun s => s.holders.map (fun h => h.first.path) = [[47, 99, 47, 98]] ∧
        (s.fuse.heap 1).any fun n => n.treelock = 1) (fuseNew 0 [])).mp (by decide +kernel)
  obtain ⟨s, hs, hpaths⟩ := (Option.any_eq_true _ _).mp h
  rw [decide_eq_true_iff] at hpaths
  exact ⟨f₀, s, h₀, Along.of_tryRun hs, hpaths⟩

theorem run_paths_sample : ∃ (s : Session) (holder : Holder) (held : Held),
    holder ∈ s.holders ∧ held ∈ holder.helds ∧ held.path = [47, 99, 47, 98] ∧
    pathNow s.fuse held.target = some (.ok held.path) := by
  obtain ⟨f₀, s, h₀, hrun, hpath, -⟩ := exists_runs_sampleEvents
  obtain ⟨s', hs', hpaths, -⟩ := run_paths 0 [] f₀ sampleEvents h₀ hrun.1
  obtain rfl := Option.some.inj (hs'.symm.trans hrun.2)
  obtain ⟨holder, hholder, hpath⟩ := List.mem_map.mp (hpath ▸ List.mem_singleton_self _)
  exact ⟨s', holder, holder.first, hholder, List.mem_cons_self, hpath,
    hpaths holder hholder _ List.mem_cons_self⟩

/-! ## The words of the locks -/

def Session.readers (s : Session) (p : Ptr) : ℕ :=
  s.helds.countP fun held => p ∈ (claimOf s.fuse held).reads

def Session.writers (s : Session) (p : Ptr) : ℕ :=
  s.helds.countP fun held => held.wnode = some p

/-- After any run the lock of a node has one writer and no reader, or it counts its
readers, with the offset if somebody waits for them to leave. -/
theorem run_treelock (r : Ptr) (memory : List Bool) (f₀ : Fuse) (events : List Event)
    (s : Session) (p : Ptr) (n : Node) (h₀ : fuseNew r memory = some f₀)
    (hrun : (Session.start f₀).Runs events s) (hn : s.fuse.heap p = some n) :
    s.writers p = 1 ∧ s.readers p = 0 ∧ n.treelock = treelockWrite ∨
      s.writers p = 0 ∧ (n.treelock = s.readers p ∨
        0 < s.readers p ∧ n.treelock = treelockWaitOffset + s.readers p) := by
  have hs := (Sound.start h₀).runs hrun
  have hreaders : LockWord.readers (claimsOf s.fuse s.helds) p = s.readers p :=
    List.countP_map
  have hwriters : LockWord.writers (claimsOf s.fuse s.helds) p = s.writers p :=
    List.countP_map
  have hword := hs.locked.guards p
  rwa [hreaders, hwriters, Fuse.word_eq hn] at hword

theorem run_treelock_sample : ∃ (s : Session) (p : Ptr) (n : Node),
    s.fuse.heap p = some n ∧ n.treelock = 1 ∧
    (s.writers p = 1 ∧ s.readers p = 0 ∧ n.treelock = treelockWrite ∨
      s.writers p = 0 ∧ (n.treelock = s.readers p ∨
        0 < s.readers p ∧ n.treelock = treelockWaitOffset + s.readers p)) := by
  obtain ⟨f₀, s, h₀, hrun, -, hlock⟩ := exists_runs_sampleEvents
  obtain ⟨n, hn, hlock⟩ := (Option.any_eq_true _ _).mp hlock
  rw [decide_eq_true_iff] at hlock
  exact ⟨s, 1, n, hn, hlock, run_treelock 0 [] f₀ sampleEvents s 1 n h₀ hrun hn⟩

/-! ## Requests for one path -/

def Event.OnePath : Event → Prop
  | .getPath _ t2 => t2 = none
  | _ => True

instance : ∀ event : Event, Decidable event.OnePath
  | .getPath _ t2 => inferInstanceAs (Decidable (t2 = none))
  | .resume _ | .freePath _ | .forget _ _ | .resumeForget _ | .findNode _ _ _
  | .removeNode _ | .hideNode _ _ _ | .renameNode _ => inferInstanceAs (Decidable True)

structure Lively (s : Session) : Prop where
  onePath : Libfuse.OnePath s.lockq
  waits : Waits s.lockq → s.helds ≠ []

theorem OnePath.sublist (h : Libfuse.OnePath q) (hsub : ∀ el ∈ q', el ∈ q) :
    Libfuse.OnePath q' := fun e he => h e (hsub _ he)

theorem Waits.mono (h : Waits q') (hsub : ∀ el ∈ q', el ∈ q) : Waits q := by
  obtain ⟨e, he, hdone⟩ := h
  exact ⟨e, hsub _ he, hdone⟩

theorem Waits.append {el : LockQueueElement} (h : Waits (q ++ [el])) :
    Waits q ∨ ∃ e, el = .path e := by
  obtain ⟨e, he, hdone⟩ := h
  rcases List.mem_append.mp he with he | he
  · exact .inl ⟨e, he, hdone⟩
  · exact .inr ⟨e, (List.mem_singleton.mp he).symm⟩

theorem ElementOk.helds_eq {e : PathElement} (h : ElementOk e) (hone : e.target2 = none) :
    e.helds = e.locked1.toList := by
  have hlocked : e.locked2 = none := by
    cases hlocked : e.locked2 with
    | none => rfl
    | some held =>
        have := h.target2 held hlocked
        rw [hone] at this
        cases this
  unfold PathElement.helds
  rw [hlocked]
  exact List.append_nil _

theorem helds_ne_nil_of_eraseIdx (f' : Fuse) {el : LockQueueElement} (hk : s.lockq[k]? = some el)
    (hnil : el.helds = []) (h : s.helds ≠ []) :
    { s with fuse := f', lockq := s.lockq.eraseIdx k }.helds ≠ [] := by
  have hperm := queueHelds_eraseIdx hk
  rw [hnil, List.nil_append] at hperm
  intro hempty
  refine h (List.Perm.eq_nil ?_)
  rw [← hempty]
  exact (hperm.append_right _).append_left _

theorem Lively.turn (hs : Sound s) (h : Lively s) {event : Event} (hone : event.OnePath)
    (hturn : Turn s event s') : Lively s' := by
  cases hturn with
  | idle => exact h
  | granted f' holder hrelocks =>
      exact ⟨h.onePath, fun _ => List.cons_ne_nil _ _⟩
  | queued f' t1 t2 hevent hrelocks hbusy =>
      subst hevent
      obtain rfl : t2 = none := hone
      refine ⟨fun e he => ?_, fun _ => ?_⟩
      · rcases List.mem_append.mp he with he | he
        · exact h.onePath e he
        · obtain rfl := LockQueueElement.path.inj (List.mem_singleton.mp he)
          exact ⟨rfl, fun hsome => absurd hsome Bool.false_ne_true⟩
      · have := hbusy rfl
        unfold Session.helds queueHelds at this ⊢
        rw [List.flatMap_append]
        simpa [LockQueueElement.helds, PathElement.helds] using this
  | refused f' hrelocks => exact ⟨h.onePath, h.waits⟩
  | resumed k e held hk hdone hlocked =>
      exact ⟨h.onePath.sublist fun el => List.mem_of_mem_eraseIdx,
        fun _ => List.cons_ne_nil _ _⟩
  | failed k e err hk hdone =>
      have hnil := ((hs.tidy.orderly e (List.mem_of_getElem? hk)).refused err hdone).1
      refine ⟨h.onePath.sublist fun el => List.mem_of_mem_eraseIdx, fun hwaits => ?_⟩
      have := helds_ne_nil_of_eraseIdx s.fuse hk hnil
        (h.waits (hwaits.mono fun el => List.mem_of_mem_eraseIdx))
      unfold Session.helds at this ⊢
      dsimp only at this ⊢
      rwa [hnil, List.nil_append]
  | freed k holder f₁ f' q' hk hunlock htry hwake hsettles =>
      have hsettles := hsettles h.onePath
      refine ⟨hsettles.onePath, fun hwaits hnil => ?_⟩
      unfold Session.helds at hnil
      rw [List.append_eq_nil_iff, List.append_eq_nil_iff] at hnil
      obtain ⟨hholders, hqueue, hleaked⟩ := hnil
      dsimp only at hholders hqueue hleaked
      rcases hsettles.waits hwaits with hne | hne
      · exact hne hqueue
      · rw [hholders, hleaked] at hne
        exact hne rfl
  | forgetQueued i n =>
      refine ⟨fun e he => ?_, fun hwaits => ?_⟩
      · rcases List.mem_append.mp he with he | he
        · exact h.onePath e he
        · cases List.mem_singleton.mp he
      · rcases hwaits.append with hwaits | ⟨e, he⟩
        · have := h.waits hwaits
          unfold Session.helds queueHelds at this ⊢
          rw [List.flatMap_append]
          simpa [LockQueueElement.helds] using this
        · cases he
  | served f' given holders hholders hserves =>
      refine ⟨h.onePath, fun hwaits => ?_⟩
      have := h.waits hwaits
      unfold Session.helds at this ⊢
      rwa [flatMap_helds_eq hholders]
  | forgot k i n f' hk hserves =>
      refine ⟨h.onePath.sublist fun el => List.mem_of_mem_eraseIdx, fun hwaits => ?_⟩
      exact helds_ne_nil_of_eraseIdx f' hk rfl
        (h.waits (hwaits.mono fun el => List.mem_of_mem_eraseIdx))

/-- As long as requests ask for one path each, nobody waits forever for want of a
release: there is a request that has its path, or one in the queue that was given it. -/
theorem run_progress (r : Ptr) (memory : List Bool) (f₀ : Fuse) (events : List Event)
    (s : Session) (h₀ : fuseNew r memory = some f₀)
    (hrun : (Session.start f₀).Runs events s) (hone : ∀ event ∈ events, event.OnePath)
    (e : PathElement) (he : .path e ∈ s.lockq) (hwaits : e.done = none) :
    s.holders ≠ [] ∨ ∃ e', .path e' ∈ s.lockq ∧ e'.done = some none := by
  obtain ⟨hs, hlively⟩ := (Sound.start h₀).runs_of_turn (I := Lively) (P := Event.OnePath)
    (fun s event s' hs _ hone hturn h => h.turn hs hone hturn)
    ⟨fun _ h => absurd h List.not_mem_nil, fun ⟨_, h, _⟩ => absurd h List.not_mem_nil⟩
    hone hrun
  obtain ⟨held, hheld⟩ := List.exists_mem_of_ne_nil _ (hlively.waits ⟨e, he, hwaits⟩)
  unfold Session.helds at hheld
  rw [hs.tidy.leaked, List.append_nil] at hheld
  rcases List.mem_append.mp hheld with hheld | hheld
  · obtain ⟨holder, hholder, -⟩ := List.mem_flatMap.mp hheld
    exact .inl (List.ne_nil_of_mem hholder)
  · obtain ⟨el, hel, hheld⟩ := List.mem_flatMap.mp hheld
    cases el with
    | forget i n => cases hheld
    | path e' =>
        obtain ⟨htarget, hlocked⟩ := hlively.onePath e' hel
        refine .inr ⟨e', hel, hlocked ?_⟩
        change held ∈ e'.helds at hheld
        rw [(hs.backed.ok e' hel).helds_eq htarget, Option.mem_toList] at hheld
        rw [hheld]
        rfl

theorem run_progress_sample : ∃ (s : Session) (e : PathElement), .path e ∈ s.lockq ∧
    e.done = none ∧
    (s.holders ≠ [] ∨ ∃ e', .path e' ∈ s.lockq ∧ e'.done = some none) := by
  -- a file is opened while its directory is to be removed
  let events : List Event :=
    [.getPath (.name 1 [97]) none, .findNode 0 false 1, .freePath 0,
      .getPath (.name 2 [98]) none, .findNode 0 false 2, .freePath 0,
      .getPath (.node 3) none, .getPath (.change 1 [97]) none]
  let e : PathElement := ⟨.change 1 [97], none, none, none, none⟩
  obtain ⟨f₀, h₀, h⟩ := (Option.any_eq_true
    (fun f => (Along.tryRun Session.step Session.Allowed (.start f) events).any
      fun s => .path e ∈ s.lockq) (fuseNew 0 [])).mp (by decide +kernel)
  obtain ⟨s, hs, he⟩ := (Option.any_eq_true _ _).mp h
  rw [decide_eq_true_iff] at he
  exact ⟨s, e, he, rfl,
    run_progress 0 [] f₀ events s h₀ (Along.of_tryRun hs) (by decide) e he rfl⟩

end Mergerfs.Libfuse
