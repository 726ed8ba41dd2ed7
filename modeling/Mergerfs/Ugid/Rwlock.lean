import Mergerfs.Library.Rwlock
import Mathlib.Data.List.Induction

/-!
# Credentials shared by the threads

On systems where credentials belong to the process, a thread that is to act for a
user holds a read-write lock while it does so: `ugid_set` takes it for reading if
`currentuid` and `currentgid` are already those wanted, and else takes it for writing
and changes them. A `SetRootGuard` lets go of the lock to become root and again to
come back.

Every operation on the lock and every access to `currentuid` or `currentgid` is a
step of its own, and the steps of the threads interleave at will. The calls that
change the credentials of the process are made under the write lock and touch
neither the lock nor the two variables.
-/

namespace Mergerfs

namespace Shared

@[ext]
structure Ids where
  uid : UInt32
  gid : UInt32
deriving DecidableEq

def Ids.root : Ids := ⟨0, 0⟩

inductive Point where
  | rdlock
  /-- `newuid == currentuid` under the read lock. -/
  | rdUid
  | rdGid
  | rdUnlock
  | wrlock
  | wrUid
  | wrGid
  /-- `if(currentuid != 0)` and the calls of `seteuid` and `setegid`. -/
  | switch
  /-- `currentuid = newuid`. -/
  | setUid
  | setGid
deriving DecidableEq

inductive Pc where
  /-- Outside any `Set`. -/
  | idle
  | setting (p : Point) (new : Ids)
  /-- In the body of a scope. -/
  | inside
  /-- `prevuid(currentuid)`. -/
  | saveUid
  | saveGid (prevuid : UInt32)
  /-- The `unlock` in `SetRootGuard()`. -/
  | guardUnlock (prev : Ids)
  /-- The `unlock` in `~SetRootGuard()`. -/
  | unguardUnlock
  /-- The `unlock` in `~Set()`. -/
  | leave
deriving DecidableEq

/-- A thread, the arguments of the `Set` it is in, and the members of the
`SetRootGuard`s it is in, the innermost first. -/
structure Task where
  pc : Pc
  ids : Ids
  saved : List Ids

structure Tasks (T : Type*) where
  lock : Rwlock T
  current : Ids
  task : T → Task

inductive Move (T : Type*) where
  /-- `Set(newuid,newgid)` is called. -/
  | set (t : T) (new : Ids)
  | setRootGuard (t : T)
  | endRootGuard (t : T)
  | endSet (t : T)
  /-- The next step of what the thread is in. -/
  | go (t : T)

namespace Tasks

variable {T : Type*}

/-- The state after `init`, whatever the user the process was started by. -/
def init (current : Ids) : Tasks T :=
  ⟨Rwlock.init, current, fun _ => ⟨.idle, .root, []⟩⟩

variable [DecidableEq T]

def put (s : Tasks T) (t : T) (x : Task) (lock : Rwlock T) (current : Ids) :
    Tasks T :=
  ⟨lock, current, Function.update s.task t x⟩

def goto (s : Tasks T) (t : T) (pc : Pc) : Tasks T :=
  s.put t { s.task t with pc := pc } s.lock s.current

/-- One step of `ugid_set`. A thread that has to wait for the lock stays where it
is. -/
def ugidSet (s : Tasks T) (t : T) (new : Ids) : Point → Tasks T
  | .rdlock => match s.lock.rdlock t with
    | none => s
    | some lock =>
        s.put t { s.task t with pc := .setting .rdUid new } lock s.current
  | .rdUid =>
      s.goto t (.setting (if new.uid = s.current.uid then .rdGid else .rdUnlock)
        new)
  | .rdGid =>
      s.goto t (if new.gid = s.current.gid then .inside
        else .setting .rdUnlock new)
  | .rdUnlock =>
      s.put t { s.task t with pc := .setting .wrlock new } (s.lock.unlock t)
        s.current
  | .wrlock => match s.lock.wrlock t with
    | none => s
    | some lock =>
        s.put t { s.task t with pc := .setting .wrUid new } lock s.current
  | .wrUid =>
      s.goto t (.setting (if new.uid = s.current.uid then .wrGid else .switch)
        new)
  | .wrGid =>
      s.goto t (if new.gid = s.current.gid then .inside
        else .setting .switch new)
  | .switch => s.goto t (.setting .setUid new)
  | .setUid =>
      s.put t { s.task t with pc := .setting .setGid new } s.lock
        { s.current with uid := new.uid }
  | .setGid =>
      s.put t { s.task t with pc := .inside } s.lock
        { s.current with gid := new.gid }

def go (s : Tasks T) (t : T) : Tasks T :=
  match (s.task t).pc with
  | .idle => s
  | .inside => s
  | .setting p new => s.ugidSet t new p
  | .saveUid => s.goto t (.saveGid s.current.uid)
  | .saveGid prevuid => s.goto t (.guardUnlock ⟨prevuid, s.current.gid⟩)
  | .guardUnlock prev =>
      s.put t ⟨.setting .rdlock .root, (s.task t).ids, prev :: (s.task t).saved⟩
        (s.lock.unlock t) s.current
  | .unguardUnlock => match (s.task t).saved with
    | [] => s
    | prev :: saved =>
        s.put t ⟨.setting .rdlock prev, (s.task t).ids, saved⟩ (s.lock.unlock t)
          s.current
  | .leave => s.put t { s.task t with pc := .idle } (s.lock.unlock t) s.current

/-- The scopes of a thread end in the order opposite to that they began in. -/
def step (s : Tasks T) : Move T → Tasks T
  | .set t new => match (s.task t).pc with
    | .idle => s.put t ⟨.setting .rdlock new, new, []⟩ s.lock s.current
    | _ => s
  | .setRootGuard t => match (s.task t).pc with
    | .inside => s.goto t .saveUid
    | _ => s
  | .endRootGuard t => match (s.task t).pc, (s.task t).saved with
    | .inside, _ :: _ => s.goto t .unguardUnlock
    | _, _ => s
  | .endSet t => match (s.task t).pc, (s.task t).saved with
    | .inside, [] => s.goto t .leave
    | _, _ => s
  | .go t => s.go t

end Tasks

/-! ## What a thread relies on -/

namespace Pc

def locked : Pc → Bool
  | .idle | .setting .rdlock _ | .setting .wrlock _ => false
  | _ => true

def writing : Pc → Bool
  | .setting .wrUid _ | .setting .wrGid _ | .setting .switch _
  | .setting .setUid _ | .setting .setGid _ => true
  | _ => false

theorem locked_of_writing {pc : Pc} (h : pc.writing = true) : pc.locked = true := by
  cases pc with
  | setting p new => cases p <;> first | rfl | cases h
  | _ => cases h

/-- What a thread that is to act for `target` knows of the two variables. -/
def Knows (target current : Ids) : Pc → Prop
  | .idle => True
  | .setting p new => new = target ∧ match p with
    | .rdGid | .wrGid | .setGid => current.uid = new.uid
    | _ => True
  | .saveGid prevuid => current = target ∧ prevuid = target.uid
  | .guardUnlock prev => current = target ∧ prev = target
  | _ => current = target

theorem Knows.of_not_locked {pc : Pc} {target current : Ids}
    (h : pc.Knows target current) (hl : pc.locked = false) (current' : Ids) :
    pc.Knows target current' := by
  cases pc with
  | idle => trivial
  | setting p new =>
      cases p with
      | rdlock | wrlock => exact ⟨h.1, trivial⟩
      | _ => cases hl
  | _ => cases hl

end Pc

namespace Task

/-- Whom the thread is to act for: root inside a `SetRootGuard`. -/
def target (x : Task) : Ids := if x.saved = [] then x.ids else .root

def Stacked (ids : Ids) : List Ids → Prop
  | [] => True
  | prev :: saved => prev = (if saved = [] then ids else .root) ∧ Stacked ids saved

end Task

/-- A thread and its share of the lock and of the two variables fit together. -/
structure Sound {T : Type*} [DecidableEq T] (lock : Rwlock T) (current : Ids)
    (t : T) (x : Task) : Prop where
  held : lock.held t = if x.pc.locked then 1 else 0
  balanced : lock.Balanced t
  writing : x.pc.writing = true → lock.writer = some t
  knows : x.pc.Knows x.target current
  stacked : Task.Stacked x.ids x.saved

namespace Tasks

variable {T : Type*} [DecidableEq T]

def AllSound (s : Tasks T) : Prop := ∀ t, Sound s.lock s.current t (s.task t)

section Step

variable {s : Tasks T} {t : T}

/-- An operation of one thread leaves the others sound: the two variables change
under the write lock only, and then no other thread knows of them. -/
theorem AllSound.put (h : s.AllSound) {x : Task} {lock : Rwlock T} {current : Ids}
    (hlock : Rwlock.Others s.lock lock t)
    (hcurrent : current = s.current ∨ s.lock.writer = some t)
    (hx : Sound lock current t x) : (s.put t x lock current).AllSound := by
  intro t'
  by_cases ht : t' = t
  · subst ht
    simpa [Tasks.put] using hx
  · have hsound := h t'
    simp only [Tasks.put, Function.update_of_ne ht]
    refine ⟨?_, hlock.balanced t' ht hsound.balanced, ?_, ?_, hsound.stacked⟩
    · rw [hlock.held t' ht]
      exact hsound.held
    · intro hw
      exact hlock.writer t' ht (hsound.writing hw)
    · rcases hcurrent with rfl | hw
      · exact hsound.knows
      · have hzero := hsound.held
        rw [Rwlock.held_eq_zero hw ht] at hzero
        refine hsound.knows.of_not_locked ?_ current
        cases hl : (s.task t').pc.locked with
        | false => rfl
        | true => simp [hl] at hzero

theorem AllSound.goto (h : s.AllSound) {pc : Pc}
    (hlocked : pc.locked = (s.task t).pc.locked)
    (hwriting : pc.writing = true → (s.task t).pc.writing = true)
    (hknows : pc.Knows (s.task t).target s.current) :
    (s.goto t pc).AllSound := by
  have hsound := h t
  refine h.put (Rwlock.Others.refl s.lock t) (.inl rfl) ?_
  refine ⟨?_, hsound.balanced, ?_, hknows, hsound.stacked⟩
  · rw [hsound.held, hlocked]
  · intro hw
    exact hsound.writing (hwriting hw)

/-- A thread that lets go of the lock goes on at a place where it knows nothing of
the two variables. -/
theorem AllSound.unlock (h : s.AllSound) {x : Task}
    (hheld : (s.task t).pc.locked = true) (hlocked : x.pc.locked = false)
    (hknows : x.pc.Knows x.target s.current)
    (hstacked : Task.Stacked x.ids x.saved) :
    (s.put t x (s.lock.unlock t) s.current).AllSound := by
  have hsound := h t
  have hone : s.lock.held t = 1 := by rw [hsound.held, hheld, if_pos rfl]
  obtain ⟨hothers, hless, hbal⟩ := Rwlock.unlock_spec (l := s.lock) (t := t)
    (by omega)
  refine h.put hothers (.inl rfl) ?_
  refine ⟨?_, hbal hsound.balanced, ?_, hknows, hstacked⟩
  · rw [hless, hone, hlocked]
    rfl
  · intro hw
    rw [Pc.locked_of_writing hw] at hlocked
    cases hlocked

theorem AllSound.ugidSet (h : s.AllSound) {p : Point} {new : Ids}
    (hpc : (s.task t).pc = .setting p new) : (s.ugidSet t new p).AllSound := by
  have hsound := h t
  have hknows := hsound.knows
  rw [hpc] at hknows
  have hnew : new = (s.task t).target := hknows.1
  cases p with
  | rdlock =>
      simp only [Tasks.ugidSet]
      cases hl : s.lock.rdlock t with
      | none => exact h
      | some lock =>
          obtain ⟨_, hothers, hheld, hbal⟩ := Rwlock.rdlock_eq_some hl
          refine h.put hothers (.inl rfl) ⟨?_, hbal hsound.balanced, ?_,
            ⟨hnew, trivial⟩, hsound.stacked⟩
          · rw [hheld, hsound.held, hpc]
            rfl
          · intro hw
            cases hw
  | rdUid =>
      refine h.goto ?_ ?_ ?_
      · rw [hpc]
        split_ifs <;> rfl
      · intro hw
        split_ifs at hw <;> cases hw
      · split_ifs with huid
        · exact ⟨hnew, huid.symm⟩
        · exact ⟨hnew, trivial⟩
  | rdGid =>
      refine h.goto ?_ ?_ ?_
      · rw [hpc]
        split_ifs <;> rfl
      · intro hw
        split_ifs at hw <;> cases hw
      · split_ifs with hgid
        · change s.current = (s.task t).target
          rw [← hnew]
          exact Ids.ext hknows.2 hgid.symm
        · exact ⟨hnew, trivial⟩
  | rdUnlock =>
      refine h.unlock ?_ rfl ⟨hnew, trivial⟩ hsound.stacked
      rw [hpc]
      rfl
  | wrlock =>
      simp only [Tasks.ugidSet]
      cases hl : s.lock.wrlock t with
      | none => exact h
      | some lock =>
          obtain ⟨_, hw, hothers, hheld, hbal⟩ := Rwlock.wrlock_eq_some hl
          refine h.put hothers (.inl rfl) ⟨?_, hbal hsound.balanced, fun _ => hw,
            ⟨hnew, trivial⟩, hsound.stacked⟩
          rw [hheld, hsound.held, hpc]
          rfl
  | wrUid =>
      refine h.goto ?_ ?_ ?_
      · rw [hpc]
        split_ifs <;> rfl
      · intro _
        rw [hpc]
        rfl
      · split_ifs with huid
        · exact ⟨hnew, huid.symm⟩
        · exact ⟨hnew, trivial⟩
  | wrGid =>
      refine h.goto ?_ ?_ ?_
      · rw [hpc]
        split_ifs <;> rfl
      · intro _
        rw [hpc]
        rfl
      · split_ifs with hgid
        · change s.current = (s.task t).target
          rw [← hnew]
          exact Ids.ext hknows.2 hgid.symm
        · exact ⟨hnew, trivial⟩
  | switch =>
      refine h.goto ?_ ?_ ⟨hnew, trivial⟩
      · rw [hpc]
        rfl
      · intro _
        rw [hpc]
        rfl
  | setUid =>
      have hw : s.lock.writer = some t := hsound.writing (by rw [hpc]; rfl)
      refine h.put (Rwlock.Others.refl s.lock t) (.inr hw) ⟨?_, hsound.balanced,
        fun _ => hw, ⟨hnew, rfl⟩, hsound.stacked⟩
      rw [hsound.held, hpc]
      rfl
  | setGid =>
      have hw : s.lock.writer = some t := hsound.writing (by rw [hpc]; rfl)
      refine h.put (Rwlock.Others.refl s.lock t) (.inr hw) ⟨?_, hsound.balanced,
        fun _ => hw, ?_, hsound.stacked⟩
      · rw [hsound.held, hpc]
        rfl
      · change (⟨s.current.uid, new.gid⟩ : Ids) = (s.task t).target
        rw [← hnew]
        exact Ids.ext hknows.2 rfl

theorem AllSound.go (h : s.AllSound) : (s.go t).AllSound := by
  have hsound := h t
  have hknows := hsound.knows
  unfold Tasks.go
  cases hpc : (s.task t).pc with
  | idle => exact h
  | inside => exact h
  | setting p new => exact h.ugidSet hpc
  | saveUid =>
      rw [hpc] at hknows
      have hcur : s.current = (s.task t).target := hknows
      refine h.goto ?_ ?_ ⟨hcur, by rw [hcur]⟩
      · rw [hpc]
        rfl
      · intro hw
        cases hw
  | saveGid prevuid =>
      rw [hpc] at hknows
      obtain ⟨hcur, huid⟩ := hknows
      refine h.goto ?_ ?_ ⟨hcur, ?_⟩
      · rw [hpc]
        rfl
      · intro hw
        cases hw
      · rw [huid, hcur]
  | guardUnlock prev =>
      rw [hpc] at hknows
      refine h.unlock ?_ rfl ⟨?_, trivial⟩ ⟨hknows.2, hsound.stacked⟩
      · rw [hpc]
        rfl
      · simp [Task.target]
  | unguardUnlock =>
      cases hsaved : (s.task t).saved with
      | nil => exact h
      | cons prev saved =>
          have hstacked := hsound.stacked
          rw [hsaved] at hstacked
          refine h.unlock ?_ rfl ⟨hstacked.1, trivial⟩ hstacked.2
          rw [hpc]
          rfl
  | leave =>
      refine h.unlock ?_ rfl trivial hsound.stacked
      rw [hpc]
      rfl

theorem AllSound.step (h : s.AllSound) (m : Move T) : (s.step m).AllSound := by
  cases m with
  | go t => exact h.go
  | set t new =>
      have hsound := h t
      simp only [Tasks.step]
      cases hpc : (s.task t).pc with
      | idle =>
          refine h.put (Rwlock.Others.refl s.lock t) (.inl rfl) ⟨?_,
            hsound.balanced, ?_, ⟨rfl, trivial⟩, trivial⟩
          · rw [hsound.held, hpc]
            rfl
          · intro hw
            cases hw
      | _ => exact h
  | setRootGuard t =>
      have hknows := (h t).knows
      simp only [Tasks.step]
      cases hpc : (s.task t).pc with
      | inside =>
          rw [hpc] at hknows
          refine h.goto ?_ ?_ hknows
          · rw [hpc]
            rfl
          · intro hw
            cases hw
      | _ => exact h
  | endRootGuard t =>
      have hknows := (h t).knows
      simp only [Tasks.step]
      cases hpc : (s.task t).pc with
      | inside =>
          rw [hpc] at hknows
          cases hsaved : (s.task t).saved with
          | nil => exact h
          | cons prev saved =>
              refine h.goto ?_ ?_ hknows
              · rw [hpc]
                rfl
              · intro hw
                cases hw
      | _ => exact h
  | endSet t =>
      have hknows := (h t).knows
      simp only [Tasks.step]
      cases hpc : (s.task t).pc with
      | inside =>
          rw [hpc] at hknows
          cases hsaved : (s.task t).saved with
          | nil =>
              refine h.goto ?_ ?_ hknows
              · rw [hpc]
                rfl
              · intro hw
                cases hw
          | cons prev saved => exact h
      | _ => exact h

end Step

theorem allSound_init (current : Ids) : (init current : Tasks T).AllSound := by
  intro t
  refine ⟨Rwlock.held_init t, ?_, ?_, trivial, trivial⟩
  · simp [Rwlock.Balanced, init, Rwlock.init, Rwlock.held]
  · intro h
    cases h

theorem AllSound.run {s : Tasks T} (h : s.AllSound) (moves : List (Move T)) :
    (moves.foldl Tasks.step s).AllSound := by
  induction moves generalizing s with
  | nil => exact h
  | cons m moves ih => exact ih (h.step m)

/-- Whatever the threads do, one that is in the body of its `Set` finds the two
variables as it has set them, root's inside a `SetRootGuard` and its own outside, and
every thread has let go of the lock as often as it has taken it, but for the once it
may hold it. -/
theorem current_stable (current : Ids) (moves : List (Move T)) (t : T) :
    let s := moves.foldl step (init current)
    ((s.task t).pc = .inside →
      ((s.task t).saved = [] → s.current = (s.task t).ids) ∧
      ((s.task t).saved ≠ [] → s.current = .root)) ∧
    s.lock.acquired t = s.lock.released t + (if (s.task t).pc.locked then 1 else 0) ∧
    ((s.task t).pc = .idle → s.lock.acquired t = s.lock.released t) := by
  intro s
  have hsound : Sound s.lock s.current t (s.task t) :=
    (allSound_init current).run moves t
  have hcount : s.lock.acquired t =
      s.lock.released t + (if (s.task t).pc.locked then 1 else 0) := by
    rw [← hsound.held]
    exact hsound.balanced
  refine ⟨?_, hcount, ?_⟩
  · intro hpc
    have hknows := hsound.knows
    rw [hpc] at hknows
    have hcur : s.current = (s.task t).target := hknows
    constructor
    · intro hnil
      rw [hcur, Task.target, if_pos hnil]
    · intro hne
      rw [hcur, Task.target, if_neg hne]
  · intro hpc
    rw [hcount, hpc]
    rfl

/-- A thread becomes user 5 and then root, while another one waits to become
user 7. -/
def becomingRoot : List (Move Bool) :=
  [.set true ⟨5, 5⟩, .go true, .go true, .go true, .set false ⟨7, 7⟩] ++
    List.replicate 5 (.go true) ++ [.go false, .setRootGuard true] ++
    List.replicate 11 (.go true) ++ [.go false]

theorem current_stable_guarded :
    ((becomingRoot.foldl step (init .root)).task true).pc = .inside ∧
    ((becomingRoot.foldl step (init .root)).task true).saved = [⟨5, 5⟩] ∧
    (becomingRoot.foldl step (init .root)).current = .root := by
  have hpc : ((becomingRoot.foldl step (init .root)).task true).pc = .inside := by
    decide
  have hsaved : ((becomingRoot.foldl step (init .root)).task true).saved =
      [⟨5, 5⟩] := by decide
  exact ⟨hpc, hsaved, ((current_stable .root becomingRoot true).1 hpc).2
    (by rw [hsaved]; simp)⟩

end Tasks

end Shared

end Mergerfs
