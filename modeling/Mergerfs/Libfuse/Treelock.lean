import Mergerfs.Libfuse.Node
import Mergerfs.Library.LockWord

/-!
# Path locks

A request works on the path of a node, so the names on the way up to the root have to
stay while it runs. `try_get_path` builds the path and takes a read lock of every node
on it (`treelock`), and for a request that changes a name a write lock of the node with
that name. If a lock is not free it gives back what it took, and the request waits in
`lockq` until a release lets it have all of its locks; only the first in the queue may
keep one of two paths meanwhile.

Every function here runs under `f->lock`. As for the nodes, a failed assertion, `abort`
and a null pointer give no result. Memory for the paths is always given (`ENOMEM`), and
`lookup` of `.` and `..` and the option `nopath` are left out.
-/

namespace Mergerfs.Libfuse

def treelockWrite : ℤ := -1

/-- `INT_MIN`. -/
def treelockWaitOffset : ℤ := -2147483648

inductive PathError
  /-- `EAGAIN` -/
  | again
  /-- `ENOENT` -/
  | noent
deriving DecidableEq

/-- What a request asks the path of, by `get_path`, `get_path_name` and
`get_path_wrlock`. -/
inductive Target
  | node (nodeid : Ino)
  | name (nodeid : Ino) (name : Name)
  | change (nodeid : Ino) (name : Name)
deriving DecidableEq

namespace Target

def nodeid : Target → Ino
  | .node nodeid => nodeid
  | .name nodeid _ => nodeid
  | .change nodeid _ => nodeid

def suffix : Target → List UInt8
  | .node _ => []
  | .name _ s => 47 :: s
  | .change _ s => 47 :: s

end Target

/-- A path that was given out, with the node that is locked for writing. -/
structure Held where
  target : Target
  path : List UInt8
  wnode : Option Ptr
deriving DecidableEq

variable (f : Fuse)

/-! ## One path -/

def shown (path : List UInt8) : List UInt8 := if path = [] then [47] else path

inductive Climbed
  | top (path : List UInt8)
  | stuck (err : PathError) (node : Ptr)

/-- The loop of `try_get_path`, with the path built so far. -/
def climb (needLock : Bool) : ℕ → Fuse → Ptr → List UInt8 → Option (Fuse × Climbed)
  | 0, _, _, _ => none
  | fuel + 1, f, p, s =>
      (f.heap p).bind fun n =>
        if n.nodeid = fuseRootId then some (f, .top s)
        else
          match n.name, n.parent with
          | some name, some parent =>
              if needLock then
                if n.treelock < 0 then some (f, .stuck .again p)
                else
                  climb needLock fuel (f.setNode p { n with treelock := n.treelock + 1 })
                    parent (47 :: name ++ s)
              else climb needLock fuel f parent (47 :: name ++ s)
          | _, _ => some (f, .stuck .noent p)

def unlockLoop : ℕ → Fuse → Option Ptr → Option Ptr → Option Fuse
  | 0, _, _, _ => none
  | fuel + 1, f, node, stop =>
      if node = stop then some f
      else
        node.bind fun p =>
          (f.heap p).bind fun n =>
            if n.nodeid = fuseRootId then some f
            else if n.treelock = 0 ∨ n.treelock = treelockWaitOffset ∨
                n.treelock = treelockWrite then none
            else
              unlockLoop fuel
                (f.setNode p
                  { n with treelock := LockWord.leave treelockWaitOffset n.treelock })
                n.parent stop

def unlockWnode (w : Ptr) : Option Fuse :=
  (f.heap w).bind fun n =>
    if n.treelock = treelockWrite then some (f.setNode w { n with treelock := 0 }) else none

/-- `stop` is the end of the walk, null for the whole path. -/
def unlockPath (nodeid : Ino) (wnode : Option Ptr) (stop : Option Ptr) : Option Fuse :=
  (match wnode with
    | none => some f
    | some w => unlockWnode f w).bind fun f =>
      (getNode f nodeid).bind fun p =>
        unlockLoop (f.nameTable.use + 2) f (some p) stop

def lockWnode (nodeid : Ino) (name : Name) : Option (Fuse × Except PathError (Option Ptr)) :=
  (lookupNode f nodeid name).bind fun found =>
    match found with
    | none => some (f, .ok none)
    | some w =>
        (f.heap w).map fun n =>
          if n.treelock ≠ 0 then
            (if 0 < n.treelock then
                f.setNode w { n with treelock := n.treelock + treelockWaitOffset }
              else f, .error .again)
          else (f.setNode w { n with treelock := treelockWrite }, .ok (some w))

/-- The rest of `try_get_path`, once the node with the name is locked. -/
def climbPath (t : Target) (wnode : Option Ptr) : Option (Fuse × Except PathError Held) :=
  (getNode f t.nodeid).bind fun p =>
    (climb true (f.nameTable.use + 1) f p t.suffix).bind fun (f, climbed) =>
      match climbed with
      | .top path => some (f, .ok ⟨t, shown path, wnode⟩)
      | .stuck err node =>
          (unlockPath f t.nodeid wnode (some node)).map fun f => (f, .error err)

/-- `try_get_path` with `need_lock`. -/
def tryGetPath (t : Target) : Option (Fuse × Except PathError Held) :=
  match t with
  | .change nodeid name =>
      (lockWnode f nodeid name).bind fun (f, locked) =>
        match locked with
        | .error err => some (f, .error err)
        | .ok wnode => climbPath f t wnode
  | _ => climbPath f t none

/-- `try_get_path` without `need_lock`: the path as it is now. -/
def pathNow (t : Target) : Option (Except PathError (List UInt8)) :=
  (getNode f t.nodeid).bind fun p =>
    (climb false (f.nameTable.use + 1) f p t.suffix).map fun (_, climbed) =>
      match climbed with
      | .top path => .ok (shown path)
      | .stuck err _ => .error err

/-! ## The queue -/

/-- A `lock_queue_element` of a request for one path or two. What `try_get_path` has
stored for a path stands for its flag `first_locked` or `second_locked`; `done` has the
result, `none` for no error. -/
structure PathElement where
  target1 : Target
  target2 : Option Target
  locked1 : Option Held
  locked2 : Option Held
  done : Option (Option PathError)
deriving DecidableEq

inductive LockQueueElement
  | path (element : PathElement)
  /-- A `forget` waits for the lock of its node. -/
  | forget (nodeid : Ino) (nlookup : ℕ)
deriving DecidableEq

def unlockHeld : Option Held → Option Fuse
  | none => some f
  | some held => unlockPath f held.target.nodeid held.wnode none

def queueElementUnlock (e : PathElement) : Option (Fuse × PathElement) :=
  (unlockHeld f e.locked1).bind fun f =>
    (unlockHeld f e.locked2).map fun f => (f, { e with locked1 := none, locked2 := none })

/-- One path of an element: what is locked stays, and an error other than `EAGAIN` is
reported. -/
def tryElement (t : Target) (locked : Option Held) :
    Option (Fuse × Option Held × Option PathError) :=
  match locked with
  | some held => some (f, some held, none)
  | none =>
      (tryGetPath f t).map fun (f, r) =>
        match r with
        | .ok held => (f, some held, none)
        | .error .again => (f, none, none)
        | .error .noent => (f, none, some .noent)

def trySecond (target : Option Target) (locked : Option Held) :
    Option (Fuse × Option Held × Option PathError) :=
  match target with
  | none => some (f, locked, none)
  | some t => tryElement f t locked

def failElement (e : PathElement) (err : PathError) : Option (Fuse × PathElement) :=
  (queueElementUnlock f e).map fun (f, e) => (f, { e with done := some (some err) })

/-- `first` says that the element is the first of the queue. -/
def queueElementWakeup (first : Bool) (e : PathElement) : Option (Fuse × PathElement) :=
  (tryElement f e.target1 e.locked1).bind fun (f, locked1, err1) =>
    let e := { e with locked1 := locked1 }
    match err1 with
    | some err => failElement f e err
    | none =>
        (trySecond f e.target2 e.locked2).bind fun (f, locked2, err2) =>
          let e := { e with locked2 := locked2 }
          match err2 with
          | some err => failElement f e err
          | none =>
              if e.locked1.isSome ∧ (e.locked2.isSome ∨ e.target2 = none) then
                some (f, { e with done := some none })
              else if first then some (f, e)
              else queueElementUnlock f e

/-- Along the queue, from its first element on. A waiting `forget` is only signalled. -/
def wakeUpFrom : Bool → Fuse → List LockQueueElement →
    Option (Fuse × List LockQueueElement)
  | _, f, [] => some (f, [])
  | first, f, .path e :: rest =>
      (queueElementWakeup f first e).bind fun (f, e) =>
        (wakeUpFrom false f rest).map fun (f, rest) => (f, .path e :: rest)
  | _, f, .forget nodeid nlookup :: rest =>
      (getNode f nodeid).bind fun _ =>
        (wakeUpFrom false f rest).map fun (f, rest) => (f, .forget nodeid nlookup :: rest)

/-- `try_get_path`, and `try_get_path2` if there is a second target. -/
def tryGetPaths (t1 : Target) (t2 : Option Target) :
    Option (Fuse × Except PathError (Held × Option Held)) :=
  (tryGetPath f t1).bind fun (f, r) =>
    match r with
    | .error err => some (f, .error err)
    | .ok held1 =>
        match t2 with
        | none => some (f, .ok (held1, none))
        | some t =>
            (tryGetPath f t).bind fun (f, r) =>
              match r with
              | .ok held2 => some (f, .ok (held1, some held2))
              | .error err =>
                  (unlockPath f t1.nodeid held1.wnode none).map fun f => (f, .error err)

/-! ## Requests side by side -/

/-- How far a request with its paths has come. A rename hides the node in its new place
first if that is open; otherwise a request changes names once. -/
inductive Stage
  | fresh
  | hidden
  | changed
deriving DecidableEq

structure Holder where
  first : Held
  second : Option Held
  stage : Stage
deriving DecidableEq

def Holder.get (h : Holder) (second : Bool) : Option Held :=
  if second then h.second else some h.first

/-- The nodes, the queue, and the requests that have their paths. `leaked` are the paths
of requests that went on with an error while one of them was locked; there are none in
any run. -/
structure Session where
  fuse : Fuse
  lockq : List LockQueueElement
  holders : List Holder
  leaked : List Held

/-- What a thread does while it has `f->lock`. Requests in the queue and those with
their paths are named by their places. -/
inductive Event
  /-- `get_path_common` and `get_path2` up to the wait -/
  | getPath (t1 : Target) (t2 : Option Target)
  /-- `wait_path` goes on -/
  | resume (k : ℕ)
  /-- `free_path`, `free_path_wrlock` and `free_path2` -/
  | freePath (k : ℕ)
  | forget (nodeid : Ino) (nlookup : ℕ)
  | resumeForget (k : ℕ)
  /-- `find_node` for a path of the request -/
  | findNode (k : ℕ) (second : Bool) (addr : Ptr)
  | removeNode (k : ℕ)
  /-- `hide_node` for a path of the request -/
  | hideNode (k : ℕ) (second : Bool) (newname : Name)
  | renameNode (k : ℕ)

namespace Session

variable (s : Session)

def getPath (t1 : Target) (t2 : Option Target) : Option Session :=
  (tryGetPaths s.fuse t1 t2).map fun (f, r) =>
    match r with
    | .ok (held1, held2) =>
        { s with fuse := f, holders := ⟨held1, held2, .fresh⟩ :: s.holders }
    | .error .again =>
        { s with fuse := f, lockq := s.lockq ++ [.path ⟨t1, t2, none, none, none⟩] }
    | .error .noent => { s with fuse := f }

/-- A thread that is woken up without a reason waits on. -/
def resume (k : ℕ) : Option Session :=
  match s.lockq[k]? with
  | some (.path e) =>
      match e.done with
      | none => some s
      | some none =>
          e.locked1.map fun held =>
            { s with
              lockq := s.lockq.eraseIdx k
              holders := ⟨held, e.locked2, .fresh⟩ :: s.holders }
      | some (some _) =>
          some { s with
            lockq := s.lockq.eraseIdx k
            leaked := e.locked1.toList ++ e.locked2.toList ++ s.leaked }
  | _ => some s

def freePath (k : ℕ) : Option Session :=
  match s.holders[k]? with
  | none => some s
  | some h =>
      (unlockHeld s.fuse (some h.first)).bind fun f =>
        (unlockHeld f h.second).bind fun f =>
          (wakeUpFrom true f s.lockq).map fun (f, lockq) =>
            { s with fuse := f, lockq := lockq, holders := s.holders.eraseIdx k }

def forget (nodeid : Ino) (nlookup : ℕ) : Option Session :=
  if nodeid = fuseRootId then some s
  else
    (getNode s.fuse nodeid).bind fun p =>
      if forgetWaits s.fuse p nlookup then
        some { s with lockq := s.lockq ++ [.forget nodeid nlookup] }
      else (forgetNode s.fuse nodeid nlookup).map fun f => { s with fuse := f }

def resumeForget (k : ℕ) : Option Session :=
  match s.lockq[k]? with
  | some (.forget nodeid nlookup) =>
      (getNode s.fuse nodeid).bind fun p =>
        if forgetWaits s.fuse p nlookup then some s
        else
          (forgetNode s.fuse nodeid nlookup).map fun f =>
            { s with fuse := f, lockq := s.lockq.eraseIdx k }
  | _ => some s

def targetOf (k : ℕ) (second : Bool) : Option Target :=
  (s.holders[k]?.bind fun h => h.get second).map Held.target

def findNode (k : ℕ) (second : Bool) (addr : Ptr) : Option Session :=
  match s.targetOf k second with
  | some (.node nodeid) =>
      (Libfuse.findNode s.fuse nodeid none addr).map fun (f, _) => { s with fuse := f }
  | some (.name nodeid name) =>
      (Libfuse.findNode s.fuse nodeid (some name) addr).map fun (f, _) =>
        { s with fuse := f }
  | _ => some s

def advance (k : ℕ) (stage : Stage) (f : Fuse) : Session :=
  { s with
    fuse := f
    holders := s.holders.modify k fun h => { h with stage := stage } }

def removeNode (k : ℕ) : Option Session :=
  match s.targetOf k false with
  | some (.change dir name) =>
      (Libfuse.removeNode s.fuse dir name).map (s.advance k .changed)
  | _ => some s

def hideNode (k : ℕ) (second : Bool) (newname : Name) : Option Session :=
  match s.targetOf k second with
  | some (.change dir name) =>
      (Libfuse.renameNode s.fuse dir name dir newname true).map fun (f, _) =>
        s.advance k (if second then .hidden else .changed) f
  | _ => some s

def renameNode (k : ℕ) : Option Session :=
  match s.targetOf k false, s.targetOf k true with
  | some (.change olddir oldname), some (.change newdir newname) =>
      (Libfuse.renameNode s.fuse olddir oldname newdir newname false).map fun (f, _) =>
        s.advance k .changed f
  | _, _ => some s

def step : Event → Option Session
  | .getPath t1 t2 => s.getPath t1 t2
  | .resume k => s.resume k
  | .freePath k => s.freePath k
  | .forget nodeid nlookup => s.forget nodeid nlookup
  | .resumeForget k => s.resumeForget k
  | .findNode k second addr => s.findNode k second addr
  | .removeNode k => s.removeNode k
  | .hideNode k second newname => s.hideNode k second newname
  | .renameNode k => s.renameNode k

end Session

end Mergerfs.Libfuse
