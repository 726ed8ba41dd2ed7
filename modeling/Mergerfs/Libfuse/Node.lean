import Mergerfs.Library.LinearHash
import Mathlib.Logic.Function.Basic

/-!
# The nodes of libfuse

The kernel knows the files by node ids and asks for names relative to them; `fuse.c`
keeps a node for each id in use, which knows its parent and its name there. Two hash
tables find a node by its id and by its parent and name, and a node is freed when
nothing refers to it: no lookup of the kernel and no node that has it as its parent.

Nodes are at addresses, and may be missing there: reading a freed node, a failed
assertion, `abort` and an access outside of a table all give no result. What the
allocator answers is a list of answers that the functions draw from. The options
`remember` and `noforget`, which keep nodes after the last `forget`, are off
(`conf.remember` is 0). The counts `refctr` (an `int`) and `nlookup` (64 bits) are not bounded
here; `refctr` is at most one more than the number of nodes with a name, and runs over
only when there are `2 ^ 31` of them.
-/

namespace Mergerfs.Libfuse

open LinearHash (Table)

abbrev Ptr := ℕ

/-- `fuse_ino_t`. -/
abbrev Ino := ℕ

abbrev Name := List UInt8

def fuseRootId : Ino := 1

def fuseUnknownIno : Ino := 0xffffffff

def nodeTableMinSize : ℕ := 8192

structure Node where
  nodeid : Ino
  /-- How often `ctr` had wrapped around; the source keeps its last 32 bits. -/
  generation : ℕ
  refctr : ℕ
  parent : Option Ptr
  name : Option Name
  nlookup : ℕ
  isHidden : Bool
  treelock : ℤ
deriving DecidableEq

structure Fuse where
  heap : Ptr → Option Node
  nameTable : Table Ptr
  idTable : Table Ptr
  ctr : ℕ
  generation : ℕ
  /-- What the allocator answers next. -/
  memory : List Bool

namespace Fuse

variable (f : Fuse) (p : Ptr)

def setNode (n : Node) : Fuse := { f with heap := Function.update f.heap p (some n) }

def freeNode : Fuse := { f with heap := Function.update f.heap p none }

def drawn : Bool := f.memory.headD true

def draw : Fuse := { f with memory := f.memory.tail }

def parentOf : Option Ptr := (f.heap p).bind Node.parent

def nodeidOf : Option Ino := (f.heap p).map Node.nodeid

def nameOf : Option Name := (f.heap p).bind Node.name

end Fuse

/-! ## The tables -/

/-- The factor is `2654435761U`, and the product has 32 bits. -/
def idKey (ino : Ino) : ℕ := ino % 2 ^ 32 * 2654435761 % 2 ^ 32

def nameKey (parent : Ino) (name : Name) : ℕ :=
  name.foldl (fun hash c => (hash * 31 + c.toNat) % 2 ^ 64) parent

namespace Fuse

variable (f : Fuse)

def idKeyOf (p : Ptr) : ℕ := idKey ((f.nodeidOf p).getD 0)

def nameKeyOf (p : Ptr) : ℕ :=
  nameKey (((f.parentOf p).bind f.nodeidOf).getD 0) ((f.nameOf p).getD [])

end Fuse

def nodeTableInit : Table Ptr := .init nodeTableMinSize

variable (f : Fuse)

def getNodeNocheck (nodeid : Ino) : Option (Option Ptr) :=
  f.idTable.find (fun p => f.nodeidOf p = some nodeid) (idKey nodeid)

def getNode (nodeid : Ino) : Option Ptr := (getNodeNocheck f nodeid).join

def lookupNode (parent : Ino) (name : Name) : Option (Option Ptr) :=
  f.nameTable.find
    (fun p => (f.parentOf p).bind f.nodeidOf = some parent ∧ f.nameOf p = some name)
    (nameKey parent name)

def hashId (p : Ptr) : Option Fuse :=
  (f.idTable.insert f.idKeyOf p f.drawn).map fun t => { f.draw with idTable := t }

/-- Nothing happens if the node is not in the table. -/
def unhashId (p : Ptr) : Option Fuse :=
  (f.idTable.unchain f.idKeyOf p).bind fun found =>
    match found with
    | none => some f
    | some t => (t.settle nodeTableMinSize 8 f.drawn).map fun t =>
        { f.draw with idTable := t }

/-- Memory for a copy of the name is needed if it has 32 bytes or more; without it,
the node stays without a name (`false`). -/
def hashName (p : Ptr) (parentid : Ino) (name : Name) : Option (Fuse × Bool) :=
  (getNode f parentid).bind fun parent =>
    if 32 ≤ name.length ∧ ¬ f.drawn then
      (f.heap p).map fun n => (f.draw.setNode p { n with name := none }, false)
    else
      (f.heap parent).bind fun m =>
        let f := f.draw.setNode parent { m with refctr := m.refctr + 1 }
        (f.heap p).bind fun n =>
          let f := f.setNode p { n with name := some name, parent := some parent }
          (f.nameTable.insert f.nameKeyOf p f.drawn).map fun t =>
            ({ f.draw with nameTable := t }, true)

/-! ## References

`unref_node`, `delete_node` and `unhash_name` call each other along the parents; the
recursion is bounded by the number of nodes with a name. -/

/-- `unref` drops a reference to the parent. -/
def unhashName (unref : Fuse → Ptr → Option Fuse) (p : Ptr) : Option Fuse :=
  (f.heap p).bind fun n =>
    if n.name = none then some f
    else
      n.parent.bind fun parent =>
        (f.heap parent).bind fun _ =>
          (f.nameTable.unchain f.nameKeyOf p).join.bind fun t =>
            (unref { f with nameTable := t } parent).bind fun f =>
              (f.heap p).bind fun n =>
                let f := f.setNode p { n with name := none, parent := none }
                (f.nameTable.settle nodeTableMinSize 8 f.drawn).map fun t =>
                  { f.draw with nameTable := t }

def deleteNode (unref : Fuse → Ptr → Option Fuse) (p : Ptr) : Option Fuse :=
  (f.heap p).bind fun n =>
    if n.treelock ≠ 0 then none
    else
      (unhashName f unref p).bind fun f =>
        (unhashId f p).map fun f => f.freeNode p

def unrefLoop : ℕ → Fuse → Ptr → Option Fuse
  | 0, _, _ => none
  | fuel + 1, f, p =>
      (f.heap p).bind fun n =>
        if n.refctr = 0 then none
        else
          let f := f.setNode p { n with refctr := n.refctr - 1 }
          if n.refctr - 1 = 0 then deleteNode f (unrefLoop fuel) p else some f

def unrefNode (p : Ptr) : Option Fuse := unrefLoop (f.nameTable.use + 1) f p

/-! ## Finding, forgetting and renaming nodes -/

def incNlookup (p : Ptr) : Option Fuse :=
  (f.heap p).map fun n =>
    f.setNode p
      { n with
        refctr := if n.nlookup = 0 then n.refctr + 1 else n.refctr
        nlookup := n.nlookup + 1 }

def advanceCtr : Fuse :=
  let ctr := (f.ctr + 1) % 2 ^ 32
  { f with
    ctr := ctr
    generation := if ctr = 0 then f.generation + 1 else f.generation }

def nextIdLoop : ℕ → Fuse → Option Fuse
  | 0, _ => none
  | fuel + 1, f =>
      let f := advanceCtr f
      if f.ctr = 0 ∨ f.ctr = fuseUnknownIno then nextIdLoop fuel f
      else
        (getNodeNocheck f f.ctr).bind fun found =>
          if found = none then some f else nextIdLoop fuel f

/-- After `2 ^ 32` rounds all ids have been tried. -/
def nextId : Option Fuse := nextIdLoop (2 ^ 32) f

/-- The node that is not there yet, at the address `addr` the allocator gave. -/
def addNode (parent : Ino) (name : Name) (addr : Ptr) : Option (Fuse × Option Ptr) :=
  if ¬ f.drawn then some (f.draw, none)
  else
    (nextId f.draw).bind fun f =>
      let f := f.setNode addr
        { nodeid := f.ctr, generation := f.generation, refctr := 0, parent := none,
          name := none, nlookup := 0, isHidden := false, treelock := 0 }
      (hashName f addr parent name).bind fun (f, ok) =>
        if ok then
          (hashId f addr).bind fun f =>
            (incNlookup f addr).map fun f => (f, some addr)
        else some (f.freeNode addr, none)

/-- `none` is the answer when there is no memory. -/
def findNode (parent : Ino) (name : Option Name) (addr : Ptr) :
    Option (Fuse × Option Ptr) :=
  match name with
  | none => (getNode f parent).bind fun p => (incNlookup f p).map fun f => (f, some p)
  | some name =>
      (lookupNode f parent name).bind fun found =>
        match found with
        | some p => (incNlookup f p).map fun f => (f, some p)
        | none => addNode f parent name addr

/-- `forget_node` waits while the node is locked and would be freed. -/
def forgetWaits (p : Ptr) (nlookup : ℕ) : Bool :=
  (f.heap p).any fun n => n.nlookup = nlookup ∧ n.treelock ≠ 0

def forgetNode (nodeid : Ino) (nlookup : ℕ) : Option Fuse :=
  if nodeid = fuseRootId then some f
  else
    (getNode f nodeid).bind fun p =>
      (f.heap p).bind fun n =>
        if n.nlookup < nlookup then none
        else
          let f := f.setNode p { n with nlookup := n.nlookup - nlookup }
          if n.nlookup - nlookup = 0 then unrefNode f p else some f

def unlinkNode (p : Ptr) : Option Fuse := unhashName f unrefNode p

def removeNode (dir : Ino) (name : Name) : Option Fuse :=
  (lookupNode f dir name).bind fun found =>
    match found with
    | none => some f
    | some p => unlinkNode f p

inductive RenameResult
  | ok
  | busy
  | nomem
deriving DecidableEq

/-- The node gets its new parent and name, and is marked when it is hidden. -/
def relink (p : Ptr) (newdir : Ino) (newname : Name) (hide : Bool) :
    Option (Fuse × RenameResult) :=
  (unlinkNode f p).bind fun f =>
    (hashName f p newdir newname).bind fun (f, ok) =>
      if ok then
        (f.heap p).map fun n =>
          (if hide then f.setNode p { n with isHidden := true } else f, .ok)
      else some (f, .nomem)

def renameNode (olddir : Ino) (oldname : Name) (newdir : Ino) (newname : Name)
    (hide : Bool) : Option (Fuse × RenameResult) :=
  (lookupNode f olddir oldname).bind fun node =>
    (lookupNode f newdir newname).bind fun newnode =>
      match node with
      | none => some (f, .ok)
      | some p =>
          match newnode with
          | none => relink f p newdir newname hide
          | some q =>
              if hide then some (f, .busy)
              else (unlinkNode f q).bind fun f => relink f p newdir newname hide

/-- What `fuse_new` leaves: the root, at the address `r`. -/
def fuseNew (r : Ptr) (memory : List Bool) : Option Fuse :=
  let f : Fuse :=
    { heap := fun _ => none, nameTable := nodeTableInit, idTable := nodeTableInit,
      ctr := 0, generation := 0, memory := memory }
  let f := f.setNode r
    { nodeid := fuseRootId, generation := 0, refctr := 0, parent := none,
      name := some [47], nlookup := 0, isHidden := false, treelock := 0 }
  (incNlookup f r).bind fun f => hashId f r

end Mergerfs.Libfuse
