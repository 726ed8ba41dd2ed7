import Mergerfs.Fs.Movefile
import Mergerfs.Fuse.Call
import Mergerfs.Library.Along

/-!
# Writes that move the file

`FUSE::write` writes through the descriptor of a handle. When that fails for want
of space and `moveonenospc` is set, the file is moved to another branch by
`fs::movefile`, which exchanges the descriptor of this one handle, and the write is
tried again.

Several handles may be open on one path, each with its own descriptor. A run is a
list of writes through them; beside the files it keeps a log of what the writes
have reported to have written. The pool's file is the one the policy `ff` finds, the
first in the order of the branches.
-/

namespace Mergerfs

open Errno

/-! ## One write -/

def pwrite (v : Files) (fd off : ℕ) (buf : Content) (ans : Transfer) :
    Transfer × Files :=
  match v.file fd with
  | none => (.error EBADF, v)
  | some _ => match ans with
    | .error e => (.error e, v)
    | .ok k => (.ok (min k buf.length), v.write 0 fd off (buf.take k))

def writeRegular (rv : Transfer) (count : ℕ) : ℤ :=
  match rv with
  | .error e => e.neg
  | .ok k => if toInt k = 0 then 0 else toInt count

def writeDirectIo (rv : Transfer) (_count : ℕ) : ℤ :=
  match rv with
  | .error e => e.neg
  | .ok k => toInt k

def outOfSpace (error : ℤ) : Bool := error = ENOSPC.val || error = EDQUOT.val

/-- A write through a handle and what the calls it makes answer. The size of a
request is one of a FUSE message. -/
structure WriteCall (H : Type*) where
  handle : H
  buf : Content
  offset : ℕ
  directIo : Bool
  first : Transfer
  move : MoveAnswers
  /-- `fs::pwrite` after the move. -/
  second : Transfer
  buf_lt : buf.length < 2 ^ 31

namespace WriteCall

variable {H : Type*}

def func (c : WriteCall H) (rv : Transfer) : ℤ :=
  if c.directIo then writeDirectIo rv c.buf.length
  else writeRegular rv c.buf.length

end WriteCall

/-- The files and the descriptor in the `FileInfo` of each handle. -/
structure Handles (H : Type*) where
  files : Files
  fd : H → ℕ

section Write

variable {H : Type*} (m : Mounts) (cfg : Config) (fusepath : FusePath)

def WriteCall.movefile (c : WriteCall H) (v : Files) (fd : ℕ) :
    Option (ℤ × Files × ℕ) :=
  Mergerfs.movefile m (toPaths cfg.branches) fusepath
    (UInt64.ofNat c.buf.length) c.move v fd

variable [DecidableEq H]

/-- `FUSE::write`: the value returned, and the files and handles after it. -/
def write (s : Handles H) (c : WriteCall H) : Option (ℤ × Handles H) :=
  let r := pwrite s.files (s.fd c.handle) c.offset c.buf c.first
  let rv := c.func r.1
  if outOfSpace (-rv) ∧ cfg.moveonenospc then
    match c.movefile m cfg fusepath r.2 (s.fd c.handle) with
    | none => none
    | some (rv, v, fd) =>
        let fds := Function.update s.fd c.handle fd
        if rv = -1 then some (ENOSPC.neg, ⟨v, fds⟩)
        else
          let r := pwrite v fd c.offset c.buf c.second
          some (c.func r.1, ⟨r.2, fds⟩)
  else some (rv, ⟨r.2, s.fd⟩)

end Write

/-! ## A run of writes -/

abbrev Log := List (ℕ × Content)

def WriteCall.logged {H : Type*} (c : WriteCall H) (rv : ℤ) (log : Log) : Log :=
  if 0 < rv then (c.offset, c.buf.take rv.toNat) :: log else log

namespace WriteCall

variable {H : Type*}

theorem logged_error (c : WriteCall H) (e : Errno) (log : Log) :
    c.logged (c.func (.error e)) log = log := by
  have hneg : ¬ 0 < e.neg := by
    have := e.neg_lt_zero
    omega
  cases hd : c.directIo <;>
    simp [logged, func, hd, writeDirectIo, writeRegular, hneg]

theorem logged_zero (c : WriteCall H) (log : Log) :
    c.logged (c.func (.ok 0)) log = log := by
  have hzero : toInt 0 = 0 := rfl
  cases hd : c.directIo <;>
    simp [logged, func, hd, writeDirectIo, writeRegular, hzero]

/-- The number of bytes transferred is the one reported, unless a short transfer
is taken for a whole one. -/
theorem func_whole {c : WriteCall H} {k : ℕ} (hk : 0 < min k c.buf.length)
    (h : c.directIo = true ∨ c.buf.length ≤ k) :
    c.func (.ok (min k c.buf.length)) = (min k c.buf.length : ℕ) := by
  have hlt := c.buf_lt
  cases hd : c.directIo with
  | true =>
      have hn : toInt (min k c.buf.length) = (min k c.buf.length : ℕ) :=
        toInt_of_lt (by omega)
      simpa [func, hd, writeDirectIo] using hn
  | false =>
      have hle : c.buf.length ≤ k := by simpa [hd] using h
      have hne : c.buf.length ≠ 0 := by omega
      simp [func, hd, writeRegular, toInt_of_lt hlt, Nat.min_eq_right hle, hne]

theorem func_ok_nonneg {c : WriteCall H} {n : ℕ} (hn : n ≤ c.buf.length) :
    0 ≤ c.func (.ok n) := by
  have hlt := c.buf_lt
  have hn' : toInt n = n := toInt_of_lt (by omega)
  have hcount : toInt c.buf.length = c.buf.length := toInt_of_lt hlt
  unfold func writeDirectIo writeRegular
  dsimp only
  split_ifs <;> omega

theorem logged_whole {c : WriteCall H} {k : ℕ} (hk : 0 < min k c.buf.length)
    (h : c.directIo = true ∨ c.buf.length ≤ k) (log : Log) :
    c.logged (c.func (.ok (min k c.buf.length))) log =
      (c.offset, c.buf.take k) :: log := by
  rw [func_whole hk h, logged, if_pos (by omega), Int.toNat_natCast,
    ← List.take_eq_take_min]

end WriteCall

theorem outOfSpace_neg_iff (e : Errno) :
    outOfSpace (-e.neg) = true ↔ e = ENOSPC ∨ e = EDQUOT := by
  cases e with
  | mk val pos =>
      simp only [outOfSpace, Bool.or_eq_true, decide_eq_true_eq]
      simp only [Errno.neg, ENOSPC, EDQUOT, Errno.mk.injEq]
      omega

theorem pwrite_of_outOfSpace {H : Type*} {c : WriteCall H} {v : Files} {fd : ℕ}
    {ans : Transfer}
    (h : outOfSpace (-c.func (pwrite v fd c.offset c.buf ans).1) = true) :
    (ans = .error ENOSPC ∨ ans = .error EDQUOT) ∧
      (pwrite v fd c.offset c.buf ans).2 = v := by
  have herror : ∀ e : Errno, c.func (.error e) = e.neg := by
    intro e
    unfold WriteCall.func writeDirectIo writeRegular
    split_ifs <;> rfl
  cases hf : v.file fd with
  | none =>
      simp only [pwrite, hf, herror, outOfSpace_neg_iff] at h
      exact absurd h (by decide)
  | some f =>
      cases ans with
      | error e =>
          simp only [pwrite, hf, herror, outOfSpace_neg_iff] at h
          exact ⟨by simpa using h, by simp only [pwrite, hf]⟩
      | ok k =>
          have hnonneg := c.func_ok_nonneg (Nat.min_le_right k c.buf.length)
          simp only [pwrite, hf, outOfSpace, Bool.or_eq_true,
            decide_eq_true_eq] at h
          simp only [ENOSPC, EDQUOT] at h
          omega

section Step

variable {H : Type*} [DecidableEq H] (m : Mounts) (cfg : Config)
  (fusepath : FusePath)

def writeStep (x : Handles H × Log) (c : WriteCall H) :
    Option (Handles H × Log) :=
  (write m cfg fusepath x.1 c).map fun r => (r.2, c.logged r.1 x.2)

def writes (x : Handles H × Log) (calls : List (WriteCall H)) :
    Option (Handles H × Log) :=
  calls.foldlM (writeStep m cfg fusepath) x

end Step

section Run

variable {H : Type*} (m : Mounts) (cfg : Config) (fusepath : FusePath)

def found (v : Files) : Option ℕ :=
  (toPaths cfg.branches).findSome? fun b => v.entry (m.slot fusepath b)

theorem found_of_ff {env : Probe} {v : Files}
    (henv : ∀ b, (env.existsStat b fusepath.path).isSome =
      (v.entry (m.slot fusepath b)).isSome)
    {minfreespace : UInt64} {paths : List Path}
    (h : Policy.ff.func env .search cfg.branches fusepath.path minfreespace [] =
      (.ok (), paths)) :
    ∃ b, paths = [b] ∧
      found m cfg fusepath v = v.entry (m.slot fusepath b) ∧
      (v.entry (m.slot fusepath b)).isSome := by
  simp only [Policy.func, Policy.ffFunc, Policy.epffFunc, Policy.epffSearch,
    Policy.pushFirst] at h
  cases hfirst : Scan.first calcError (Policy.searchTest env fusepath.path) ENOENT
      cfg.branches with
  | error e =>
      rw [hfirst] at h
      cases h
  | ok b =>
      rw [hfirst] at h
      cases h
      refine ⟨b.path, rfl, ?_⟩
      rw [found, toPaths, List.findSome?_map]
      refine Scan.findSome?_of_first (fun b => ?_) hfirst
      rw [Function.comp_apply, ← henv b.path, Policy.searchTest]
      cases env.existsStat b.path fusepath.path <;> rfl

def poolFile (v : Files) : Option Content :=
  ((found m cfg fusepath v).bind v.inode).map Vfs.Inode.content

/-- The pool's file has at each offset what was last reported written there. -/
def Kept (v : Files) (log : Log) : Prop :=
  ∀ i b, Bytes.lastAt log i = some b →
    ∃ file, poolFile m cfg fusepath v = some file ∧ file[i]? = some b

/-! ### The condition on a write -/

/-- What is transferred is what is reported, and goes where it is reported to: a
descriptor with `O_APPEND` ignores the offset and writes at the end of the file. -/
def Whole (c : WriteCall H) (ans : Transfer) (append : Bool)
    (file : Option Content) : Prop :=
  ∀ k, ans = .ok k → 0 < min k c.buf.length →
    (c.directIo = true ∨ c.buf.length ≤ k) ∧
    (append = true → ∀ data, file = some data → c.offset = data.length)

/-- A move from `src` to `dst` takes the file found at the path to a place that is
not the one it removes, and no other branch holds the path before it. -/
structure Carries (ans : MoveAnswers) (v : Files) (src dst : Path) : Prop where
  source : v.entry (m.slot fusepath src) = found m cfg fusepath v
  apart : m.slot fusepath src ≠ m.slot fusepath dst ∨ ans.unlink.isOk = false
  first : ∀ b ∈ (toPaths cfg.branches).takeWhile
      (fun b => m.slot fusepath b ≠ m.slot fusepath dst),
    v.entry (m.slot fusepath b) = none ∨
      m.slot fusepath b = m.slot fusepath src ∧ ans.unlink.isOk = true

/-- A copy of the pool's file that does not fail is one of all of it and of nothing
else. -/
def Faithful (ans : CloneAnswers) (v : Files) : Prop :=
  ∀ file rv data, poolFile m cfg fusepath v = some file →
    clonefile ans file [] = some (rv, data) → rv ≠ -1 → data = file

def WriteCall.Refused (c : WriteCall H) : Prop :=
  cfg.moveonenospc = true ∧
    (c.first = .error ENOSPC ∨ c.first = .error EDQUOT)

/-- The condition on a write and the state before it: what is written through a
descriptor of another file than the one found at the path is lost, and so is what
was written before if a move does not carry it along. -/
structure Safe (x : Handles H × Log) (c : WriteCall H) : Prop where
  current : ∀ f k, x.1.files.file (x.1.fd c.handle) = some f →
    c.first = .ok k → 0 < min k c.buf.length →
    found m cfg fusepath x.1.files = some f.ino
  whole : ∀ f, x.1.files.file (x.1.fd c.handle) = some f →
    Whole c c.first f.append (poolFile m cfg fusepath x.1.files)
  carries : c.Refused cfg → c.move.rename.isOk = true → ∀ st src dst,
    fstat x.1.files (x.1.fd c.handle) c.move.fstat = some st →
    findonfs m (toPaths cfg.branches) fusepath c.move x.1.files
      (x.1.fd c.handle) = some src →
    mfs (toPaths cfg.branches)
      (UInt64.ofNat st.content.length + UInt64.ofNat c.buf.length)
      c.move.statvfsCache = some dst →
    Carries m cfg fusepath c.move x.1.files src dst
  whole_again : c.Refused cfg → Whole c c.second
    (getfl x.1.files (x.1.fd c.handle) c.move.getfl)
    (poolFile m cfg fusepath x.1.files)

variable {m cfg fusepath}

/-! ### A transfer -/

theorem Kept.replays {v : Files} {log : Log} (h : Kept m cfg fusepath v log)
    {file : Content} (hfile : poolFile m cfg fusepath v = some file) :
    Bytes.Replays file log := by
  intro i b hb
  obtain ⟨file', hfile', hi⟩ := h i b hb
  cases hfile.symm.trans hfile'
  exact hi

theorem Kept.of_poolFile {v v' : Files} {log : Log}
    (h : Kept m cfg fusepath v log)
    (heq : poolFile m cfg fusepath v' = poolFile m cfg fusepath v) :
    Kept m cfg fusepath v' log := by
  intro i b hb
  rw [heq]
  exact h i b hb

theorem poolFile_of_found {v : Files} {ino : ℕ} {node : Inode}
    (h : found m cfg fusepath v = some ino) (hnode : v.inode ino = some node) :
    poolFile m cfg fusepath v = some node.content := by
  simp [poolFile, h, hnode]

@[simp] theorem found_write {v : Files} {fd off : ℕ} {data : Content} :
    found m cfg fusepath (v.write 0 fd off data) = found m cfg fusepath v := by
  simp [found, Vfs.Files.write]

theorem poolFile_write {v : Files} {fd off : ℕ} {f : Vfs.OpenFile}
    {file data : Content} (hf : v.file fd = some f)
    (hfound : found m cfg fusepath v = some f.ino)
    (hfile : poolFile m cfg fusepath v = some file)
    (hoff : f.append = true → off = file.length) :
    poolFile m cfg fusepath (v.write 0 fd off data) =
      some (Bytes.writeAt 0 file off data) := by
  obtain ⟨node, hnode⟩ := Vfs.Files.exists_inode_of_file hf
  cases hfile.symm.trans (poolFile_of_found hfound hnode)
  have hplace : (if f.append then node.content.length else off) = off := by
    split_ifs with happend
    · exact (hoff happend).symm
    · rfl
  have hinode := Vfs.Files.inode_write 0 hf hnode off data
  rw [hplace] at hinode
  exact poolFile_of_found (found_write.trans hfound) hinode

theorem poolFile_write_nil {v : Files} {fd off : ℕ} :
    poolFile m cfg fusepath (v.write 0 fd off []) =
      poolFile m cfg fusepath v := by
  rw [poolFile, found_write, Vfs.Files.write,
    Vfs.Files.inode_modify_id _ fun _ _ => Bytes.writeAt_nil 0 _ _]
  rfl

/-- A transfer through a descriptor of the pool's file keeps the file in step with
the log. -/
theorem Kept.pwrite {v : Files} {log : Log} (h : Kept m cfg fusepath v log)
    {c : WriteCall H} {fd : ℕ} {ans : Transfer}
    (hcur : ∀ f k, v.file fd = some f → ans = .ok k → 0 < min k c.buf.length →
      found m cfg fusepath v = some f.ino)
    (hwhole : ∀ f, v.file fd = some f →
      Whole c ans f.append (poolFile m cfg fusepath v)) :
    Kept m cfg fusepath (pwrite v fd c.offset c.buf ans).2
      (c.logged (c.func (pwrite v fd c.offset c.buf ans).1) log) := by
  cases hf : v.file fd with
  | none =>
      simp only [Mergerfs.pwrite, hf, WriteCall.logged_error]
      exact h
  | some f =>
      cases ans with
      | error e =>
          simp only [Mergerfs.pwrite, hf, WriteCall.logged_error]
          exact h
      | ok k =>
          simp only [Mergerfs.pwrite, hf]
          by_cases hk : 0 < min k c.buf.length
          · obtain ⟨hfull, happend⟩ := hwhole f hf k rfl hk
            have hfound := hcur f k hf rfl hk
            obtain ⟨node, hnode⟩ := Vfs.Files.exists_inode_of_file hf
            have hold := poolFile_of_found hfound hnode
            have hnew : poolFile m cfg fusepath
                (v.write 0 fd c.offset (c.buf.take k)) =
                some (Bytes.writeAt 0 node.content c.offset (c.buf.take k)) :=
              poolFile_write hf hfound hold fun ha => happend ha _ hold
            intro i b hb
            rw [WriteCall.logged_whole hk hfull] at hb
            exact ⟨_, hnew, (h.replays hold).writeAt 0 _ _ i b hb⟩
          · -- nothing was transferred, and nothing is reported
            have hzero : min k c.buf.length = 0 := by omega
            have hnil : c.buf.take k = [] := by
              rw [List.take_eq_take_min, hzero, List.take_zero]
            rw [hzero, WriteCall.logged_zero, hnil]
            exact h.of_poolFile poolFile_write_nil

/-! ### A move -/

theorem exists_inode_of_found {v : Files} {ino : ℕ}
    (h : found m cfg fusepath v = some ino) : ∃ node, v.inode ino = some node := by
  obtain ⟨b, _, hb⟩ := List.exists_of_findSome?_eq_some h
  exact Vfs.Files.exists_inode_of_entry hb

theorem poolFile_of_unmoved {v v' : Files}
    (h : Unmoved (basename fusepath.path) v v') :
    poolFile m cfg fusepath v' = poolFile m cfg fusepath v := by
  have hfound : found m cfg fusepath v' = found m cfg fusepath v := by
    simp only [found]
    congr 1
    funext b
    exact h.entry _ rfl
  rw [poolFile, poolFile, hfound]
  cases hino : found m cfg fusepath v with
  | none => rfl
  | some ino =>
      obtain ⟨node, hnode⟩ := exists_inode_of_found hino
      have hsame := h.inode ino (by rw [hnode]; rfl)
      rw [Option.bind_some, Option.bind_some, hsame]

theorem found_of_moved {ans : MoveAnswers} {v v' : Files} {src dst : Path}
    {ino fd : ℕ} {append : Bool} {data : Content}
    (h : Moved (m.slot fusepath src) (m.slot fusepath dst) ans.unlink.isOk ino fd
      append data v v')
    (hcar : Carries m cfg fusepath ans v src dst)
    (hdst : dst ∈ toPaths cfg.branches) :
    found m cfg fusepath v' = some ino := by
  refine Scan.findSome?_of_takeWhile (p := fun b =>
    decide (m.slot fusepath b ≠ m.slot fusepath dst)) ?_ ?_
    ⟨dst, hdst, by simp⟩
  · intro b hb hne
    exact h.entry_eq_none (of_decide_eq_true hne) (hcar.first b hb)
  · intro b hb
    have heq : m.slot fusepath b = m.slot fusepath dst := by
      simpa using hb
    exact (h.entry_eq_iff _).mpr ⟨heq, hcar.apart⟩

theorem poolFile_of_moved {ans : MoveAnswers} {v v' : Files} {src dst : Path}
    {ino fd : ℕ} {append : Bool} {data : Content}
    (h : Moved (m.slot fusepath src) (m.slot fusepath dst) ans.unlink.isOk ino fd
      append data v v')
    (hcopied : Copied ans.clone (m.slot fusepath src) data v)
    (hfaithful : Faithful m cfg fusepath ans.clone v)
    (hcar : Carries m cfg fusepath ans v src dst)
    (hdst : dst ∈ toPaths cfg.branches) :
    poolFile m cfg fusepath v' = poolFile m cfg fusepath v := by
  obtain ⟨i, node, rv, hi, hnode, hclone, hrv⟩ := hcopied
  obtain ⟨node', hnode', hdata⟩ := h.inode
  have hold := poolFile_of_found (hcar.source.symm.trans hi) hnode
  rw [poolFile_of_found (found_of_moved h hcar hdst) hnode', hold, hdata,
    hfaithful _ _ _ hold hclone hrv]

/-! ### A run -/

/-- A move that fails changes nothing that counts, and one that succeeds leaves
the handle with a descriptor of the pool's file. -/
theorem poolFile_movefile {c : WriteCall H} {v v' : Files} {fd fd' : ℕ} {rv : ℤ}
    (hmove : c.movefile m cfg fusepath v fd = some (rv, v', fd'))
    (hfaithful : Faithful m cfg fusepath c.move.clone v)
    (hcar : c.move.rename.isOk = true → ∀ st src dst,
      fstat v fd c.move.fstat = some st →
      findonfs m (toPaths cfg.branches) fusepath c.move v fd = some src →
      mfs (toPaths cfg.branches)
        (UInt64.ofNat st.content.length + UInt64.ofNat c.buf.length)
        c.move.statvfsCache = some dst →
      Carries m cfg fusepath c.move v src dst) :
    poolFile m cfg fusepath v' = poolFile m cfg fusepath v ∧
      (rv ≠ -1 → ∃ f, v'.file fd' = some f ∧
        found m cfg fusepath v' = some f.ino ∧
        f.append = getfl v fd c.move.getfl) := by
  rcases movefile_cases hmove with ⟨hrv, _, hun⟩ |
    ⟨_, src, dst, ino, data, hroute, hcopied, hrename, hmoved⟩
  · exact ⟨poolFile_of_unmoved hun, fun hne => absurd hrv hne⟩
  · obtain ⟨st, hst, hsrc, hdst⟩ := route_eq_some hroute
    have hc := hcar hrename st src dst hst hsrc hdst
    have hmem := mem_of_mfs hdst
    exact ⟨poolFile_of_moved hmoved hcopied hfaithful hc hmem,
      fun _ => ⟨_, hmoved.file, found_of_moved hmoved hc hmem, rfl⟩⟩

variable [DecidableEq H]

theorem Kept.writeStep {x x' : Handles H × Log}
    (h : Kept m cfg fusepath x.1.files x.2) {c : WriteCall H}
    (hfaithful : Faithful m cfg fusepath c.move.clone x.1.files)
    (hsafe : Safe m cfg fusepath x c)
    (hstep : writeStep m cfg fusepath x c = some x') :
    Kept m cfg fusepath x'.1.files x'.2 := by
  obtain ⟨r, hr, rfl⟩ := Option.map_eq_some_iff.mp hstep
  unfold write at hr
  dsimp only at hr
  split_ifs at hr with hspace
  · -- the refused write has left the files as they were, and the move starts there
    obtain ⟨hrefused, hsame⟩ := pwrite_of_outOfSpace hspace.1
    have hmoves : c.Refused cfg := ⟨hspace.2, hrefused⟩
    rw [hsame] at hr
    split at hr
    · cases hr
    · rename_i rv v fd hmv
      obtain ⟨hpool, hnext⟩ := poolFile_movefile hmv hfaithful
        (hsafe.carries hmoves)
      have hkept := h.of_poolFile hpool
      split_ifs at hr with hrv
      · cases hr
        have hlog : c.logged ENOSPC.neg x.2 = x.2 := if_neg (by decide)
        rw [hlog]
        exact hkept
      · cases hr
        obtain ⟨f, hf, hfound, happend⟩ := hnext hrv
        refine hkept.pwrite ?_ ?_
        · intro f' k hf' _ _
          cases hf.symm.trans hf'
          exact hfound
        · intro f' hf'
          cases hf.symm.trans hf'
          rw [happend, hpool]
          exact hsafe.whole_again hmoves
  · cases hr
    exact h.pwrite hsafe.current hsafe.whole

/-- When every write of a run is safe and every copy is faithful, the pool's file
has at each offset the data of the last write that covered it and reported success,
whichever handle it went through. -/
theorem writes_kept (m : Mounts) (cfg : Config) (fusepath : FusePath)
    (s s' : Handles H) (log : Log) (calls : List (WriteCall H))
    (hfaithful : Along.alongM (writeStep m cfg fusepath)
      (fun x c => Faithful m cfg fusepath c.move.clone x.1.files) (s, []) calls)
    (hsafe : Along.alongM (writeStep m cfg fusepath) (Safe m cfg fusepath)
      (s, []) calls)
    (hrun : writes m cfg fusepath (s, []) calls = some (s', log)) :
    Kept m cfg fusepath s'.files log := by
  have hstart : Kept m cfg fusepath s.files [] := by
    intro i b hb
    cases hb
  exact Along.foldlM_of_alongM
    (I := fun x : Handles H × Log => Kept m cfg fusepath x.1.files x.2)
    (fun _ _ _ hx hc hstep => hx.writeStep hc.1 hc.2 hstep) hstart
    (hfaithful.and hsafe) hrun

end Run

/-! ## Two handles -/

def movingConfig : Config :=
  { Config.initial [⟨.RW, "/a".toList⟩, ⟨.RW, "/b".toList⟩] with
    moveonenospc := true }

def twoHandles : Handles Bool := ⟨oneFile, fun h => if h then 3 else 6⟩

def writeByte (handle : Bool) (offset : ℕ) (byte : UInt8) (first : Transfer) :
    WriteCall Bool where
  handle := handle
  buf := [byte]
  offset := offset
  directIo := false
  first := first
  move := moving 0 9
  second := .ok 1
  buf_lt := by simp

/-- A write that moves the file is kept. -/
theorem writes_kept_moved :
    (writes twoMounts movingConfig theFile (twoHandles, [])
      [writeByte true 0 7 (.error ENOSPC)]).map Prod.snd = some [(0, [7])] ∧
    ∀ s' log, writes twoMounts movingConfig theFile (twoHandles, [])
        [writeByte true 0 7 (.error ENOSPC)] = some (s', log) →
      Kept twoMounts movingConfig theFile s'.files log := by
  refine ⟨by decide, fun s' log hrun => writes_kept _ _ _ _ _ _ _ ?_ ?_ hrun⟩
  · refine ⟨?_, fun _ _ => trivial⟩
    intro file rv data hfile hclone _
    have hpool : poolFile twoMounts movingConfig theFile oneFile =
      some [1, 2] := by decide
    cases hpool.symm.trans hfile
    have hcopy : clonefile (copyingUpTo 2) [1, 2] [] = some (0, [1, 2]) := by
      decide
    cases hcopy.symm.trans hclone
    rfl
  · refine ⟨⟨?_, ?_, ?_, ?_⟩, fun _ _ => trivial⟩
    · intro f k _ hk
      cases hk
    · intro f _ k hk
      cases hk
    · intro _ _ st src dst hst hsrc hdst
      cases hst
      cases findonfs_full.symm.trans hsrc
      cases mfs_full.symm.trans hdst
      exact ⟨by decide, by decide, by decide⟩
    · intro _ k hk _
      cases hk
      exact ⟨.inr (by decide), fun happend => by cases happend⟩

/-- A move exchanges the descriptor of one handle; what is then written through
the other one goes to the file that was removed. -/
theorem writes_lost :
    (writes twoMounts movingConfig theFile (twoHandles, [])
      [writeByte true 0 7 (.error ENOSPC), writeByte false 1 8 (.ok 1)]).map
      (fun x => (x.2, poolFile twoMounts movingConfig theFile x.1.files)) =
    some ([(1, [8]), (0, [7])], some [7, 2]) := by
  decide

end Mergerfs
