import Mathlib.Algebra.BigOperators.Group.List.Basic
import Mathlib.Data.UInt
import Mergerfs.Fuse.Control
import Mergerfs.Library.Records

/-!
# The statistics of the pool

`FUSE::statfs` asks every branch for its `struct statvfs`, keeps one record for each
device, brings the records to the smallest block size met and adds them up. A branch
may be told to count without its available space, by `statfs_ignore`.

The map of the records is filled by `std::map::insert`, which keeps the first record of
a device. `statfs_eq` gives the outcome in terms of the answers: the records are those
of the first branch of each device, in the order of the devices.
-/

namespace Mergerfs

structure Statvfs extends StatVFS where
  f_bsize : UInt64
  f_bfree : UInt64
  f_files : UInt64
  f_ffree : UInt64
  f_favail : UInt64
  f_fsid : UInt64
  f_namemax : UInt64
deriving DecidableEq

structure StatfsEnv where
  lstat : Path → Option Stat
  lstatvfs : Path → Option Statvfs

def ULONG_MAX : UInt64 := 18446744073709551615

/-! ## One record -/

def normalizeStatvfs (minBsize minFrsize minNamemax : UInt64) (fsstat : Statvfs) :
    Statvfs :=
  { fsstat with
    f_blocks := (fsstat.f_blocks * fsstat.f_frsize) / minFrsize
    f_bfree := (fsstat.f_bfree * fsstat.f_frsize) / minFrsize
    f_bavail := (fsstat.f_bavail * fsstat.f_frsize) / minFrsize
    f_bsize := minBsize
    f_frsize := minFrsize
    f_namemax := minNamemax }

def mergeStatvfs (out fsstat : Statvfs) : Statvfs :=
  { out with
    f_blocks := out.f_blocks + fsstat.f_blocks
    f_bfree := out.f_bfree + fsstat.f_bfree
    f_bavail := out.f_bavail + fsstat.f_bavail
    f_files := out.f_files + fsstat.f_files
    f_ffree := out.f_ffree + fsstat.f_ffree
    f_favail := out.f_favail + fsstat.f_favail }

def shouldIgnore (ignore : StatFSIgnore) (branch : Branch) (readonly : Bool) : Bool :=
  ((ignore == .RO || readonly) && branch.roOrNc) || (ignore == .NC && branch.nc)

def lower (min value : UInt64) : UInt64 :=
  if value ≠ 0 ∧ min > value then value else min

/-! ## The loop -/

structure StatfsLoop where
  minBsize : UInt64
  minFrsize : UInt64
  minNamemax : UInt64
  fsstats : Records ℕ Statvfs

section Statfs

variable (env : StatfsEnv) (fusepath : Path) (mode : StatFS) (ignore : StatFSIgnore)

def fullpath (b : Branch) : Path :=
  if mode = .FULL then make b.path fusepath else b.path

def StatfsLoop.step (s : StatfsLoop) (b : Branch) : StatfsLoop :=
  match env.lstat (fullpath fusepath mode b) with
  | none => s
  | some st =>
      match env.lstatvfs (fullpath fusepath mode b) with
      | none => s
      | some stvfs =>
          let kept := if shouldIgnore ignore b stvfs.readonly then
              { stvfs with f_bavail := 0, f_favail := 0 }
            else stvfs
          { minBsize := lower s.minBsize stvfs.f_bsize
            minFrsize := lower s.minFrsize stvfs.f_frsize
            minNamemax := lower s.minNamemax stvfs.f_namemax
            fsstats := s.fsstats.insert st.st_dev kept }

/-- The sum of the records the loop has left. Without any the caller's struct is not
touched. -/
def StatfsLoop.sum (s : StatfsLoop) (fsstat : Statvfs) : Statvfs :=
  let normalize := normalizeStatvfs s.minBsize s.minFrsize s.minNamemax
  match s.fsstats.toList with
  | [] => fsstat
  | r :: rs => rs.foldl (fun out x => mergeStatvfs out (normalize x.2)) (normalize r.2)

/-- `l::statfs`: the value returned and the struct after it. -/
def statfs (branches : Branches) (fsstat : Statvfs) : ℤ × Statvfs :=
  (0, StatfsLoop.sum
    (branches.foldl (StatfsLoop.step env fusepath mode ignore)
      ⟨ULONG_MAX, ULONG_MAX, ULONG_MAX, Records.empty⟩) fsstat)

end Statfs

/-! ## What was seen -/

structure Seen where
  branch : Branch
  dev : ℕ
  stvfs : Statvfs
deriving DecidableEq

namespace Seen

variable (ignore : StatFSIgnore) (x : Seen)

def ignored : Bool := shouldIgnore ignore x.branch x.stvfs.readonly

def kept : Statvfs :=
  if x.ignored ignore then { x.stvfs with f_bavail := 0, f_favail := 0 } else x.stvfs

def rescaled (minFrsize : UInt64) : UInt64 :=
  (x.stvfs.f_bavail * x.stvfs.f_frsize) / minFrsize

@[simp] theorem kept_f_blocks : (x.kept ignore).f_blocks = x.stvfs.f_blocks := by
  unfold kept
  split_ifs <;> rfl

@[simp] theorem kept_f_bfree : (x.kept ignore).f_bfree = x.stvfs.f_bfree := by
  unfold kept
  split_ifs <;> rfl

@[simp] theorem kept_f_frsize : (x.kept ignore).f_frsize = x.stvfs.f_frsize := by
  unfold kept
  split_ifs <;> rfl

theorem kept_f_bavail :
    (x.kept ignore).f_bavail = if x.ignored ignore then 0 else x.stvfs.f_bavail := by
  unfold kept
  split_ifs <;> rfl

theorem kept_f_favail :
    (x.kept ignore).f_favail = if x.ignored ignore then 0 else x.stvfs.f_favail := by
  unfold kept
  split_ifs <;> rfl

end Seen

/-- The branch with its answers, if `lstat` and `lstatvfs` both answer. -/
def see (env : StatfsEnv) (fusepath : Path) (mode : StatFS) (b : Branch) :
    Option Seen :=
  (env.lstat (fullpath fusepath mode b)).bind fun st =>
    (env.lstatvfs (fullpath fusepath mode b)).map fun stvfs => ⟨b, st.st_dev, stvfs⟩

def seen (env : StatfsEnv) (fusepath : Path) (mode : StatFS) (branches : Branches) :
    List Seen :=
  branches.filterMap (see env fusepath mode)

def minimum (f : Statvfs → UInt64) (l : List Seen) : UInt64 :=
  (l.map fun x => f x.stvfs).foldl lower ULONG_MAX

def devices (l : List Seen) : Records ℕ Seen :=
  Records.ofList (l.map fun x => (x.dev, x))

def Seen.normalized (ignore : StatFSIgnore) (l : List Seen) (x : Seen) : Statvfs :=
  normalizeStatvfs (minimum (·.f_bsize) l) (minimum (·.f_frsize) l)
    (minimum (·.f_namemax) l) (x.kept ignore)

def mergeAll (fsstat : Statvfs) : List Statvfs → Statvfs
  | [] => fsstat
  | r :: rs => rs.foldl mergeStatvfs r

theorem StatfsLoop.sum_eq (s : StatfsLoop) (fsstat : Statvfs) :
    s.sum fsstat = mergeAll fsstat (s.fsstats.toList.map fun x =>
      normalizeStatvfs s.minBsize s.minFrsize s.minNamemax x.2) := by
  unfold StatfsLoop.sum
  cases s.fsstats.toList with
  | nil => rfl
  | cons r rs =>
      dsimp only
      rw [List.map_cons, mergeAll, List.foldl_map]

section Equation

variable (env : StatfsEnv) (fusepath : Path) (mode : StatFS) (ignore : StatFSIgnore)

/-- A round does something for a branch that answers, and nothing for another. -/
theorem StatfsLoop.step_eq (s : StatfsLoop) (b : Branch) :
    StatfsLoop.step env fusepath mode ignore s b =
      match see env fusepath mode b with
      | some x =>
          { minBsize := lower s.minBsize x.stvfs.f_bsize
            minFrsize := lower s.minFrsize x.stvfs.f_frsize
            minNamemax := lower s.minNamemax x.stvfs.f_namemax
            fsstats := s.fsstats.insert x.dev (x.kept ignore) }
      | none => s := by
  unfold StatfsLoop.step see
  cases env.lstat (fullpath fusepath mode b) with
  | none => rfl
  | some st =>
      cases env.lstatvfs (fullpath fusepath mode b) with
      | none => rfl
      | some stvfs => rfl

theorem StatfsLoop.foldl_step (s : StatfsLoop) (branches : Branches) :
    branches.foldl (StatfsLoop.step env fusepath mode ignore) s =
      { minBsize := ((seen env fusepath mode branches).map
          (·.stvfs.f_bsize)).foldl lower s.minBsize
        minFrsize := ((seen env fusepath mode branches).map
          (·.stvfs.f_frsize)).foldl lower s.minFrsize
        minNamemax := ((seen env fusepath mode branches).map
          (·.stvfs.f_namemax)).foldl lower s.minNamemax
        fsstats := s.fsstats.insertAll ((seen env fusepath mode branches).map
          fun x => (x.dev, x.kept ignore)) } := by
  induction branches generalizing s with
  | nil => rfl
  | cons b bs ih =>
      rw [List.foldl_cons, ih, StatfsLoop.step_eq]
      cases hb : see env fusepath mode b with
      | none => simp [seen, hb]
      | some x => simp [seen, hb, Records.insertAll]

/-- The outcome in terms of the branches that answer. -/
theorem statfs_eq (branches : Branches) (fsstat : Statvfs) :
    statfs env fusepath mode ignore branches fsstat =
      (0, mergeAll fsstat ((devices (seen env fusepath mode branches)).toList.map
        fun x => x.2.normalized ignore (seen env fusepath mode branches))) := by
  have hrecords : Records.empty.insertAll ((seen env fusepath mode branches).map
      fun x => (x.dev, x.kept ignore)) =
        (devices (seen env fusepath mode branches)).map (Seen.kept ignore) := by
    rw [devices, Records.map_ofList, List.map_map]
    rfl
  rw [statfs, StatfsLoop.foldl_step, StatfsLoop.sum_eq, hrecords, Records.map,
    List.map_map]
  rfl

end Equation

/-! ## The fields of a sum -/

theorem mergeAll_count {f : Statvfs → UInt64}
    (hf : ∀ a b, f (mergeStatvfs a b) = f a + f b) {l : List Statvfs} (hl : l ≠ [])
    (fsstat : Statvfs) : f (mergeAll fsstat l) = (l.map f).sum := by
  have hfold : ∀ (rs : List Statvfs) (r : Statvfs),
      f (rs.foldl mergeStatvfs r) = f r + (rs.map f).sum := by
    intro rs
    induction rs with
    | nil => simp
    | cons r' rs ih =>
        intro r
        rw [List.foldl_cons, ih, hf, List.map_cons, List.sum_cons, add_assoc]
  cases l with
  | nil => exact absurd rfl hl
  | cons r rs => rw [mergeAll, hfold, List.map_cons, List.sum_cons]

theorem mergeAll_first {β : Type*} {f : Statvfs → β}
    (hf : ∀ a b, f (mergeStatvfs a b) = f a) (r : Statvfs) (rs : List Statvfs)
    (fsstat : Statvfs) : f (mergeAll fsstat (r :: rs)) = f r := by
  rw [mergeAll]
  induction rs generalizing r with
  | nil => rfl
  | cons r' rs ih => rw [List.foldl_cons, ih, hf]

theorem Seen.normalized_f_bavail (ignore : StatFSIgnore) (l : List Seen) (x : Seen) :
    (x.normalized ignore l).f_bavail =
      if x.ignored ignore then 0 else x.rescaled (minimum (·.f_frsize) l) := by
  simp only [normalized, normalizeStatvfs, kept_f_bavail, kept_f_frsize, rescaled]
  split_ifs
  · rw [UInt64.zero_mul, UInt64.zero_div]
  · rfl

theorem Seen.normalized_f_favail (ignore : StatFSIgnore) (l : List Seen) (x : Seen) :
    (x.normalized ignore l).f_favail =
      if x.ignored ignore then 0 else x.stvfs.f_favail :=
  x.kept_f_favail ignore

theorem devices_ne_nil {l : List Seen} (hne : l ≠ []) : (devices l).toList ≠ [] := by
  intro h
  exact hne (by simpa using Records.ofList_eq_nil_iff.mp h)

theorem statfs_first {β : Type*} {f : Statvfs → β}
    (hf : ∀ a b, f (mergeStatvfs a b) = f a) (env : StatfsEnv) (fusepath : Path)
    (mode : StatFS) (ignore : StatFSIgnore) {branches : Branches}
    (hne : seen env fusepath mode branches ≠ []) (fsstat : Statvfs) :
    ∃ x : Seen, f (statfs env fusepath mode ignore branches fsstat).2 =
      f (x.normalized ignore (seen env fusepath mode branches)) := by
  obtain ⟨x, xs, hx⟩ := List.exists_cons_of_ne_nil (devices_ne_nil hne)
  refine ⟨x.2, ?_⟩
  rw [statfs_eq, hx, List.map_cons]
  exact mergeAll_first hf _ _ fsstat

/-- A field of the outcome that is added up, as a sum over the devices. -/
theorem statfs_count {f : Statvfs → UInt64}
    (hf : ∀ a b, f (mergeStatvfs a b) = f a + f b) (env : StatfsEnv) (fusepath : Path)
    (mode : StatFS) (ignore : StatFSIgnore) {branches : Branches}
    (hne : seen env fusepath mode branches ≠ []) (fsstat : Statvfs) :
    f (statfs env fusepath mode ignore branches fsstat).2 =
      ((devices (seen env fusepath mode branches)).toList.map fun x =>
        f (x.2.normalized ignore (seen env fusepath mode branches))).sum := by
  rw [statfs_eq, mergeAll_count hf (by simpa using devices_ne_nil hne), List.map_map]
  rfl

end Mergerfs
