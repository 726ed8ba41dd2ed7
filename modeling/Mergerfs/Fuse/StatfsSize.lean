import Mathlib.Algebra.Order.BigOperators.Group.List
import Mathlib.Algebra.Order.Group.Nat
import Mathlib.Order.Bounds.Defs
import Mergerfs.Fuse.Statfs

/-!
# The size of the pool

The block counts of the devices are brought to a common block size by a multiplication
and a truncating division, all in 64 bits. As long as the bytes of all devices can be
counted in 64 bits nothing wraps, and a device loses less than one block of the pool:
`statfs_size`.
-/

namespace Mergerfs

/-! ## Sums -/

theorem toNat_sum {l : List UInt64} (h : (l.map UInt64.toNat).sum < 2 ^ 64) :
    l.sum.toNat = (l.map UInt64.toNat).sum := by
  induction l with
  | nil => rfl
  | cons x l ih =>
      rw [List.map_cons, List.sum_cons] at h
      have hl := ih (by omega)
      rw [List.sum_cons, List.map_cons, List.sum_cons, UInt64.toNat_add, hl,
        Nat.mod_eq_of_lt h]

theorem sum_div_mul_le (d : ℕ) (l : List ℕ) : (l.map (· / d)).sum * d ≤ l.sum := by
  induction l with
  | nil => simp
  | cons b l ih =>
      rw [List.map_cons, List.sum_cons, List.sum_cons, Nat.add_mul]
      exact Nat.add_le_add (Nat.div_mul_le_self b d) ih

theorem sum_add_length_le {d : ℕ} (hd : 0 < d) (l : List ℕ) :
    l.sum + l.length ≤ (l.map (· / d)).sum * d + l.length * d := by
  induction l with
  | nil => simp
  | cons b l ih =>
      rw [List.map_cons, List.sum_cons, List.sum_cons, List.length_cons, Nat.add_mul,
        Nat.add_mul]
      have hb := Nat.lt_div_mul_add (a := b) hd
      omega

/-! ## Minima -/

/-- The least of the values that are not zero, and the start of the minimum if there
is none. -/
def IsLeastNonzero (l : List UInt64) (m : UInt64) : Prop :=
  IsLeast {x | x ∈ l ∧ x ≠ 0} m ∨ ((∀ x ∈ l, x = 0) ∧ m = ULONG_MAX)

theorem le_ULONG_MAX (x : UInt64) : x ≤ ULONG_MAX := by
  rw [UInt64.le_iff_toNat_le]
  have := x.toNat_lt
  have hmax : ULONG_MAX.toNat = 2 ^ 64 - 1 := rfl
  omega

theorem foldl_lower (m : UInt64) (l : List UInt64) :
    (l.foldl lower m = m ∨ (l.foldl lower m ∈ l ∧ l.foldl lower m ≠ 0)) ∧
      l.foldl lower m ≤ m ∧ ∀ x ∈ l, x ≠ 0 → l.foldl lower m ≤ x := by
  induction l generalizing m with
  | nil => simp
  | cons x l ih =>
      obtain ⟨hval, hle, hall⟩ := ih (lower m x)
      rw [List.foldl_cons, List.forall_mem_cons]
      generalize l.foldl lower (lower m x) = r at hval hle hall
      unfold lower at hval hle
      split_ifs at hval hle with h
      · grind
      · grind

theorem isLeastNonzero_minimum (f : Statvfs → UInt64) (l : List Seen) :
    IsLeastNonzero (l.map fun x => f x.stvfs) (minimum f l) := by
  obtain ⟨hval, -, hall⟩ := foldl_lower ULONG_MAX (l.map fun x => f x.stvfs)
  rw [← minimum] at hval hall
  by_cases hzero : ∀ x ∈ l.map fun x => f x.stvfs, x = 0
  · right
    refine ⟨hzero, ?_⟩
    rcases hval with hval | ⟨hmem, hne⟩
    · exact hval
    · exact absurd (hzero _ hmem) hne
  · left
    refine ⟨?_, fun x hx => hall x hx.1 hx.2⟩
    rcases hval with hval | hval
    · -- a value that is not zero is the largest there is
      simp only [not_forall] at hzero
      obtain ⟨x, hx, hne⟩ := hzero
      have hxm : x = minimum f l :=
        UInt64.le_antisymm (hval ▸ le_ULONG_MAX x) (hall x hx hne)
      exact ⟨hxm ▸ hx, hxm ▸ hne⟩
    · exact hval

/-- The sizes are never divided by zero. -/
theorem minimum_ne_zero (f : Statvfs → UInt64) (l : List Seen) : minimum f l ≠ 0 := by
  rcases isLeastNonzero_minimum f l with h | ⟨-, h⟩
  · exact h.1.2
  · rw [h]
    decide

/-! ## Block counts -/

inductive BlockCount
  | blocks
  | bfree
  | bavail
deriving DecidableEq

namespace BlockCount

variable (c : BlockCount)

def of : BlockCount → Statvfs → UInt64
  | blocks, st => st.f_blocks
  | bfree, st => st.f_bfree
  | bavail, st => st.f_bavail

def bytes (st : Statvfs) : ℕ := (c.of st).toNat * st.f_frsize.toNat

def total (l : List Seen) : ℕ :=
  ((devices l).toList.map fun x => c.bytes x.2.stvfs).sum

theorem of_mergeStatvfs (a b : Statvfs) :
    c.of (mergeStatvfs a b) = c.of a + c.of b := by
  cases c <;> rfl

theorem of_normalized (ignore : StatFSIgnore) (l : List Seen) (x : Seen) :
    c.of (x.normalized ignore l) =
      c.of (x.kept ignore) * (x.kept ignore).f_frsize / minimum (·.f_frsize) l := by
  cases c <;> rfl

theorem bytes_kept_of_ne (hc : c ≠ bavail) (ignore : StatFSIgnore) (x : Seen) :
    c.bytes (x.kept ignore) = c.bytes x.stvfs := by
  cases c with
  | blocks | bfree => simp [bytes, of]
  | bavail => exact absurd rfl hc

theorem bytes_kept_le (ignore : StatFSIgnore) (x : Seen) :
    c.bytes (x.kept ignore) ≤ c.bytes x.stvfs := by
  by_cases hc : c = bavail
  · subst hc
    simp only [bytes, of, Seen.kept_f_bavail, Seen.kept_f_frsize]
    split_ifs
    · simp
    · exact le_rfl
  · exact (c.bytes_kept_of_ne hc ignore x).le

theorem toNat_of_normalized {ignore : StatFSIgnore} {l : List Seen} {x : Seen}
    (h : c.bytes (x.kept ignore) < 2 ^ 64) :
    (c.of (x.normalized ignore l)).toNat =
      c.bytes (x.kept ignore) / (minimum (·.f_frsize) l).toNat := by
  rw [bytes] at h ⊢
  rw [of_normalized, UInt64.toNat_div, UInt64.toNat_mul, Nat.mod_eq_of_lt h]

theorem total_kept_le (ignore : StatFSIgnore) (l : List Seen) :
    ((devices l).toList.map fun x => c.bytes (x.2.kept ignore)).sum ≤ c.total l :=
  List.sum_le_sum fun x _ => c.bytes_kept_le ignore x.2

theorem total_kept_of_ne (hc : c ≠ bavail) (ignore : StatFSIgnore) (l : List Seen) :
    ((devices l).toList.map fun x => c.bytes (x.2.kept ignore)).sum = c.total l := by
  simp only [c.bytes_kept_of_ne hc ignore, total]

end BlockCount

section Size

variable (env : StatfsEnv) (fusepath : Path) (mode : StatFS) (ignore : StatFSIgnore)
  {branches : Branches} (fsstat : Statvfs)

theorem bytes_kept_lt {c : BlockCount} {l : List Seen} (h : c.total l < 2 ^ 64)
    {x : ℕ × Seen} (hx : x ∈ (devices l).toList) :
    c.bytes (x.2.kept ignore) < 2 ^ 64 := by
  have hle : c.bytes (x.2.kept ignore) ≤
      ((devices l).toList.map fun x => c.bytes (x.2.kept ignore)).sum :=
    List.single_le_sum (by simp) _ (List.mem_map_of_mem hx)
  exact lt_of_le_of_lt (hle.trans (c.total_kept_le ignore l)) h

/-- Nor do the sums: a count reported is the sum of the quotients. -/
theorem toNat_statfs_count {c : BlockCount} (hne : seen env fusepath mode branches ≠ [])
    (h : c.total (seen env fusepath mode branches) < 2 ^ 64) :
    (c.of (statfs env fusepath mode ignore branches fsstat).2).toNat =
      ((devices (seen env fusepath mode branches)).toList.map fun x =>
        c.bytes (x.2.kept ignore) /
          (minimum (·.f_frsize) (seen env fusepath mode branches)).toNat).sum := by
  set l := seen env fusepath mode branches with hl
  have hterms : ((devices l).toList.map fun x => (c.of (x.2.normalized ignore l)).toNat) =
      (devices l).toList.map fun x =>
        c.bytes (x.2.kept ignore) / (minimum (·.f_frsize) l).toNat := by
    apply List.map_congr_left
    intro x hx
    exact c.toNat_of_normalized (bytes_kept_lt ignore h hx)
  have hbound : ((devices l).toList.map fun x =>
      c.bytes (x.2.kept ignore) / (minimum (·.f_frsize) l).toNat).sum < 2 ^ 64 :=
    calc _ ≤ ((devices l).toList.map fun x => c.bytes (x.2.kept ignore)).sum :=
          List.sum_le_sum fun x _ => Nat.div_le_self _ _
      _ ≤ c.total l := c.total_kept_le ignore l
      _ < 2 ^ 64 := h
  rw [statfs_count c.of_mergeStatvfs env fusepath mode ignore hne, ← hl, toNat_sum,
    List.map_map]
  · exact congrArg List.sum hterms
  · rw [List.map_map]
    exact lt_of_eq_of_lt (congrArg List.sum hterms) hbound

theorem statfs_sizes (hne : seen env fusepath mode branches ≠ []) :
    (statfs env fusepath mode ignore branches fsstat).2.f_bsize =
        minimum (·.f_bsize) (seen env fusepath mode branches) ∧
      (statfs env fusepath mode ignore branches fsstat).2.f_frsize =
        minimum (·.f_frsize) (seen env fusepath mode branches) ∧
      (statfs env fusepath mode ignore branches fsstat).2.f_namemax =
        minimum (·.f_namemax) (seen env fusepath mode branches) := by
  obtain ⟨x, hx⟩ := statfs_first (f := fun st => (st.f_bsize, st.f_frsize, st.f_namemax))
    (fun _ _ => rfl) env fusepath mode ignore hne fsstat
  simp only [Prod.mk.injEq] at hx
  exact hx

/-- The rounding of each device loses less than one block of the pool. -/
theorem statfs_bytes {c : BlockCount} (hne : seen env fusepath mode branches ≠ [])
    (h : c.total (seen env fusepath mode branches) < 2 ^ 64) (hc : c ≠ .bavail) :
    c.bytes (statfs env fusepath mode ignore branches fsstat).2 ≤
        c.total (seen env fusepath mode branches) ∧
      c.total (seen env fusepath mode branches) <
        c.bytes (statfs env fusepath mode ignore branches fsstat).2 +
          (devices (seen env fusepath mode branches)).toList.length *
            (statfs env fusepath mode ignore branches fsstat).2.f_frsize.toNat := by
  obtain ⟨-, hfrsize, -⟩ := statfs_sizes env fusepath mode ignore fsstat hne
  rw [BlockCount.bytes, toNat_statfs_count env fusepath mode ignore fsstat hne h, hfrsize,
    ← c.total_kept_of_ne hc ignore]
  set l := seen env fusepath mode branches
  have hpos : 0 < (minimum (·.f_frsize) l).toNat :=
    Nat.pos_of_ne_zero fun hzero => minimum_ne_zero _ _ (UInt64.toNat_inj.mp hzero)
  have hlen : 0 < (devices l).toList.length :=
    List.length_pos_of_ne_nil (devices_ne_nil hne)
  have hle := sum_div_mul_le (minimum (·.f_frsize) l).toNat
    ((devices l).toList.map fun x => c.bytes (x.2.kept ignore))
  have hlt := sum_add_length_le hpos
    ((devices l).toList.map fun x => c.bytes (x.2.kept ignore))
  rw [List.map_map] at hle hlt
  rw [List.length_map] at hlt
  exact ⟨hle, lt_of_lt_of_le (Nat.lt_add_of_pos_right hlen) hlt⟩

/-- With a branch that answers, and with the bytes of the devices within 64 bits: the
divisor is not zero, no product and no sum of block counts wraps, the blocks and the free
blocks reported come to at most the bytes there are and fall short of them by less than
one block for each device, and the sizes reported are the least ones seen. -/
theorem statfs_size (hne : seen env fusepath mode branches ≠ [])
    (h : ∀ c : BlockCount, c.total (seen env fusepath mode branches) < 2 ^ 64) :
    minimum (·.f_frsize) (seen env fusepath mode branches) ≠ 0 ∧
    (∀ (c : BlockCount), ∀ x ∈ (devices (seen env fusepath mode branches)).toList,
      c.bytes (x.2.kept ignore) < 2 ^ 64) ∧
    (∀ c : BlockCount, (c.of (statfs env fusepath mode ignore branches fsstat).2).toNat =
      ((devices (seen env fusepath mode branches)).toList.map fun x =>
        c.bytes (x.2.kept ignore) /
          (minimum (·.f_frsize) (seen env fusepath mode branches)).toNat).sum) ∧
    (∀ c : BlockCount, c ≠ .bavail →
      c.bytes (statfs env fusepath mode ignore branches fsstat).2 ≤
          c.total (seen env fusepath mode branches) ∧
        c.total (seen env fusepath mode branches) <
          c.bytes (statfs env fusepath mode ignore branches fsstat).2 +
            (devices (seen env fusepath mode branches)).toList.length *
              (statfs env fusepath mode ignore branches fsstat).2.f_frsize.toNat) ∧
    IsLeastNonzero ((seen env fusepath mode branches).map (·.stvfs.f_bsize))
      (statfs env fusepath mode ignore branches fsstat).2.f_bsize ∧
    IsLeastNonzero ((seen env fusepath mode branches).map (·.stvfs.f_frsize))
      (statfs env fusepath mode ignore branches fsstat).2.f_frsize ∧
    IsLeastNonzero ((seen env fusepath mode branches).map (·.stvfs.f_namemax))
      (statfs env fusepath mode ignore branches fsstat).2.f_namemax := by
  obtain ⟨hbsize, hfrsize, hnamemax⟩ :=
    statfs_sizes env fusepath mode ignore fsstat hne
  have hcounts := fun c => toNat_statfs_count env fusepath mode ignore fsstat hne (h c)
  refine ⟨minimum_ne_zero _ _, fun c x => bytes_kept_lt ignore (h c), hcounts,
    fun c => statfs_bytes env fusepath mode ignore fsstat hne (h c), ?_, ?_, ?_⟩
  · rw [hbsize]
    exact isLeastNonzero_minimum _ _
  · rw [hfrsize]
    exact isLeastNonzero_minimum _ _
  · rw [hnamemax]
    exact isLeastNonzero_minimum _ _

end Size

def mixedSizes : StatfsEnv where
  lstat p := some ⟨p.length, 1, 0, 0⟩
  lstatvfs p := some
    { f_frsize := if p.length = 2 then 4 else if p.length = 3 then 0 else 6
      f_blocks := 3
      f_bavail := 1
      f_flag := 0
      f_bsize := 4
      f_bfree := 2
      f_files := 5
      f_ffree := 4
      f_favail := 3
      f_fsid := 0
      f_namemax := 255 }

def sizedBranches : Branches :=
  [⟨.RW, "/a".toList⟩, ⟨.NC, "/bb".toList⟩, ⟨.RW, "/ccc".toList⟩]

/-- Seven blocks of four bytes are reported for the thirty bytes there are. -/
theorem statfs_size_mixed :
    (statfs mixedSizes [] .BASE .NONE sizedBranches
      ⟨⟨0, 0, 0, 0⟩, 0, 0, 0, 0, 0, 0, 0⟩).2.f_blocks = 7 ∧
    BlockCount.blocks.total (seen mixedSizes [] .BASE sizedBranches) = 30 ∧
    BlockCount.blocks.total (seen mixedSizes [] .BASE sizedBranches) < 28 + 3 * 4 :=
  ⟨by decide, by decide, ((statfs_size mixedSizes [] .BASE .NONE
    ⟨⟨0, 0, 0, 0⟩, 0, 0, 0, 0, 0, 0, 0⟩ (by decide)
    (fun c => by cases c <;> decide)).2.2.2.1 .blocks (by decide)).2⟩

end Mergerfs
