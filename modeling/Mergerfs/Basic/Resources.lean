import Mathlib.Algebra.Group.Nat.Defs
import Mathlib.Data.Nat.Find
import Mergerfs.Basic.Errno

/-!
# Raising the resource limits

`resources::maxout_rlimit` asks for no limit at all. If that is refused it asks for the
hard limit it has, and for the double of what it asked for, until the kernel refuses.
The numbers are of 64 bits and the doubling is not looked at, so that what is asked for
may go round: it may become less than the limit found, and it may become nought, which
is never refused.

Only the limits of the one resource the function is called for are looked at or changed,
so that these are the state.
-/

namespace Mergerfs

structure Rlimit where
  cur : UInt64
  max : UInt64
  deriving DecidableEq, Repr

def rlimInfinity : UInt64 := 0xFFFFFFFFFFFFFFFF

/-- What the kernel goes by when it is asked for other limits. -/
structure Kernel where
  /-- Whether the process has `CAP_SYS_RESOURCE`. -/
  privileged : Bool
  /-- What even a privileged process does not get more of. -/
  ceiling : UInt64

namespace Kernel

def bound (kernel : Kernel) (limit : Rlimit) : UInt64 :=
  if kernel.privileged then kernel.ceiling else limit.max

def setrlimit (kernel : Kernel) (limit rlim : Rlimit) : ℤ × Rlimit :=
  if rlim.cur ≤ kernel.bound limit ∧ rlim.max ≤ kernel.bound limit then (0, rlim)
  else (-1, limit)

theorem setrlimit_of_ne {kernel : Kernel} {limit rlim : Rlimit}
    (h : (kernel.setrlimit limit rlim).1 ≠ 0) :
    kernel.setrlimit limit rlim = (-1, limit) := by
  rw [setrlimit] at h ⊢
  split_ifs at h ⊢
  · exact absurd rfl h
  · rfl

end Kernel

/-- The loop of `resources::maxout_rlimit`, which begins with `rv` nought: it asks at
least once. It has no result when it has not ended after `fuel` rounds. -/
def maxoutLoop (kernel : Kernel) : ℕ → Rlimit → Rlimit → Option (ℤ × Rlimit)
  | 0, _, _ => none
  | fuel + 1, rlim, limit =>
      let (rv, limit) := kernel.setrlimit limit rlim
      let max := rlim.max * 2
      if rv = 0 then maxoutLoop kernel fuel ⟨max, max⟩ limit else some (rv, limit)

/-- `resources::maxout_rlimit`, with the answer of `getrlimit` and the limits in force:
its result and the limits in force after it. -/
def maxoutRlimit (kernel : Kernel) (getrlimit : Rv) (fuel : ℕ) (limit : Rlimit) :
    Option (ℤ × Rlimit) :=
  let (rv, limit) := kernel.setrlimit limit ⟨rlimInfinity, rlimInfinity⟩
  if rv = 0 then some (0, limit)
  else
    match getrlimit with
    | .error _ => some (-1, limit)
    | .ok () => maxoutLoop kernel fuel ⟨limit.max, limit.max⟩ limit

/-- `maxout_rlimit` ends, and the hard limit is then no less than it was. -/
def Raises (kernel : Kernel) (getrlimit : Rv) (limit : Rlimit) : Prop :=
  ∃ rounds rv after,
    (∀ fuel, rounds ≤ fuel →
      maxoutRlimit kernel getrlimit fuel limit = some (rv, after)) ∧
    limit.max ≤ after.max

/-! ## One round -/

section Round

variable {kernel : Kernel} {limit : Rlimit} {x : UInt64}

theorem maxoutLoop_of_le (h : x ≤ kernel.bound limit) (fuel : ℕ) :
    maxoutLoop kernel (fuel + 1) ⟨x, x⟩ limit =
      maxoutLoop kernel fuel ⟨x * 2, x * 2⟩ ⟨x, x⟩ := by
  rw [maxoutLoop, Kernel.setrlimit, if_pos ⟨h, h⟩]
  exact if_pos rfl

theorem maxoutLoop_of_lt (h : kernel.bound limit < x) (fuel : ℕ) :
    maxoutLoop kernel (fuel + 1) ⟨x, x⟩ limit = some (-1, limit) := by
  rw [maxoutLoop, Kernel.setrlimit, if_neg fun hle => UInt64.not_le.mpr h hle.1]
  exact if_neg (by decide)

theorem maxoutLoop_zero (kernel : Kernel) (fuel : ℕ) (limit : Rlimit) :
    maxoutLoop kernel fuel ⟨0, 0⟩ limit = none := by
  induction fuel generalizing limit with
  | zero => rfl
  | succ fuel ih =>
      rw [maxoutLoop_of_le UInt64.zero_le]
      exact ih _

theorem maxoutRlimit_ok
    (h : (kernel.setrlimit limit ⟨rlimInfinity, rlimInfinity⟩).1 ≠ 0) (fuel : ℕ) :
    maxoutRlimit kernel (.ok ()) fuel limit =
      maxoutLoop kernel fuel ⟨limit.max, limit.max⟩ limit := by
  rw [maxoutRlimit, Kernel.setrlimit_of_ne h]
  exact if_neg (by decide)

theorem maxoutRlimit_error (e : Errno)
    (h : (kernel.setrlimit limit ⟨rlimInfinity, rlimInfinity⟩).1 ≠ 0) (fuel : ℕ) :
    maxoutRlimit kernel (.error e) fuel limit = some (-1, limit) := by
  rw [maxoutRlimit, Kernel.setrlimit_of_ne h]
  exact if_neg (by decide)

end Round

theorem raises_ok_iff {kernel : Kernel} {limit : Rlimit}
    (h : (kernel.setrlimit limit ⟨rlimInfinity, rlimInfinity⟩).1 ≠ 0) :
    Raises kernel (.ok ()) limit ↔
      ∃ rounds rv after,
        (∀ fuel, rounds ≤ fuel →
          maxoutLoop kernel fuel ⟨limit.max, limit.max⟩ limit = some (rv, after)) ∧
        limit.max ≤ after.max := by
  simp only [Raises, maxoutRlimit_ok h]

/-! ## What is asked for -/

def demand (x : UInt64) : ℕ → UInt64
  | 0 => x
  | k + 1 => demand x k * 2

theorem toNat_mul_two (x : UInt64) : (x * 2).toNat = x.toNat * 2 % 2 ^ 64 :=
  UInt64.toNat_mul x 2

theorem toNat_demand (x : UInt64) (k : ℕ) :
    (demand x k).toNat = x.toNat * 2 ^ k % 2 ^ 64 := by
  induction k with
  | zero => rw [demand, Nat.pow_zero, Nat.mul_one, Nat.mod_eq_of_lt x.toNat_lt]
  | succ k ih =>
      rw [demand, toNat_mul_two, ih, Nat.mod_mul_mod, Nat.pow_succ 2 k, Nat.mul_assoc]

theorem demand_eq_zero (x : UInt64) {k : ℕ} (hk : 64 ≤ k) : (demand x k).toNat = 0 := by
  obtain ⟨n, rfl⟩ := Nat.exists_eq_add_of_le hk
  rw [toNat_demand, Nat.pow_add, Nat.mul_left_comm, Nat.mul_mod_right]

theorem lt_of_lt_mul_two {x c : UInt64} (hle : x ≤ c) (hlt : c < x * 2) :
    x.toNat < 2 ^ 63 ∧ c.toNat < x.toNat * 2 := by
  have hle := UInt64.le_iff_toNat_le.mp hle
  have hlt := UInt64.lt_iff_toNat_lt.mp hlt
  have hx := x.toNat_lt
  rw [toNat_mul_two] at hlt
  omega

/-! ## A privileged process -/

section Privileged

variable {kernel : Kernel} (hpriv : kernel.privileged = true)

include hpriv

theorem bound_of_privileged (limit : Rlimit) : kernel.bound limit = kernel.ceiling :=
  if_pos hpriv

theorem maxoutLoop_eq_none {x : UInt64} (h : ∀ k, demand x k ≤ kernel.ceiling)
    (fuel k : ℕ) (limit : Rlimit) :
    maxoutLoop kernel fuel ⟨demand x k, demand x k⟩ limit = none := by
  induction fuel generalizing k limit with
  | zero => rfl
  | succ fuel ih =>
      rw [maxoutLoop_of_le (by rw [bound_of_privileged hpriv]; exact h k)]
      exact ih (k + 1) _

/-- The loop ends in the first round that is refused, with what the round before got. -/
theorem maxoutLoop_of_first {x : UInt64} {n : ℕ}
    (hbefore : ∀ k, k ≤ n → demand x k ≤ kernel.ceiling)
    (hfirst : kernel.ceiling < demand x (n + 1)) (m k : ℕ) (hk : k + m = n)
    (limit : Rlimit) (fuel : ℕ) (hfuel : m + 2 ≤ fuel) :
    maxoutLoop kernel fuel ⟨demand x k, demand x k⟩ limit =
      some (-1, ⟨demand x n, demand x n⟩) := by
  have haccepted : ∀ k limit, k ≤ n → demand x k ≤ kernel.bound limit := by
    intro k limit hk
    rw [bound_of_privileged hpriv]
    exact hbefore k hk
  induction m generalizing k limit fuel with
  | zero =>
      obtain rfl : k = n := hk
      obtain ⟨fuel, rfl⟩ := Nat.exists_eq_add_of_le' hfuel
      rw [maxoutLoop_of_le (haccepted k limit le_rfl)]
      exact maxoutLoop_of_lt (by rw [bound_of_privileged hpriv]; exact hfirst) fuel
  | succ m ih =>
      obtain ⟨fuel, rfl⟩ := Nat.exists_eq_add_of_le' (Nat.one_le_of_lt hfuel)
      rw [maxoutLoop_of_le (haccepted k limit (by omega))]
      exact ih (k + 1) (by omega) _ fuel (by omega)

theorem raises_of_privileged {limit : Rlimit}
    (h : (kernel.setrlimit limit ⟨rlimInfinity, rlimInfinity⟩).1 ≠ 0) :
    Raises kernel (.ok ()) limit ↔
      kernel.ceiling < limit.max ∨
      limit.max.toNat < 2 ^ 63 ∧
        ∃ k < 64, kernel.ceiling.toNat < limit.max.toNat * 2 ^ k % 2 ^ 64 := by
  rw [raises_ok_iff h]
  by_cases hover : kernel.ceiling < limit.max
  · -- what it has is refused in the first round
    refine iff_of_true ⟨1, -1, limit, ?_, UInt64.le_refl _⟩ (.inl hover)
    intro fuel hfuel
    obtain ⟨fuel, rfl⟩ := Nat.exists_eq_add_of_le' hfuel
    exact maxoutLoop_of_lt (by rw [bound_of_privileged hpriv]; exact hover) fuel
  rw [or_iff_right hover]
  have hstart : demand limit.max 0 ≤ kernel.ceiling := UInt64.not_lt.mp hover
  by_cases hex : ∃ k, kernel.ceiling < demand limit.max k
  · have hfirst := Nat.find_spec hex
    have hmin : ∀ k, k < Nat.find hex → demand limit.max k ≤ kernel.ceiling :=
      fun k hk => UInt64.not_lt.mp (Nat.find_min hex hk)
    obtain ⟨n, hn⟩ : ∃ n, Nat.find hex = n + 1 := by
      refine Nat.exists_eq_succ_of_ne_zero fun hzero => ?_
      rw [hzero] at hfirst
      exact hover hfirst
    rw [hn] at hfirst hmin
    have hbefore : ∀ k, k ≤ n → demand limit.max k ≤ kernel.ceiling :=
      fun k hk => hmin k (Nat.lt_succ_of_le hk)
    have hends : ∀ fuel, n + 2 ≤ fuel →
        maxoutLoop kernel fuel ⟨limit.max, limit.max⟩ limit =
          some (-1, ⟨demand limit.max n, demand limit.max n⟩) :=
      maxoutLoop_of_first hpriv hbefore hfirst n 0 (Nat.zero_add n) limit
    obtain ⟨hsmall, hdouble⟩ := lt_of_lt_mul_two (hbefore n le_rfl) hfirst
    constructor
    · rintro ⟨rounds, rv, after, hafter, hle⟩
      have heq := (hends (rounds + (n + 2)) (by omega)).symm.trans
        (hafter (rounds + (n + 2)) (by omega))
      obtain ⟨_, rfl⟩ := Prod.mk.inj (Option.some.inj heq)
      refine ⟨Nat.lt_of_le_of_lt (UInt64.le_iff_toNat_le.mp hle) hsmall, n + 1, ?_, ?_⟩
      · by_contra hlarge
        have hlt := UInt64.lt_iff_toNat_lt.mp hfirst
        rw [demand_eq_zero _ (by omega)] at hlt
        exact Nat.not_lt_zero _ hlt
      · rw [← toNat_demand]
        exact UInt64.lt_iff_toNat_lt.mp hfirst
    · rintro ⟨hlt, _⟩
      refine ⟨n + 2, -1, _, hends, UInt64.le_iff_toNat_le.mpr ?_⟩
      cases n with
      | zero => exact le_rfl
      | succ n =>
          -- the first double is not above the ceiling, and the last one is
          have hone := UInt64.le_iff_toNat_le.mp (hbefore 1 (by omega))
          rw [toNat_demand, Nat.pow_one, Nat.mod_eq_of_lt (by omega)] at hone
          show limit.max.toNat ≤ (demand limit.max (n + 1)).toNat
          omega
  · refine iff_of_false ?_ ?_
    · rintro ⟨rounds, rv, after, hafter, _⟩
      have hnone := maxoutLoop_eq_none hpriv
        (fun k => UInt64.not_lt.mp fun hlt => hex ⟨k, hlt⟩) rounds 0 limit
      have hsome := hafter rounds le_rfl
      rw [demand] at hnone
      rw [hnone] at hsome
      cases hsome
    · rintro ⟨_, k, _, hk⟩
      rw [← toNat_demand] at hk
      exact hex ⟨k, UInt64.lt_iff_toNat_lt.mpr hk⟩

end Privileged

/-! ## An unprivileged process -/

section Unprivileged

variable {kernel : Kernel} (hpriv : kernel.privileged = false)

include hpriv

theorem bound_of_unprivileged (limit : Rlimit) : kernel.bound limit = limit.max := by
  rw [Kernel.bound, hpriv]
  exact if_neg Bool.false_ne_true

theorem max_le_of_maxoutLoop {fuel : ℕ} {x : UInt64} {limit after : Rlimit} {rv : ℤ}
    (h : maxoutLoop kernel fuel ⟨x, x⟩ limit = some (rv, after)) :
    after.max ≤ limit.max := by
  induction fuel generalizing x limit with
  | zero => cases h
  | succ fuel ih =>
      by_cases hle : x ≤ limit.max
      · rw [maxoutLoop_of_le (by rwa [bound_of_unprivileged hpriv])] at h
        exact UInt64.le_trans (ih h) hle
      · rw [maxoutLoop_of_lt
          (by rw [bound_of_unprivileged hpriv]; exact UInt64.not_le.mp hle)] at h
        obtain ⟨_, rfl⟩ := Prod.mk.inj (Option.some.inj h)
        exact UInt64.le_refl _

theorem maxoutLoop_first (fuel : ℕ) (limit : Rlimit) :
    maxoutLoop kernel (fuel + 1) ⟨limit.max, limit.max⟩ limit =
      maxoutLoop kernel fuel ⟨limit.max * 2, limit.max * 2⟩ ⟨limit.max, limit.max⟩ :=
  maxoutLoop_of_le (by rw [bound_of_unprivileged hpriv]; exact UInt64.le_refl _) fuel

theorem raises_of_unprivileged {limit : Rlimit}
    (h : (kernel.setrlimit limit ⟨rlimInfinity, rlimInfinity⟩).1 ≠ 0) :
    Raises kernel (.ok ()) limit ↔
      0 < limit.max.toNat ∧ limit.max.toNat < 2 ^ 63 := by
  rw [raises_ok_iff h]
  have hrange := limit.max.toNat_lt
  have hdouble := toNat_mul_two limit.max
  constructor
  · rintro ⟨rounds, rv, after, hafter, hle⟩
    constructor
    · refine Nat.pos_of_ne_zero fun hzero => ?_
      have hmax : limit.max = 0 := UInt64.toNat_inj.mp hzero
      have hsome := hafter rounds le_rfl
      rw [hmax, maxoutLoop_zero] at hsome
      cases hsome
    · -- the second round would accept less, and nothing gets it back
      by_contra hlarge
      have hlt : (limit.max * 2).toNat < limit.max.toNat := by omega
      have hsome := hafter (rounds + 2) (by omega)
      rw [maxoutLoop_first hpriv, maxoutLoop_of_le (by
        rw [bound_of_unprivileged hpriv]
        exact UInt64.le_of_lt (UInt64.lt_iff_toNat_lt.mpr hlt))] at hsome
      have hafter := UInt64.le_iff_toNat_le.mp (max_le_of_maxoutLoop hpriv hsome)
      have hle := UInt64.le_iff_toNat_le.mp hle
      exact absurd (Nat.le_trans hle hafter) (Nat.not_le.mpr hlt)
  · rintro ⟨hpos, hlt⟩
    refine ⟨2, -1, ⟨limit.max, limit.max⟩, ?_, UInt64.le_refl _⟩
    intro fuel hfuel
    obtain ⟨fuel, rfl⟩ := Nat.exists_eq_add_of_le' hfuel
    rw [maxoutLoop_first hpriv]
    refine maxoutLoop_of_lt ?_ fuel
    rw [bound_of_unprivileged hpriv]
    refine UInt64.lt_iff_toNat_lt.mpr ?_
    show limit.max.toNat < (limit.max * 2).toNat
    omega

end Unprivileged

/-- When no limit at all is refused, `maxout_rlimit` ends with a hard limit that is no
less than the one before exactly if `getrlimit` fails, or an unprivileged process has a
hard limit from 1 to below `2 ^ 63`, or a privileged one has a hard limit that is refused,
or one below `2 ^ 63` that some doubling takes above the ceiling. -/
theorem maxoutRlimit_raises_iff (kernel : Kernel) (getrlimit : Rv) (limit : Rlimit)
    (h : (kernel.setrlimit limit ⟨rlimInfinity, rlimInfinity⟩).1 ≠ 0) :
    Raises kernel getrlimit limit ↔
      (∃ e, getrlimit = .error e) ∨
      (kernel.privileged = false ∧
        0 < limit.max.toNat ∧ limit.max.toNat < 2 ^ 63) ∨
      (kernel.privileged = true ∧
        (kernel.ceiling < limit.max ∨
          limit.max.toNat < 2 ^ 63 ∧
            ∃ k < 64, kernel.ceiling.toNat < limit.max.toNat * 2 ^ k % 2 ^ 64)) := by
  cases getrlimit with
  | error e =>
      refine iff_of_true ⟨0, -1, limit, ?_, UInt64.le_refl _⟩ (.inl ⟨e, rfl⟩)
      intro fuel _
      exact maxoutRlimit_error e h fuel
  | ok u =>
      cases hpriv : kernel.privileged with
      | true => simp [raises_of_privileged hpriv h]
      | false => simp [raises_of_unprivileged hpriv h]

/-- An unprivileged process that may have 1024 open files. -/
theorem maxoutRlimit_raises_nofile :
    Raises ⟨false, 1048576⟩ (.ok ()) ⟨1024, 1024⟩ :=
  (maxoutRlimit_raises_iff ⟨false, 1048576⟩ (.ok ()) ⟨1024, 1024⟩ (by decide)).mpr
    (.inr (.inl ⟨rfl, by decide, by decide⟩))

/-- A hard limit of nought keeps the loop going; one of `2 ^ 63 + 1` becomes 2. -/
theorem maxoutRlimit_hangs_or_lowers :
    (∀ fuel, maxoutRlimit ⟨false, 1048576⟩ (.ok ()) fuel ⟨0, 0⟩ = none) ∧
    maxoutRlimit ⟨false, 1048576⟩ (.ok ()) 3
        ⟨9223372036854775809, 9223372036854775809⟩ = some (-1, ⟨2, 2⟩) := by
  constructor
  · intro fuel
    rw [maxoutRlimit_ok (by decide)]
    exact maxoutLoop_zero _ fuel _
  · rw [maxoutRlimit_ok (by decide), maxoutLoop_of_le (by decide),
      maxoutLoop_of_le (by decide), maxoutLoop_of_lt (by decide)]
    rfl

end Mergerfs
