import Mathlib.Data.Multiset.ZeroCons

/-!
# Error numbers

The values of `errno` a failed call leaves behind are positive, and the functions
below rely on it: a return value is `0`, `-1` with `errno` set, or `-errno`. The
constants have their Linux values, since the code compares a negated one with
`-1`.

`errorCalc` is the fold by which an operation over several branches keeps one error,
and `calcError` the one by which a policy does. The errors a policy can meet are
totally ordered by `calcError`, so what it keeps is `worst` of them, whatever
their order.
-/

namespace Mergerfs

/-- The value of `errno` after a failed call. -/
structure Errno where
  val : ℕ
  pos : 0 < val
deriving DecidableEq

namespace Errno

def EPERM : Errno := ⟨1, by decide⟩
def ENOENT : Errno := ⟨2, by decide⟩
def EINTR : Errno := ⟨4, by decide⟩
def EIO : Errno := ⟨5, by decide⟩
def EBADF : Errno := ⟨9, by decide⟩
def ENOMEM : Errno := ⟨12, by decide⟩
def EEXIST : Errno := ⟨17, by decide⟩
def EXDEV : Errno := ⟨18, by decide⟩
def ENOTDIR : Errno := ⟨20, by decide⟩
def EINVAL : Errno := ⟨22, by decide⟩
def ENOTTY : Errno := ⟨25, by decide⟩
def ENOSPC : Errno := ⟨28, by decide⟩
def EROFS : Errno := ⟨30, by decide⟩
def ERANGE : Errno := ⟨34, by decide⟩
def ENOSYS : Errno := ⟨38, by decide⟩
def ENODATA : Errno := ⟨61, by decide⟩
/-- Another name of `ENODATA`. -/
def ENOATTR : Errno := ⟨61, by decide⟩
def EOPNOTSUPP : Errno := ⟨95, by decide⟩
def EDQUOT : Errno := ⟨122, by decide⟩

def neg (e : Errno) : ℤ := -(e.val : ℤ)

theorem neg_lt_zero (e : Errno) : e.neg < 0 := by
  have h := e.pos
  simp only [neg]
  omega

theorem neg_eq_neg_one_iff (e : Errno) : e.neg = -1 ↔ e = EPERM := by
  cases e with
  | mk val pos =>
      simp only [neg, EPERM, Errno.mk.injEq]
      omega

end Errno

/-- The result of a call that returns `0`, or `-1` with `errno` set. -/
abbrev Rv := Except Errno Unit

/-! ## The error of an operation over several branches -/

/-- `error::calc`: `prev` is the value folded so far, `cur` is `errno`. -/
def errorCalc (rv prev cur : ℤ) : ℤ :=
  if rv = -1 then
    if prev = 0 then 0 else cur
  else 0

theorem errorCalc_neg_one (prev cur : ℤ) :
    errorCalc (-1) prev cur = if prev = 0 then 0 else cur := by
  simp [errorCalc]

/-! ## The error of a policy -/

open Errno

/-- `policy::calc_error`. -/
def calcError (cur err : Errno) : Errno :=
  if cur = ENOSPC then
    if err ≠ ENOENT then err else cur
  else if cur = EROFS then
    if err ≠ ENOENT ∧ err ≠ ENOSPC then err else cur
  else err

def PolicyError (e : Errno) : Prop :=
  e = ENOENT ∨ e = ENOSPC ∨ e = EROFS

/-- The error that stands for a collection of reasons. -/
def worst (m : Multiset Errno) : Errno :=
  if EROFS ∈ m then EROFS else if ENOSPC ∈ m then ENOSPC else ENOENT

theorem policyError_calcError {cur err : Errno} (hcur : PolicyError cur)
    (herr : PolicyError err) : PolicyError (calcError cur err) := by
  unfold calcError
  split_ifs <;> assumption

theorem worst_calcError {cur err : Errno} (hcur : PolicyError cur)
    (herr : PolicyError err) (m : Multiset Errno) :
    worst (calcError cur err ::ₘ m) = worst (cur ::ₘ err ::ₘ m) := by
  rcases hcur with rfl | rfl | rfl <;> rcases herr with rfl | rfl | rfl <;>
    simp [worst, calcError, ENOENT, ENOSPC, EROFS]

theorem worst_singleton {e : Errno} (he : PolicyError e) :
    worst (e ::ₘ 0) = e := by
  rcases he with rfl | rfl | rfl <;> decide

/-- Folding `calcError` over policy errors gives the worst of them. -/
theorem foldl_calcError {cur : Errno} (hcur : PolicyError cur)
    {es : List Errno} (hes : ∀ e ∈ es, PolicyError e) :
    es.foldl calcError cur = worst (cur ::ₘ (es : Multiset Errno)) := by
  induction es generalizing cur with
  | nil => exact (worst_singleton hcur).symm
  | cons e es ih =>
      have he : PolicyError e := hes e List.mem_cons_self
      have hrest : ∀ e ∈ es, PolicyError e :=
        fun x hx => hes x (List.mem_cons_of_mem _ hx)
      rw [List.foldl_cons, ih (policyError_calcError hcur he) hrest,
        worst_calcError hcur he, ← Multiset.cons_coe]

theorem worst_cons_ENOENT (m : Multiset Errno) :
    worst (ENOENT ::ₘ m) = worst m := by
  have h₁ : EROFS ≠ ENOENT := by decide
  have h₂ : ENOSPC ≠ ENOENT := by decide
  simp [worst, h₁, h₂]

end Mergerfs
