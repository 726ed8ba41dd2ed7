import Mathlib.Algebra.Group.Int.Defs
import Mathlib.Algebra.Group.Nat.Defs
import Mergerfs.Basic.Str

/-!
# Numbers in strings

`num::to_uint64_t` and `num::to_time_t` read a number by `strtoll` and look at what
is left. `strtoll` skips white space, takes an optional sign and the digits after it,
and stays within 64 bits by saturation; without a digit it has read nothing.

A size is meant to be digits with at most one suffix. `parsedExactly_iff` says for which
strings `num::to_uint64_t` keeps to that.
-/

namespace Mergerfs

def isSpace (c : Char) : Bool :=
  c == ' ' || ('\t' ≤ c && c ≤ '\r')

def digitsValue (digits : List Char) : ℕ :=
  digits.foldl (fun n c => 10 * n + (c.toNat - '0'.toNat)) 0

def saturate (n : ℤ) : ℤ := max (-2 ^ 63) (min n (2 ^ 63 - 1))

/-- `strtoll(str,&endptr,10)`: the number, and the string at `endptr`. -/
def strtoll (str : List Char) : ℤ × List Char :=
  let unsigned (sign : ℤ) (s : List Char) : ℤ × List Char :=
    let digits := s.takeWhile Char.isDigit
    if digits = [] then (0, cstr str)
    else (saturate (sign * digitsValue digits), s.dropWhile Char.isDigit)
  match (cstr str).dropWhile isSpace with
  | '-' :: s => unsigned (-1) s
  | '+' :: s => unsigned 1 s
  | s => unsigned 1 s

/-- `num::to_uint64_t`. What follows the suffix is not looked at. -/
def toUint64T (str : List Char) : Option UInt64 :=
  let tmp := UInt64.ofInt (strtoll str).1
  match (strtoll str).2 with
  | [] => some tmp
  | c :: _ =>
      if c = 'k' ∨ c = 'K' then some (tmp * 1024)
      else if c = 'm' ∨ c = 'M' then some (tmp * (1024 * 1024))
      else if c = 'g' ∨ c = 'G' then some (tmp * (1024 * 1024 * 1024))
      else if c = 't' ∨ c = 'T' then some (tmp * (1024 * 1024 * 1024 * 1024))
      else none

def toTimeT (str : List Char) : Option ℤ :=
  if (strtoll str).2 ≠ [] then none
  else if (strtoll str).1 < 0 then none
  else some (strtoll str).1

def showNat (n : ℕ) : List Char := n.repr.toList

def showInt : ℤ → List Char
  | .ofNat n => showNat n
  | .negSucc n => '-' :: showNat (n + 1)

theorem showNat_ne_nil (n : ℕ) : showNat n ≠ [] := by
  simp [showNat, Nat.repr, Nat.toDigits_ne_nil]

theorem showInt_ne_nil (n : ℤ) : showInt n ≠ [] := by
  cases n with
  | ofNat n => exact showNat_ne_nil n
  | negSucc n => simp [showInt]

/-- A multiplier, a number below zero that wraps, and a string without a digit. -/
example : toUint64T "4k".toList = some 4096 := by decide
example : toUint64T "-1".toList = some 18446744073709551615 := by decide
example : toUint64T "four".toList = none := by decide

/-! ## Which strings are parsed exactly -/

def suffixPower (c : Char) : Option ℕ :=
  if c = 'k' ∨ c = 'K' then some 1
  else if c = 'm' ∨ c = 'M' then some 2
  else if c = 'g' ∨ c = 'G' then some 3
  else if c = 't' ∨ c = 'T' then some 4
  else none

/-- `str` is made of `digits` and nothing else, or of `digits` and one suffix, and
the suffix stands for `1024 ^ e`. -/
def IsSize (str digits : List Char) (e : ℕ) : Prop :=
  digits ≠ [] ∧ (∀ c ∈ digits, c.isDigit) ∧
    (str = digits ∧ e = 0 ∨ ∃ c, str = digits ++ [c] ∧ suffixPower c = some e)

def Denotes (str : List Char) (n : ℕ) : Prop :=
  ∃ digits e, IsSize str digits e ∧ n = digitsValue digits * 1024 ^ e

/-- `num::to_uint64_t(str,value)`: what it returns, and `value` after it. -/
def storeUint64T (str : List Char) (value : UInt64) : ℤ × UInt64 :=
  match toUint64T str with
  | none => (-1, value)
  | some tmp => (0, tmp)

/-- The number is stored if the string denotes one that fits; any other string is
refused, and the value stays. -/
def ParsedExactly (str : List Char) : Prop :=
  ∀ value, (∃ n < 2 ^ 64, Denotes str n ∧
      storeUint64T str value = (0, UInt64.ofNat n)) ∨
    (∀ n, Denotes str n → 2 ^ 64 ≤ n) ∧ storeUint64T str value = (-1, value)

def Unread (str : List Char) : Prop :=
  ∃ c s, (strtoll str).2 = c :: s ∧ suffixPower c = none

theorem toUint64T_of_nil {str : List Char} (h : (strtoll str).2 = []) :
    toUint64T str = some (UInt64.ofInt (strtoll str).1) := by
  simp only [toUint64T, h]

theorem toUint64T_of_cons {str s : List Char} {c : Char}
    (h : (strtoll str).2 = c :: s) :
    toUint64T str = (suffixPower c).map
      fun e => UInt64.ofInt (strtoll str).1 * 1024 ^ e := by
  simp only [toUint64T, h, suffixPower]
  split_ifs <;> rfl

theorem toUint64T_eq_none_iff (str : List Char) :
    toUint64T str = none ↔ Unread str := by
  cases h : (strtoll str).2 with
  | nil => simp [toUint64T_of_nil h, Unread, h]
  | cons c s => simp [toUint64T_of_cons h, Unread, h]

theorem isSpace_of_isDigit {c : Char} (h : c.isDigit = true) : isSpace c = false := by
  have hlow : 48 ≤ c.toNat := by
    have := (Bool.and_eq_true_iff.mp h).1
    exact UInt32.le_iff_toNat_le.mp (of_decide_eq_true this)
  have hspace : c ≠ ' ' := by
    rintro rfl
    exact absurd hlow (by decide)
  have hcr : ¬ c ≤ '\r' := by
    intro hle
    have : c.toNat ≤ 13 := UInt32.le_iff_toNat_le.mp hle
    omega
  simp [isSpace, hspace, hcr]

theorem strtoll_append {digits : List Char} (suffix : List Char)
    (hne : digits ≠ []) (hdigits : ∀ c ∈ digits, c.isDigit) (hnul : nul ∉ suffix)
    (hsuffix : ∀ c ∈ suffix.head?, c.isDigit = false) :
    strtoll (digits ++ suffix) = (saturate (digitsValue digits), suffix) := by
  have hcstr : cstr (digits ++ suffix) = digits ++ suffix := by
    apply cstr_eq_self
    rw [List.mem_append, not_or]
    refine ⟨fun hmem => ?_, hnul⟩
    exact absurd (hdigits nul hmem) (by decide)
  have hstop : suffix.takeWhile Char.isDigit = [] ∧
      suffix.dropWhile Char.isDigit = suffix := by
    cases suffix with
    | nil => exact ⟨rfl, rfl⟩
    | cons c s => simp [hsuffix c rfl]
  have htake : (digits ++ suffix).takeWhile Char.isDigit = digits := by
    rw [List.takeWhile_append_of_pos hdigits, hstop.1, List.append_nil]
  have hdrop : (digits ++ suffix).dropWhile Char.isDigit = suffix := by
    rw [List.dropWhile_append_of_pos hdigits, hstop.2]
  obtain ⟨d, ds, rfl⟩ := List.exists_cons_of_ne_nil hne
  have hd := hdigits d List.mem_cons_self
  have hspace : (d :: ds ++ suffix).dropWhile isSpace = d :: ds ++ suffix := by
    rw [List.cons_append, List.dropWhile_cons, isSpace_of_isDigit hd]
    rfl
  have hminus : d ≠ '-' := by
    rintro rfl
    exact absurd hd (by decide)
  have hplus : d ≠ '+' := by
    rintro rfl
    exact absurd hd (by decide)
  simp only [strtoll, hcstr, hspace]
  split
  · rename_i heq
    exact absurd (List.cons.inj heq).1 hminus
  · rename_i heq
    exact absurd (List.cons.inj heq).1 hplus
  · rw [htake, hdrop, if_neg hne, Int.one_mul]

theorem suffixPower_ne {c : Char} {e : ℕ} (h : suffixPower c = some e) :
    c ≠ nul ∧ c.isDigit = false ∧ 0 < e := by
  unfold suffixPower at h
  split_ifs at h with hk hm hg ht
  · rcases hk with rfl | rfl <;> cases h <;> decide
  · rcases hm with rfl | rfl <;> cases h <;> decide
  · rcases hg with rfl | rfl <;> cases h <;> decide
  · rcases ht with rfl | rfl <;> cases h <;> decide

theorem toUint64T_of_isSize {str digits : List Char} {e : ℕ}
    (h : IsSize str digits e) :
    toUint64T str =
      some (UInt64.ofInt (saturate (digitsValue digits)) * 1024 ^ e) := by
  obtain ⟨hne, hdigits, ⟨rfl, rfl⟩ | ⟨c, rfl, hc⟩⟩ := h
  · have hread := strtoll_append [] hne hdigits (by simp) (by simp)
    rw [List.append_nil] at hread
    rw [toUint64T_of_nil (by rw [hread]), hread]
    simp
  · obtain ⟨hnul, hdigit, -⟩ := suffixPower_ne hc
    have hread := strtoll_append [c] hne hdigits
      (by simpa using hnul.symm) (by simpa using hdigit)
    rw [toUint64T_of_cons (by rw [hread]), hread, hc]
    rfl

theorem IsSize.not_unread {str digits : List Char} {e : ℕ}
    (h : IsSize str digits e) : ¬ Unread str := by
  rw [← toUint64T_eq_none_iff, toUint64T_of_isSize h]
  simp

theorem saturate_of_lt {n : ℕ} (h : n < 2 ^ 63) : saturate n = n := by
  unfold saturate
  omega

theorem saturate_of_le {n : ℕ} (h : 2 ^ 63 ≤ n) : saturate n = 2 ^ 63 - 1 := by
  unfold saturate
  omega

theorem pow_eq_ofNat (e : ℕ) : (1024 : UInt64) ^ e = UInt64.ofNat (1024 ^ e) := by
  induction e with
  | zero => rfl
  | succ e ih =>
      rw [UInt64.pow_succ, ih, Nat.pow_succ, UInt64.ofNat_mul]
      rfl

theorem ofInt_natCast (n : ℕ) : UInt64.ofInt n = UInt64.ofNat n := by
  rw [← UInt64.toNat_inj]
  simp only [UInt64.ofInt, UInt64.toNat_ofNat']
  omega

theorem ofInt_mul_pow (n e : ℕ) :
    UInt64.ofInt n * 1024 ^ e = UInt64.ofNat (n * 1024 ^ e) := by
  rw [ofInt_natCast, pow_eq_ofNat, UInt64.ofNat_mul]

/-- A size whose number fits into 64 bits is stored exactly when the number before
the suffix fits into 63. -/
theorem toUint64T_eq_iff {str digits : List Char} {e : ℕ}
    (h : IsSize str digits e) (hfits : digitsValue digits * 1024 ^ e < 2 ^ 64) :
    toUint64T str = some (UInt64.ofNat (digitsValue digits * 1024 ^ e)) ↔
      digitsValue digits < 2 ^ 63 := by
  rw [toUint64T_of_isSize h]
  constructor
  · intro heq
    by_contra hlt
    rw [Nat.not_lt] at hlt
    have he : e = 0 := by
      by_contra he
      have hpow : 1024 ^ 1 ≤ 1024 ^ e := Nat.pow_le_pow_right (by decide) (by omega)
      have := Nat.mul_le_mul hlt hpow
      omega
    subst he
    rw [saturate_of_le hlt, Option.some_inj, ← UInt64.toNat_inj, UInt64.toNat_ofNat',
      Nat.mod_eq_of_lt hfits] at heq
    have hmax : (UInt64.ofInt (2 ^ 63 - 1) * 1024 ^ 0).toNat = 2 ^ 63 - 1 := by decide
    omega
  · intro hlt
    rw [saturate_of_lt hlt, ofInt_mul_pow]

/-- Sizes are parsed exactly when neither the number nor its multiple goes out of
range, and other strings when something is left that is no suffix. -/
theorem parsedExactly_iff (str : List Char) :
    ParsedExactly str ↔
      (∃ digits e, IsSize str digits e ∧ digitsValue digits < 2 ^ 63 ∧
        digitsValue digits * 1024 ^ e < 2 ^ 64) ∨ Unread str := by
  constructor
  · intro h
    rcases h 0 with ⟨n, hfits, ⟨digits, e, hsize, rfl⟩, hstore⟩ | ⟨-, hstore⟩
    · left
      refine ⟨digits, e, hsize, (toUint64T_eq_iff hsize hfits).mp ?_, hfits⟩
      rw [storeUint64T, toUint64T_of_isSize hsize] at hstore
      rw [toUint64T_of_isSize hsize, ← (Prod.mk.inj hstore).2]
    · right
      rw [← toUint64T_eq_none_iff]
      cases hparse : toUint64T str with
      | none => rfl
      | some tmp => simp [storeUint64T, hparse] at hstore
  · rintro (⟨digits, e, hsize, hlt, hfits⟩ | hunread) value
    · left
      refine ⟨_, hfits, ⟨digits, e, hsize, rfl⟩, ?_⟩
      rw [storeUint64T, (toUint64T_eq_iff hsize hfits).mpr hlt]
    · right
      refine ⟨?_, ?_⟩
      · rintro n ⟨digits, e, hsize, -⟩
        exact absurd hunread hsize.not_unread
      · rw [storeUint64T, (toUint64T_eq_none_iff str).mpr hunread]

/-- A sign is taken, and a number below zero becomes one of the greatest. -/
theorem parsedExactly_sign :
    storeUint64T "-1".toList 7 = (0, 18446744073709551615) ∧
      ¬ ParsedExactly "-1".toList := by
  refine ⟨by decide, ?_⟩
  intro h
  rcases h 7 with ⟨n, -, ⟨digits, e, ⟨hne, hdigits, hstr⟩, -⟩, -⟩ | ⟨-, hstore⟩
  · obtain ⟨d, ds, rfl⟩ := List.exists_cons_of_ne_nil hne
    have hd : d = '-' := by
      rcases hstr with ⟨hstr, -⟩ | ⟨c, hstr, -⟩
      · exact (List.cons.inj hstr).1.symm
      · exact (List.cons.inj hstr).1.symm
    have hdigit := hdigits d List.mem_cons_self
    rw [hd] at hdigit
    exact absurd hdigit (by decide)
  · exact absurd hstore (by decide)

end Mergerfs
