import Mergerfs.Fs.Movefile

/-!
# Where a move goes

`fs::movefile` is handed the paths of the branches without their modes, and `fs::mfs`
picks the one with the most free space among those that have enough. A branch a file
may be created on is tagged `RW`, is not mounted read-only and has room for the file
and for the write that failed. `movefile_destination_iff` says when the pick is such a
branch: when every other branch that has enough is outdone by one of them.
-/

namespace Mergerfs

open Errno

/-! ## The pick -/

def mfsBranch (branches : Branches) (minfreespace : UInt64)
    (statvfsCache : Path → Option StatVFS) : Option Branch :=
  (Scan.best (fun e _ => e) mostStrict
    (spaceTest statvfsCache minfreespace ∘ Branch.path) (fun _ => .ok ())
    ⟨ENOENT, 0, none⟩ branches).chosen

theorem mfs_toPaths (branches : Branches) (minfreespace : UInt64)
    (statvfsCache : Path → Option StatVFS) :
    mfs (toPaths branches) minfreespace statvfsCache =
      (mfsBranch branches minfreespace statvfsCache).map Branch.path :=
  Scan.best_map_chosen _ _ _ _ Branch.path ENOENT 0 none branches

def Offers (statvfsCache : Path → Option StatVFS) (minfreespace : UInt64)
    (b : Branch) (k : UInt64) : Prop :=
  (∃ st, statvfsCache b.path = some st ∧ st.spaceavail = k) ∧ minfreespace ≤ k ∧ 0 < k

theorem candidate_spaceTest_iff {statvfsCache : Path → Option StatVFS}
    {minfreespace : UInt64} {b : Branch} {k : UInt64} :
    Scan.candidate (spaceTest statvfsCache minfreespace ∘ Branch.path)
        (fun _ => .ok ()) b = .ok k ↔
      (∃ st, statvfsCache b.path = some st ∧ st.spaceavail = k) ∧
        minfreespace ≤ k := by
  cases hst : statvfsCache b.path with
  | none => simp [Scan.candidate, spaceTest, hst]
  | some st =>
      by_cases hlt : st.spaceavail < minfreespace
      · have hnot : ¬ (st.spaceavail = k ∧ minfreespace ≤ k) := by
          rintro ⟨rfl, hle⟩
          exact UInt64.not_le.mpr hlt hle
        simpa [Scan.candidate, spaceTest, hst, hlt] using hnot
      · have hle := UInt64.not_lt.mp hlt
        simp only [Scan.candidate, spaceTest, Function.comp_apply, hst, if_neg hlt,
          Except.ok.injEq, Option.some.injEq, exists_eq_left']
        constructor
        · rintro rfl
          exact ⟨rfl, hle⟩
        · exact And.left

/-- The pick has something to offer; no branch offers more, and none before it offers
as much. -/
theorem mfsBranch_eq_some {branches : Branches} {minfreespace : UInt64}
    {statvfsCache : Path → Option StatVFS} {b : Branch}
    (h : mfsBranch branches minfreespace statvfsCache = some b) :
    ∃ l₁ l₂ k, branches = l₁ ++ b :: l₂ ∧ Offers statvfsCache minfreespace b k ∧
      (∀ c ∈ l₁, ∀ k', Offers statvfsCache minfreespace c k' → k' < k) ∧
      ∀ c ∈ l₂, ∀ k', Offers statvfsCache minfreespace c k' → k' ≤ k := by
  obtain ⟨l₁, l₂, hsplit, hcand, hseed, hbefore⟩ :=
    Scan.best_chosen_split _ mostStrict (fun hle => decide_eq_true hle) _ _ _ rfl h
  obtain ⟨hfree, hle⟩ := candidate_spaceTest_iff.mp hcand
  refine ⟨l₁, l₂, _, hsplit, ⟨hfree, hle, UInt64.not_le.mp hseed⟩, ?_, ?_⟩
  · intro c hc k' hk'
    exact UInt64.not_le.mp
      (hbefore c hc k' (candidate_spaceTest_iff.mpr ⟨hk'.1, hk'.2.1⟩))
  · intro c hc k' hk'
    have hmem : c ∈ branches := by
      rw [hsplit]
      exact List.mem_append_right l₁ (List.mem_cons_of_mem b hc)
    exact Scan.best_atLeast_candidate _ mostStrict _ _ _ hmem
      (candidate_spaceTest_iff.mpr ⟨hk'.1, hk'.2.1⟩)

theorem mfsBranch_eq_none {branches : Branches} {minfreespace : UInt64}
    {statvfsCache : Path → Option StatVFS}
    (h : mfsBranch branches minfreespace statvfsCache = none) {b : Branch}
    (hb : b ∈ branches) (k : UInt64) : ¬ Offers statvfsCache minfreespace b k := by
  rintro ⟨hfree, hle, hpos⟩
  have hcand := candidate_spaceTest_iff.mpr ⟨hfree, hle⟩
  have hbest := Scan.best_atLeast_candidate (fun e _ => e) mostStrict
    (spaceTest statvfsCache minfreespace ∘ Branch.path) (fun _ => .ok ())
    ⟨ENOENT, 0, none⟩ hb hcand
  -- with nothing chosen the optimum is still the seed
  rw [Scan.best_of_chosen_none _ _ _ _ _ h] at hbest
  exact UInt64.not_le.mpr hpos hbest

/-! ## The move -/

section Move

variable (m : Mounts) (branches : Branches) (fusepath : FusePath)
  (additionalSize : UInt64) (ans : MoveAnswers) (v : Files) (origfd : ℕ)

/-- The branch the move goes to, where it gets so far as to pick one. -/
def destination : Option Branch :=
  match fstat v origfd ans.fstat with
  | none => none
  | some st =>
      match findonfs m (toPaths branches) fusepath ans v origfd with
      | none => none
      | some _ => mfsBranch branches
          (UInt64.ofNat st.content.length + additionalSize) ans.statvfsCache

def clonepathCall (basepaths : List Path) : Option (Path × Path × Path) :=
  match fstat v origfd ans.fstat with
  | none => none
  | some st =>
      match findonfs m basepaths fusepath ans v origfd with
      | none => none
      | some src =>
          (mfs basepaths (UInt64.ofNat st.content.length + additionalSize)
            ans.statvfsCache).map fun dst => (src, dst, dirname fusepath.path)

theorem route_eq (basepaths : List Path) :
    route m basepaths fusepath additionalSize ans v origfd =
      (clonepathCall m fusepath additionalSize ans v origfd basepaths).bind fun c =>
        if ans.clonepath.isOk then some (c.1, c.2.1) else none := by
  unfold route clonepathCall
  cases fstat v origfd ans.fstat with
  | none => rfl
  | some st =>
      cases findonfs m basepaths fusepath ans v origfd with
      | none => rfl
      | some src =>
          dsimp only
          cases mfs basepaths (UInt64.ofNat st.content.length + additionalSize)
              ans.statvfsCache with
          | none => rfl
          | some dst => rfl

theorem movefile_of_destination_eq_none
    (h : destination m branches fusepath additionalSize ans v origfd = none) :
    clonepathCall m fusepath additionalSize ans v origfd (toPaths branches) = none ∧
      movefile m (toPaths branches) fusepath additionalSize ans v origfd =
        some (-1, v, origfd) := by
  have hcall :
      clonepathCall m fusepath additionalSize ans v origfd (toPaths branches) =
        none := by
    unfold destination at h
    unfold clonepathCall
    split
    · rfl
    · rename_i st hst
      rw [hst] at h
      split
      · rfl
      · rename_i src hsrc
        simp only [hsrc] at h
        rw [mfs_toPaths, h]
        rfl
  refine ⟨hcall, ?_⟩
  rw [movefile, route_eq, hcall]
  rfl

end Move

/-! ## Branches a file may be created on -/

structure Admits (statvfsCache : Path → Option StatVFS) (needed : ℕ) (b : Branch) :
    Prop where
  mode : b.mode = .RW
  status : ∃ st, statvfsCache b.path = some st ∧ st.readonly = false ∧
    needed ≤ st.spaceavail.toNat

/-- A branch with `k` bytes free, between the branches of `l₁` and of `l₂`, is outdone
by one a file may be created on. -/
def Outdone (statvfsCache : Path → Option StatVFS) (needed : ℕ) (k : UInt64)
    (l₁ l₂ : Branches) : Prop :=
  (∃ c ∈ l₁, Admits statvfsCache needed c ∧
    ∃ st, statvfsCache c.path = some st ∧ k ≤ st.spaceavail) ∨
  ∃ c ∈ l₂, Admits statvfsCache needed c ∧
    ∃ st, statvfsCache c.path = some st ∧ k < st.spaceavail

/-- What a file may be created on has enough by the reckoning of `fs::mfs`, for then
the sum does not wrap. -/
theorem Admits.offers {statvfsCache : Path → Option StatVFS} {size : ℕ}
    {additionalSize : UInt64} {b : Branch}
    (h : Admits statvfsCache (size + additionalSize.toNat) b) {st : StatVFS}
    (hst : statvfsCache b.path = some st) (hpos : 0 < st.spaceavail) :
    Offers statvfsCache (UInt64.ofNat size + additionalSize) b st.spaceavail := by
  obtain ⟨st', hst', _, hneeded⟩ := h.status
  cases hst.symm.trans hst'
  refine ⟨⟨st, hst, rfl⟩, ?_, hpos⟩
  have hlt := st.spaceavail.toNat_lt
  rw [UInt64.le_iff_toNat_le, UInt64.toNat_add, UInt64.toNat_ofNat',
    Nat.mod_eq_of_lt (show size < 2 ^ 64 by omega),
    Nat.mod_eq_of_lt (show size + additionalSize.toNat < 2 ^ 64 by omega)]
  exact hneeded

theorem mem_of_two_splits {α : Type*} {l₁ l₂ p₁ p₂ : List α} {b d : α}
    (h : l₁ ++ b :: l₂ = p₁ ++ d :: p₂) (hne : b ≠ d) :
    (d ∈ l₂ ∧ b ∈ p₁) ∨ (d ∈ l₁ ∧ b ∈ p₂) := by
  rcases List.append_eq_append_iff.mp h with ⟨as, rfl, hrest⟩ | ⟨as, rfl, hrest⟩
  · cases as with
    | nil => exact absurd (List.cons.inj hrest).1 hne
    | cons a as =>
        obtain ⟨rfl, rfl⟩ := List.cons.inj hrest
        exact .inl ⟨by simp, by simp⟩
  · cases as with
    | nil => exact absurd (List.cons.inj hrest).1.symm hne
    | cons a as =>
        obtain ⟨rfl, rfl⟩ := List.cons.inj hrest
        exact .inr ⟨by simp, by simp⟩

/-- A file may be created on the pick exactly if every branch that offers enough and on
which it may not is outdone by one on which it may. -/
theorem mfsBranch_admits_iff (branches : Branches) (size : ℕ) (additionalSize : UInt64)
    (statvfsCache : Path → Option StatVFS) :
    (∀ b, mfsBranch branches (UInt64.ofNat size + additionalSize) statvfsCache =
        some b → Admits statvfsCache (size + additionalSize.toNat) b) ↔
      ∀ l₁ b l₂ k, branches = l₁ ++ b :: l₂ →
        Offers statvfsCache (UInt64.ofNat size + additionalSize) b k →
        ¬ Admits statvfsCache (size + additionalSize.toNat) b →
        Outdone statvfsCache (size + additionalSize.toNat) k l₁ l₂ := by
  constructor
  · intro h l₁ b l₂ k hsplit hoffers hnot
    cases hpick : mfsBranch branches (UInt64.ofNat size + additionalSize)
        statvfsCache with
    | none =>
        have hb : b ∈ branches := by
          rw [hsplit]
          exact List.mem_append_right l₁ List.mem_cons_self
        exact absurd hoffers (mfsBranch_eq_none hpick hb k)
    | some d =>
        have hadmits := h d hpick
        obtain ⟨p₁, p₂, kd, hsplit', hd, hbefore, hafter⟩ := mfsBranch_eq_some hpick
        obtain ⟨⟨st, hst, rfl⟩, _, _⟩ := hd
        -- the two positions differ, for one branch admits the file and the other not
        have hne : b ≠ d := by
          rintro rfl
          exact hnot hadmits
        rcases mem_of_two_splits (hsplit.symm.trans hsplit') hne with
          ⟨hd, hb⟩ | ⟨hd, hb⟩
        · exact .inr ⟨d, hd, hadmits, st, hst, hbefore b hb k hoffers⟩
        · exact .inl ⟨d, hd, hadmits, st, hst, hafter b hb k hoffers⟩
  · intro h d hpick
    by_contra hnot
    obtain ⟨l₁, l₂, k, hsplit, hoffers, hbefore, hafter⟩ := mfsBranch_eq_some hpick
    rcases h l₁ d l₂ k hsplit hoffers hnot with
      ⟨c, hc, hadmits, st, hst, hle⟩ | ⟨c, hc, hadmits, st, hst, hlt⟩
    · have hpos : 0 < st.spaceavail := UInt64.lt_of_lt_of_le hoffers.2.2 hle
      have hless := hbefore c hc _ (hadmits.offers hst hpos)
      exact UInt64.not_le.mpr hless hle
    · have hpos : 0 < st.spaceavail := UInt64.lt_trans hoffers.2.2 hlt
      have hmost := hafter c hc _ (hadmits.offers hst hpos)
      exact UInt64.not_le.mpr hlt hmost

/-- A move goes to a branch the file may be created on, and fails without creating
anything if there is none, exactly if every branch that offers enough and on which the
file may not be created is outdone by one on which it may. -/
theorem movefile_destination_iff (m : Mounts) (branches : Branches)
    (fusepath : FusePath) (additionalSize : UInt64) (ans : MoveAnswers) (v : Files)
    (origfd : ℕ) :
    ((∀ st b, fstat v origfd ans.fstat = some st →
        destination m branches fusepath additionalSize ans v origfd = some b →
        Admits ans.statvfsCache (st.content.length + additionalSize.toNat) b) ∧
      ∀ st, fstat v origfd ans.fstat = some st →
        (∀ b ∈ branches, ¬ Admits ans.statvfsCache
          (st.content.length + additionalSize.toNat) b) →
        clonepathCall m fusepath additionalSize ans v origfd (toPaths branches) =
            none ∧
          movefile m (toPaths branches) fusepath additionalSize ans v origfd =
            some (-1, v, origfd)) ↔
    ∀ st src, fstat v origfd ans.fstat = some st →
      findonfs m (toPaths branches) fusepath ans v origfd = some src →
      ∀ l₁ b l₂ k, branches = l₁ ++ b :: l₂ →
        Offers ans.statvfsCache (UInt64.ofNat st.content.length + additionalSize) b k →
        ¬ Admits ans.statvfsCache (st.content.length + additionalSize.toNat) b →
        Outdone ans.statvfsCache (st.content.length + additionalSize.toNat) k
          l₁ l₂ := by
  have hpick : ∀ st src, fstat v origfd ans.fstat = some st →
      findonfs m (toPaths branches) fusepath ans v origfd = some src →
      destination m branches fusepath additionalSize ans v origfd =
        mfsBranch branches (UInt64.ofNat st.content.length + additionalSize)
          ans.statvfsCache := by
    intro st src hst hsrc
    simp only [destination, hst, hsrc]
  constructor
  · rintro ⟨hadmits, _⟩ st src hst hsrc
    refine (mfsBranch_admits_iff branches _ additionalSize _).mp ?_
    intro b hb
    exact hadmits st b hst ((hpick st src hst hsrc).trans hb)
  · intro h
    have hadmits : ∀ st b, fstat v origfd ans.fstat = some st →
        destination m branches fusepath additionalSize ans v origfd = some b →
        Admits ans.statvfsCache (st.content.length + additionalSize.toNat) b ∧
          b ∈ branches := by
      intro st b hst hb
      cases hsrc : findonfs m (toPaths branches) fusepath ans v origfd with
      | none => simp [destination, hst, hsrc] at hb
      | some src =>
          rw [hpick st src hst hsrc] at hb
          obtain ⟨l₁, l₂, _, hsplit, _⟩ := mfsBranch_eq_some hb
          refine ⟨(mfsBranch_admits_iff branches _ additionalSize _).mpr
            (h st src hst hsrc) b hb, ?_⟩
          rw [hsplit]
          exact List.mem_append_right l₁ List.mem_cons_self
    refine ⟨fun st b hst hb => (hadmits st b hst hb).1, ?_⟩
    intro st hst hnone
    apply movefile_of_destination_eq_none
    cases hd : destination m branches fusepath additionalSize ans v origfd with
    | none => rfl
    | some b =>
        obtain ⟨hb, hmem⟩ := hadmits st b hst hd
        exact absurd hb (hnone b hmem)

/-- The only branch with free space is tagged `RO`, and the file is moved there. -/
theorem movefile_to_readonly :
    destination twoMounts [⟨.RW, "/a".toList⟩, ⟨.RO, "/b".toList⟩] theFile 1
      (moving 0 9) oneFile 3 = some ⟨.RO, "/b".toList⟩ ∧
    (movefile twoMounts (toPaths [⟨.RW, "/a".toList⟩, ⟨.RO, "/b".toList⟩]) theFile 1
      (moving 0 9) oneFile 3).map (fun r =>
        (r.1, r.2.1.entry (twoMounts.slot theFile "/b".toList))) =
      some (0, some 11) := by
  constructor <;> decide

end Mergerfs
