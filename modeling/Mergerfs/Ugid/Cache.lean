import Mathlib.Data.List.GetD
import Mathlib.Data.List.Sort
import Mergerfs.Library.LowerBound

/-!
# The cache of supplementary groups

`gid_t_cache` keeps the groups of up to 256 users, sorted by uid. A user that is
not in it gets the next free record, or a random one once all are in use, and the
record is filled from the user database; when the user is not in the database, the
record keeps the groups it had.

The array of records is the list of the records in use, and the array of a record
the list of its first `size` entries: nothing reads beyond. A record has at most 32
groups, and the records in use are strictly sorted by uid whenever `initgroups`
returns; both are part of the types.
-/

namespace Mergerfs

def MAXGIDS : ℕ := 32

def MAXRECS : ℕ := 256

/-- `gid_t_rec`. -/
structure GidRec where
  uid : UInt32
  gids : List UInt32
  size_le : gids.length ≤ MAXGIDS

def GidRec.zero : GidRec := ⟨0, [], Nat.zero_le _⟩

/-- What the user database answers for a user: nothing when `getpwuid_r` fails,
else the number of groups the first call of `getgrouplist` reports and the groups
the second call finds. -/
abbrev Lookup := Option (ℕ × List UInt32)

/-- What `gid_t_cache::cache` writes into the record it got: the groups if they
fit, the group of the request if they do not. -/
def GidRec.fill (rec : GidRec) (uid gid : UInt32) : Lookup → GidRec
  | none => { rec with uid := uid }
  | some (n, groups) =>
      if h : groups.length ≤ min MAXGIDS n then
        ⟨uid, groups, Nat.le_trans h (Nat.min_le_left _ _)⟩
      else ⟨uid, [gid], Nat.succ_le_of_lt (by decide)⟩

@[simp] theorem GidRec.fill_uid (rec : GidRec) (uid gid : UInt32)
    (lookup : Lookup) : (rec.fill uid gid lookup).uid = uid := by
  unfold GidRec.fill
  split
  · rfl
  · split_ifs <;> rfl

/-- `gid_t_cache::allocrec`: the records and the position of the one to use. -/
def allocrec (recs : List GidRec) (rand : ℕ) : List GidRec × ℕ :=
  if recs.length = MAXRECS then (recs, rand % MAXRECS)
  else (recs ++ [GidRec.zero], recs.length)

/-- `gid_t_cache::cache`: the records, not sorted yet, and the one it filled. -/
def cacheRec (recs : List GidRec) (uid gid : UInt32) (lookup : Lookup)
    (rand : ℕ) : List GidRec × GidRec :=
  let (recs, i) := allocrec recs rand
  let rec' := (recs.getD i GidRec.zero).fill uid gid lookup
  (recs.set i rec', rec')

def lowerBound (recs : List GidRec) (uid : UInt32) : ℕ :=
  LowerBound.search (fun rec => decide (rec.uid < uid)) recs

def findRec (recs : List GidRec) (uid : UInt32) : Option GidRec :=
  recs[lowerBound recs uid]?.filter fun rec => rec.uid == uid

def sortRecs (recs : List GidRec) : List GidRec :=
  recs.insertionSort fun a b => a.uid ≤ b.uid

def Sorted (recs : List GidRec) : Prop :=
  recs.Pairwise fun a b => a.uid < b.uid

/-! ## The search finds the record -/

theorem lowerBound_eq (recs : List GidRec) (uid : UInt32) :
    lowerBound recs uid =
      LowerBound.search (fun rec => decide (rec.uid.toNat < uid.toNat)) recs := by
  simp only [lowerBound, UInt32.lt_iff_toNat_lt]

theorem findRec_of_mem {recs : List GidRec} (h : Sorted recs) {rec : GidRec}
    (hrec : rec ∈ recs) : findRec recs rec.uid = some rec := by
  have hkey : recs.Pairwise fun a b => a.uid.toNat < b.uid.toNat :=
    h.imp fun hab => UInt32.lt_iff_toNat_lt.mp hab
  have hget : recs[lowerBound recs rec.uid]? = some rec := by
    rw [lowerBound_eq]
    exact LowerBound.getElem?_search_of_mem hkey hrec
  rw [findRec, hget]
  simp

theorem findRec_eq_some {recs : List GidRec} {uid : UInt32} {rec : GidRec}
    (h : findRec recs uid = some rec) : rec ∈ recs ∧ rec.uid = uid := by
  rw [findRec, Option.filter_eq_some_iff] at h
  exact ⟨List.mem_of_getElem? h.1, by simpa using h.2⟩

theorem not_mem_of_findRec_eq_none {recs : List GidRec} (h : Sorted recs)
    {uid : UInt32} (hnone : findRec recs uid = none) :
    ∀ rec ∈ recs, rec.uid ≠ uid := by
  intro rec hrec heq
  subst heq
  rw [findRec_of_mem h hrec] at hnone
  cases hnone

/-! ## What a miss does to the records -/

theorem cacheRec_of_ne {recs : List GidRec} (h : recs.length ≠ MAXRECS)
    (uid gid : UInt32) (lookup : Lookup) (rand : ℕ) :
    cacheRec recs uid gid lookup rand =
      (recs ++ [GidRec.zero.fill uid gid lookup],
        GidRec.zero.fill uid gid lookup) := by
  have hget : (recs ++ [GidRec.zero]).getD recs.length GidRec.zero =
      GidRec.zero := by
    simp
  simp only [cacheRec, allocrec, if_neg h, hget]
  simp

/-- Afterwards a record that is in use is filled, the one `rand` names. -/
theorem cacheRec_of_full {recs : List GidRec} (h : recs.length = MAXRECS)
    (uid gid : UInt32) (lookup : Lookup) (rand : ℕ) :
    ∃ old, recs[rand % MAXRECS]? = some old ∧
      cacheRec recs uid gid lookup rand =
        (recs.set (rand % MAXRECS) (old.fill uid gid lookup),
          old.fill uid gid lookup) := by
  have hlt : rand % MAXRECS < recs.length := by
    rw [h]
    exact Nat.mod_lt _ (by decide)
  refine ⟨recs[rand % MAXRECS], List.getElem?_eq_getElem hlt, ?_⟩
  simp only [cacheRec, allocrec, if_pos h, List.getD_eq_getElem _ _ hlt]

theorem cacheRec_of_eq {recs : List GidRec} (h : recs.length = MAXRECS)
    (uid gid : UInt32) (lookup : Lookup) (rand : ℕ) :
    ∃ old ∈ recs, cacheRec recs uid gid lookup rand =
      (recs.set (rand % MAXRECS) (old.fill uid gid lookup),
        old.fill uid gid lookup) := by
  obtain ⟨old, hold, heq⟩ := cacheRec_of_full h uid gid lookup rand
  exact ⟨old, List.mem_of_getElem? hold, heq⟩

theorem cacheRec_uid (recs : List GidRec) (uid gid : UInt32) (lookup : Lookup)
    (rand : ℕ) : (cacheRec recs uid gid lookup rand).2.uid = uid :=
  GidRec.fill_uid _ _ _ _

/-- After a miss the records are the new one and records that were there. -/
theorem mem_cacheRec {recs : List GidRec} {uid gid : UInt32} {lookup : Lookup}
    {rand : ℕ} {rec : GidRec}
    (h : rec ∈ (cacheRec recs uid gid lookup rand).1) :
    rec ∈ recs ∨ rec = (cacheRec recs uid gid lookup rand).2 := by
  by_cases hfull : recs.length = MAXRECS
  · obtain ⟨old, _, heq⟩ := cacheRec_of_eq hfull uid gid lookup rand
    rw [heq] at h ⊢
    exact List.mem_or_eq_of_mem_set h
  · rw [cacheRec_of_ne hfull] at h ⊢
    simpa using h

theorem length_cacheRec_le {recs : List GidRec} (h : recs.length ≤ MAXRECS)
    (uid gid : UInt32) (lookup : Lookup) (rand : ℕ) :
    (cacheRec recs uid gid lookup rand).1.length ≤ MAXRECS := by
  by_cases hfull : recs.length = MAXRECS
  · obtain ⟨old, _, heq⟩ := cacheRec_of_eq hfull uid gid lookup rand
    rw [heq, List.length_set]
    exact h
  · rw [cacheRec_of_ne hfull, List.length_append, List.length_singleton]
    omega

theorem nodup_cacheRec {recs : List GidRec} (h : (recs.map GidRec.uid).Nodup)
    {uid : UInt32} (hnew : ∀ rec ∈ recs, rec.uid ≠ uid) (gid : UInt32)
    (lookup : Lookup) (rand : ℕ) :
    ((cacheRec recs uid gid lookup rand).1.map GidRec.uid).Nodup := by
  have hmem : uid ∉ recs.map GidRec.uid := by
    intro hin
    obtain ⟨rec, hrec, heq⟩ := List.mem_map.mp hin
    exact hnew rec hrec heq
  by_cases hfull : recs.length = MAXRECS
  · obtain ⟨old, _, heq⟩ := cacheRec_of_eq hfull uid gid lookup rand
    rw [heq, List.map_set, GidRec.fill_uid]
    exact h.set hmem
  · rw [cacheRec_of_ne hfull, List.map_append, List.map_singleton,
      GidRec.fill_uid]
    exact List.nodup_append.mpr ⟨h, List.nodup_singleton _, by
      intro a ha b hb
      obtain rfl := List.mem_singleton.mp hb
      intro heq
      exact hmem (heq ▸ ha)⟩

theorem sorted_sortRecs {recs : List GidRec}
    (h : (recs.map GidRec.uid).Nodup) : Sorted (sortRecs recs) := by
  have htotal : Std.Total fun a b : GidRec => a.uid ≤ b.uid :=
    ⟨fun a b => UInt32.le_total a.uid b.uid⟩
  have htrans : IsTrans GidRec fun a b => a.uid ≤ b.uid :=
    ⟨fun a b c => UInt32.le_trans⟩
  have hperm := List.perm_insertionSort (fun a b : GidRec => a.uid ≤ b.uid) recs
  have hnodup : (sortRecs recs).Pairwise fun a b => a.uid ≠ b.uid :=
    List.pairwise_map.mp ((hperm.map GidRec.uid).nodup_iff.mpr h)
  have hle : (sortRecs recs).Pairwise fun a b => a.uid ≤ b.uid :=
    List.pairwise_insertionSort _ recs
  exact (hle.and hnodup).imp fun hab => UInt32.lt_of_le_of_ne hab.1 hab.2

theorem Sorted.nodup {recs : List GidRec} (h : Sorted recs) :
    (recs.map GidRec.uid).Nodup :=
  List.pairwise_map.mpr (h.imp UInt32.ne_of_lt)

/-! ## The cache -/

/-- `gid_t_cache`, as every call of `initgroups` finds and leaves it. -/
structure GidCache where
  recs : List GidRec
  size_le : recs.length ≤ MAXRECS
  sorted : Sorted recs

def GidCache.zero : GidCache := ⟨[], Nat.zero_le _, List.Pairwise.nil⟩

def GidCache.miss (c : GidCache) (uid gid : UInt32) (lookup : Lookup)
    (rand : ℕ) (h : findRec c.recs uid = none) : GidCache where
  recs := sortRecs (cacheRec c.recs uid gid lookup rand).1
  size_le := by
    rw [sortRecs, List.length_insertionSort]
    exact length_cacheRec_le c.size_le uid gid lookup rand
  sorted := sorted_sortRecs (nodup_cacheRec c.sorted.nodup
    (not_mem_of_findRec_eq_none c.sorted h) gid lookup rand)

/-- `gid_t_cache::initgroups`: the cache it leaves and the groups it hands to
`setgroups`. -/
def GidCache.initgroups (c : GidCache) (uid gid : UInt32) (lookup : Lookup)
    (rand : ℕ) : GidCache × List UInt32 :=
  match h : findRec c.recs uid with
  | some rec => (c, rec.gids)
  | none =>
      (c.miss uid gid lookup rand h,
        (cacheRec c.recs uid gid lookup rand).2.gids)

/-- A call of `initgroups` finds the record of the user or fills one, and hands
out its groups. -/
theorem GidCache.initgroups_cases (c : GidCache) (uid gid : UInt32)
    (lookup : Lookup) (rand : ℕ) :
    (∃ rec ∈ c.recs, rec.uid = uid ∧
        c.initgroups uid gid lookup rand = (c, rec.gids)) ∨
      (∀ rec ∈ c.recs, rec.uid ≠ uid) ∧
        (∀ rec, rec ∈ (c.initgroups uid gid lookup rand).1.recs ↔
          rec ∈ (cacheRec c.recs uid gid lookup rand).1) ∧
        (c.initgroups uid gid lookup rand).2 =
          (cacheRec c.recs uid gid lookup rand).2.gids := by
  unfold GidCache.initgroups
  split
  · rename_i rec h
    obtain ⟨hmem, huid⟩ := findRec_eq_some h
    exact .inl ⟨rec, hmem, huid, rfl⟩
  · rename_i h
    refine .inr ⟨not_mem_of_findRec_eq_none c.sorted h, ?_, rfl⟩
    intro rec
    exact List.mem_insertionSort _

end Mergerfs
