import Mergerfs.Ugid.Groups

/-!
# The records of the cache, call by call

`getgrouplist` stores as many groups as it is given room for, sets the count to the
number there are, and returns `-1` when some did not fit. `gid_t_cache::cache` asks
it for the number first and then for at most 32 groups, and takes the `-1` of a user
with more for a failure.

`GidCache` carries the order of its records. Here the records are a plain list, as
the array is, and `initgroups` is what the code does with it: a search that may
leave the array, and a sort on a miss only. A run of calls from the empty list goes
through the records of `GidCache`.
-/

namespace Mergerfs

/-! ## The groups of a new record -/

/-- `getgrouplist` for a user with the groups `groups`: what it returns, the groups
it stores and the count it leaves. -/
def getgrouplist (groups : List UInt32) (ngroups : ℕ) : ℤ × List UInt32 × ℕ :=
  if groups.length ≤ ngroups then (groups.length, groups, groups.length)
  else (-1, groups.take ngroups, groups.length)

def recordGroups (gid : UInt32) (groups : List UInt32) : List UInt32 :=
  let size := (getgrouplist groups 0).2.2
  let size := min MAXGIDS size
  let r := getgrouplist groups size
  if r.1 = -1 then [gid] else r.2.1

theorem getgrouplist_of_le {groups : List UInt32} {ngroups : ℕ}
    (h : groups.length ≤ ngroups) :
    getgrouplist groups ngroups = ((groups.length : ℤ), groups, groups.length) :=
  if_pos h

theorem getgrouplist_of_lt {groups : List UInt32} {ngroups : ℕ}
    (h : ngroups < groups.length) :
    getgrouplist groups ngroups = (-1, groups.take ngroups, groups.length) :=
  if_neg (Nat.not_le.mpr h)

theorem getgrouplist_count (groups : List UInt32) (ngroups : ℕ) :
    (getgrouplist groups ngroups).2.2 = groups.length := by
  unfold getgrouplist
  split_ifs <;> rfl

theorem recordGroups_eq (gid : UInt32) (groups : List UInt32) :
    recordGroups gid groups =
      if groups.length ≤ MAXGIDS then groups else [gid] := by
  simp only [recordGroups, getgrouplist_count]
  by_cases hle : groups.length ≤ MAXGIDS
  · rw [if_pos hle, Nat.min_eq_right hle, getgrouplist_of_le (Nat.le_refl _),
      if_neg (by omega)]
  · rw [if_neg hle, Nat.min_eq_left (Nat.le_of_not_le hle),
      getgrouplist_of_lt (Nat.lt_of_not_le hle), if_pos rfl]

theorem UserDb.gids_fill (db : UserDb) {uid : UInt32} {name : List Char}
    (h : db.getpwuid uid = some name) (gid : UInt32) (rec : GidRec) :
    (rec.fill uid gid (db.lookup uid gid)).gids =
      recordGroups gid (db.getgrouplist name gid) := by
  rw [recordGroups_eq]
  simp only [UserDb.lookup, h, Option.map_some, GidRec.fill,
    Nat.le_min, Nat.le_refl, and_true]
  split_ifs <;> rfl

/-- The record that is built for a user of the database holds the first 32 of the
user's groups exactly when there are no more. -/
theorem cacheRec_gids_iff (db : UserDb) (recs : List GidRec) (uid gid : UInt32)
    (name : List Char) (hname : db.getpwuid uid = some name) (rand : ℕ) :
    (cacheRec recs uid gid (db.lookup uid gid) rand).2.gids =
        (db.getgrouplist name gid).take MAXGIDS ↔
      (db.getgrouplist name gid).length ≤ MAXGIDS := by
  have hgids : (cacheRec recs uid gid (db.lookup uid gid) rand).2.gids =
      recordGroups gid (db.getgrouplist name gid) := db.gids_fill hname gid _
  rw [hgids, recordGroups_eq]
  split_ifs with hle
  · rw [List.take_of_length_le hle]
    exact iff_of_true rfl hle
  · refine iff_of_false ?_ hle
    intro heq
    have hlen := congrArg List.length heq
    rw [List.length_singleton, List.length_take] at hlen
    have : MAXGIDS = 32 := rfl
    omega

def uniformDb (n : ℕ) : UserDb where
  getpwuid _ := some ['a']
  getgrouplist _ gid := (List.range n).map fun i => gid + UInt32.ofNat i

theorem cacheRec_gids_iff_three :
    (cacheRec [] 1000 100 ((uniformDb 3).lookup 1000 100) 0).2.gids =
      [100, 101, 102] :=
  (cacheRec_gids_iff (uniformDb 3) [] 1000 100 ['a'] rfl 0).mpr (by decide)

/-- Of 33 groups one is left. -/
theorem cacheRec_gids_overflow :
    (cacheRec [] 1000 100 ((uniformDb 33).lookup 1000 100) 0).2.gids = [100] ∧
      (((uniformDb 33).getgrouplist ['a'] 100).take MAXGIDS).length = 32 := by
  decide

/-! ## The records as an array -/

def checkedLowerBound (recs : List GidRec) (uid : UInt32) : Option ℕ :=
  LowerBound.checkedSearch (fun rec => decide (rec.uid < uid)) recs

def initgroupsRecs (recs : List GidRec) (call : SetCall) : Option (List GidRec) :=
  (checkedLowerBound recs call.uid).map fun i =>
    match recs[i]? with
    | none => sortRecs (cacheRec recs call.uid call.gid call.lookup call.rand).1
    | some rec =>
        if rec.uid ≠ call.uid then
          sortRecs (cacheRec recs call.uid call.gid call.lookup call.rand).1
        else recs

theorem checkedLowerBound_eq (recs : List GidRec) (uid : UInt32) :
    checkedLowerBound recs uid = some (lowerBound recs uid) :=
  LowerBound.checkedSearch_eq _ recs

theorem GidCache.recs_initgroups (c : GidCache) (uid gid : UInt32)
    (lookup : Lookup) (rand : ℕ) :
    (c.initgroups uid gid lookup rand).1.recs =
      if findRec c.recs uid = none then
        sortRecs (cacheRec c.recs uid gid lookup rand).1
      else c.recs := by
  unfold GidCache.initgroups
  split
  · rename_i rec h
    rw [h, if_neg (Option.some_ne_none rec)]
  · rename_i h
    rw [if_pos h]
    rfl

/-- On the records of a cache the code does what `GidCache.initgroups` does. -/
theorem initgroupsRecs_eq (c : GidCache) (call : SetCall) :
    initgroupsRecs c.recs call =
      some (c.initgroups call.uid call.gid call.lookup call.rand).1.recs := by
  rw [initgroupsRecs, checkedLowerBound_eq, Option.map_some, c.recs_initgroups]
  cases hget : c.recs[lowerBound c.recs call.uid]? with
  | none =>
      have hfind : findRec c.recs call.uid = none := by
        rw [findRec, hget, Option.filter_none]
      rw [if_pos hfind]
  | some rec =>
      by_cases huid : rec.uid = call.uid
      · have hfind : findRec c.recs call.uid = some rec := by
          rw [findRec, hget, Option.filter_some, huid, beq_self_eq_true, if_pos rfl]
        rw [hfind, if_neg (Option.some_ne_none rec)]
        simp [huid]
      · have hfind : findRec c.recs call.uid = none := by
          rw [findRec, hget, Option.filter_some, beq_false_of_ne huid]
          rfl
        rw [if_pos hfind]
        simp [huid]

/-- Every run from the empty array goes through the records of a cache. -/
theorem exists_cache_of_run (calls : List SetCall) :
    ∃ c : GidCache, calls.foldlM initgroupsRecs [] = some c.recs := by
  induction calls using List.reverseRecOn with
  | nil => exact ⟨GidCache.zero, rfl⟩
  | append_singleton calls call ih =>
      obtain ⟨c, hc⟩ := ih
      refine ⟨(c.initgroups call.uid call.gid call.lookup call.rand).1, ?_⟩
      rw [List.foldlM_append, hc]
      simp [initgroupsRecs_eq]

theorem boundary_lowerBound {recs : List GidRec} (h : Sorted recs)
    (uid : UInt32) :
    LowerBound.Boundary (fun rec => decide (rec.uid < uid)) recs
      (lowerBound recs uid) (lowerBound recs uid) := by
  apply LowerBound.boundary_search
  apply h.imp
  intro a b hab hb
  exact decide_eq_true (UInt32.lt_trans hab (of_decide_eq_true hb))

theorem lt_lowerBound_iff {recs : List GidRec} (h : Sorted recs) (uid : UInt32)
    {j : ℕ} {rec : GidRec} (hrec : recs[j]? = some rec) :
    j < lowerBound recs uid ↔ rec.uid < uid := by
  have hb := boundary_lowerBound h uid
  constructor
  · intro hlt
    exact of_decide_eq_true (hb.before j rec hlt hrec)
  · intro hlt
    by_contra hge
    exact of_decide_eq_false (hb.after j rec (Nat.not_lt.mp hge) hrec) hlt

theorem cacheRec_mem (recs : List GidRec) (uid gid : UInt32) (lookup : Lookup)
    (rand : ℕ) :
    (cacheRec recs uid gid lookup rand).2 ∈
      (cacheRec recs uid gid lookup rand).1 := by
  by_cases hfull : recs.length = MAXRECS
  · obtain ⟨old, hold, heq⟩ := cacheRec_of_full hfull uid gid lookup rand
    obtain ⟨hlt, -⟩ := List.getElem?_eq_some_iff.mp hold
    rw [heq]
    exact List.mem_of_getElem? (List.getElem?_set_self hlt)
  · rw [cacheRec_of_ne hfull]
    exact List.mem_append_right _ List.mem_cons_self

theorem GidCache.exists_uid_initgroups (c : GidCache) (uid gid : UInt32)
    (lookup : Lookup) (rand : ℕ) :
    ∃ rec ∈ (c.initgroups uid gid lookup rand).1.recs, rec.uid = uid := by
  rcases c.initgroups_cases uid gid lookup rand with
    ⟨rec, hrec, huid, heq⟩ | ⟨-, hmem, -⟩
  · rw [heq]
    exact ⟨rec, hrec, huid⟩
  · exact ⟨_, (hmem _).mpr (cacheRec_mem _ _ _ _ _), cacheRec_uid _ _ _ _ _⟩

/-- A run of calls from the empty array, with whatever records are recycled, never
looks outside of the array, and between the calls the records are a strictly sorted
set of at most 256: the search ends at the first record that is not below the user,
a user with a record is found, no user has two, and a call leaves the user with
one. -/
theorem initgroups_sorted_set (calls : List SetCall) :
    ∃ recs, calls.foldlM initgroupsRecs [] = some recs ∧
      recs.length ≤ MAXRECS ∧ Sorted recs ∧
      (∀ uid, ∃ i, checkedLowerBound recs uid = some i ∧ i ≤ recs.length ∧
        ∀ j rec, recs[j]? = some rec → (j < i ↔ rec.uid < uid)) ∧
      (∀ rec ∈ recs, findRec recs rec.uid = some rec) ∧
      (recs.map GidRec.uid).Nodup ∧
      ∀ call, ∃ recs', initgroupsRecs recs call = some recs' ∧
        ∃ rec ∈ recs', rec.uid = call.uid := by
  obtain ⟨c, hrun⟩ := exists_cache_of_run calls
  refine ⟨c.recs, hrun, c.size_le, c.sorted, ?_, ?_, c.sorted.nodup, ?_⟩
  · intro uid
    exact ⟨lowerBound c.recs uid, checkedLowerBound_eq c.recs uid,
      (boundary_lowerBound c.sorted uid).le_length,
      fun j rec hrec => lt_lowerBound_iff c.sorted uid hrec⟩
  · intro rec hrec
    exact findRec_of_mem c.sorted hrec
  · intro call
    exact ⟨_, initgroupsRecs_eq c call, c.exists_uid_initgroups _ _ _ _⟩

end Mergerfs
