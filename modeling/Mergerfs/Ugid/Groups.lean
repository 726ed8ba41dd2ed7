import Mathlib.Data.Finset.Card
import Mathlib.Data.List.GetD
import Mergerfs.Ugid.Set

/-!
# Supplementary groups across requests

The groups in force after `ugid::Set(uid,gid)` should depend on the request and the
user database only. They come from the cache, which is keyed by the uid although its
content was computed for a gid as well, which recycles records, and which is not
asked at all for gid zero. `Settled` is the condition on the requests a thread has
served under which the groups are those of a fresh record.
-/

namespace Mergerfs

structure UserDb where
  getpwuid : UInt32 → Option (List Char)
  getgrouplist : List Char → UInt32 → List UInt32

namespace UserDb

variable (db : UserDb)

def lookup (uid gid : UInt32) : Lookup :=
  (db.getpwuid uid).map fun name =>
    ((db.getgrouplist name gid).length, db.getgrouplist name gid)

/-- The groups of a request: those of a record filled for it for the first
time. -/
def groups (uid gid : UInt32) : List UInt32 :=
  (GidRec.zero.fill uid gid (db.lookup uid gid)).gids

def Answers (calls : List SetCall) : Prop :=
  ∀ c ∈ calls, c.lookup = db.lookup c.uid c.gid

/-- For a user in the database it does not matter which record is filled. -/
theorem fill_gids {uid : UInt32} (h : (db.getpwuid uid).isSome)
    (gid : UInt32) (rec : GidRec) :
    (rec.fill uid gid (db.lookup uid gid)).gids = db.groups uid gid := by
  obtain ⟨name, hname⟩ := Option.isSome_iff_exists.mp h
  simp only [groups, lookup, hname, Option.map_some, GidRec.fill]

end UserDb

def asked (calls : List SetCall) : List UInt32 :=
  (calls.filter fun c => c.gid ≠ 0).map SetCall.uid

theorem mem_asked {calls : List SetCall} {c : SetCall} (hc : c ∈ calls)
    (hgid : c.gid ≠ 0) : c.uid ∈ asked calls :=
  List.mem_map_of_mem (List.mem_filter.mpr ⟨hc, by simpa using hgid⟩)

theorem asked_subset_append (calls : List SetCall) (c : SetCall) :
    (asked calls).toFinset ⊆ (asked (calls ++ [c])).toFinset := by
  intro uid h
  rw [List.mem_toFinset] at h ⊢
  rw [asked, List.filter_append, List.map_append]
  exact List.mem_append_left _ h

/-- There is a record for every user, or the user has an entry that overwrites
whatever the record held. -/
def Room (db : UserDb) (calls : List SetCall) (uid : UInt32) : Prop :=
  (db.getpwuid uid).isSome ∨ (asked calls).toFinset.card ≤ MAXRECS

theorem Room.of_append {db : UserDb} {calls : List SetCall} {c : SetCall}
    {uid : UInt32} (h : Room db (calls ++ [c]) uid) : Room db calls uid :=
  h.imp_right fun hcard =>
    Nat.le_trans (Finset.card_le_card (asked_subset_append calls c)) hcard

def FromCall (db : UserDb) (calls : List SetCall) (uid : UInt32)
    (gids : List UInt32) : Prop :=
  ∃ d ∈ calls, d.uid = uid ∧ d.gid ≠ 0 ∧
    (Room db calls uid → gids = db.groups d.uid d.gid)

theorem FromCall.append {db : UserDb} {calls : List SetCall} {uid : UInt32}
    {gids : List UInt32} (h : FromCall db calls uid gids) (c : SetCall) :
    FromCall db (calls ++ [c]) uid gids := by
  obtain ⟨d, hd, huid, hgid, hroom⟩ := h
  exact ⟨d, List.mem_append_left _ hd, huid, hgid, fun h => hroom h.of_append⟩

structure Serving (db : UserDb) (calls : List SetCall) (t : Thread) :
    Prop where
  initialized : t.initialized = true
  ruid : t.cred.ruid = 0
  euid : t.currentuid = 0 → t.cred.euid = 0
  recs : ∀ rec ∈ t.cache.recs, FromCall db calls rec.uid rec.gids
  current : t.currentgid ≠ 0 → FromCall db calls t.currentuid t.groups

/-! ## One call -/

section Step

variable {db : UserDb} {calls : List SetCall} {t : Thread} {c : SetCall}

theorem fromCall_miss {recs : List GidRec} (hsorted : Sorted recs)
    (hrecs : ∀ rec ∈ recs, FromCall db calls rec.uid rec.gids)
    (hnew : ∀ rec ∈ recs, rec.uid ≠ c.uid) (hgid : c.gid ≠ 0)
    (hlookup : c.lookup = db.lookup c.uid c.gid) :
    FromCall db (calls ++ [c]) c.uid
      (cacheRec recs c.uid c.gid c.lookup c.rand).2.gids := by
  refine ⟨c, by simp, rfl, hgid, ?_⟩
  intro hroom
  rw [hlookup]
  by_cases hfull : recs.length = MAXRECS
  · obtain ⟨old, _, heq⟩ := cacheRec_of_eq hfull c.uid c.gid
      (db.lookup c.uid c.gid) c.rand
    rw [heq]
    rcases hroom with hsome | hcard
    · exact db.fill_gids hsome c.gid old
    · -- the users of the full cache and the new one are too many
      exfalso
      have hsub : insert c.uid (recs.map GidRec.uid).toFinset ⊆
          (asked (calls ++ [c])).toFinset := by
        intro uid huid
        rw [Finset.mem_insert, List.mem_toFinset] at huid
        rw [List.mem_toFinset]
        rcases huid with rfl | huid
        · exact mem_asked (by simp) hgid
        · obtain ⟨rec, hrec, rfl⟩ := List.mem_map.mp huid
          obtain ⟨d, hd, hduid, hdgid, _⟩ := hrecs rec hrec
          rw [← hduid]
          exact mem_asked (List.mem_append_left _ hd) hdgid
      have hnot : c.uid ∉ (recs.map GidRec.uid).toFinset := by
        rw [List.mem_toFinset]
        intro hin
        obtain ⟨rec, hrec, heq⟩ := List.mem_map.mp hin
        exact hnew rec hrec heq
      have hle := Finset.card_le_card hsub
      rw [Finset.card_insert_of_notMem hnot,
        List.toFinset_card_of_nodup hsorted.nodup, List.length_map, hfull] at hle
      omega
  · rw [cacheRec_of_ne hfull]
    rfl

theorem initgroups_fromCall
    (hrecs : ∀ rec ∈ t.cache.recs, FromCall db calls rec.uid rec.gids)
    (hroot : t.cred.euid = 0) (hgid : c.gid ≠ 0)
    (hlookup : c.lookup = db.lookup c.uid c.gid) :
    (∀ rec ∈ (t.initgroups c).cache.recs,
        FromCall db (calls ++ [c]) rec.uid rec.gids) ∧
      FromCall db (calls ++ [c]) c.uid (t.initgroups c).groups := by
  have heq : t.initgroups c = { t with
      cache := (t.cache.initgroups c.uid c.gid c.lookup c.rand).1
      groups := (t.cache.initgroups c.uid c.gid c.lookup c.rand).2 } := by
    simp [Thread.initgroups, Thread.setgroups, hroot]
  rw [heq]
  dsimp only
  rcases t.cache.initgroups_cases c.uid c.gid c.lookup c.rand with
    ⟨rec, hrec, huid, hhit⟩ | ⟨hnew, hmem, hgids⟩
  · rw [hhit]
    refine ⟨fun rec hrec => (hrecs rec hrec).append c, ?_⟩
    rw [← huid]
    exact (hrecs rec hrec).append c
  · have hmiss := fromCall_miss t.cache.sorted hrecs hnew hgid hlookup
    rw [hgids]
    refine ⟨?_, hmiss⟩
    intro rec hrec
    rcases mem_cacheRec ((hmem rec).mp hrec) with hold | rfl
    · exact (hrecs rec hold).append c
    · rw [cacheRec_uid]
      exact hmiss

theorem Serving.becomeRoot (h : Serving db calls t) :
    t.becomeRoot.cred.ruid = 0 ∧ t.becomeRoot.cred.euid = 0 ∧
      t.becomeRoot.cache = t.cache := by
  unfold Thread.becomeRoot
  by_cases hroot : t.currentuid = 0
  · simp [hroot, h.ruid, h.euid hroot]
  · simp [hroot, h.ruid, Cred.setreuid_zero h.ruid]

theorem Serving.switch (h : Serving db calls t)
    (hlookup : c.lookup = db.lookup c.uid c.gid) :
    Serving db (calls ++ [c]) (t.switch c) := by
  obtain ⟨hruid, heuid, hcache⟩ := h.becomeRoot
  have hrecs : ∀ rec ∈ t.becomeRoot.cache.recs,
      FromCall db calls rec.uid rec.gids := by
    rw [hcache]
    exact h.recs
  -- the groups change only with a gid other than zero, and the uid comes last
  have hgid : (t.becomeRoot.assumeGid c).cred.ruid = 0 ∧
      (t.becomeRoot.assumeGid c).cred.euid = 0 ∧
      (∀ rec ∈ (t.becomeRoot.assumeGid c).cache.recs,
        FromCall db (calls ++ [c]) rec.uid rec.gids) ∧
      (c.gid ≠ 0 → FromCall db (calls ++ [c]) c.uid
        (t.becomeRoot.assumeGid c).groups) := by
    unfold Thread.assumeGid
    by_cases hzero : c.gid = 0
    · rw [if_neg (by simpa using hzero)]
      exact ⟨hruid, heuid, fun rec hrec => (hrecs rec hrec).append c,
        fun hne => absurd hzero hne⟩
    · rw [if_pos hzero, Thread.initgroups_cred]
      have hinit := initgroups_fromCall (t := { t.becomeRoot with
        cred := t.becomeRoot.cred.setregid noChange c.gid }) hrecs
        (by simpa using heuid) hzero hlookup
      exact ⟨by simpa using hruid, by simpa using heuid, hinit.1,
        fun _ => hinit.2⟩
  obtain ⟨hruid, heuid, hrecs, hgroups⟩ := hgid
  have huid : (t.switch c).cache = (t.becomeRoot.assumeGid c).cache ∧
      (t.switch c).groups = (t.becomeRoot.assumeGid c).groups := by
    unfold Thread.switch Thread.assumeUid
    split_ifs <;> exact ⟨rfl, rfl⟩
  refine ⟨by rw [Thread.switch_initialized, h.initialized], ?_, ?_, ?_, ?_⟩
  · by_cases hzero : c.uid = 0 <;>
      simp [Thread.switch, Thread.assumeUid, hzero, hruid]
  · intro hzero
    have hzero' : c.uid = 0 := hzero
    simp [Thread.switch, Thread.assumeUid, hzero', heuid]
  · rw [huid.1]
    exact hrecs
  · intro hne
    rw [huid.2]
    exact hgroups hne

theorem Serving.set (h : Serving db calls t)
    (hlookup : c.lookup = db.lookup c.uid c.gid) :
    Serving db (calls ++ [c]) (t.set c) ∧
      (t.set c).currentuid = c.uid ∧ (t.set c).currentgid = c.gid := by
  have hinit : t.init = t := by simp [Thread.init, h.initialized]
  rw [Thread.set, hinit]
  split_ifs with hsame
  · refine ⟨⟨h.initialized, h.ruid, h.euid, ?_, ?_⟩, hsame.1.symm, hsame.2.symm⟩
    · intro rec hrec
      exact (h.recs rec hrec).append c
    · intro hne
      exact (h.current hne).append c
  · exact ⟨h.switch hlookup, rfl, rfl⟩

end Step

/-! ## Runs -/

section Runs

variable {db : UserDb} {t : Thread}

theorem serving_run {calls done : List SetCall} (h : Serving db done t)
    (hdb : db.Answers calls) : Serving db (done ++ calls) (t.run calls) := by
  induction calls generalizing t done with
  | nil => simpa [Thread.run] using h
  | cons c calls ih =>
      have hstep := (h.set (hdb c List.mem_cons_self)).1
      have hrest := ih hstep fun d hd => hdb d (List.mem_cons_of_mem c hd)
      rw [List.append_assoc, List.singleton_append] at hrest
      exact hrest

theorem serving_init (ht : t.Fresh) (hcache : t.cache.recs = []) :
    Serving db [] t.init := by
  obtain ⟨hagreed, huid, hgid⟩ := ht.init
  have hrecs : t.init.cache.recs = [] := by
    simp [Thread.init, ht.initialized, hcache]
  refine ⟨hagreed.initialized, hagreed.ruid, ?_, ?_, ?_⟩
  · intro _
    rw [hagreed.euid, huid]
  · rw [hrecs]
    simp
  · intro hne
    exact absurd hgid hne

/-- The requests a thread served before `c` cannot show in the groups of `c`:
every earlier request of the same user with a gid other than zero had the same
gid, and no record was recycled for a user that is not in the database. -/
structure Settled (db : UserDb) (calls : List SetCall) (c : SetCall) :
    Prop where
  gid_ne : c.gid ≠ 0
  same_gid : ∀ d ∈ calls, d.uid = c.uid → d.gid ≠ 0 → d.gid = c.gid
  room : Room db (calls ++ [c]) c.uid

/-- After a settled request the groups are those of a fresh record. -/
theorem run_groups (ht : t.Fresh) (hcache : t.cache.recs = [])
    {calls : List SetCall} {c : SetCall} (hdb : db.Answers (calls ++ [c]))
    (h : Settled db calls c) :
    (t.run (calls ++ [c])).groups = db.groups c.uid c.gid := by
  have hserving : Serving db calls (t.init.run calls) :=
    serving_run (serving_init ht hcache) fun d hd =>
      hdb d (List.mem_append_left _ hd)
  obtain ⟨hset, huid, hgid⟩ := hserving.set (hdb c (by simp))
  rw [t.run_concat]
  have hcurrent := hset.current (by rw [hgid]; exact h.gid_ne)
  rw [huid] at hcurrent
  obtain ⟨d, hd, hduid, hdgid, hgroups⟩ := hcurrent
  rw [hgroups h.room, hduid]
  have hsame : d.gid = c.gid := by
    rcases List.mem_append.mp hd with hd | hd
    · exact h.same_gid d hd hduid hdgid
    · rw [List.mem_singleton.mp hd]
  rw [hsame]

end Runs

/-- Two histories that end with the same settled request leave the same groups. -/
theorem set_groups_eq (db : UserDb) (t : Thread) (ht : t.Fresh)
    (hcache : t.cache.recs = []) (calls calls' : List SetCall)
    (c c' : SetCall) (hdb : db.Answers (calls ++ [c]))
    (hdb' : db.Answers (calls' ++ [c'])) (huid : c.uid = c'.uid)
    (hgid : c.gid = c'.gid) (h : Settled db calls c)
    (h' : Settled db calls' c') :
    (t.run (calls ++ [c])).groups = (t.run (calls' ++ [c'])).groups := by
  rw [run_groups ht hcache hdb h, run_groups ht hcache hdb' h', huid, hgid]

def smallDb : UserDb where
  getpwuid uid := if uid = 1000 then some ['a'] else if uid = 1001 then some ['b']
    else none
  getgrouplist _ gid := [gid, 27]

/-- One user alone, and after another one. -/
theorem set_groups_eq_users :
    (Thread.root.run [⟨1000, 100, smallDb.lookup 1000 100, 0⟩]).groups =
      (Thread.root.run [⟨1001, 100, smallDb.lookup 1001 100, 0⟩,
        ⟨1000, 100, smallDb.lookup 1000 100, 0⟩]).groups := by
  refine set_groups_eq smallDb Thread.root Thread.fresh_root rfl []
    [⟨1001, 100, smallDb.lookup 1001 100, 0⟩]
    ⟨1000, 100, smallDb.lookup 1000 100, 0⟩
    ⟨1000, 100, smallDb.lookup 1000 100, 0⟩ ?_ ?_ rfl rfl ?_ ?_
  · simp [UserDb.Answers]
  · simp [UserDb.Answers]
  · exact ⟨by decide, by simp, .inl rfl⟩
  · exact ⟨by decide, by simp, .inl rfl⟩

/-- With gid zero the user keeps the groups of the one served before. -/
theorem set_groups_leak :
    (Thread.root.run [⟨1000, 0, smallDb.lookup 1000 0, 0⟩]).groups = [] ∧
      (Thread.root.run [⟨1001, 100, smallDb.lookup 1001 100, 0⟩,
        ⟨1000, 0, smallDb.lookup 1000 0, 0⟩]).groups = [100, 27] :=
  ⟨rfl, rfl⟩

end Mergerfs
