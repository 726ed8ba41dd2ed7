import Mergerfs.Ugid.Set

/-!
# Where the groups of the cache come from

A record of the cache should hold groups of its own user. Two things can put others
into it. When a full cache recycles a record and the user is not in the database,
the record keeps the groups of the user it belonged to. And when the groups of a
user do not fit, the record gets the group of the request that filled it, which
later requests of the user need not share.
-/

namespace Mergerfs

namespace SetCall

def Lists (c : SetCall) (gids : List UInt32) : Prop :=
  ∃ n, c.lookup = some (n, gids) ∧ gids.length ≤ min MAXGIDS n

def Overflows (c : SetCall) : Prop :=
  ∃ n groups, c.lookup = some (n, groups) ∧ min MAXGIDS n < groups.length

end SetCall

namespace GidCache

def step (c : GidCache) (call : SetCall) : GidCache :=
  (c.initgroups call.uid call.gid call.lookup call.rand).1

def output (c : GidCache) (call : SetCall) : List UInt32 :=
  (c.initgroups call.uid call.gid call.lookup call.rand).2

/-- A record that is recycled for a user who is not in the database holds no
groups. -/
def RecyclesEmpty (c : GidCache) (call : SetCall) : Prop :=
  (∀ rec ∈ c.recs, rec.uid ≠ call.uid) → c.recs.length = MAXRECS →
    call.lookup = none →
    ∀ rec, c.recs[call.rand % MAXRECS]? = some rec → rec.gids = []

end GidCache

/-- The groups are none, those one of the calls obtained for the user, or the group
of one of the user's calls for which they did not fit. -/
def ObtainedFor (calls : List SetCall) (uid : UInt32) (gids : List UInt32) :
    Prop :=
  gids = [] ∨ ∃ d ∈ calls, d.uid = uid ∧
    (d.Lists gids ∨ d.Overflows ∧ gids = [d.gid])

theorem ObtainedFor.append {calls : List SetCall} {uid : UInt32}
    {gids : List UInt32} (h : ObtainedFor calls uid gids) (c : SetCall) :
    ObtainedFor (calls ++ [c]) uid gids := by
  rcases h with hnil | ⟨d, hd, hobtained⟩
  · exact .inl hnil
  · exact .inr ⟨d, List.mem_append_left _ hd, hobtained⟩

/-! ## One call -/

section Step

variable {calls : List SetCall} {cache : GidCache} {c : SetCall}

theorem obtainedFor_fill (calls : List SetCall) (rec : GidRec)
    (h : c.lookup = none → rec.gids = []) :
    ObtainedFor (calls ++ [c]) c.uid (rec.fill c.uid c.gid c.lookup).gids := by
  have hc : c ∈ calls ++ [c] := by simp
  cases hlookup : c.lookup with
  | none => exact .inl (h hlookup)
  | some answer =>
      obtain ⟨n, groups⟩ := answer
      refine .inr ⟨c, hc, rfl, ?_⟩
      by_cases hfit : groups.length ≤ min MAXGIDS n
      · left
        simp only [GidRec.fill, dif_pos hfit]
        exact ⟨n, hlookup, hfit⟩
      · right
        simp only [GidRec.fill, dif_neg hfit, and_true]
        exact ⟨n, groups, hlookup, Nat.lt_of_not_le hfit⟩

theorem obtainedFor_cacheRec (calls : List SetCall)
    (hnew : ∀ rec ∈ cache.recs, rec.uid ≠ c.uid) (h : cache.RecyclesEmpty c) :
    ObtainedFor (calls ++ [c]) c.uid
      (cacheRec cache.recs c.uid c.gid c.lookup c.rand).2.gids := by
  by_cases hfull : cache.recs.length = MAXRECS
  · obtain ⟨old, hold, heq⟩ :=
      cacheRec_of_full hfull c.uid c.gid c.lookup c.rand
    rw [heq]
    exact obtainedFor_fill calls old fun hnone => h hnew hfull hnone old hold
  · rw [cacheRec_of_ne hfull]
    exact obtainedFor_fill calls GidRec.zero fun _ => rfl

/-- After a call the records and the output hold groups of their users. -/
theorem obtainedFor_step
    (hrecs : ∀ rec ∈ cache.recs, ObtainedFor calls rec.uid rec.gids)
    (h : cache.RecyclesEmpty c) :
    (∀ rec ∈ (cache.step c).recs,
        ObtainedFor (calls ++ [c]) rec.uid rec.gids) ∧
      ObtainedFor (calls ++ [c]) c.uid (cache.output c) := by
  unfold GidCache.step GidCache.output
  rcases cache.initgroups_cases c.uid c.gid c.lookup c.rand with
    ⟨rec, hrec, huid, hhit⟩ | ⟨hnew, hmem, hgids⟩
  · rw [hhit, ← huid]
    exact ⟨fun rec hrec => (hrecs rec hrec).append c, (hrecs rec hrec).append c⟩
  · have hmiss := obtainedFor_cacheRec calls hnew h
    rw [hgids]
    refine ⟨?_, hmiss⟩
    intro rec hrec
    rcases mem_cacheRec ((hmem rec).mp hrec) with hold | rfl
    · exact (hrecs rec hold).append c
    · rw [cacheRec_uid]
      exact hmiss

end Step

/-! ## Runs -/

/-- Once the user's groups did not fit, the later calls of the user have the same
gid. -/
def SameGid (calls : List SetCall) : Prop :=
  calls.Pairwise fun d c => d.uid = c.uid → d.Overflows → d.gid = c.gid

/-- The groups of the call `c`, which ends `calls`, are a list of its own user, its
own gid or nothing, and none of them was obtained for other users only. -/
def OwnGroups (calls : List SetCall) (c : SetCall) (gids : List UInt32) : Prop :=
  ((∃ d ∈ calls, d.uid = c.uid ∧ d.Lists gids) ∨ gids = [c.gid] ∨ gids = []) ∧
    ∀ g ∈ gids, g = c.gid ∨
      ∃ d ∈ calls, d.uid = c.uid ∧ ∃ own, d.Lists own ∧ g ∈ own

theorem ObtainedFor.ownGroups {done : List SetCall} {c : SetCall}
    {gids : List UInt32} (h : ObtainedFor (done ++ [c]) c.uid gids)
    (hgid : ∀ d ∈ done, d.uid = c.uid → d.Overflows → d.gid = c.gid) :
    OwnGroups (done ++ [c]) c gids := by
  have hown : (∃ d ∈ done ++ [c], d.uid = c.uid ∧ d.Lists gids) ∨
      gids = [c.gid] ∨ gids = [] := by
    rcases h with hnil | ⟨d, hd, huid, hlists | ⟨hover, hsingle⟩⟩
    · exact .inr (.inr hnil)
    · exact .inl ⟨d, hd, huid, hlists⟩
    · refine .inr (.inl ?_)
      rcases List.mem_append.mp hd with hdone | hlast
      · rw [hsingle, hgid d hdone huid hover]
      · rw [hsingle, List.mem_singleton.mp hlast]
  refine ⟨hown, ?_⟩
  intro g hg
  rcases hown with ⟨d, hd, huid, hlists⟩ | hsingle | hnil
  · exact .inr ⟨d, hd, huid, gids, hlists, hg⟩
  · rw [hsingle, List.mem_singleton] at hg
    exact .inl hg
  · rw [hnil] at hg
    cases hg

/-- In a run that recycles records only for known users or when they are empty, and
in which users whose groups do not fit keep to one gid, every call gets groups of its
own user. -/
theorem initgroups_own (calls : List SetCall)
    (hrun : Along.along GidCache.step GidCache.RecyclesEmpty GidCache.zero calls)
    (hgid : SameGid calls) (done rest : List SetCall) (c : SetCall)
    (heq : calls = done ++ c :: rest) :
    OwnGroups (done ++ [c]) c
      ((done.foldl GidCache.step GidCache.zero).output c) := by
  obtain ⟨hrecs, hempty⟩ := Along.along.inv_split
    (I := fun done cache =>
      ∀ rec ∈ cache.recs, ObtainedFor done rec.uid rec.gids)
    (fun done cache c hrecs hc => (obtainedFor_step hrecs hc).1)
    (by simp [GidCache.zero]) hrun heq
  refine (obtainedFor_step hrecs hempty).2.ownGroups ?_
  intro d hd
  rw [SameGid, heq, List.pairwise_append] at hgid
  exact hgid.2.2 d hd c List.mem_cons_self

def twoUsers : List SetCall :=
  [⟨1001, 100, some (2, [100, 27]), 0⟩, ⟨1000, 50, some (1, [50]), 0⟩]

/-- A user who has vanished from the database since is served from the cache. -/
theorem initgroups_own_hit :
    (twoUsers.foldl GidCache.step GidCache.zero).output ⟨1000, 60, none, 0⟩ =
        [50] ∧
      OwnGroups (twoUsers ++ [⟨1000, 60, none, 0⟩]) ⟨1000, 60, none, 0⟩
        ((twoUsers.foldl GidCache.step GidCache.zero).output
          ⟨1000, 60, none, 0⟩) := by
  refine ⟨by decide, ?_⟩
  refine initgroups_own (twoUsers ++ [⟨1000, 60, none, 0⟩]) ?_ ?_ twoUsers []
    ⟨1000, 60, none, 0⟩ rfl
  · refine ⟨?_, ?_, ?_, trivial⟩
    all_goals
      intro _ hfull
      exact absurd hfull (by decide)
  · simp [SameGid, twoUsers, SetCall.Overflows, MAXGIDS]

/-! ## Groups of another user -/

theorem GidCache.initgroups_of_new {c : GidCache} {call : SetCall}
    (h : ∀ rec ∈ c.recs, rec.uid ≠ call.uid) :
    (c.step call).recs = sortRecs
        (cacheRec c.recs call.uid call.gid call.lookup call.rand).1 ∧
      c.output call =
        (cacheRec c.recs call.uid call.gid call.lookup call.rand).2.gids := by
  unfold GidCache.step GidCache.output GidCache.initgroups
  split
  · rename_i rec hfind
    obtain ⟨hmem, huid⟩ := findRec_eq_some hfind
    exact absurd huid (h rec hmem)
  · exact ⟨rfl, rfl⟩

def crowd (n : ℕ) : List SetCall :=
  (List.range n).map fun i => ⟨UInt32.ofNat i, 7, some (1, [7]), 0⟩

theorem crowd_succ (n : ℕ) :
    crowd (n + 1) = crowd n ++ [⟨UInt32.ofNat n, 7, some (1, [7]), 0⟩] := by
  simp [crowd, List.range_succ]

theorem toNat_ofNat_of_lt {n : ℕ} (h : n < MAXRECS) :
    (UInt32.ofNat n).toNat = n :=
  UInt32.toNat_ofNat_of_lt' (Nat.lt_trans h (by decide))

theorem foldl_crowd {n : ℕ} (h : n ≤ MAXRECS) :
    ((crowd n).foldl GidCache.step GidCache.zero).recs.length = n ∧
      ∀ rec ∈ ((crowd n).foldl GidCache.step GidCache.zero).recs,
        rec.uid.toNat < n ∧ rec.gids = [7] := by
  induction n with
  | zero => simp [crowd, GidCache.zero]
  | succ n ih =>
      obtain ⟨hlen, hrecs⟩ := ih (Nat.le_of_succ_le h)
      have huid := toNat_ofNat_of_lt (Nat.lt_of_succ_le h)
      rw [crowd_succ, List.foldl_append, List.foldl_cons, List.foldl_nil,
        (GidCache.initgroups_of_new ?_).1, cacheRec_of_ne ?_]
      · refine ⟨by simp [sortRecs, hlen], ?_⟩
        intro rec hrec
        rw [sortRecs, List.mem_insertionSort, List.mem_append,
          List.mem_singleton] at hrec
        rcases hrec with hold | rfl
        · exact ⟨Nat.lt_succ_of_lt (hrecs rec hold).1, (hrecs rec hold).2⟩
        · rw [GidRec.fill_uid, huid]
          exact ⟨Nat.lt_succ_self n, rfl⟩
      · rw [hlen]
        exact Nat.ne_of_lt (Nat.lt_of_succ_le h)
      · intro rec hrec heq
        have hlt := (hrecs rec hrec).1
        rw [heq, huid] at hlt
        exact Nat.lt_irrefl n hlt

theorem ne_of_mem_crowd {d : SetCall} (hd : d ∈ crowd 256) : d.uid ≠ 1000 := by
  obtain ⟨i, hi, rfl⟩ := List.mem_map.mp hd
  intro heq
  have huid := toNat_ofNat_of_lt (List.mem_range.mp hi)
  rw [show UInt32.ofNat i = 1000 from heq] at huid
  exact absurd (huid ▸ List.mem_range.mp hi) (by decide)

theorem output_crowd :
    ((crowd 256).foldl GidCache.step GidCache.zero).output
      ⟨1000, 100, none, 0⟩ = [7] := by
  obtain ⟨hlen, hrecs⟩ := foldl_crowd (n := 256) (Nat.le_refl MAXRECS)
  rw [(GidCache.initgroups_of_new ?_).2]
  · obtain ⟨old, hold, heq⟩ := cacheRec_of_full hlen 1000 100 none 0
    rw [heq]
    exact (hrecs old (List.mem_of_getElem? hold)).2
  · intro rec hrec heq
    have hlt := (hrecs rec hrec).1
    rw [heq] at hlt
    exact absurd hlt (by decide)

def overflowing (gid : UInt32) : SetCall :=
  ⟨1000, gid, some (33, List.replicate 33 7), 0⟩

/-- A user who is not in the database gets the groups of the user whose record is
recycled, and a user with too many groups the gid of an earlier request. -/
theorem initgroups_foreign :
    (((crowd 256).foldl GidCache.step GidCache.zero).output
        ⟨1000, 100, none, 0⟩ = [7] ∧
      ¬ OwnGroups (crowd 256 ++ [⟨1000, 100, none, 0⟩]) ⟨1000, 100, none, 0⟩
        [7]) ∧
    (GidCache.zero.step (overflowing 100)).output (overflowing 200) = [100] ∧
      ¬ OwnGroups [overflowing 100, overflowing 200] (overflowing 200) [100] := by
  refine ⟨⟨output_crowd, ?_⟩, by decide, ?_⟩
  · rintro ⟨_, hown⟩
    rcases hown 7 List.mem_cons_self with heq | ⟨d, hd, huid, own, ⟨n, hn, _⟩, _⟩
    · exact absurd heq (by decide)
    · rcases List.mem_append.mp hd with hd | hd
      · exact ne_of_mem_crowd hd huid
      · rw [List.mem_singleton.mp hd] at hn
        cases hn
  · rintro ⟨_, hown⟩
    rcases hown 100 List.mem_cons_self with heq |
      ⟨d, hd, _, own, ⟨n, hn, hle⟩, _⟩
    · exact absurd heq (by decide)
    · -- neither call got a list
      have hlookup : d.lookup = some (33, List.replicate 33 7) := by
        rcases List.mem_pair.mp hd with rfl | rfl <;> rfl
      rw [hlookup] at hn
      obtain ⟨rfl, rfl⟩ := Prod.mk.inj (Option.some.inj hn)
      exact absurd hle (by decide)

end Mergerfs
