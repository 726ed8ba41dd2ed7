import Mathlib.Data.List.Chain
import Mergerfs.Library.Along
import Mergerfs.Ugid.Cache

/-!
# Requests run with the requester's identity

`ugid::Set` switches the identity of the calling thread. It remembers the identity it
last set and makes only the transitions it takes to be necessary. `Cred` holds the
identity the kernel knows, and `setreuid` and `setregid` change it as POSIX says:
when the effective uid is not zero, only to ids the thread already has.
-/

namespace Mergerfs

structure Cred where
  ruid : UInt32
  euid : UInt32
  suid : UInt32
  rgid : UInt32
  egid : UInt32
  sgid : UInt32

/-- `(uid_t)-1`, which leaves an id as it is. -/
def noChange : UInt32 := 4294967295

namespace Cred

def mayChangeUid (c : Cred) (ruid euid : UInt32) : Bool :=
  c.euid == 0 ||
    ((ruid == noChange || ruid == c.ruid || ruid == c.euid) &&
      (euid == noChange || euid == c.ruid || euid == c.euid || euid == c.suid))

def setreuid (c : Cred) (ruid euid : UInt32) : Cred :=
  if c.mayChangeUid ruid euid then
    let ruid' := if ruid = noChange then c.ruid else ruid
    let euid' := if euid = noChange then c.euid else euid
    { c with
      ruid := ruid'
      euid := euid'
      suid := if ruid ≠ noChange ∨ euid ≠ noChange ∧ euid' ≠ c.ruid then euid'
        else c.suid }
  else c

def mayChangeGid (c : Cred) (rgid egid : UInt32) : Bool :=
  c.euid == 0 ||
    ((rgid == noChange || rgid == c.rgid || rgid == c.egid) &&
      (egid == noChange || egid == c.rgid || egid == c.egid || egid == c.sgid))

def setregid (c : Cred) (rgid egid : UInt32) : Cred :=
  if c.mayChangeGid rgid egid then
    let rgid' := if rgid = noChange then c.rgid else rgid
    let egid' := if egid = noChange then c.egid else egid
    { c with
      rgid := rgid'
      egid := egid'
      sgid := if rgid ≠ noChange ∨ egid ≠ noChange ∧ egid' ≠ c.rgid then egid'
        else c.sgid }
  else c

@[simp] theorem setreuid_egid (c : Cred) (ruid euid : UInt32) :
    (c.setreuid ruid euid).egid = c.egid := by
  unfold setreuid
  split_ifs <;> rfl

@[simp] theorem setreuid_ruid (c : Cred) (euid : UInt32) :
    (c.setreuid noChange euid).ruid = c.ruid := by
  by_cases h : c.mayChangeUid noChange euid = true <;> simp [setreuid, h]

@[simp] theorem setregid_euid (c : Cred) (rgid egid : UInt32) :
    (c.setregid rgid egid).euid = c.euid := by
  unfold setregid
  split_ifs <;> rfl

@[simp] theorem setregid_ruid (c : Cred) (rgid egid : UInt32) :
    (c.setregid rgid egid).ruid = c.ruid := by
  unfold setregid
  split_ifs <;> rfl

theorem setreuid_euid {c : Cred} (h : c.euid = 0) (euid : UInt32) :
    (c.setreuid noChange euid).euid = if euid = noChange then 0 else euid := by
  have hmay : c.mayChangeUid noChange euid = true := by simp [mayChangeUid, h]
  simp [setreuid, hmay, h]

theorem setreuid_zero {c : Cred} (h : c.ruid = 0) :
    (c.setreuid noChange 0).euid = 0 := by
  have hmay : c.mayChangeUid noChange 0 = true := by simp [mayChangeUid, h]
  have hne : (0 : UInt32) ≠ noChange := by decide
  simp [setreuid, hmay, hne]

theorem setregid_egid {c : Cred} (h : c.euid = 0) (egid : UInt32) :
    (c.setregid noChange egid).egid =
      if egid = noChange then c.egid else egid := by
  have hmay : c.mayChangeGid noChange egid = true := by simp [mayChangeGid, h]
  simp [setregid, hmay]

end Cred

/-- What belongs to a thread: its identity, and the thread-local variables of
`ugid` and of `ugid::initgroups`. -/
structure Thread where
  cred : Cred
  groups : List UInt32
  cache : GidCache
  currentuid : UInt32
  currentgid : UInt32
  initialized : Bool

/-- A call `ugid::Set(uid,gid)`, with what the user database and `rand()` answer
should the cache ask them. -/
structure SetCall where
  uid : UInt32
  gid : UInt32
  lookup : Lookup
  rand : ℕ

namespace Thread

def init (t : Thread) : Thread :=
  if t.initialized then t
  else { t with
    currentuid := t.cred.euid
    currentgid := t.cred.egid
    initialized := true }

/-- Back to root, unless the thread takes itself to be root. -/
def becomeRoot (t : Thread) : Thread :=
  if t.currentuid ≠ 0 then
    { t with cred := (t.cred.setreuid noChange 0).setregid noChange 0 }
  else t

def setgroups (t : Thread) (gids : List UInt32) : Thread :=
  if t.cred.euid = 0 then { t with groups := gids } else t

def initgroups (t : Thread) (c : SetCall) : Thread :=
  let r := t.cache.initgroups c.uid c.gid c.lookup c.rand
  { t with cache := r.1 }.setgroups r.2

def assumeGid (t : Thread) (c : SetCall) : Thread :=
  if c.gid ≠ 0 then
    { t with cred := t.cred.setregid noChange c.gid }.initgroups c
  else t

def assumeUid (t : Thread) (c : SetCall) : Thread :=
  if c.uid ≠ 0 then { t with cred := t.cred.setreuid noChange c.uid } else t

def switch (t : Thread) (c : SetCall) : Thread :=
  { (t.becomeRoot.assumeGid c).assumeUid c with
    currentuid := c.uid
    currentgid := c.gid }

/-- `ugid::Set::Set`. -/
def set (t : Thread) (c : SetCall) : Thread :=
  if c.uid = t.init.currentuid ∧ c.gid = t.init.currentgid then t.init
  else t.init.switch c

def run (t : Thread) (calls : List SetCall) : Thread := calls.foldl set t

@[simp] theorem setgroups_cred (t : Thread) (gids : List UInt32) :
    (t.setgroups gids).cred = t.cred := by
  unfold setgroups
  split_ifs <;> rfl

@[simp] theorem initgroups_cred (t : Thread) (c : SetCall) :
    (t.initgroups c).cred = t.cred :=
  setgroups_cred _ _

@[simp] theorem switch_initialized (t : Thread) (c : SetCall) :
    (t.switch c).initialized = t.initialized := by
  have hgroups : ∀ (t : Thread) gids,
      (t.setgroups gids).initialized = t.initialized := by
    intro t gids
    unfold setgroups
    split_ifs <;> rfl
  simp only [switch, assumeUid, assumeGid, becomeRoot]
  split_ifs <;> simp [initgroups, hgroups]

/-! ## The record and the kernel -/

/-- A thread of a process started by root, before its first request. -/
structure Fresh (t : Thread) : Prop where
  ruid : t.cred.ruid = 0
  euid : t.cred.euid = 0
  egid : t.cred.egid = 0
  initialized : t.initialized = false

structure Identified (t : Thread) (c : SetCall) : Prop where
  euid : t.cred.euid = c.uid
  egid : t.cred.egid = c.gid
  currentuid : t.currentuid = c.uid
  currentgid : t.currentgid = c.gid

/-- The record agrees with the kernel, and root can be regained. -/
structure Agreed (t : Thread) : Prop where
  initialized : t.initialized = true
  ruid : t.cred.ruid = 0
  euid : t.cred.euid = t.currentuid
  egid : t.cred.egid = t.currentgid
  uid_ne : t.currentuid ≠ noChange
  gid_ne : t.currentgid ≠ noChange

/-- The step from one identity to the next that `Set` gets right. -/
def Follows (uid gid : UInt32) (c : SetCall) : Prop :=
  uid = 0 → gid ≠ 0 → c.gid ≠ 0

theorem Fresh.init {t : Thread} (h : t.Fresh) :
    t.init.Agreed ∧ t.init.currentuid = 0 ∧ t.init.currentgid = 0 := by
  have heq : t.init = { t with
      currentuid := 0, currentgid := 0, initialized := true } := by
    simp [Thread.init, h.initialized, h.euid, h.egid]
  rw [heq]
  exact ⟨⟨rfl, h.ruid, h.euid, h.egid, by simp [noChange], by simp [noChange]⟩,
    rfl, rfl⟩

theorem Agreed.init {t : Thread} (h : t.Agreed) : t.init = t := by
  simp [Thread.init, h.initialized]

theorem set_init (t : Thread) (c : SetCall) : t.init.set c = t.set c := by
  have h : t.init.init = t.init := by
    by_cases ht : t.initialized = true <;> simp [Thread.init, ht]
  simp [set, h]

theorem run_concat (t : Thread) (done : List SetCall) (c : SetCall) :
    t.run (done ++ [c]) = (t.init.run done).set c := by
  unfold run
  rw [List.foldl_append, List.foldl_cons, List.foldl_nil]
  cases done with
  | nil => exact (t.set_init c).symm
  | cons d done => rw [List.foldl_cons, List.foldl_cons, t.set_init d]

/-- After `becomeRoot` the effective uid is zero; the gid is as well unless the
thread was root already. -/
theorem Agreed.becomeRoot {t : Thread} (h : t.Agreed) :
    t.becomeRoot.cred.ruid = 0 ∧ t.becomeRoot.cred.euid = 0 ∧
      t.becomeRoot.cred.egid = if t.currentuid = 0 then t.currentgid else 0 := by
  unfold Thread.becomeRoot
  by_cases hroot : t.currentuid = 0
  · simp [hroot, h.ruid, h.euid, h.egid]
  · have hne : (0 : UInt32) ≠ noChange := by decide
    have heuid := Cred.setreuid_zero h.ruid
    have hegid := Cred.setregid_egid heuid 0
    simp [hroot, h.ruid, heuid, hegid, hne]

theorem Agreed.assume {t : Thread} (h : t.Agreed) (c : SetCall) :
    let t' := (t.becomeRoot.assumeGid c).assumeUid c
    t'.cred.ruid = 0 ∧
      t'.cred.euid = (if c.uid = noChange then 0 else c.uid) ∧
      t'.cred.egid = if c.gid = 0 ∨ c.gid = noChange then
        (if t.currentuid = 0 then t.currentgid else 0) else c.gid := by
  obtain ⟨hruid, heuid, hegid⟩ := h.becomeRoot
  have hgid : (t.becomeRoot.assumeGid c).cred.ruid = 0 ∧
      (t.becomeRoot.assumeGid c).cred.euid = 0 ∧
      (t.becomeRoot.assumeGid c).cred.egid =
        if c.gid = 0 ∨ c.gid = noChange then
          (if t.currentuid = 0 then t.currentgid else 0) else c.gid := by
    unfold Thread.assumeGid
    by_cases hzero : c.gid = 0
    · simp [hzero, hruid, heuid, hegid]
    · rw [if_pos hzero, initgroups_cred]
      refine ⟨by simpa using hruid, by simpa using heuid, ?_⟩
      rw [Cred.setregid_egid heuid, hegid]
      simp [hzero]
  obtain ⟨hruid, heuid, hegid⟩ := hgid
  unfold Thread.assumeUid
  by_cases hzero : c.uid = 0
  · have hne : (0 : UInt32) ≠ noChange := by decide
    simp [hzero, hruid, heuid, hegid, hne]
  · rw [if_pos hzero]
    refine ⟨by simpa using hruid, Cred.setreuid_euid heuid c.uid, ?_⟩
    simpa using hegid

theorem assumed_uid_iff (uid : UInt32) :
    (if uid = noChange then 0 else uid) = uid ↔ uid ≠ noChange := by
  have hne : (0 : UInt32) ≠ noChange := by decide
  by_cases h : uid = noChange
  · simp [h, hne]
  · simp [h]

theorem Agreed.assumed_gid_iff {t : Thread} (h : t.Agreed) (c : SetCall) :
    (if c.gid = 0 ∨ c.gid = noChange then
        (if t.currentuid = 0 then t.currentgid else 0) else c.gid) = c.gid ↔
      c.gid ≠ noChange ∧ Follows t.currentuid t.currentgid c := by
  have hne : (0 : UInt32) ≠ noChange := by decide
  by_cases hzero : c.gid = 0
  · by_cases hroot : t.currentuid = 0 <;> simp [Follows, hzero, hroot, hne]
  · by_cases hnc : c.gid = noChange
    · have hgid := h.gid_ne
      by_cases hroot : t.currentuid = 0 <;> simp [hnc, hroot, hne, hgid]
    · simp [Follows, hzero, hnc]

/-- The step lemma: from a state that agrees, a call gives the thread its
identity exactly when it passes no id that means no change and does not ask for
gid zero from uid zero with another gid. -/
theorem Agreed.set_identified_iff {t : Thread} (h : t.Agreed) (c : SetCall) :
    (t.set c).Identified c ↔ c.uid ≠ noChange ∧ c.gid ≠ noChange ∧
      Follows t.currentuid t.currentgid c := by
  rw [Thread.set, h.init]
  by_cases hsame : c.uid = t.currentuid ∧ c.gid = t.currentgid
  · rw [if_pos hsame]
    constructor
    · intro _
      refine ⟨hsame.1 ▸ h.uid_ne, hsame.2 ▸ h.gid_ne, ?_⟩
      intro _ hgid
      exact hsame.2 ▸ hgid
    · intro _
      exact ⟨h.euid.trans hsame.1.symm, h.egid.trans hsame.2.symm, hsame.1.symm,
        hsame.2.symm⟩
  · rw [if_neg hsame]
    obtain ⟨_, heuid, hegid⟩ := h.assume c
    have hiff : (t.switch c).Identified c ↔
        ((t.becomeRoot.assumeGid c).assumeUid c).cred.euid = c.uid ∧
          ((t.becomeRoot.assumeGid c).assumeUid c).cred.egid = c.gid :=
      ⟨fun hid => ⟨hid.euid, hid.egid⟩, fun hid => ⟨hid.1, hid.2, rfl, rfl⟩⟩
    rw [hiff, heuid, hegid, assumed_uid_iff, h.assumed_gid_iff]

theorem Agreed.set {t : Thread} (h : t.Agreed) {c : SetCall}
    (hid : (t.set c).Identified c) : (t.set c).Agreed := by
  have hcond := (h.set_identified_iff c).mp hid
  have hruid : (t.set c).cred.ruid = 0 ∧ (t.set c).initialized = true := by
    rw [Thread.set, h.init]
    split_ifs
    · exact ⟨h.ruid, h.initialized⟩
    · exact ⟨(h.assume c).1, by rw [switch_initialized, h.initialized]⟩
  exact ⟨hruid.2, hruid.1, hid.euid.trans hid.currentuid.symm,
    hid.egid.trans hid.currentgid.symm, hid.currentuid ▸ hcond.1,
    hid.currentgid ▸ hcond.2.1⟩

/-- The run lemma, from a state that agrees. -/
theorem Agreed.along_identified_iff {t : Thread} (h : t.Agreed)
    (calls : List SetCall) :
    Along.along Thread.set (fun t c => (t.set c).Identified c) t calls ↔
      (∀ c ∈ calls, c.uid ≠ noChange ∧ c.gid ≠ noChange) ∧
        (∀ c ∈ calls.head?, Follows t.currentuid t.currentgid c) ∧
        calls.IsChain fun c d => Follows c.uid c.gid d := by
  induction calls generalizing t with
  | nil => simp
  | cons c calls ih =>
      rw [Along.along_cons]
      constructor
      · intro hall
        obtain ⟨hid, hrest⟩ := hall
        obtain ⟨huid, hgid, hfollows⟩ := (h.set_identified_iff c).mp hid
        obtain ⟨hne, hhead, hchain⟩ := (ih (h.set hid)).mp hrest
        rw [hid.currentuid, hid.currentgid] at hhead
        refine ⟨?_, ?_, ?_⟩
        · intro d hd
          rcases List.mem_cons.mp hd with rfl | hd
          · exact ⟨huid, hgid⟩
          · exact hne d hd
        · intro d hd
          obtain rfl : c = d := by simpa using hd
          exact hfollows
        · rw [List.isChain_cons]
          exact ⟨hhead, hchain⟩
      · intro hcond
        obtain ⟨hne, hhead, hchain⟩ := hcond
        rw [List.isChain_cons] at hchain
        have hc := hne c List.mem_cons_self
        have hid := (h.set_identified_iff c).mpr
          ⟨hc.1, hc.2, hhead c (by simp)⟩
        refine ⟨hid, (ih (h.set hid)).mpr ⟨?_, ?_, hchain.2⟩⟩
        · intro d hd
          exact hne d (List.mem_cons_of_mem c hd)
        · rw [hid.currentuid, hid.currentgid]
          exact hchain.1

end Thread

/-- After every call of every run the effective ids and the record are those of the
call, exactly when no call passes an id that means no change and none asks for gid
zero right after a call for uid zero with another gid. -/
theorem set_identifies_iff (t : Thread) (ht : t.Fresh)
    (calls : List SetCall) :
    (∀ done c rest, calls = done ++ c :: rest →
        (t.run (done ++ [c])).Identified c) ↔
      (∀ c ∈ calls, c.uid ≠ noChange ∧ c.gid ≠ noChange) ∧
        calls.IsChain fun c d => c.uid = 0 → c.gid ≠ 0 → d.gid ≠ 0 := by
  obtain ⟨hagreed, huid, hgid⟩ := ht.init
  have halong := hagreed.along_identified_iff calls
  rw [Along.along_iff_forall_split] at halong
  simp only [t.run_concat]
  refine Iff.trans halong ?_
  have hhead : ∀ c ∈ calls.head?,
      Thread.Follows t.init.currentuid t.init.currentgid c := by
    intro c _ _ hne
    exact absurd hgid hne
  exact ⟨fun h => ⟨h.1, h.2.2⟩, fun h => ⟨h.1, hhead, h.2⟩⟩

def Thread.root : Thread where
  cred := ⟨0, 0, 0, 0, 0, 0⟩
  groups := []
  cache := GidCache.zero
  currentuid := 0
  currentgid := 0
  initialized := false

theorem Thread.fresh_root : Thread.root.Fresh := ⟨rfl, rfl, rfl, rfl⟩

/-- Two users and root in turn. -/
theorem set_identifies_iff_users :
    (Thread.root.run [⟨1000, 1000, none, 0⟩, ⟨0, 0, none, 0⟩,
      ⟨1001, 1001, none, 0⟩]).Identified ⟨1001, 1001, none, 0⟩ :=
  (set_identifies_iff Thread.root Thread.fresh_root [⟨1000, 1000, none, 0⟩,
    ⟨0, 0, none, 0⟩, ⟨1001, 1001, none, 0⟩]).mpr ⟨by decide, by decide⟩
    [⟨1000, 1000, none, 0⟩, ⟨0, 0, none, 0⟩] _ [] rfl

/-- After a call for uid zero and gid five the effective gid stays five when
gid zero is asked for. -/
theorem set_keeps_gid :
    (Thread.root.run [⟨0, 5, none, 0⟩, ⟨0, 0, none, 0⟩]).cred.egid = 5 ∧
      (Thread.root.run [⟨0, 5, none, 0⟩, ⟨0, 0, none, 0⟩]).currentgid = 0 :=
  ⟨rfl, rfl⟩

end Mergerfs
