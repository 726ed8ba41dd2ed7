import Mathlib.Data.Multiset.Filter
import Mergerfs.Policy.Usable

/-!
# The policies agree on the usable branches

`Agrees usable rej branches r` says that the result `r` is the one dictated by the
usable branches and by the rejections `rej` of the others: success exactly when
some branch is usable, nothing but usable branches returned, and on failure the
worst of the reasons, as a multiset. Each of the three loops agrees with the
rejections its test decides. The loops that keep a running optimum do so because
their seed passes no candidate over; for the strict comparison of `lus` and
`eplus` that is the bound on the used space.
-/

namespace Mergerfs

namespace Policy

open Errno

def reasons (rej : Branch → Option Errno) (branches : Branches) :
    Multiset Errno :=
  Multiset.filterMap rej (branches : Multiset Branch)

structure Agrees (usable : Branch → Prop) (rej : Branch → Option Errno)
    (branches : Branches) (r : Result) : Prop where
  ok_iff : r.1 = .ok () ↔ ∃ b ∈ branches, usable b
  mem_of_ok : r.1 = .ok () →
    r.2 ≠ [] ∧ ∀ q ∈ r.2, ∃ b ∈ branches, b.path = q ∧ usable b
  of_error : ∀ e, r.1 = .error e →
    r.2 = [] ∧ e = worst (reasons rej branches)

/-- The returned branches are exactly the usable ones, up to order. -/
def Exact (usable : Branch → Prop) [DecidablePred usable]
    (branches : Branches) (r : Result) : Prop :=
  r.2.Perm (toPaths (branches.filter fun b => usable b))

theorem Agrees.congr {usable usable' : Branch → Prop}
    {rej : Branch → Option Errno} {branches : Branches} {r : Result}
    (hu : ∀ b, usable b ↔ usable' b) (h : Agrees usable rej branches r) :
    Agrees usable' rej branches r := by
  have heq : usable = usable' := funext fun b => propext (hu b)
  rw [← heq]
  exact h

section Loops

variable {α κ : Type} {rej : Branch → Option Errno} {branches : Branches}

theorem reject_eq_worst {test : Branch → Except Errno α}
    (h : Decides test rej) (hrej : ∀ b e, rej b = some e → PolicyError e) :
    Scan.reject calcError test ENOENT branches =
      worst (reasons rej branches) := by
  have hmem : ∀ e ∈ branches.filterMap rej, PolicyError e := by
    intro e he
    obtain ⟨b, _, hb⟩ := List.mem_filterMap.mp he
    exact hrej b e hb
  rw [Scan.reject_eq_foldl calcError h, foldl_calcError (.inl rfl) hmem,
    worst_cons_ENOENT, reasons, Multiset.filterMap_coe]

theorem Decides.filter_eq {test : Branch → Except Errno α}
    (h : Decides test rej) :
    (branches.filter fun b => (test b).isOk) =
      branches.filter fun b => rej b = none := by
  apply List.filter_congr
  intro b _
  rw [Bool.eq_iff_iff, h.isOk_iff, decide_eq_true_iff]

theorem pushAll_eq {test : Branch → Except Errno α} (h : Decides test rej)
    (hrej : ∀ b e, rej b = some e → PolicyError e) :
    pushAll test branches [] =
      (if (branches.filter fun b => rej b = none) = [] then
        .error (worst (reasons rej branches)) else .ok (),
        toPaths (branches.filter fun b => rej b = none)) := by
  have hfst := Scan.collect_fst calcError test (ENOENT, []) branches
  have hsnd := Scan.collect_snd calcError test (ENOENT, []) branches
  rw [reject_eq_worst h hrej] at hfst
  rw [List.nil_append, h.filter_eq] at hsnd
  simp only [pushAll, hfst, hsnd, List.nil_append]
  by_cases hnil : (branches.filter fun b => rej b = none) = []
  · simp [hnil, toPaths]
  · simp [hnil, toPaths, List.isEmpty_iff]

theorem Agrees.mem {usable : Branch → Prop} {r : Result}
    (h : Agrees usable rej branches r) {q : Path} (hq : q ∈ r.2) :
    ∃ b ∈ branches, b.path = q ∧ usable b := by
  cases hrv : r.1 with
  | error e =>
      rw [(h.of_error e hrv).1] at hq
      simp at hq
  | ok u => exact (h.mem_of_ok hrv).2 q hq

theorem agrees_pushAll {test : Branch → Except Errno α}
    (h : Decides test rej) (hrej : ∀ b e, rej b = some e → PolicyError e) :
    Agrees (rej · = none) rej branches (pushAll test branches []) := by
  rw [pushAll_eq h hrej]
  by_cases hnil : (branches.filter fun b => rej b = none) = []
  · have hnone : ¬ ∃ b ∈ branches, rej b = none := by
      simpa [List.filter_eq_nil_iff] using hnil
    constructor
    · simp [hnil, hnone]
    · simp [hnil]
    · intro e he
      rw [if_pos hnil] at he
      exact ⟨by simp [hnil, toPaths], (Except.error.inj he).symm⟩
  · have hsome : ∃ b ∈ branches, rej b = none := by
      simpa [List.filter_eq_nil_iff] using hnil
    constructor
    · simp [hnil, hsome]
    · intro _
      refine ⟨by simpa [toPaths] using hnil, ?_⟩
      intro q hq
      obtain ⟨b, hb, rfl⟩ := List.mem_map.mp hq
      obtain ⟨hmem, hb⟩ := List.mem_filter.mp hb
      exact ⟨b, hmem, rfl, by simpa using hb⟩
    · simp [hnil]

theorem exact_pushAll {test : Branch → Except Errno α} (h : Decides test rej)
    (hrej : ∀ b e, rej b = some e → PolicyError e) :
    Exact (rej · = none) branches (pushAll test branches []) := by
  rw [pushAll_eq h hrej]
  exact List.Perm.refl _

/-- A loop that returns one branch agrees once its choice is a usable branch
and its failure means that there is none. -/
theorem agrees_pushOne {chosen : Except Errno Branch}
    (hok : ∀ b, chosen = .ok b → b ∈ branches ∧ rej b = none)
    (herr : ∀ e, chosen = .error e →
      (∀ b ∈ branches, rej b ≠ none) ∧ e = worst (reasons rej branches)) :
    Agrees (rej · = none) rej branches (pushOne chosen []) := by
  cases chosen with
  | error e =>
      obtain ⟨hall, he⟩ := herr e rfl
      constructor
      · simpa [pushOne] using hall
      · simp [pushOne]
      · intro e' he'
        exact ⟨rfl, (Except.error.inj he').symm.trans he⟩
  | ok b =>
      obtain ⟨hmem, hb⟩ := hok b rfl
      constructor
      · simpa [pushOne] using ⟨b, hmem, hb⟩
      · intro _
        refine ⟨by simp [pushOne], ?_⟩
        intro q hq
        obtain rfl : q = b.path := by simpa [pushOne] using hq
        exact ⟨b, hmem, rfl, hb⟩
      · simp [pushOne]

theorem agrees_pushFirst {test : Branch → Except Errno α}
    (h : Decides test rej) (hrej : ∀ b e, rej b = some e → PolicyError e) :
    Agrees (rej · = none) rej branches (pushFirst test branches []) := by
  have hfirst := Scan.first_eq_head? calcError test ENOENT branches
  rw [reject_eq_worst h hrej, h.filter_eq] at hfirst
  apply agrees_pushOne
  · intro b hb
    rw [hfirst] at hb
    cases hh : (branches.filter fun b => rej b = none).head? with
    | none => simp [hh] at hb
    | some c =>
        obtain rfl : c = b := by simpa [hh] using hb
        obtain ⟨hmem, hc⟩ := List.mem_filter.mp (List.mem_of_mem_head? hh)
        exact ⟨hmem, by simpa using hc⟩
  · intro e he
    rw [hfirst] at he
    cases hh : (branches.filter fun b => rej b = none).head? with
    | some c => simp [hh] at he
    | none =>
        have hnil := List.head?_eq_none_iff.mp hh
        refine ⟨?_, by simpa [hh] using he.symm⟩
        simpa [List.filter_eq_nil_iff] using hnil

/-- The branch a running optimum ends with is a candidate whose key no
candidate of the list beats. -/
theorem bestBranch_eq_ok {r : Scan.Ranking κ} {seed : κ}
    {pre : Branch → Except Errno κ} {post : Branch → Except Errno Unit}
    {b : Branch} (h : bestBranch r seed pre post branches = .ok b) :
    b ∈ branches ∧ ∃ k, Scan.candidate pre post b = .ok k ∧
      ∀ c ∈ branches, ∀ k', Scan.candidate pre post c = .ok k' →
        r.atLeast k k' := by
  unfold bestBranch at h
  cases hc : (Scan.best calcError r pre post ⟨ENOENT, seed, none⟩
      branches).chosen with
  | none => simp [hc] at h
  | some c =>
      obtain rfl : c = b := by simpa [hc] using h
      rcases Scan.best_chosen calcError r pre post ⟨ENOENT, seed, none⟩ hc
        with ⟨hmem, hk⟩ | ⟨hnone, _⟩
      · refine ⟨hmem, _, hk, ?_⟩
        intro d hd k' hk'
        exact Scan.best_atLeast_candidate calcError r pre post
          ⟨ENOENT, seed, none⟩ hd hk'
      · simp at hnone

theorem bestBranch_eq_error {r : Scan.Ranking κ} {seed : κ}
    {pre : Branch → Except Errno κ} {post : Branch → Except Errno Unit}
    (hseed : ∀ b ∈ branches, ∀ k, pre b = .ok k → r.skip k seed = false)
    {e : Errno} (h : bestBranch r seed pre post branches = .error e) :
    (∀ b ∈ branches, ∀ k, Scan.candidate pre post b ≠ .ok k) ∧
      e = Scan.reject calcError (Scan.candidate pre post) ENOENT branches := by
  unfold bestBranch at h
  cases hc : (Scan.best calcError r pre post ⟨ENOENT, seed, none⟩
      branches).chosen with
  | some c => simp [hc] at h
  | none =>
      have hall := (Scan.best_eq_none_iff calcError r pre post
        ⟨ENOENT, seed, none⟩ branches rfl hseed).mp hc
      have herr := Scan.best_error_of_none calcError r pre post
        ⟨ENOENT, seed, none⟩ branches hseed hc
      refine ⟨hall, ?_⟩
      rw [← herr]
      simpa [hc] using h.symm

theorem agrees_pushBest {r : Scan.Ranking κ} {seed : κ}
    {pre : Branch → Except Errno κ} {post : Branch → Except Errno Unit}
    (h : Decides (Scan.candidate pre post) rej)
    (hrej : ∀ b e, rej b = some e → PolicyError e)
    (hseed : ∀ b ∈ branches, ∀ k, pre b = .ok k → r.skip k seed = false) :
    Agrees (rej · = none) rej branches (pushBest r seed pre post branches []) := by
  apply agrees_pushOne
  · intro b hb
    obtain ⟨hmem, k, hk, _⟩ := bestBranch_eq_ok hb
    exact ⟨hmem, (h.exists_ok_iff b).mp ⟨k, hk⟩⟩
  · intro e he
    obtain ⟨hall, herr⟩ := bestBranch_eq_error hseed he
    rw [reject_eq_worst h hrej] at herr
    refine ⟨?_, herr⟩
    intro b hb hnone
    obtain ⟨k, hk⟩ := (h.exists_ok_iff b).mpr hnone
    exact hall b hb k hk

theorem mem_pushBest {r : Scan.Ranking κ} {seed : κ}
    {pre : Branch → Except Errno κ} {post : Branch → Except Errno Unit}
    (h : Decides (Scan.candidate pre post) rej) {q : Path}
    (hq : q ∈ (pushBest r seed pre post branches []).2) :
    ∃ b ∈ branches, b.path = q ∧ rej b = none := by
  cases hb : bestBranch r seed pre post branches with
  | error e => simp [pushBest, hb, pushOne] at hq
  | ok b =>
      obtain rfl : q = b.path := by simpa [pushBest, hb, pushOne] using hq
      obtain ⟨hmem, k, hk, _⟩ := bestBranch_eq_ok hb
      exact ⟨b, hmem, rfl, (h.exists_ok_iff b).mp ⟨k, hk⟩⟩

theorem agrees_shuffled {env : Probe} {r : Result}
    (h : Agrees (rej · = none) rej branches r) :
    Agrees (rej · = none) rej branches (shuffled env r) := by
  obtain ⟨rv, paths⟩ := r
  cases rv with
  | error e => exact h
  | ok u =>
      have hperm := env.randomShuffle_perm paths
      obtain ⟨hne, hmem⟩ := h.mem_of_ok rfl
      constructor
      · exact h.ok_iff
      · intro _
        constructor
        · intro hnil
          apply hne
          have hlen := hperm.length_eq
          rw [show env.randomShuffle paths = [] from hnil] at hlen
          exact List.length_eq_zero_iff.mp hlen.symm
        · intro q hq
          exact hmem q (hperm.mem_iff.mp hq)
      · simp [shuffled]

theorem exact_shuffled {env : Probe} {r : Result} (h : Exact (rej · = none) branches r) :
    Exact (rej · = none) branches (shuffled env r) := by
  obtain ⟨rv, paths⟩ := r
  cases rv with
  | error e => exact h
  | ok u => exact (env.randomShuffle_perm paths).trans h

end Loops

/-! ## The policies, one by one -/

/-- The policies whose create functions ask for the path. -/
def needsPath (p : Policy) : Bool := p.pathPreserving || p == .newest

theorem skip_most_zero (k : UInt64) : most.skip k 0 = false := by
  simp [most]

theorem skip_least_max (k : UInt64) : least.skip k maxUInt64 = false := by
  have h : k.toNat < 2 ^ 64 := k.toNat_lt
  simp [least, maxUInt64, UInt64.le_iff_toNat_le]
  omega

theorem skip_latest_min (k : Int64) : latest.skip k Int64.minValue = false := by
  simp [latest]

theorem skip_leastStrict_max {k : UInt64} (h : k < maxUInt64) :
    leastStrict.skip k maxUInt64 = false := by
  simpa [leastStrict] using h

/-- The used space of every branch that answers is below the seed of `lus`. -/
def UsedBelowMax (env : Probe) (branches : Branches) : Prop :=
  ∀ b ∈ branches, ∀ st, env.statvfsCache b.path = some st →
    st.spaceused < maxUInt64

theorem skip_spaceused {env : Probe} {branches : Branches}
    (hused : UsedBelowMax env branches) {test : Branch → Except Errno Info}
    (htest : ∀ b info, test b = .ok info → env.info b.path = some info) :
    ∀ b ∈ branches, ∀ k, keyed Info.spaceused test b = .ok k →
      leastStrict.skip k maxUInt64 = false := by
  intro b hb k hk
  cases ht : test b with
  | error e => simp [keyed, ht, Except.map] at hk
  | ok info =>
      have hinfo := htest b info ht
      cases hst : env.statvfsCache b.path with
      | none => simp [Probe.info, hst] at hinfo
      | some st =>
          have hk' : st.spaceused = k := by
            simp only [Probe.info, hst, Option.map_some,
              Option.some.injEq] at hinfo
            simpa [keyed, ht, Except.map, ← hinfo] using hk
          rw [← hk']
          exact skip_leastStrict_max (hused b hb st hst)

section Func

variable {env : Probe} {p : Policy} {branches : Branches} {fusepath : Path}
  {minfreespace : UInt64}

theorem func_create_agrees (hp : p ≠ .invalid ∧ p ≠ .erofs)
    (hused : p = .lus ∨ p = .eplus → UsedBelowMax env branches) :
    Agrees (CreateUsable env p.needsPath fusepath minfreespace)
      (createRejection env p.needsPath fusepath minfreespace) branches
      (p.func env .create branches fusepath minfreespace []) := by
  have hrej : ∀ ep b e,
      createRejection env ep fusepath minfreespace b = some e →
        PolicyError e := fun _ _ _ => policyError_of_createRejection
  have hc := decides_createTest env fusepath minfreespace
  have hep := decides_epCreateTest env fusepath minfreespace
  apply Agrees.congr (createRejection_eq_none_iff env p.needsPath fusepath
    minfreespace)
  cases p with
  | invalid => exact absurd rfl hp.1
  | erofs => exact absurd rfl hp.2
  | all => exact agrees_pushAll hc (hrej _)
  | rand => exact agrees_shuffled (agrees_pushAll hc (hrej _))
  | epall => exact agrees_pushAll hep (hrej _)
  | eprand => exact agrees_shuffled (agrees_pushAll hep (hrej _))
  | ff => exact agrees_pushFirst hc (hrej _)
  | epff => exact agrees_pushFirst hep (hrej _)
  | lfs =>
      exact agrees_pushBest (hc.keyed _) (hrej _)
        fun _ _ k _ => skip_least_max k
  | eplfs =>
      exact agrees_pushBest (hep.keyed _) (hrej _)
        fun _ _ k _ => skip_least_max k
  | mfs =>
      exact agrees_pushBest (hc.keyed _) (hrej _)
        fun _ _ k _ => skip_most_zero k
  | epmfs =>
      exact agrees_pushBest (hep.keyed _) (hrej _)
        fun _ _ k _ => skip_most_zero k
  | lus =>
      exact agrees_pushBest (hc.keyed _) (hrej _)
        (skip_spaceused (hused (.inl rfl)) fun _ _ => info_of_createTest)
  | eplus =>
      exact agrees_pushBest (hep.keyed _) (hrej _)
        (skip_spaceused (hused (.inr rfl)) fun _ _ => info_of_epCreateTest)
  | newest =>
      exact agrees_pushBest (decides_newestCreate env fusepath minfreespace)
        (hrej _) fun _ _ k _ => skip_latest_min k

theorem func_action_agrees (hp : p ≠ .invalid ∧ p ≠ .erofs)
    (hused : p = .lus ∨ p = .eplus → UsedBelowMax env branches) :
    Agrees (ActionUsable env fusepath) (actionRejection env fusepath) branches
      (p.func env .action branches fusepath minfreespace []) := by
  have hrej : ∀ b e, actionRejection env fusepath b = some e →
      PolicyError e := fun _ _ => policyError_of_actionRejection
  have ht := decides_actionTest env fusepath
  have hi := decides_actionInfoTest env fusepath
  apply Agrees.congr (actionRejection_eq_none_iff env fusepath)
  cases p with
  | invalid => exact absurd rfl hp.1
  | erofs => exact absurd rfl hp.2
  | all | epall => exact agrees_pushAll ht hrej
  | rand | eprand => exact agrees_shuffled (agrees_pushAll ht hrej)
  | ff | epff => exact agrees_pushFirst ht hrej
  | lfs | eplfs =>
      exact agrees_pushBest (hi.keyed _) hrej fun _ _ k _ => skip_least_max k
  | mfs | epmfs =>
      exact agrees_pushBest (hi.keyed _) hrej fun _ _ k _ => skip_most_zero k
  | lus =>
      exact agrees_pushBest (hi.keyed _) hrej
        (skip_spaceused (hused (.inl rfl)) fun _ _ => info_of_actionInfoTest)
  | eplus =>
      exact agrees_pushBest (hi.keyed _) hrej
        (skip_spaceused (hused (.inr rfl)) fun _ _ => info_of_actionInfoTest)
  | newest =>
      exact agrees_pushBest (decides_newestAction env fusepath) hrej
        fun _ _ k _ => skip_latest_min k

theorem func_create_mem {q : Path}
    (hq : q ∈ (p.func env .create branches fusepath minfreespace []).2) :
    ∃ b ∈ branches, b.path = q ∧
      CreateUsable env p.needsPath fusepath minfreespace b := by
  cases p with
  | invalid => simp [func] at hq
  | erofs => simp [func] at hq
  | lus =>
      obtain ⟨b, hb, hbq, hrej⟩ :=
        mem_pushBest ((decides_createTest env fusepath minfreespace).keyed _) hq
      exact ⟨b, hb, hbq, (createRejection_eq_none_iff env _ fusepath
        minfreespace b).mp hrej⟩
  | eplus =>
      obtain ⟨b, hb, hbq, hrej⟩ := mem_pushBest
        ((decides_epCreateTest env fusepath minfreespace).keyed _) hq
      exact ⟨b, hb, hbq, (createRejection_eq_none_iff env _ fusepath
        minfreespace b).mp hrej⟩
  | _ => exact (func_create_agrees (by decide) (by simp)).mem hq

theorem func_action_mem {q : Path}
    (hq : q ∈ (p.func env .action branches fusepath minfreespace []).2) :
    ∃ b ∈ branches, b.path = q ∧ ActionUsable env fusepath b := by
  cases p with
  | invalid => simp [func] at hq
  | erofs => simp [func] at hq
  | lus | eplus =>
      obtain ⟨b, hb, hbq, hrej⟩ :=
        mem_pushBest ((decides_actionInfoTest env fusepath).keyed _) hq
      exact ⟨b, hb, hbq, (actionRejection_eq_none_iff env fusepath b).mp hrej⟩
  | _ => exact (func_action_agrees (by decide) (by simp)).mem hq

theorem pushAll_ne_nil {α : Type} {test : Branch → Except Errno α}
    (h : (pushAll test branches []).1 = .ok ()) :
    (pushAll test branches []).2 ≠ [] := by
  simp only [pushAll] at h ⊢
  split_ifs at h ⊢ with hnil
  exact fun heq => hnil (List.isEmpty_iff.mpr heq)

theorem pushOne_ne_nil {chosen : Except Errno Branch}
    (h : (pushOne chosen []).1 = .ok ()) : (pushOne chosen []).2 ≠ [] := by
  cases chosen with
  | error e => cases h
  | ok b => simp [pushOne]

theorem shuffled_ne_nil {r : Result} (hr : r.1 = .ok () → r.2 ≠ [])
    (h : (shuffled env r).1 = .ok ()) : (shuffled env r).2 ≠ [] := by
  obtain ⟨rv, paths⟩ := r
  cases rv with
  | error e => cases h
  | ok u =>
      intro hnil
      have hperm := env.randomShuffle_perm paths
      rw [show env.randomShuffle paths = [] from hnil] at hperm
      exact hr rfl hperm.symm.eq_nil

/-- A policy that succeeds has put something into the empty vector, so that its
first element may be read. -/
theorem func_ne_nil {type : Category}
    (h : (p.func env type branches fusepath minfreespace []).1 = .ok ()) :
    (p.func env type branches fusepath minfreespace []).2 ≠ [] := by
  cases p with
  | invalid => cases h
  | erofs => cases h
  | all | epall => cases type <;> exact pushAll_ne_nil h
  | rand | eprand => cases type <;> exact shuffled_ne_nil pushAll_ne_nil h
  | _ => cases type <;> exact pushOne_ne_nil h

theorem func_eq_nil {type : Category} {e : Errno}
    (h : (p.func env type branches fusepath minfreespace []).1 = .error e) :
    (p.func env type branches fusepath minfreespace []).2 = [] := by
  have hone : ∀ chosen, (pushOne chosen []).1 = .error e →
      (pushOne chosen []).2 = [] := by
    intro chosen h
    cases chosen with
    | error e => rfl
    | ok b => cases h
  have hall : ∀ {α : Type} (test : Branch → Except Errno α),
      (pushAll test branches []).1 = .error e →
        (pushAll test branches []).2 = [] := by
    intro α test h
    simp only [pushAll] at h ⊢
    split_ifs at h ⊢ with hnil
    exact List.isEmpty_iff.mp hnil
  have hshuffled : ∀ r : Result, (r.1 = .error e → r.2 = []) →
      (shuffled env r).1 = .error e → (shuffled env r).2 = [] := by
    intro r hr h
    obtain ⟨rv, paths⟩ := r
    cases rv with
    | error e' => exact hr h
    | ok u => cases h
  cases p with
  | invalid | erofs => rfl
  | all | epall => cases type <;> exact hall _ h
  | rand | eprand => cases type <;> exact hshuffled _ (hall _) h
  | _ => cases type <;> exact hone _ h

def returnsAll (p : Policy) : Prop :=
  p = .all ∨ p = .epall ∨ p = .rand ∨ p = .eprand

theorem func_create_exact (h : p.returnsAll) :
    Exact (CreateUsable env p.needsPath fusepath minfreespace) branches
      (p.func env .create branches fusepath minfreespace []) := by
  have hrej : ∀ ep b e,
      createRejection env ep fusepath minfreespace b = some e →
        PolicyError e := fun _ _ _ => policyError_of_createRejection
  have hc := decides_createTest env fusepath minfreespace
  have hep := decides_epCreateTest env fusepath minfreespace
  have heq := createRejection_eq_none_iff env p.needsPath fusepath minfreespace
  simp only [Exact, ← heq]
  rcases h with rfl | rfl | rfl | rfl
  · exact exact_pushAll hc (hrej _)
  · exact exact_pushAll hep (hrej _)
  · exact exact_shuffled (exact_pushAll hc (hrej _))
  · exact exact_shuffled (exact_pushAll hep (hrej _))

theorem func_action_exact (h : p.returnsAll) :
    Exact (ActionUsable env fusepath) branches
      (p.func env .action branches fusepath minfreespace []) := by
  have hrej : ∀ b e, actionRejection env fusepath b = some e →
      PolicyError e := fun _ _ => policyError_of_actionRejection
  have ht := decides_actionTest env fusepath
  simp only [Exact, ← actionRejection_eq_none_iff]
  rcases h with rfl | rfl | rfl | rfl
  · exact exact_pushAll ht hrej
  · exact exact_pushAll ht hrej
  · exact exact_shuffled (exact_pushAll ht hrej)
  · exact exact_shuffled (exact_pushAll ht hrej)

end Func

/-- All policies agree on which branches are usable, in the create and in the
action category. -/
theorem func_usable (env : Probe) (p : Policy) (branches : Branches)
    (fusepath : Path) (minfreespace : UInt64)
    (hp : p ≠ .invalid ∧ p ≠ .erofs)
    (hused : p = .lus ∨ p = .eplus → UsedBelowMax env branches) :
    (Agrees (CreateUsable env p.needsPath fusepath minfreespace)
        (createRejection env p.needsPath fusepath minfreespace) branches
        (p.func env .create branches fusepath minfreespace []) ∧
      (p.returnsAll →
        Exact (CreateUsable env p.needsPath fusepath minfreespace) branches
          (p.func env .create branches fusepath minfreespace []))) ∧
    (Agrees (ActionUsable env fusepath) (actionRejection env fusepath) branches
        (p.func env .action branches fusepath minfreespace []) ∧
      (p.returnsAll →
        Exact (ActionUsable env fusepath) branches
          (p.func env .action branches fusepath minfreespace []))) :=
  ⟨⟨func_create_agrees hp hused, func_create_exact⟩,
    ⟨func_action_agrees hp hused, func_action_exact⟩⟩

/-- `lus` on a pool of a read-only branch and a usable one, with used space below
the seed. -/
theorem func_usable_lus :
    Policy.lus.func (Probe.unshuffled (fun _ => some ⟨0, 1, 0, 5⟩)
        fun _ => some ⟨1, 10, 4, 0⟩) .create
        [⟨.RO, ['/', 'a']⟩, ⟨.RW, ['/', 'b']⟩] ['/', 'f'] 2 [] =
      (.ok (), [['/', 'b']]) ∧
    ∃ b ∈ ([⟨.RO, ['/', 'a']⟩, ⟨.RW, ['/', 'b']⟩] : Branches),
      CreateUsable (Probe.unshuffled (fun _ => some ⟨0, 1, 0, 5⟩)
        fun _ => some ⟨1, 10, 4, 0⟩) false ['/', 'f'] 2 b := by
  refine ⟨rfl, ?_⟩
  have h := func_usable (Probe.unshuffled (fun _ => some ⟨0, 1, 0, 5⟩)
    fun _ => some ⟨1, 10, 4, 0⟩) .lus
    [⟨.RO, ['/', 'a']⟩, ⟨.RW, ['/', 'b']⟩] ['/', 'f'] 2 (by decide) (by
      intro _ b _ st hst
      obtain rfl : ⟨1, 10, 4, 0⟩ = st := by
        simpa [Probe.unshuffled] using hst
      decide)
  exact h.1.1.ok_iff.mp rfl

end Policy

end Mergerfs
