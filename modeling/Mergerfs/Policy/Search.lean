import Mergerfs.Policy.Agreement

/-!
# What a search finds

`Candidate` says which branches a policy may return from a search: those that hold
the path and, for the policies that compare a figure of the branch, answer
`statvfs`. `Finds` says that a result is what a search over the candidates should
return: success exactly when there is one, `ENOENT` otherwise, and a first branch
that is best among them in the sense of the policy.

The search loop of `eplus` starts its running minimum at `0` and skips what is not
below it, so it passes every branch over; it and `lus`, which calls it, find
nothing. All the other searches find what exists.
-/

namespace Mergerfs

namespace Policy

open Errno

def asksSpace : Policy → Bool
  | .lfs | .eplfs | .mfs | .epmfs | .lus | .eplus => true
  | _ => false

structure Candidate (env : Probe) (p : Policy) (fusepath : Path) (b : Branch) :
    Prop where
  path : Holds env fusepath b
  status : p.asksSpace = true → ∃ st, env.statvfsCache b.path = some st

def searchRejection (env : Probe) (asks : Bool) (fusepath : Path)
    (b : Branch) : Option Errno :=
  if (env.existsStat b.path fusepath).isNone ||
      (asks && (env.statvfsCache b.path).isNone) then
    some ENOENT
  else none

theorem searchRejection_eq_none_iff (env : Probe) (p : Policy)
    (fusepath : Path) (b : Branch) :
    searchRejection env p.asksSpace fusepath b = none ↔
      Candidate env p fusepath b := by
  constructor
  · intro h
    unfold searchRejection at h
    split_ifs at h with hc
    rw [Bool.or_eq_true, not_or] at hc
    refine ⟨?_, ?_⟩
    · rw [holds_iff]
      simpa using hc.1
    · intro hasks
      rw [← Option.ne_none_iff_exists']
      simpa [hasks] using hc.2
  · intro h
    obtain ⟨st, hst⟩ := h.path
    by_cases hasks : p.asksSpace = true
    · obtain ⟨sv, hsv⟩ := h.status hasks
      simp [searchRejection, hst, hsv]
    · simp [searchRejection, hst, hasks]

theorem policyError_of_searchRejection {env : Probe} {asks : Bool}
    {fusepath : Path} {b : Branch} {e : Errno}
    (h : searchRejection env asks fusepath b = some e) : PolicyError e := by
  unfold searchRejection at h
  split_ifs at h
  exact .inl (Option.some.inj h).symm

theorem worst_searchRejection (env : Probe) (asks : Bool) (fusepath : Path)
    (branches : Branches) :
    worst (reasons (searchRejection env asks fusepath) branches) = ENOENT := by
  have hmem : ∀ e ∈ reasons (searchRejection env asks fusepath) branches,
      e = ENOENT := by
    intro e he
    obtain ⟨b, _, hb⟩ := (Multiset.mem_filterMap _ _).mp he
    unfold searchRejection at hb
    split_ifs at hb
    exact (Option.some.inj hb).symm
  have h₁ : EROFS ∉ reasons (searchRejection env asks fusepath) branches :=
    fun h => absurd (hmem _ h) (by decide)
  have h₂ : ENOSPC ∉ reasons (searchRejection env asks fusepath) branches :=
    fun h => absurd (hmem _ h) (by decide)
  rw [worst, if_neg h₁, if_neg h₂]

/-! ## The tests of the search loops -/

theorem decides_searchTest (env : Probe) (fusepath : Path) :
    Decides (searchTest env fusepath) (searchRejection env false fusepath) := by
  intro b e
  cases hp : env.existsStat b.path fusepath with
  | none => simp [searchTest, searchRejection, hp]
  | some st => simp [searchTest, searchRejection, hp]

theorem decides_searchSpaceTest (env : Probe) (fusepath : Path)
    {space : Path → Option UInt64} (key : StatVFS → UInt64)
    (hspace : ∀ q, space q = (env.statvfsCache q).map key) :
    Decides (Scan.candidate (searchSpaceTest space env fusepath) noTest)
      (searchRejection env true fusepath) := by
  intro b e
  cases hp : env.existsStat b.path fusepath with
  | none => simp [Scan.candidate, searchSpaceTest, searchRejection, hp]
  | some st =>
      cases hst : env.statvfsCache b.path with
      | none =>
          simp [Scan.candidate, searchSpaceTest, searchRejection, hp, hst,
            hspace]
      | some sv =>
          simp [Scan.candidate, searchSpaceTest, searchRejection, hp, hst,
            hspace, noTest]

theorem decides_newestSearch (env : Probe) (fusepath : Path) :
    Decides (Scan.candidate (newestPre env fusepath fun _ => false) noTest)
      (searchRejection env false fusepath) := by
  intro b e
  cases hp : env.existsStat b.path fusepath with
  | none => simp [Scan.candidate, newestPre, searchRejection, hp]
  | some st => simp [Scan.candidate, newestPre, searchRejection, hp, noTest]

/-! ## The best candidate -/

def IsFirst (P : Branch → Prop) (branches : Branches) (b : Branch) : Prop :=
  ∃ before after, branches = before ++ b :: after ∧ P b ∧
    ∀ c ∈ before, ¬ P c

/-- The figure of `b` is defined and stands in `le` to that of every candidate
of the list. -/
def IsBest {κ : Type} (P : Branch → Prop) (le : κ → κ → Prop)
    (figure : Branch → Option κ) (branches : Branches) (b : Branch) : Prop :=
  ∃ k, figure b = some k ∧
    ∀ c ∈ branches, P c → ∀ k', figure c = some k' → le k k'

def mtime (env : Probe) (fusepath : Path) (b : Branch) : Option Int64 :=
  (env.existsStat b.path fusepath).map Stat.st_mtime

def Preferred (env : Probe) (p : Policy) (fusepath : Path)
    (branches : Branches) (b : Branch) : Prop :=
  match p with
  | .ff | .epff | .all | .epall =>
      IsFirst (Candidate env p fusepath) branches b
  | .lfs | .eplfs =>
      IsBest (Candidate env p fusepath) (· ≤ ·)
        (fun c => env.statvfsCacheSpaceavail c.path) branches b
  | .mfs | .epmfs =>
      IsBest (Candidate env p fusepath) (· ≥ ·)
        (fun c => env.statvfsCacheSpaceavail c.path) branches b
  | .lus | .eplus =>
      IsBest (Candidate env p fusepath) (· ≤ ·)
        (fun c => env.statvfsCacheSpaceused c.path) branches b
  | .newest =>
      IsBest (Candidate env p fusepath) (· ≥ ·) (mtime env fusepath) branches b
  | .rand | .eprand | .erofs | .invalid => True

/-- The result `r` of a search is the one the candidates dictate. -/
structure Finds (env : Probe) (p : Policy) (fusepath : Path)
    (branches : Branches) (r : Result) : Prop where
  ok_iff : r.1 = .ok () ↔ ∃ b ∈ branches, Candidate env p fusepath b
  errno : ∀ e, r.1 = .error e → e = ENOENT
  first : r.1 = .ok () → ∃ b ∈ branches, r.2.head? = some b.path ∧
    Candidate env p fusepath b ∧ Preferred env p fusepath branches b

/-- A search agrees with its rejections and only its first branch remains to be
compared with the candidates. -/
theorem finds_of_agrees {env : Probe} {p : Policy} {fusepath : Path}
    {branches : Branches} {r : Result}
    (h : Agrees (searchRejection env p.asksSpace fusepath · = none)
      (searchRejection env p.asksSpace fusepath) branches r)
    (hfirst : r.1 = .ok () → ∃ b ∈ branches, r.2.head? = some b.path ∧
      Candidate env p fusepath b ∧ Preferred env p fusepath branches b) :
    Finds env p fusepath branches r := by
  refine ⟨?_, ?_, hfirst⟩
  · rw [h.ok_iff]
    simp only [searchRejection_eq_none_iff]
  · intro e he
    rw [(h.of_error e he).2, worst_searchRejection]

theorem isFirst_of_head?_filter {P : Branch → Prop} [DecidablePred P]
    {branches : Branches} {b : Branch}
    (h : (branches.filter fun b => P b).head? = some b) :
    IsFirst P branches b := by
  rw [List.head?_filter, List.find?_eq_some_iff_append] at h
  obtain ⟨hb, before, after, heq, hbefore⟩ := h
  exact ⟨before, after, heq, by simpa using hb, by simpa using hbefore⟩

theorem IsFirst.mem {P : Branch → Prop} {branches : Branches} {b : Branch}
    (h : IsFirst P branches b) : b ∈ branches ∧ P b := by
  obtain ⟨before, after, rfl, hb, _⟩ := h
  exact ⟨by simp, hb⟩

section Loops

variable {env : Probe} {p : Policy} {fusepath : Path} {branches : Branches}

theorem searchRejection_eq_candidate (env : Probe) (p : Policy)
    (fusepath : Path) :
    (searchRejection env p.asksSpace fusepath · = none) =
      Candidate env p fusepath :=
  funext fun b => propext (searchRejection_eq_none_iff env p fusepath b)

theorem pushAll_first {α : Type} {test : Branch → Except Errno α}
    {rej : Branch → Option Errno} (h : Decides test rej)
    (hrej : ∀ b e, rej b = some e → PolicyError e)
    (hok : (pushAll test branches []).1 = .ok ()) :
    ∃ b, (pushAll test branches []).2.head? = some b.path ∧
      IsFirst (rej · = none) branches b := by
  rw [pushAll_eq h hrej] at hok ⊢
  cases hh : (branches.filter fun b => rej b = none).head? with
  | none =>
      rw [List.head?_eq_none_iff] at hh
      simp [hh] at hok
  | some b =>
      refine ⟨b, ?_, isFirst_of_head?_filter hh⟩
      rw [toPaths, List.head?_map, hh, Option.map_some]

theorem pushFirst_first {α : Type} {test : Branch → Except Errno α}
    {rej : Branch → Option Errno} (h : Decides test rej)
    (hok : (pushFirst test branches []).1 = .ok ()) :
    ∃ b, (pushFirst test branches []).2.head? = some b.path ∧
      IsFirst (rej · = none) branches b := by
  have hfirst := Scan.first_eq_head? calcError test ENOENT branches
  rw [h.filter_eq] at hfirst
  unfold pushFirst at hok ⊢
  cases hh : (branches.filter fun b => rej b = none).head? with
  | none =>
      rw [hh] at hfirst
      simp [hfirst, pushOne] at hok
  | some b =>
      rw [hh] at hfirst
      exact ⟨b, by simp [hfirst, pushOne], isFirst_of_head?_filter hh⟩

theorem pushBest_best {κ : Type} {r : Scan.Ranking κ} {seed : κ}
    {pre : Branch → Except Errno κ} {post : Branch → Except Errno Unit}
    {figure : Branch → Option κ} {P : Branch → Prop}
    (hfigure : ∀ c k, Scan.candidate pre post c = .ok k ↔
      P c ∧ figure c = some k)
    (hok : (pushBest r seed pre post branches []).1 = .ok ()) :
    ∃ b ∈ branches,
      (pushBest r seed pre post branches []).2.head? = some b.path ∧ P b ∧
        IsBest P r.atLeast figure branches b := by
  cases hb : bestBranch r seed pre post branches with
  | error e => simp [pushBest, hb, pushOne] at hok
  | ok b =>
      obtain ⟨hmem, k, hk, hbest⟩ := bestBranch_eq_ok hb
      obtain ⟨hP, hkb⟩ := (hfigure b k).mp hk
      refine ⟨b, hmem, by simp [pushBest, hb, pushOne], hP, k, hkb, ?_⟩
      intro c hc hPc k' hk'
      exact hbest c hc k' ((hfigure c k').mpr ⟨hPc, hk'⟩)

theorem candidate_searchSpaceTest {space : Path → Option UInt64}
    (key : StatVFS → UInt64)
    (hspace : ∀ q, space q = (env.statvfsCache q).map key)
    (hasks : p.asksSpace = true) (c : Branch) (k : UInt64) :
    Scan.candidate (searchSpaceTest space env fusepath) noTest c = .ok k ↔
      Candidate env p fusepath c ∧ space c.path = some k := by
  rw [← searchRejection_eq_none_iff, hasks]
  cases hp : env.existsStat c.path fusepath with
  | none => simp [Scan.candidate, searchSpaceTest, searchRejection, hp]
  | some st =>
      cases hst : env.statvfsCache c.path with
      | none =>
          simp [Scan.candidate, searchSpaceTest, searchRejection, hp, hst,
            hspace]
      | some sv =>
          simp [Scan.candidate, searchSpaceTest, searchRejection, hp, hst,
            hspace, noTest]

theorem candidate_newestSearch (hasks : p.asksSpace = false) (c : Branch)
    (k : Int64) :
    Scan.candidate (newestPre env fusepath fun _ => false) noTest c = .ok k ↔
      Candidate env p fusepath c ∧ mtime env fusepath c = some k := by
  rw [← searchRejection_eq_none_iff, hasks]
  cases hp : env.existsStat c.path fusepath with
  | none => simp [Scan.candidate, newestPre, searchRejection, hp]
  | some st => simp [Scan.candidate, newestPre, searchRejection, mtime, hp,
      noTest]

end Loops

/-! ## The searches, one by one -/

theorem eplusSearch_eq (env : Probe) (branches : Branches) (fusepath : Path) :
    eplusSearch env branches fusepath [] = (.error ENOENT, []) := by
  have hskip : ∀ b ∈ branches, ∀ k,
      searchSpaceTest env.statvfsCacheSpaceused env fusepath b = .ok k →
        leastStrict.skip k 0 = true := by
    intro b _ k _
    simp [leastStrict]
  have hbest := Scan.best_of_skip calcError leastStrict
    (searchSpaceTest env.statvfsCacheSpaceused env fusepath) noTest
    ⟨ENOENT, 0, none⟩ branches hskip
  have hpre : Decides
      (searchSpaceTest env.statvfsCacheSpaceused env fusepath)
      (searchRejection env true fusepath) := by
    intro b e
    have h : _ ↔ searchRejection env true fusepath b = some e :=
      decides_searchSpaceTest env fusepath StatVFS.spaceused
        (fun q => (rfl : env.statvfsCacheSpaceused q = _)) b e
    cases ht : searchSpaceTest env.statvfsCacheSpaceused env fusepath b with
    | error e' => simpa [Scan.candidate, ht] using h
    | ok k => simpa [Scan.candidate, ht, noTest] using h
  have herr : Scan.reject calcError _ ENOENT branches = worst (reasons _ branches) :=
    reject_eq_worst hpre fun _ _ => policyError_of_searchRejection
  rw [worst_searchRejection] at herr
  simp [eplusSearch, pushBest, bestBranch, hbest, herr, pushOne]

section Finds

variable (env : Probe) (branches : Branches) (fusepath : Path)
  (minfreespace : UInt64)

/-- Every search but those of `lus` and `eplus` finds what exists. -/
theorem func_search_finds {p : Policy} (hp : p ≠ .invalid ∧ p ≠ .erofs)
    (hne : p ≠ .lus ∧ p ≠ .eplus) :
    Finds env p fusepath branches
      (p.func env .search branches fusepath minfreespace []) := by
  have hrej : ∀ asks b e, searchRejection env asks fusepath b = some e →
      PolicyError e := fun _ _ _ => policyError_of_searchRejection
  have hs := decides_searchTest env fusepath
  have havail := decides_searchSpaceTest env fusepath StatVFS.spaceavail
    fun q => (rfl : env.statvfsCacheSpaceavail q = _)
  have hall : ∀ q : Policy, q.asksSpace = false →
      (pushAll (searchTest env fusepath) branches []).1 = .ok () →
      ∃ b, (pushAll (searchTest env fusepath) branches []).2.head? =
        some b.path ∧ IsFirst (Candidate env q fusepath) branches b := by
    intro q hq hok
    rw [← searchRejection_eq_candidate, hq]
    exact pushAll_first hs (hrej _) hok
  have hfirst : ∀ q : Policy, q.asksSpace = false →
      (pushFirst (searchTest env fusepath) branches []).1 = .ok () →
      ∃ b, (pushFirst (searchTest env fusepath) branches []).2.head? =
        some b.path ∧ IsFirst (Candidate env q fusepath) branches b := by
    intro q hq hok
    rw [← searchRejection_eq_candidate, hq]
    exact pushFirst_first hs hok
  cases p with
  | invalid => exact absurd rfl hp.1
  | erofs => exact absurd rfl hp.2
  | lus => exact absurd rfl hne.1
  | eplus => exact absurd rfl hne.2
  | all =>
      apply finds_of_agrees (agrees_pushAll hs (hrej _))
      intro hok
      obtain ⟨b, hhead, hb⟩ := hall .all rfl hok
      exact ⟨b, hb.mem.1, hhead, hb.mem.2, hb⟩
  | epall =>
      apply finds_of_agrees (agrees_pushAll hs (hrej _))
      intro hok
      obtain ⟨b, hhead, hb⟩ := hall .epall rfl hok
      exact ⟨b, hb.mem.1, hhead, hb.mem.2, hb⟩
  | ff =>
      apply finds_of_agrees (agrees_pushFirst hs (hrej _))
      intro hok
      obtain ⟨b, hhead, hb⟩ := hfirst .ff rfl hok
      exact ⟨b, hb.mem.1, hhead, hb.mem.2, hb⟩
  | epff =>
      apply finds_of_agrees (agrees_pushFirst hs (hrej _))
      intro hok
      obtain ⟨b, hhead, hb⟩ := hfirst .epff rfl hok
      exact ⟨b, hb.mem.1, hhead, hb.mem.2, hb⟩
  | lfs | eplfs =>
      apply finds_of_agrees
        (agrees_pushBest havail (hrej _) fun _ _ k _ => skip_least_max k)
      exact pushBest_best
        (candidate_searchSpaceTest StatVFS.spaceavail (fun _ => rfl) rfl)
  | mfs | epmfs =>
      apply finds_of_agrees
        (agrees_pushBest havail (hrej _) fun _ _ k _ => skip_most_zero k)
      exact pushBest_best
        (candidate_searchSpaceTest StatVFS.spaceavail (fun _ => rfl) rfl)
  | newest =>
      apply finds_of_agrees (agrees_pushBest (decides_newestSearch env fusepath)
        (hrej _) fun _ _ k _ => skip_latest_min k)
      exact pushBest_best (candidate_newestSearch rfl)
  | rand | eprand =>
      have hagree : Agrees _ _ branches (shuffled env _) :=
        agrees_shuffled (agrees_pushAll hs (hrej _))
      apply finds_of_agrees hagree
      intro hok
      obtain ⟨hnil, hmem⟩ := hagree.mem_of_ok hok
      obtain ⟨q, qs, hq⟩ := List.exists_cons_of_ne_nil hnil
      obtain ⟨b, hb, hbq, hrej⟩ := hmem q (by simp [hq])
      refine ⟨b, hb, ?_, (searchRejection_eq_none_iff env _ fusepath b).mp hrej,
        trivial⟩
      rw [hbq]
      simp [func, randFunc, eprandFunc, allFunc, epallFunc, epallSearch, hq]

/-- A search that succeeds, of whatever policy, starts with a branch of the list
that has the path. -/
theorem func_search_ok {p : Policy}
    (h : (p.func env .search branches fusepath minfreespace []).1 = .ok ()) :
    ∃ b ∈ branches, (p.func env .search branches fusepath minfreespace
      []).2.head? = some b.path ∧ Holds env fusepath b := by
  have hp : p ≠ .invalid ∧ p ≠ .erofs := by
    constructor <;> rintro rfl <;> cases h
  have hne : p ≠ .lus ∧ p ≠ .eplus := by
    constructor
    all_goals
      rintro rfl
      simp [func, lusFunc, eplusFunc, eplusSearch_eq] at h
  obtain ⟨b, hb, hfirst, hcand, _⟩ :=
    (func_search_finds env branches fusepath minfreespace hp hne).first h
  exact ⟨b, hb, hfirst, hcand.path⟩

theorem func_search_error {p : Policy} {e : Errno}
    (h : (p.func env .search branches fusepath minfreespace []).1 = .error e) :
    e = ENOENT ∨ e = EROFS ∨ e = EINVAL := by
  by_cases hp : p ≠ .invalid ∧ p ≠ .erofs
  · by_cases hne : p ≠ .lus ∧ p ≠ .eplus
    · exact .inl ((func_search_finds env branches fusepath minfreespace hp
        hne).errno e h)
    · rw [not_and_or, not_not, not_not] at hne
      rcases hne with rfl | rfl
      · exact .inl (by simpa [func, lusFunc, eplusFunc, eplusSearch_eq] using h.symm)
      · exact .inl (by simpa [func, eplusFunc, eplusSearch_eq] using h.symm)
  · rw [not_and_or, not_not, not_not] at hp
    rcases hp with rfl | rfl
    · exact .inr (.inr (Except.error.inj h).symm)
    · exact .inr (.inl (Except.error.inj h).symm)

/-- The search of a policy finds what exists exactly when it is not one of the two
that start from a minimum of `0`, or there is nothing to find. -/
theorem func_search_finds_iff (p : Policy) (hp : p ≠ .invalid ∧ p ≠ .erofs) :
    Finds env p fusepath branches
        (p.func env .search branches fusepath minfreespace []) ↔
      (p ≠ .lus ∧ p ≠ .eplus) ∨
        ∀ b ∈ branches, ¬ Candidate env p fusepath b := by
  by_cases hne : p ≠ .lus ∧ p ≠ .eplus
  · exact ⟨fun _ => .inl hne, fun _ =>
      func_search_finds env branches fusepath minfreespace hp hne⟩
  · have heq : p.func env .search branches fusepath minfreespace [] =
        (.error ENOENT, []) := by
      rw [not_and_or, not_not, not_not] at hne
      rcases hne with rfl | rfl
      · exact eplusSearch_eq env branches fusepath
      · exact eplusSearch_eq env branches fusepath
    rw [heq]
    constructor
    · intro h
      right
      intro b hb hc
      have hok := h.ok_iff.mpr ⟨b, hb, hc⟩
      simp at hok
    · intro h
      have hnone : ¬ ∃ b ∈ branches, Candidate env p fusepath b := by
        rcases h with h | h
        · exact absurd h hne
        · rintro ⟨b, hb, hc⟩
          exact h b hb hc
      refine ⟨by simp [hnone], ?_, by simp⟩
      intro e he
      exact (Except.error.inj he).symm

end Finds

/-- A pool of one branch that holds every path and answers `statvfs`. -/
theorem func_search_finds_iff_mfs :
    Finds (Probe.unshuffled (fun _ => some ⟨0, 1, 0, 5⟩)
        fun _ => some ⟨1, 10, 4, 0⟩) .mfs ['/', 'f'] [⟨.RW, ['/', 'a']⟩]
      (Policy.mfs.func (Probe.unshuffled (fun _ => some ⟨0, 1, 0, 5⟩)
        fun _ => some ⟨1, 10, 4, 0⟩) .search [⟨.RW, ['/', 'a']⟩] ['/', 'f']
        0 []) :=
  (func_search_finds_iff _ _ _ _ .mfs (by decide)).mpr (.inl (by decide))

/-- On that pool the search of `lus` fails, although the path is there. -/
theorem lus_search_misses :
    ¬ Finds (Probe.unshuffled (fun _ => some ⟨0, 1, 0, 5⟩)
        fun _ => some ⟨1, 10, 4, 0⟩) .lus ['/', 'f'] [⟨.RW, ['/', 'a']⟩]
      (Policy.lus.func (Probe.unshuffled (fun _ => some ⟨0, 1, 0, 5⟩)
        fun _ => some ⟨1, 10, 4, 0⟩) .search [⟨.RW, ['/', 'a']⟩] ['/', 'f']
        0 []) := by
  intro h
  have hok := h.ok_iff.mpr ⟨⟨.RW, ['/', 'a']⟩, by simp, ⟨_, rfl⟩,
    fun _ => ⟨_, rfl⟩⟩
  have hfail := eplusSearch_eq (Probe.unshuffled (fun _ => some ⟨0, 1, 0, 5⟩)
    fun _ => some ⟨1, 10, 4, 0⟩) [⟨.RW, ['/', 'a']⟩] ['/', 'f']
  have herr : (Policy.lus.func (Probe.unshuffled
      (fun _ => some ⟨0, 1, 0, 5⟩) fun _ => some ⟨1, 10, 4, 0⟩) .search
      [⟨.RW, ['/', 'a']⟩] ['/', 'f'] 0 []).1 = .error ENOENT :=
    congrArg Prod.fst hfail
  rw [herr] at hok
  simp at hok

end Policy

end Mergerfs
