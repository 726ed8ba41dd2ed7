import Mathlib.Logic.Relation
import Mathlib.Data.List.Nodup
import Mathlib.Data.List.Perm.Subperm

/-!
# Forests by parents

Things with parents: `parent` gives the parent of each, and `members` lists those that
are in the forest with it. The ways up from a member are the chains of parents
(`Above`); there are no cycles if some height goes down along each of them. A thing
without children can be taken out, and a thing that is not a member can be put below
any other that is not below it: both keep the heights.
-/

namespace Forest

variable {α : Type*}

def Up (parent : α → Option α) (members : List α) (p q : α) : Prop :=
  p ∈ members ∧ parent p = some q

abbrev Above (parent : α → Option α) (members : List α) : α → α → Prop :=
  Relation.ReflTransGen (Up parent members)

def Acyclic (parent : α → Option α) (members : List α) : Prop :=
  ∃ depth : α → ℕ, ∀ p q, Up parent members p q → depth q < depth p

variable {parent parent' : α → Option α} {members members' : List α} {p q x : α}

theorem Up.unique {r : α} (h : Up parent members p q) (h' : Up parent members p r) :
    q = r :=
  Option.some.inj (h.2.symm.trans h'.2)

theorem Up.mono (hsub : ∀ x ∈ members', x ∈ members)
    (hparent : ∀ x ∈ members', parent' x = parent x) (h : Up parent' members' p q) :
    Up parent members p q :=
  ⟨hsub p h.1, by rw [← hparent p h.1, h.2]⟩

theorem Above.mono (hsub : ∀ x ∈ members', x ∈ members)
    (hparent : ∀ x ∈ members', parent' x = parent x) (h : Above parent' members' p x) :
    Above parent members p x :=
  Relation.ReflTransGen.mono (fun _ _ => Up.mono hsub hparent) _ _ h

/-! ## No cycles -/

theorem Acyclic.mono (h : Acyclic parent members) (hsub : ∀ x ∈ members', x ∈ members)
    (hparent : ∀ x ∈ members', parent' x = parent x) : Acyclic parent' members' := by
  obtain ⟨depth, hdepth⟩ := h
  exact ⟨depth, fun p q hpq => hdepth p q (hpq.mono hsub hparent)⟩

theorem Acyclic.not_above_of_up (h : Acyclic parent members) (hpq : Up parent members p q) :
    ¬ Above parent members q p := by
  obtain ⟨depth, hdepth⟩ := h
  have hle : ∀ {a b}, Above parent members a b → depth b ≤ depth a := by
    intro a b hab
    induction hab with
    | refl => exact Nat.le_refl _
    | tail _ hstep ih => exact Nat.le_trans (Nat.le_of_lt (hdepth _ _ hstep)) ih
  intro habove
  exact absurd (hdepth p q hpq) (Nat.not_lt.mpr (hle habove))

/-- What is not a member can go below anything that is not below it. -/
theorem Acyclic.graft (h : Acyclic parent members) (hp : p ∉ members)
    (hqp : ¬ Above parent members q p) (hparent : parent' p = some q)
    (hother : ∀ x ∈ members, parent' x = parent x) : Acyclic parent' (p :: members) := by
  classical
  obtain ⟨depth, hdepth⟩ := h
  -- everything at or below `p` is lifted above the height of `q`
  refine ⟨fun x => if Above parent members x p then depth x + depth q + 1 else depth x,
    ?_⟩
  rintro a b ⟨ha, hab⟩
  dsimp only
  rcases List.mem_cons.mp ha with rfl | ha
  · obtain rfl : b = q := Option.some.inj (hab.symm.trans hparent)
    rw [if_neg hqp, if_pos .refl]
    omega
  · have hup : Up parent members a b := ⟨ha, (hother a ha).symm.trans hab⟩
    have hlt := hdepth a b hup
    by_cases hb : Above parent members b p
    · rw [if_pos hb, if_pos (.head hup hb)]
      omega
    · rw [if_neg hb, if_neg]
      · exact hlt
      · intro hap
        rcases Relation.ReflTransGen.cases_head hap with rfl | ⟨c, hac, hc⟩
        · exact hp hup.1
        · rw [hup.unique hac] at hb
          exact hb hc

/-- Going down from a thing with `Q` leads to one with `P`, if from every thing with `Q`
but without `P` there is a way on down. -/
theorem Acyclic.exists_below (h : Acyclic parent members) {P Q : α → Prop}
    (hdown : ∀ x, Q x → ¬ P x → ∃ p, Up parent members p x ∧ Q p) (hx : Q x) :
    ∃ y, Above parent members y x ∧ P y := by
  obtain ⟨depth, hdepth⟩ := h
  obtain ⟨bound, hbound⟩ : ∃ bound, ∀ p ∈ members, depth p ≤ bound :=
    ⟨(members.map depth).max?.getD 0,
      fun p hp => List.le_max?_getD_of_mem (List.mem_map_of_mem hp)⟩
  -- the height only grows on the way down, up to the bound
  induction hk : bound - depth x using Nat.strongRecOn generalizing x with
  | _ k ih =>
      by_cases hP : P x
      · exact ⟨x, .refl, hP⟩
      · obtain ⟨p, hp, hQ⟩ := hdown x hx hP
        have hlt := hdepth p x hp
        have hle := hbound p hp.1
        obtain ⟨y, hy, hPy⟩ := ih (bound - depth p) (by omega) hQ rfl
        exact ⟨y, hy.tail hp, hPy⟩

/-! ## Walks -/

/-- The way up from `p` to `r` passes the things of the list, `p` first and `r` not. -/
inductive Walk (parent : α → Option α) : α → List α → α → Prop
  | nil (p : α) : Walk parent p [] p
  | cons {p q r : α} {l : List α} (hp : parent p = some q) (h : Walk parent q l r) :
      Walk parent p (p :: l) r

namespace Walk

variable {l l' : List α} {r r' : α}

theorem snoc (h : Walk parent p l q) (hq : parent q = some r) :
    Walk parent p (l ++ [q]) r := by
  induction h with
  | nil p => exact .cons hq (.nil r)
  | cons hp _ ih => exact .cons hp (ih hq)

theorem unique (h : Walk parent p l r) (h' : Walk parent p l' r') (hr : parent r = none)
    (hr' : parent r' = none) : l = l' ∧ r = r' := by
  induction h generalizing l' with
  | nil p =>
      cases h' with
      | nil => exact ⟨rfl, rfl⟩
      | cons hp _ =>
          rw [hr] at hp
          cases hp
  | cons hp _ ih =>
      cases h' with
      | nil =>
          rw [hr'] at hp
          cases hp
      | cons hp' h' =>
          obtain rfl := Option.some.inj (hp.symm.trans hp')
          obtain ⟨rfl, hr⟩ := ih h' hr
          exact ⟨rfl, hr⟩

theorem exists_parent (h : Walk parent p l r) (hx : x ∈ l) : ∃ q, parent x = some q := by
  induction h with
  | nil p => cases hx
  | cons hp _ ih =>
      rcases List.mem_cons.mp hx with rfl | hx
      · exact ⟨_, hp⟩
      · exact ih hx

theorem append (h : Walk parent p l q) (h' : Walk parent q l' r) :
    Walk parent p (l ++ l') r := by
  induction h with
  | nil p => exact h'
  | cons hp _ ih => exact .cons hp (ih h')

/-- A walk that cannot go on is the longest: another one from its start is part of it. -/
theorem rest (h : Walk parent p l q) (h' : Walk parent p l' r) (hr : parent r = none) :
    ∃ l'', Walk parent q l'' r := by
  induction h generalizing l' with
  | nil p => exact ⟨l', h'⟩
  | cons hp _ ih =>
      cases h' with
      | nil =>
          rw [hr] at hp
          cases hp
      | cons hp' h' =>
          obtain rfl := Option.some.inj (hp.symm.trans hp')
          exact ih h'

theorem exists_suffix (h : Walk parent p l r) (hx : x ∈ l) :
    ∃ l', Walk parent x l' r ∧ x ∈ l' := by
  induction h with
  | nil p => cases hx
  | cons hp h ih =>
      rcases List.mem_cons.mp hx with rfl | hx
      · exact ⟨_, .cons hp h, List.mem_cons_self⟩
      · exact ih hx

theorem start_mem (h : Walk parent p l r) (hne : p ≠ r) : p ∈ l := by
  cases h with
  | nil => exact absurd rfl hne
  | cons => exact List.mem_cons_self

theorem above (h : Walk parent p l r) (hl : ∀ y ∈ l, y ∈ members) (hx : x ∈ l) :
    Above parent members p x := by
  induction h with
  | nil p => cases hx
  | cons hp _ ih =>
      rcases List.mem_cons.mp hx with rfl | hx
      · exact .refl
      · exact .head ⟨hl _ List.mem_cons_self, hp⟩
          (ih (fun y hy => hl y (List.mem_cons_of_mem _ hy)) hx)

/-- A walk to the top passes everything on the way up, or ends there. -/
theorem mem_of_above (h : Walk parent p l r) (hr : parent r = none)
    (hx : Above parent members p x) : x ∈ l ∨ x = r := by
  induction h with
  | nil p =>
      rcases Relation.ReflTransGen.cases_head hx with rfl | ⟨q, hq, -⟩
      · exact .inr rfl
      · have := hq.2
        rw [hr] at this
        cases this
  | cons hp _ ih =>
      rcases Relation.ReflTransGen.cases_head hx with rfl | ⟨q, hq, hqx⟩
      · exact .inl List.mem_cons_self
      · obtain rfl := Option.some.inj (hp.symm.trans hq.2)
        exact (ih hr hqx).imp_left (List.mem_cons_of_mem _)

variable (hac : Acyclic parent members) (hmem : ∀ x q, parent x = some q → x ∈ members)

include hac hmem

theorem exists_depth (h : Walk parent p l r) :
    ∃ depth : α → ℕ, (∀ x ∈ l, depth r < depth x ∧ depth x ≤ depth p) ∧
      depth r ≤ depth p ∧ l.Nodup := by
  obtain ⟨depth, hdepth⟩ := hac
  refine ⟨depth, ?_⟩
  induction h with
  | nil p => exact ⟨nofun, Nat.le_refl _, List.nodup_nil⟩
  | @cons p q r l hp _ ih =>
      obtain ⟨hl, hr, hnodup⟩ := ih
      have hlt := hdepth p q ⟨hmem p q hp, hp⟩
      refine ⟨?_, by omega, List.nodup_cons.mpr ⟨fun hpl => ?_, hnodup⟩⟩
      · intro x hx
        rcases List.mem_cons.mp hx with rfl | hx
        · omega
        · have := hl x hx
          omega
      · have := hl p hpl
        omega

theorem nodup (h : Walk parent p l r) : l.Nodup := by
  obtain ⟨_, -, -, hnodup⟩ := h.exists_depth hac hmem
  exact hnodup

theorem notMem (h : Walk parent p l r) : r ∉ l := by
  obtain ⟨depth, hl, -⟩ := h.exists_depth hac hmem
  intro hr
  exact Nat.lt_irrefl _ (hl r hr).1

theorem length_le (h : Walk parent p l r) : l.length ≤ members.length := by
  refine (List.subperm_of_subset (h.nodup hac hmem) fun x hx => ?_).length_le
  obtain ⟨q, hq⟩ := h.exists_parent hx
  exact hmem x q hq

end Walk

/-! ## The way up as a list -/

/-- The things on the way up from `p`, which comes first, as far as `fuel` goes. -/
def wayUp (parent : α → Option α) : ℕ → α → List α
  | 0, _ => []
  | fuel + 1, p =>
      p :: match parent p with
        | none => []
        | some q => wayUp parent fuel q

theorem Walk.wayUp_eq {l : List α} {r : α} {fuel : ℕ} (h : Walk parent p l r)
    (hr : parent r = none) (hfuel : l.length < fuel) :
    wayUp parent fuel p = l ++ [r] := by
  induction h generalizing fuel with
  | nil p =>
      obtain ⟨fuel, rfl⟩ := Nat.exists_eq_add_of_lt hfuel
      unfold wayUp
      rw [hr]
      rfl
  | cons hp _ ih =>
      obtain ⟨fuel, rfl⟩ := Nat.exists_eq_add_of_lt hfuel
      unfold wayUp
      rw [hp]
      dsimp only
      rw [ih hr (by rw [List.length_cons]; omega), List.cons_append]

theorem exists_walk_of_mem_wayUp {fuel : ℕ} (h : x ∈ wayUp parent fuel p) :
    ∃ l, Walk parent p l x := by
  induction fuel generalizing p with
  | zero => cases h
  | succ fuel ih =>
      unfold wayUp at h
      rcases List.mem_cons.mp h with rfl | h
      · exact ⟨[], .nil x⟩
      · cases hp : parent p with
        | none =>
            rw [hp] at h
            cases h
        | some q =>
            rw [hp] at h
            obtain ⟨l, hl⟩ := ih h
            exact ⟨p :: l, .cons hp hl⟩

/-! ## Children -/

variable [DecidableEq α]

def children (parent : α → Option α) (members : List α) (p : α) : ℕ :=
  members.countP fun c => parent c = some p

theorem Above.mono_erase (h : Above parent (members.erase q) p x) :
    Above parent members p x :=
  h.mono (fun _ => List.mem_of_mem_erase) fun _ _ => rfl

theorem children_congr (h : ∀ c ∈ members, parent' c = parent c) :
    children parent' members p = children parent members p := by
  refine List.countP_congr fun c hc => ?_
  rw [h c hc]

theorem children_eq_erase (hp : p ∈ members) (x : α) :
    children parent members x =
      children parent (members.erase p) x + if parent p = some x then 1 else 0 := by
  unfold children
  rw [(List.perm_cons_erase hp).countP_eq, List.countP_cons]
  simp

theorem children_pos_of_up (h : Up parent members p q) : 0 < children parent members q :=
  List.countP_pos_iff.mpr ⟨p, h.1, by simpa using h.2⟩

theorem exists_up_of_children (h : 0 < children parent members q) :
    ∃ p, Up parent members p q := by
  obtain ⟨p, hp, hq⟩ := List.countP_pos_iff.mp h
  exact ⟨p, hp, by simpa using hq⟩

theorem eq_of_above_of_children (h0 : children parent members x = 0)
    (h : Above parent members p x) : p = x := by
  rcases Relation.ReflTransGen.cases_tail h with heq | ⟨c, -, hc⟩
  · exact heq.symm
  · have := children_pos_of_up hc
    omega

theorem above_erase (h0 : children parent members q = 0) (hne : p ≠ q)
    (h : Above parent members p x) : Above parent (members.erase q) p x := by
  induction h with
  | refl => exact .refl
  | tail hab hstep ih =>
      refine ih.tail ⟨(List.mem_erase_of_ne ?_).mpr hstep.1, hstep.2⟩
      rintro rfl
      exact hne (eq_of_above_of_children h0 hab)

/-! ## The length of the way up -/

theorem Above.erase (h : Above parent members q x) (hp : ¬ Above parent members q p) :
    Above parent (members.erase p) q x := by
  induction h with
  | refl => exact .refl
  | tail hab hstep ih =>
      refine ih.tail ⟨(List.mem_erase_of_ne ?_).mpr hstep.1, hstep.2⟩
      rintro rfl
      exact hp hab

/-- Without cycles the way up is as long as there are members at most. -/
theorem Acyclic.mem_wayUp (h : Acyclic parent members) (hx : Above parent members p x) :
    x ∈ wayUp parent (members.length + 1) p := by
  induction hlen : members.length generalizing members p with
  | zero =>
      obtain rfl := List.length_eq_zero_iff.mp hlen
      rcases Relation.ReflTransGen.cases_head hx with rfl | ⟨q, hq, -⟩
      · exact List.mem_cons_self
      · exact absurd hq.1 List.not_mem_nil
  | succ k ih =>
      rcases Relation.ReflTransGen.cases_head hx with rfl | ⟨q, hq, hqx⟩
      · exact List.mem_cons_self
      · have hlen' : (members.erase p).length = k := by
          rw [List.length_erase_of_mem hq.1, hlen]
          rfl
        have := ih (h.mono (fun _ => List.mem_of_mem_erase) fun _ _ => rfl)
          (Above.erase hqx (h.not_above_of_up hq)) hlen'
        unfold wayUp
        rw [hq.2]
        exact List.mem_cons_of_mem p this

end Forest
