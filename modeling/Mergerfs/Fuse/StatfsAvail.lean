import Mergerfs.Fuse.Statfs

/-!
# The available space of the pool

`statfs_ignore` is documented to leave the available space of some branches out of the
sum: with `ro` that of branches that are mounted read-only or tagged `RO` or `NC`, with
`nc` that of branches tagged `NC`. `l::should_ignore` asks for the mount in the wrong
place, so that a branch on a read-only mount is judged by its tag alone:
`statfs_avail_iff` says when the sums come out right all the same.

As a record is changed before it is put into the map, which branch of a device comes
first can matter as well: `statfs_perm_iff`.
-/

namespace Mergerfs

/-! ## Ignoring as documented -/

namespace Seen

variable (ignore : StatFSIgnore) (x : Seen)

/-- The branch is to be ignored by the documentation. -/
def toIgnore : Bool :=
  match ignore with
  | .NONE => false
  | .RO => x.stvfs.readonly || x.branch.ro || x.branch.nc
  | .NC => x.branch.nc

/-- The branch is on a read-only mount and its tag is one the test goes wrong for. -/
def misjudged : Bool :=
  x.stvfs.readonly && match ignore with
    | .NONE => x.branch.ro || x.branch.nc
    | .RO => !(x.branch.ro || x.branch.nc)
    | .NC => x.branch.ro

end Seen

theorem Seen.misjudged_ro (x : Seen) :
    x.misjudged .RO = (x.toIgnore .RO && !x.ignored .RO) := by
  simp only [misjudged, toIgnore, ignored, shouldIgnore, Branch.roOrNc, Branch.ro,
    Branch.nc]
  cases x.stvfs.readonly <;> cases x.branch.mode <;> rfl

theorem Seen.toIgnore_of_ignored_ro (x : Seen) (h : x.ignored .RO = true) :
    x.toIgnore .RO = true := by
  revert h
  simp only [toIgnore, ignored, shouldIgnore, Branch.roOrNc, Branch.ro, Branch.nc]
  cases x.stvfs.readonly <;> cases x.branch.mode <;> decide

theorem Seen.misjudged_of_ne_ro {ignore : StatFSIgnore} (h : ignore ≠ .RO)
    (x : Seen) : x.misjudged ignore = (x.ignored ignore && !x.toIgnore ignore) := by
  simp only [misjudged, toIgnore, ignored, shouldIgnore, Branch.roOrNc, Branch.ro,
    Branch.nc]
  cases ignore with
  | RO => exact absurd rfl h
  | NONE | NC => cases x.stvfs.readonly <;> cases x.branch.mode <;> rfl

theorem Seen.ignored_of_toIgnore {ignore : StatFSIgnore} (h : ignore ≠ .RO)
    (x : Seen) (hx : x.toIgnore ignore = true) : x.ignored ignore = true := by
  revert hx
  simp only [toIgnore, ignored, shouldIgnore, Branch.roOrNc, Branch.ro, Branch.nc]
  cases ignore with
  | RO => exact absurd rfl h
  | NONE | NC => cases x.stvfs.readonly <;> cases x.branch.mode <;> decide

theorem sum_ite_add_sum_filter {α M : Type*} [AddCommMonoid M] {p q : α → Bool}
    (h : ∀ x, q x = true → p x = true) (f : α → M) (l : List α) :
    (l.map fun x => if p x then 0 else f x).sum +
        ((l.filter fun x => p x && !q x).map f).sum =
      (l.map fun x => if q x then 0 else f x).sum := by
  induction l with
  | nil => simp
  | cons x l ih =>
      rw [List.map_cons, List.sum_cons, List.map_cons, List.sum_cons, ← ih]
      cases hp : p x with
      | false =>
          have hq : q x = false := by
            cases hq : q x with
            | false => rfl
            | true => rw [h x hq] at hp; cases hp
          simp [hp, hq, add_assoc]
      | true =>
          cases hq : q x with
          | false => simp [hp, hq, add_left_comm]
          | true => simp [hp, hq]

/-- The sum the test comes to is the documented one exactly if those it misjudges
make no difference. -/
theorem sum_ignored_eq_iff (ignore : StatFSIgnore) (f : Seen → UInt64)
    (l : List Seen) :
    (l.map fun x => if x.ignored ignore then 0 else f x).sum =
        (l.map fun x => if x.toIgnore ignore then 0 else f x).sum ↔
      ((l.filter (Seen.misjudged ignore)).map f).sum = 0 := by
  by_cases hro : ignore = .RO
  · subst hro
    have hsum := sum_ite_add_sum_filter Seen.toIgnore_of_ignored_ro f l
    have hfilter : l.filter (Seen.misjudged .RO) =
        l.filter fun x => x.toIgnore .RO && !x.ignored .RO :=
      List.filter_congr fun x _ => x.misjudged_ro
    rw [← hsum, hfilter, UInt64.add_eq_left]
  · have hsum := sum_ite_add_sum_filter (Seen.ignored_of_toIgnore hro) f l
    have hfilter : l.filter (Seen.misjudged ignore) =
        l.filter fun x => x.ignored ignore && !x.toIgnore ignore :=
      List.filter_congr fun x _ => x.misjudged_of_ne_ro hro
    rw [← hsum, hfilter, eq_comm, UInt64.add_eq_left]

theorem sum_devices {l : List Seen} (h : (l.map Seen.dev).Nodup) (f : Seen → UInt64) :
    ((devices l).toList.map fun x => f x.2).sum = (l.map f).sum := by
  have hkeys : ((l.map fun x => (x.dev, x)).map Prod.fst).Nodup := by
    rwa [List.map_map]
  have hperm := (Records.perm_ofList hkeys).map fun x => f x.2
  rw [List.map_map] at hperm
  exact hperm.sum_eq

section Avail

variable (env : StatfsEnv) (fusepath : Path) (mode : StatFS) (ignore : StatFSIgnore)
  (branches : Branches) (fsstat : Statvfs)

theorem statfs_count_eq_iff {f : Statvfs → UInt64}
    (hf : ∀ a b, f (mergeStatvfs a b) = f a + f b) {g : Seen → UInt64}
    (hg : ∀ x : Seen, f (x.normalized ignore (seen env fusepath mode branches)) =
      if x.ignored ignore then 0 else g x)
    (hdev : ((seen env fusepath mode branches).map Seen.dev).Nodup) :
    f (statfs env fusepath mode ignore branches fsstat).2 =
        ((seen env fusepath mode branches).map fun x =>
          if x.toIgnore ignore then 0 else g x).sum ↔
      (seen env fusepath mode branches = [] → f fsstat = 0) ∧
        (((seen env fusepath mode branches).filter (Seen.misjudged ignore)).map
          g).sum = 0 := by
  by_cases hne : seen env fusepath mode branches = []
  · rw [statfs_eq, hne]
    simp [devices, Records.ofList, Records.insertAll, Records.empty, mergeAll]
  · rw [statfs_count hf env fusepath mode ignore hne,
      sum_devices hdev fun x => f (x.normalized ignore _)]
    simp only [hg]
    rw [sum_ignored_eq_iff]
    simp [hne]

/-- With every branch that answers on a device of its own, the available blocks and
files are the sums over the branches that are not to be ignored, exactly if those of
the branches that are misjudged come to nothing. Where no branch answers the struct is
left as it is. -/
theorem statfs_avail_iff
    (hdev : ((seen env fusepath mode branches).map Seen.dev).Nodup) :
    ((statfs env fusepath mode ignore branches fsstat).2.f_bavail =
        ((seen env fusepath mode branches).map fun x =>
          if x.toIgnore ignore then 0 else x.rescaled
            (minimum (·.f_frsize) (seen env fusepath mode branches))).sum ↔
      (seen env fusepath mode branches = [] → fsstat.f_bavail = 0) ∧
        (((seen env fusepath mode branches).filter (Seen.misjudged ignore)).map
          fun x => x.rescaled
            (minimum (·.f_frsize) (seen env fusepath mode branches))).sum = 0) ∧
    ((statfs env fusepath mode ignore branches fsstat).2.f_favail =
        ((seen env fusepath mode branches).map fun x =>
          if x.toIgnore ignore then 0 else x.stvfs.f_favail).sum ↔
      (seen env fusepath mode branches = [] → fsstat.f_favail = 0) ∧
        (((seen env fusepath mode branches).filter (Seen.misjudged ignore)).map
          fun x => x.stvfs.f_favail).sum = 0) := by
  constructor
  · exact statfs_count_eq_iff env fusepath mode ignore branches fsstat
      (f := fun st => st.f_bavail) (fun _ _ => rfl)
      (fun x => x.normalized_f_bavail ignore _) hdev
  · exact statfs_count_eq_iff env fusepath mode ignore branches fsstat
      (f := fun st => st.f_favail) (fun _ _ => rfl)
      (fun x => x.normalized_f_favail ignore _) hdev

end Avail

def tenBlocks (bavail flag : UInt64) : Statvfs where
  f_frsize := 1
  f_blocks := 10
  f_bavail := bavail
  f_flag := flag
  f_bsize := 1
  f_bfree := 9
  f_files := 5
  f_ffree := 4
  f_favail := 3
  f_fsid := 0
  f_namemax := 255

def figures (sameDevice : Bool) (flag : UInt64) : StatfsEnv where
  lstat p := some ⟨if sameDevice then 0 else p.length, 1, 0, 0⟩
  lstatvfs _ := some (tenBlocks 4 flag)

/-- Two branches of which one is tagged `NC`, with `nc`. -/
theorem statfs_avail_iff_nc :
    (statfs (figures false 0) [] .BASE .NC
      [⟨.RW, "/a".toList⟩, ⟨.NC, "/bb".toList⟩] (tenBlocks 0 0)).2.f_bavail = 4 :=
  ((statfs_avail_iff (figures false 0) [] .BASE .NC
    [⟨.RW, "/a".toList⟩, ⟨.NC, "/bb".toList⟩] (tenBlocks 0 0) (by decide)).1).mpr
      (by decide)

/-- A branch on a read-only mount, with `ro`: its four blocks are counted. -/
theorem statfs_counts_readonly :
    (statfs (figures false 1) [] .BASE .RO [⟨.RW, "/a".toList⟩]
      (tenBlocks 0 0)).2.f_bavail = 4 ∧
    ((seen (figures false 1) [] .BASE [⟨.RW, "/a".toList⟩]).map fun x =>
      if x.toIgnore .RO then 0 else x.rescaled (minimum (·.f_frsize)
        (seen (figures false 1) [] .BASE [⟨.RW, "/a".toList⟩]))).sum = 0 := by
  constructor <;> decide

/-! ## The order of the branches -/

theorem lower_comm (m x y : UInt64) : lower (lower m x) y = lower (lower m y) x := by
  unfold lower
  grind

theorem minimum_of_perm (f : Statvfs → UInt64) {l l' : List Seen} (h : l.Perm l') :
    minimum f l = minimum f l' :=
  (h.map _).foldl_eq' (fun x _ y _ m => lower_comm m x y) ULONG_MAX

theorem Seen.normalized_of_perm (ignore : StatFSIgnore) {l l' : List Seen}
    (h : l.Perm l') : Seen.normalized ignore l = Seen.normalized ignore l' := by
  funext x
  simp only [normalized, minimum_of_perm _ h]

theorem seen_of_perm (env : StatfsEnv) (fusepath : Path) (mode : StatFS)
    {branches branches' : Branches} (h : branches.Perm branches') :
    (seen env fusepath mode branches).Perm (seen env fusepath mode branches') :=
  h.filterMap _

theorem Statvfs.eq_of_avail_eq {a b : Statvfs}
    (h : { a with f_bavail := 0, f_favail := 0 } =
      { b with f_bavail := 0, f_favail := 0 })
    (hbavail : a.f_bavail = b.f_bavail) (hfavail : a.f_favail = b.f_favail) :
    a = b := by
  rcases a with ⟨⟨⟩⟩
  rcases b with ⟨⟨⟩⟩
  simp_all

theorem Seen.normalized_eq (ignore : StatFSIgnore) {l : List Seen} {x y : Seen}
    (hst : x.stvfs = y.stvfs)
    (hx : x.ignored ignore = true → y.ignored ignore = false →
      y.rescaled (minimum (·.f_frsize) l) = 0 ∧ y.stvfs.f_favail = 0)
    (hy : y.ignored ignore = true → x.ignored ignore = false →
      x.rescaled (minimum (·.f_frsize) l) = 0 ∧ x.stvfs.f_favail = 0) :
    x.normalized ignore l = y.normalized ignore l := by
  -- the two can differ in what is available only
  have hrest : { x.normalized ignore l with f_bavail := 0, f_favail := 0 } =
      { y.normalized ignore l with f_bavail := 0, f_favail := 0 } := by
    unfold normalized kept
    rw [hst]
    split_ifs <;> rfl
  have hrescaled : x.rescaled (minimum (·.f_frsize) l) =
      y.rescaled (minimum (·.f_frsize) l) := by
    rw [rescaled, rescaled, hst]
  apply Statvfs.eq_of_avail_eq hrest
  · rw [normalized_f_bavail, normalized_f_bavail]
    split_ifs with hxi hyi hyi
    · rfl
    · exact (hx hxi (Bool.eq_false_of_not_eq_true hyi)).1.symm
    · exact (hy hyi (Bool.eq_false_of_not_eq_true hxi)).1
    · exact hrescaled
  · rw [normalized_f_favail, normalized_f_favail]
    split_ifs with hxi hyi hyi
    · rfl
    · exact (hx hxi (Bool.eq_false_of_not_eq_true hyi)).2.symm
    · exact (hy hyi (Bool.eq_false_of_not_eq_true hxi)).2
    · rw [hst]

section Order

variable (env : StatfsEnv) (fusepath : Path) (mode : StatFS) (ignore : StatFSIgnore)
  (branches : Branches) (fsstat : Statvfs)

theorem statfs_eq_map :
    statfs env fusepath mode ignore branches fsstat =
      (0, mergeAll fsstat (((devices (seen env fusepath mode branches)).map
        (Seen.normalized ignore (seen env fusepath mode branches))).toList.map
          Prod.snd)) := by
  rw [statfs_eq, Records.map, List.map_map]
  rfl

/-- Any branch that answers can be made the one its device is recorded for, with the
other devices as they are. -/
theorem exists_perm_first {x : Seen} (hx : x ∈ seen env fusepath mode branches) :
    ∃ branches', branches'.Perm branches ∧
      ∀ f : Statvfs → UInt64, (∀ a b, f (mergeStatvfs a b) = f a + f b) →
        f (statfs env fusepath mode ignore branches' fsstat).2 =
          f (x.normalized ignore (seen env fusepath mode branches)) +
            (((devices (seen env fusepath mode branches)).toList.filter
              fun z => decide (z.1 ≠ x.dev)).map fun z =>
                f (z.2.normalized ignore (seen env fusepath mode branches))).sum := by
  obtain ⟨b, hb, hsee⟩ := List.mem_filterMap.mp hx
  obtain ⟨l₁, l₂, rfl⟩ := List.append_of_mem hb
  have hperm : (b :: (l₁ ++ l₂)).Perm (l₁ ++ b :: l₂) := List.perm_middle.symm
  refine ⟨b :: (l₁ ++ l₂), hperm, ?_⟩
  intro f hf
  have hold : seen env fusepath mode (l₁ ++ b :: l₂) =
      seen env fusepath mode l₁ ++ x :: seen env fusepath mode l₂ := by
    simp [seen, hsee]
  have hnew : seen env fusepath mode (b :: (l₁ ++ l₂)) =
      x :: (seen env fusepath mode l₁ ++ seen env fusepath mode l₂) := by
    simp [seen, hsee]
  have hfirst : (devices (seen env fusepath mode (b :: (l₁ ++ l₂)))).toList.Perm
      ((x.dev, x) :: (devices (seen env fusepath mode
        (l₁ ++ b :: l₂))).toList.filter fun z => decide (z.1 ≠ x.dev)) := by
    rw [hnew, hold, devices, devices, List.map_cons, List.map_append, List.map_append,
      List.map_cons]
    exact Records.perm_ofList_cons _ _ _
  rw [statfs_count hf env fusepath mode ignore (by rw [hnew]; exact List.cons_ne_nil _ _),
    Seen.normalized_of_perm ignore (seen_of_perm env fusepath mode hperm)]
  exact (hfirst.map _).sum_eq

/-- If the order makes no difference, the branches of a device add the same. -/
theorem counts_eq_of_statfs_perm
    (h : ∀ branches', branches'.Perm branches →
      statfs env fusepath mode ignore branches' fsstat =
        statfs env fusepath mode ignore branches fsstat)
    {x y : Seen} (hx : x ∈ seen env fusepath mode branches)
    (hy : y ∈ seen env fusepath mode branches) (hdev : x.dev = y.dev)
    {f : Statvfs → UInt64} (hf : ∀ a b, f (mergeStatvfs a b) = f a + f b) :
    f (x.normalized ignore (seen env fusepath mode branches)) =
      f (y.normalized ignore (seen env fusepath mode branches)) := by
  obtain ⟨a, ha, hfx⟩ := exists_perm_first env fusepath mode ignore branches fsstat hx
  obtain ⟨b, hb, hfy⟩ := exists_perm_first env fusepath mode ignore branches fsstat hy
  have hx' := hfx f hf
  have hy' := hfy f hf
  rw [h a ha] at hx'
  rw [h b hb, ← hdev] at hy'
  exact add_right_cancel (hx'.symm.trans hy')

/-- If the branches of a device add the same, the order makes no difference. -/
theorem statfs_of_perm {branches' : Branches} (hperm : branches'.Perm branches)
    (h : ∀ x ∈ seen env fusepath mode branches,
      ∀ y ∈ seen env fusepath mode branches, x.dev = y.dev →
        x.normalized ignore (seen env fusepath mode branches) =
          y.normalized ignore (seen env fusepath mode branches)) :
    statfs env fusepath mode ignore branches' fsstat =
      statfs env fusepath mode ignore branches fsstat := by
  have hseen := seen_of_perm env fusepath mode hperm
  have hmaps : (devices (seen env fusepath mode branches)).map
      (Seen.normalized ignore (seen env fusepath mode branches)) =
    (devices (seen env fusepath mode branches')).map
      (Seen.normalized ignore (seen env fusepath mode branches')) := by
    rw [devices, devices, Records.map_ofList, Records.map_ofList, List.map_map,
      List.map_map, Seen.normalized_of_perm ignore hseen]
    apply Records.ofList_eq_of_perm (hseen.symm.map _)
    intro u hu v hv huv
    obtain ⟨x, hx, rfl⟩ := List.mem_map.mp hu
    obtain ⟨y, hy, rfl⟩ := List.mem_map.mp hv
    exact Prod.ext huv (h x hx y hy huv)
  rw [statfs_eq_map, statfs_eq_map, hmaps]

/-- Where the branches of one device answer alike, the outcome does not depend on the
order of the branches exactly if, on any device with a branch that is ignored and one
that is not, there is nothing available. -/
theorem statfs_perm_iff
    (hagree : ∀ x ∈ seen env fusepath mode branches,
      ∀ y ∈ seen env fusepath mode branches, x.dev = y.dev → x.stvfs = y.stvfs) :
    (∀ branches', branches'.Perm branches →
      statfs env fusepath mode ignore branches' fsstat =
        statfs env fusepath mode ignore branches fsstat) ↔
    ∀ x ∈ seen env fusepath mode branches, ∀ y ∈ seen env fusepath mode branches,
      x.dev = y.dev → x.ignored ignore = true → y.ignored ignore = false →
      y.rescaled (minimum (·.f_frsize) (seen env fusepath mode branches)) = 0 ∧
        y.stvfs.f_favail = 0 := by
  constructor
  · intro h x hx y hy hdev hign hnot
    have hbavail := counts_eq_of_statfs_perm env fusepath mode ignore branches fsstat h
      hx hy hdev (f := fun st => st.f_bavail) fun _ _ => rfl
    have hfavail := counts_eq_of_statfs_perm env fusepath mode ignore branches fsstat h
      hx hy hdev (f := fun st => st.f_favail) fun _ _ => rfl
    rw [Seen.normalized_f_bavail, Seen.normalized_f_bavail, hign, hnot] at hbavail
    rw [Seen.normalized_f_favail, Seen.normalized_f_favail, hign, hnot] at hfavail
    exact ⟨hbavail.symm, hfavail.symm⟩
  · intro h branches' hperm
    apply statfs_of_perm env fusepath mode ignore branches fsstat hperm
    intro x hx y hy hdev
    exact Seen.normalized_eq ignore (hagree x hx y hy hdev) (h x hx y hy hdev)
      (h y hy x hx hdev.symm)

end Order

/-- Two branches on one device with nothing ignored. -/
theorem statfs_perm_iff_none :
    statfs (figures true 0) [] .FULL .NONE
        [⟨.RW, "/b".toList⟩, ⟨.NC, "/a".toList⟩] (tenBlocks 0 0) =
      statfs (figures true 0) [] .FULL .NONE
        [⟨.NC, "/a".toList⟩, ⟨.RW, "/b".toList⟩] (tenBlocks 0 0) :=
  (statfs_perm_iff (figures true 0) [] .FULL .NONE
    [⟨.NC, "/a".toList⟩, ⟨.RW, "/b".toList⟩] (tenBlocks 0 0) (by decide)).mpr
      (by decide) _ (List.Perm.swap _ _ _)

/-- Two branches on one device, one of them tagged `NC`, with `nc`: the space is
available if the other one comes first. -/
theorem statfs_depends_on_order :
    (∀ x ∈ seen (figures true 0) [] .BASE [⟨.NC, "/a".toList⟩, ⟨.RW, "/b".toList⟩],
      ∀ y ∈ seen (figures true 0) [] .BASE [⟨.NC, "/a".toList⟩, ⟨.RW, "/b".toList⟩],
        x.dev = y.dev → x.stvfs = y.stvfs) ∧
    (statfs (figures true 0) [] .BASE .NC
      [⟨.NC, "/a".toList⟩, ⟨.RW, "/b".toList⟩] (tenBlocks 0 0)).2.f_bavail = 0 ∧
    (statfs (figures true 0) [] .BASE .NC
      [⟨.RW, "/b".toList⟩, ⟨.NC, "/a".toList⟩] (tenBlocks 0 0)).2.f_bavail = 4 := by
  refine ⟨?_, ?_, ?_⟩ <;> decide

end Mergerfs
