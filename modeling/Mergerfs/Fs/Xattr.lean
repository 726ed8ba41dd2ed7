import Mergerfs.Fs.Copy

/-!
# Reading extended attributes

`fs::xattr::get` asks for the size of a value, makes its buffer that long and reads the
value, and begins again when the value no longer fits. Another process may change the
value between the two calls. A value that has become shorter is read into the front of
the buffer, and nothing cuts the buffer down to it: what is delivered is the buffer. The
buffer of an earlier attempt is delivered as well, if the value is empty when its size is
asked for again.

A file is asked by a descriptor or by a path. The two forms of each function differ in the
calls they make, whose answers are the input here.
-/

namespace Mergerfs.Xattr

open Errno

/-! ## The loop -/

/-- What the attribute is when its size is asked for and when it is read. -/
structure Round where
  probe : Except Errno Content
  read : Except Errno Content

def filled (value : Except Errno Content) (size : ℕ) : Except Errno Content :=
  match value with
  | .error e => .error e
  | .ok w => if size < w.length then .error ERANGE else .ok w

/-- The loop that `fs::xattr::list` and `fs::xattr::get` share, on the buffer: the result
and the buffer after it. The sizes are made an `int` by the wrappers of the calls. -/
def fetch : Content → List Round → Option (ℤ × Content)
  | _, [] => none
  | value, r :: rounds =>
      match r.probe with
      | .error _ => some (-1, value)
      | .ok v =>
          let rv := toInt v.length
          if rv ≤ 0 then some (rv, value)
          else
            let value := Bytes.resize 0 value rv.toNat
            match filled r.read rv.toNat with
            | .error e => if e = ERANGE then fetch value rounds else some (-1, value)
            | .ok w => some (toInt w.length, Bytes.writeAt 0 value 0 w)

def list := fetch
def get := fetch

/-- The forms into a string, which is left alone when the vector is not delivered. -/
def getString (rounds : List Round) (value : Content) : Option (ℤ × Content) := do
  let (rv, tmpvalue) ← get [] rounds
  return (rv, if rv ≠ -1 then tmpvalue else value)

def listString (rounds : List Round) (attrstr : Content) : Option (ℤ × Content) := do
  let (rv, attrs) ← list [] rounds
  return (rv, if rv ≠ -1 then attrs else attrstr)

/-! ## All attributes of a file -/

abbrev Attrs := List (Content × Content)

/-- `attrs[key] = value`. -/
def insertAttr (key value : Content) : Attrs → Attrs
  | [] => [(key, value)]
  | (k, v) :: attrs =>
      if key = k then (key, value) :: attrs
      else if List.lex key k (fun a b => decide (a < b)) then
        (key, value) :: (k, v) :: attrs
      else (k, v) :: insertAttr key value attrs

/-- The names that `std::getline` takes off a list at its nulls. -/
def getlines (attrstr : Content) : List Content :=
  let parts := attrstr.splitOn 0
  if parts.getLast? = some [] then parts.dropLast else parts

def getLoop : List Content → List (List Round) → Attrs → Option Attrs
  | [], _, attrs => some attrs
  | _ :: _, [], _ => none
  | key :: keys, rounds :: gets, attrs => do
      let (rv, value) ← getString rounds []
      getLoop keys gets (if rv ≠ -1 then insertAttr key value attrs else attrs)

structure CopyCalls where
  list : List Round
  gets : List (List Round)
  open' : Rv
  sets : List Rv
  close : Rv

def CopyCalls.keys (calls : CopyCalls) : List Content :=
  match listString calls.list [] with
  | some (_, attrstr) => getlines attrstr
  | none => []

def getMap (calls : CopyCalls) : Option (ℤ × Attrs) := do
  let (rv, attrstr) ← listString calls.list []
  if rv = -1 then return (-1, [])
  else
    let attrs ← getLoop (getlines attrstr) calls.gets []
    return (0, attrs)

def setMap : List Rv → Attrs → Option (ℤ × Attrs)
  | _, [] => some (0, [])
  | [], _ :: _ => none
  | .error _ :: _, _ :: _ => some (-1, [])
  | .ok () :: sets, attr :: attrs => do
      let (rv, written) ← setMap sets attrs
      return (rv, attr :: written)

def rvOf : Rv → ℤ
  | .ok () => 0
  | .error _ => -1

/-- `fs::xattr::set` of all attributes by a path, which does not look at whether they
were set. -/
def setMapPath (calls : CopyCalls) (attrs : Attrs) : Option (ℤ × Attrs) :=
  match calls.open' with
  | .error _ => some (-1, [])
  | .ok () => do
      let (_, written) ← setMap calls.sets attrs
      return (rvOf calls.close, written)

def copy (calls : CopyCalls) : Option (ℤ × Attrs) := do
  let (rv, attrs) ← getMap calls
  if rv = -1 then return (-1, []) else setMap calls.sets attrs

def copyPath (calls : CopyCalls) : Option (ℤ × Attrs) := do
  let (rv, attrs) ← getMap calls
  if rv = -1 then return (-1, []) else setMapPath calls attrs

/-! ## When a value is delivered as it was -/

def Round.retried (r : Round) : Bool :=
  match r.probe with
  | .error _ => false
  | .ok v =>
      decide (0 < toInt v.length) &&
        match filled r.read (toInt v.length).toNat with
        | .error e => decide (e = ERANGE)
        | .ok _ => false

/-- What the attribute was at the last call: it is not read when its size is given as
nought. -/
def lastSeen (rounds : List Round) : Option Content :=
  match (rounds.dropWhile Round.retried).head? with
  | none => none
  | some r =>
      match r.probe with
      | .error _ => none
      | .ok v => if toInt v.length ≤ 0 then some v else r.read.toOption

/-- In the round that ends the loop the value is as long as it was said to be; one that is
said to be empty is empty, and so is the buffer. -/
def Steady (value : Content) (rounds : List Round) : Prop :=
  ∀ r ∈ (rounds.dropWhile Round.retried).head?, ∀ v, r.probe = .ok v →
    (toInt v.length ≤ 0 →
      v = [] ∧ value = [] ∧ rounds.takeWhile Round.retried = []) ∧
    (0 < toInt v.length → ∀ w, r.read = .ok w → (w.length : ℤ) = toInt v.length)

/-! ## The rounds -/

section Rounds

variable {value value' : Content} {r : Round} {rounds : List Round} {rv : ℤ}

theorem fetch_of_retried (h : r.retried = true) (value : Content)
    (rounds : List Round) :
    ∃ n, 0 < n ∧ n < 2 ^ 31 ∧
      fetch value (r :: rounds) = fetch (Bytes.resize 0 value n) rounds := by
  rw [Round.retried] at h
  cases hprobe : r.probe with
  | error e => simp [hprobe] at h
  | ok v =>
      simp only [hprobe, Bool.and_eq_true, decide_eq_true_eq] at h
      have hlt := toInt_lt v.length
      refine ⟨(toInt v.length).toNat, by omega, by omega, ?_⟩
      rw [fetch]
      simp only [hprobe]
      rw [if_neg (by omega)]
      cases hread : filled r.read (toInt v.length).toNat with
      | ok w => simp [hread] at h
      | error e =>
          simp only [hread, decide_eq_true_eq] at h
          exact if_pos h.2

/-- The round that ends the loop with a result: the value is said to be empty, or it is
read into the front of the buffer. -/
theorem fetch_of_last (h : r.retried = false) (hrv : rv ≠ -1)
    (hfetch : fetch value (r :: rounds) = some (rv, value')) :
    ∃ v, r.probe = .ok v ∧
      ((toInt v.length ≤ 0 ∧ rv = toInt v.length ∧ value' = value) ∨
        (0 < toInt v.length ∧ ∃ w, r.read = .ok w ∧ (w.length : ℤ) ≤ toInt v.length ∧
          rv = w.length ∧
          value' = w ++
            (Bytes.resize 0 value (toInt v.length).toNat).drop w.length)) := by
  rw [fetch] at hfetch
  rw [Round.retried] at h
  cases hprobe : r.probe with
  | error e =>
      simp only [hprobe] at hfetch
      exact absurd (Prod.mk.inj (Option.some.inj hfetch)).1.symm hrv
  | ok v =>
      simp only [hprobe] at hfetch h
      refine ⟨v, rfl, ?_⟩
      have hlt := toInt_lt v.length
      by_cases hsize : toInt v.length ≤ 0
      · rw [if_pos hsize] at hfetch
        obtain ⟨hrv, hvalue⟩ := Prod.mk.inj (Option.some.inj hfetch)
        exact .inl ⟨hsize, hrv.symm, hvalue.symm⟩
      · rw [if_neg hsize] at hfetch
        have hpos : 0 < toInt v.length := by omega
        refine .inr ⟨hpos, ?_⟩
        cases hread : r.read with
        | error e =>
            simp only [hread, filled, hpos, decide_true, Bool.true_and,
              decide_eq_false_iff_not] at hfetch h
            rw [if_neg h] at hfetch
            exact absurd (Prod.mk.inj (Option.some.inj hfetch)).1.symm hrv
        | ok w =>
            by_cases hfits : (toInt v.length).toNat < w.length
            · simp [hread, filled, hfits, hpos] at h
            · simp only [hread, filled, if_neg hfits] at hfetch
              obtain ⟨hrv, hvalue⟩ := Prod.mk.inj (Option.some.inj hfetch)
              refine ⟨w, rfl, by omega, ?_, ?_⟩
              · rw [← hrv, toInt_of_lt (by omega)]
              · rw [← hvalue, Bytes.writeAt_zero]

/-- The loop ends in the first round that is not repeated, on its own buffer or on that of
the attempt before. -/
theorem exists_last (h : fetch value rounds = some (rv, value')) :
    ∃ r after buffer, rounds.dropWhile Round.retried = r :: after ∧
      r.retried = false ∧ fetch buffer (r :: after) = some (rv, value') ∧
      (buffer = value ∧ rounds.takeWhile Round.retried = [] ∨
        buffer ≠ [] ∧ buffer.length < 2 ^ 31 ∧
          rounds.takeWhile Round.retried ≠ []) := by
  induction rounds generalizing value with
  | nil => simp [fetch] at h
  | cons r rounds ih =>
      cases hr : r.retried with
      | false =>
          have hnot : ¬ r.retried = true := by simp [hr]
          exact ⟨r, rounds, value, List.dropWhile_cons_of_neg hnot, hr, h,
            .inl ⟨rfl, List.takeWhile_cons_of_neg hnot⟩⟩
      | true =>
          obtain ⟨n, hpos, hlt, heq⟩ := fetch_of_retried hr value rounds
          rw [heq] at h
          obtain ⟨r', after, buffer, hdrop, hlast, hfetch, hbuffer⟩ := ih h
          refine ⟨r', after, buffer, ?_, hlast, hfetch, .inr ?_⟩
          · rw [List.dropWhile_cons_of_pos hr, hdrop]
          · have htake : (r :: rounds).takeWhile Round.retried ≠ [] := by
              rw [List.takeWhile_cons_of_pos hr]
              exact List.cons_ne_nil _ _
            rcases hbuffer with ⟨rfl, _⟩ | ⟨hne, hlen, _⟩
            · have hlen := Bytes.length_resize 0 value n
              refine ⟨?_, by omega, htake⟩
              rintro hnil
              rw [hnil, List.length_nil] at hlen
              omega
            · exact ⟨hne, hlen, htake⟩

theorem lastSeen_eq {after : List Round} {v : Content}
    (hdrop : rounds.dropWhile Round.retried = r :: after) (hprobe : r.probe = .ok v) :
    lastSeen rounds = if toInt v.length ≤ 0 then some v else r.read.toOption := by
  simp only [lastSeen, hdrop, List.head?_cons, hprobe]

theorem steady_iff {after : List Round} {v : Content}
    (hdrop : rounds.dropWhile Round.retried = r :: after) (hprobe : r.probe = .ok v) :
    Steady value rounds ↔
      (toInt v.length ≤ 0 →
        v = [] ∧ value = [] ∧ rounds.takeWhile Round.retried = []) ∧
      (0 < toInt v.length → ∀ w, r.read = .ok w → (w.length : ℤ) = toInt v.length) := by
  simp only [Steady, hdrop, List.head?_cons, Option.mem_def, Option.some.injEq,
    forall_eq', hprobe, Except.ok.injEq]

/-- What is delivered is what the attribute was at the last call, and as long as the
result says, exactly if the answers are steady. -/
theorem fetch_exact_iff (h : fetch value rounds = some (rv, value')) (hrv : rv ≠ -1) :
    ((value'.length : ℤ) = rv ∧ lastSeen rounds = some value') ↔
      Steady value rounds := by
  obtain ⟨r, after, buffer, hdrop, hlast, hfetch, hbuffer⟩ := exists_last h
  obtain ⟨v, hprobe, ⟨hsize, hrv', rfl⟩ | ⟨hsize, w, hread, hfits, hrv', hvalue⟩⟩ :=
    fetch_of_last hlast hrv hfetch
  · rw [lastSeen_eq hdrop hprobe, if_pos hsize, steady_iff hdrop hprobe]
    constructor
    · rintro ⟨hlen, hseen⟩
      have hnil : value' = [] := List.length_eq_zero_iff.mp (by omega)
      refine ⟨fun _ => ?_, fun hpos => absurd hsize (by omega)⟩
      rw [Option.some.inj hseen]
      rcases hbuffer with ⟨rfl, htake⟩ | ⟨hne, _⟩
      · exact ⟨hnil, hnil, htake⟩
      · exact absurd hnil hne
    · rintro ⟨hempty, _⟩
      obtain ⟨rfl, rfl, htake⟩ := hempty hsize
      rcases hbuffer with ⟨rfl, _⟩ | ⟨_, _, hne⟩
      · exact ⟨hrv'.symm, rfl⟩
      · exact absurd htake hne
  · have hlen : (value'.length : ℤ) = toInt v.length := by
      rw [hvalue, List.length_append, List.length_drop, Bytes.length_resize]
      omega
    rw [lastSeen_eq hdrop hprobe, if_neg (by omega), steady_iff hdrop hprobe, hread]
    constructor
    · rintro ⟨heq, _⟩
      refine ⟨fun hnot => absurd hsize (by omega), fun _ w' hw' => ?_⟩
      rw [← Except.ok.inj hw', ← hrv', ← heq, hlen]
    · rintro ⟨_, hsame⟩
      have heq := hsame hsize w rfl
      refine ⟨by omega, ?_⟩
      rw [hvalue, List.drop_of_length_le, List.append_nil]
      · rfl
      · rw [Bytes.length_resize]
        omega

/-- A value that is delivered as it was is as long as the result says, if the buffer was
not too long at the start. -/
theorem length_of_lastSeen (h : fetch value rounds = some (rv, value'))
    (hrv : rv ≠ -1) (hvalue : value.length < 2 ^ 31)
    (hseen : lastSeen rounds = some value') : (value'.length : ℤ) = rv := by
  obtain ⟨r, after, buffer, hdrop, hlast, hfetch, hbuffer⟩ := exists_last h
  obtain ⟨v, hprobe, ⟨hsize, hrv', rfl⟩ | ⟨hsize, w, hread, _, hrv', _⟩⟩ :=
    fetch_of_last hlast hrv hfetch
  · rw [lastSeen_eq hdrop hprobe, if_pos hsize] at hseen
    obtain rfl := Option.some.inj hseen
    rw [hrv', toInt_of_lt]
    rcases hbuffer with ⟨rfl, _⟩ | ⟨_, hlen, _⟩
    · exact hvalue
    · exact hlen
  · rw [lastSeen_eq hdrop hprobe, if_neg (by omega), hread] at hseen
    obtain rfl : w = value' := Option.some.inj hseen
    exact hrv'.symm

end Rounds

theorem fetch_of_getString {rounds : List Round} {old value : Content} {rv : ℤ}
    (h : getString rounds old = some (rv, value)) (hrv : rv ≠ -1) :
    fetch [] rounds = some (rv, value) := by
  rw [getString, get] at h
  cases hfetch : fetch [] rounds with
  | none => simp [hfetch] at h
  | some p =>
      obtain ⟨rv', tmpvalue⟩ := p
      simp only [hfetch, Option.bind_eq_bind, Option.bind_some] at h
      obtain ⟨rfl, rfl⟩ := Prod.mk.inj (Option.some.inj h)
      rw [if_pos hrv]

/-! ## What is copied -/

section Copy

variable {key value k v : Content} {attrs attrs' written : Attrs} {calls : CopyCalls}
  {rv : ℤ}

theorem mem_of_mem_insertAttr (h : (k, v) ∈ insertAttr key value attrs) :
    (k = key ∧ v = value) ∨ (k, v) ∈ attrs := by
  induction attrs with
  | nil =>
      obtain ⟨rfl, rfl⟩ := Prod.mk.inj (List.mem_singleton.mp h)
      exact .inl ⟨rfl, rfl⟩
  | cons a attrs ih =>
      rw [insertAttr] at h
      split_ifs at h with heq hlt
      · rcases List.mem_cons.mp h with heq | hmem
        · exact .inl (Prod.mk.inj heq)
        · exact .inr (.tail _ hmem)
      · rcases List.mem_cons.mp h with heq | hmem
        · exact .inl (Prod.mk.inj heq)
        · exact .inr hmem
      · rcases List.mem_cons.mp h with heq | hmem
        · rw [heq]
          exact .inr (.head _)
        · exact (ih hmem).imp_right (.tail _)

theorem mem_of_getLoop {keys : List Content} {gets : List (List Round)}
    (h : getLoop keys gets attrs = some attrs') (hmem : (k, v) ∈ attrs') :
    (k, v) ∈ attrs ∨
      ∃ rounds, (k, rounds) ∈ keys.zip gets ∧
        ∃ rv, rv ≠ -1 ∧ getString rounds [] = some (rv, v) := by
  induction keys generalizing gets attrs with
  | nil =>
      rw [getLoop] at h
      obtain rfl := Option.some.inj h
      exact .inl hmem
  | cons key keys ih =>
      cases gets with
      | nil => cases h
      | cons rounds gets =>
          obtain ⟨⟨rv, value⟩, hget, hloop⟩ := Option.bind_eq_some_iff.mp h
          rcases ih hloop with hold | ⟨rounds', hzip, hdelivered⟩
          · by_cases hrv : rv ≠ -1
            · simp only [if_pos hrv] at hold
              rcases mem_of_mem_insertAttr hold with ⟨rfl, rfl⟩ | hold
              · exact .inr ⟨rounds, .head _, rv, hrv, hget⟩
              · exact .inl hold
            · simp only [if_neg hrv] at hold
              exact .inl hold
          · exact .inr ⟨rounds', .tail _ hzip, hdelivered⟩

theorem mem_of_setMap {sets : List Rv} (h : setMap sets attrs = some (rv, written))
    {a : Content × Content} (ha : a ∈ written) : a ∈ attrs := by
  induction attrs generalizing sets rv written with
  | nil =>
      rw [setMap] at h
      obtain ⟨_, rfl⟩ := Prod.mk.inj (Option.some.inj h)
      exact ha
  | cons attr attrs ih =>
      match sets, h with
      | .error _ :: _, h =>
          obtain ⟨_, rfl⟩ := Prod.mk.inj (Option.some.inj h)
          cases ha
      | .ok () :: sets, h =>
          obtain ⟨⟨rv', written'⟩, hset, hpure⟩ := Option.bind_eq_some_iff.mp h
          obtain ⟨_, rfl⟩ := Prod.mk.inj (Option.some.inj hpure)
          rcases List.mem_cons.mp ha with rfl | ha
          · exact .head _
          · exact .tail _ (ih hset ha)

theorem mem_of_setMapPath (h : setMapPath calls attrs = some (rv, written))
    {a : Content × Content} (ha : a ∈ written) : a ∈ attrs := by
  rw [setMapPath] at h
  split at h
  · obtain ⟨_, rfl⟩ := Prod.mk.inj (Option.some.inj h)
    cases ha
  · obtain ⟨⟨rv', written'⟩, hset, hpure⟩ := Option.bind_eq_some_iff.mp h
    obtain ⟨_, rfl⟩ := Prod.mk.inj (Option.some.inj hpure)
    exact mem_of_setMap hset ha

theorem delivered_of_getMap (h : getMap calls = some (rv, attrs))
    (hmem : (k, v) ∈ attrs) :
    ∃ rounds, (k, rounds) ∈ calls.keys.zip calls.gets ∧
      ∃ rv, rv ≠ -1 ∧ getString rounds [] = some (rv, v) := by
  obtain ⟨⟨rv', attrstr⟩, hlist, hrest⟩ := Option.bind_eq_some_iff.mp h
  dsimp only at hrest
  split_ifs at hrest with hrv
  · obtain ⟨_, rfl⟩ := Prod.mk.inj (Option.some.inj hrest)
    cases hmem
  · obtain ⟨attrs', hloop, hpure⟩ := Option.bind_eq_some_iff.mp hrest
    obtain ⟨_, rfl⟩ := Prod.mk.inj (Option.some.inj hpure)
    rcases mem_of_getLoop hloop hmem with hnil | ⟨rounds, hzip, hdelivered⟩
    · cases hnil
    · refine ⟨rounds, ?_, hdelivered⟩
      rw [CopyCalls.keys, hlist]
      exact hzip

theorem exists_getMap_of_copy
    (h : copy calls = some (rv, written) ∨ copyPath calls = some (rv, written))
    {a : Content × Content} (ha : a ∈ written) :
    ∃ rv attrs, getMap calls = some (rv, attrs) ∧ a ∈ attrs := by
  rcases h with h | h
  all_goals
    obtain ⟨⟨rv', attrs⟩, hmap, hset⟩ := Option.bind_eq_some_iff.mp h
    dsimp only at hset
    split_ifs at hset with hrv
    · obtain ⟨_, rfl⟩ := Prod.mk.inj (Option.some.inj hset)
      cases ha
  · exact ⟨rv', attrs, hmap, mem_of_setMap hset ha⟩
  · exact ⟨rv', attrs, hmap, mem_of_setMapPath hset ha⟩

end Copy

/-- A value is delivered exactly if its answers are steady, and so it is with each value
that is copied. -/
theorem get_exact_iff (value old : Content) (rounds : List Round) (calls : CopyCalls) :
    (∀ rv value', get value rounds = some (rv, value') → 0 ≤ rv →
      (((value'.length : ℤ) = rv ∧ lastSeen rounds = some value') ↔
        Steady value rounds)) ∧
    (∀ rv value', getString rounds old = some (rv, value') → 0 ≤ rv →
      (((value'.length : ℤ) = rv ∧ lastSeen rounds = some value') ↔
        Steady [] rounds)) ∧
    (∀ rv written,
      copy calls = some (rv, written) ∨ copyPath calls = some (rv, written) →
      ∀ key value, (key, value) ∈ written →
        ∃ rounds, (key, rounds) ∈ calls.keys.zip calls.gets ∧
          (∃ rv, rv ≠ -1 ∧ getString rounds [] = some (rv, value)) ∧
          (lastSeen rounds = some value ↔ Steady [] rounds)) := by
  refine ⟨?_, ?_, ?_⟩
  · intro rv value' h hrv
    exact fetch_exact_iff h (by omega)
  · intro rv value' h hrv
    exact fetch_exact_iff (fetch_of_getString h (by omega)) (by omega)
  · intro rv written h key value hmem
    obtain ⟨rv', attrs, hmap, hattrs⟩ := exists_getMap_of_copy h hmem
    obtain ⟨rounds, hzip, rv'', hrv'', hget⟩ := delivered_of_getMap hmap hattrs
    refine ⟨rounds, hzip, ⟨rv'', hrv'', hget⟩, ?_⟩
    have hfetch := fetch_of_getString hget hrv''
    rw [← fetch_exact_iff hfetch hrv'']
    constructor
    · intro hseen
      exact ⟨length_of_lastSeen hfetch hrv'' (by decide) hseen, hseen⟩
    · exact And.right

/-- The value of `a` has five bytes when its size is asked for and three when it is
read; five are delivered and copied. -/
theorem get_padded :
    getString [⟨.ok [1, 2, 3, 4, 5], .ok [6, 7, 8]⟩] [] = some (3, [6, 7, 8, 0, 0]) ∧
    copy ⟨[⟨.ok [97, 0], .ok [97, 0]⟩], [[⟨.ok [1, 2, 3, 4, 5], .ok [6, 7, 8]⟩]],
        .ok (), [.ok ()], .ok ()⟩ = some (0, [([97], [6, 7, 8, 0, 0])]) := by
  decide

end Mergerfs.Xattr
