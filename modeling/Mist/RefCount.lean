import Mist.KeyMap

/-! Reference counting over a finite map of objects.  `collect` takes one count from each key of a
worklist; an object left without a count goes, and its references join the worklist. -/

/-- What reference counting needs of an object: the keys it refers to and a count of its own. -/
structure Counting (κ β : Type) where
  refs : β → List κ
  count : β → Nat
  setCount : Nat → β → β
  refs_setCount : ∀ c v, refs (setCount c v) = refs v
  count_setCount : ∀ c v, count (setCount c v) = c
  setCount_setCount : ∀ c c' v, setCount c (setCount c' v) = setCount c v
  setCount_count : ∀ v, setCount (count v) v = v

namespace Counting

open List Option KeyMap

variable {κ β : Type} [DecidableEq κ] (C : Counting κ β)

def refsTo (m : KeyMap κ β) (j : κ) : Nat := m.total fun v => (C.refs v).count j

/-- Take one count from each key of the worklist.  `root` stays at count zero.  The second component
is what went, in order. -/
def collect (root : κ) (m : KeyMap κ β) : List κ → KeyMap κ β × List (κ × β)
  | [] => (m, [])
  | k :: todo =>
    match h : m.lookup k with
    | none => collect root m todo
    | some v =>
      if C.count v - 1 = 0 ∧ k ≠ root then
        let rest := collect root (m.erase k) (C.refs v ++ todo)
        (rest.1, (k, v) :: rest.2)
      else
        collect root (m.insert k (C.setCount (C.count v - 1) v)) todo
  termination_by todo => todo.length + m.total fun v => 1 + (C.refs v).length
  decreasing_by
  · simp
  · have := KeyMap.total_erase (fun v => 1 + (C.refs v).length) h
    simp only [List.length_append, List.length_cons]
    omega
  have := KeyMap.total_insert_old (fun v => 1 + (C.refs v).length)
    (C.setCount (C.count v - 1) v) h
  simp only [C.refs_setCount] at this
  simp only [List.length_cons]
  omega

variable {C} {root : κ}

/-- Every object has a count for each reference to it and each worklist entry, and `slack` more. -/
def Counted (C : Counting κ β) (slack : κ → Nat) (m : KeyMap κ β) (todo : List κ) : Prop :=
  ∀ k v, m.lookup k = some v → C.count v = C.refsTo m k + todo.count k + slack k

/-- `Counted` while a change is under way: `owed` are the references still without their count. -/
def Balanced (C : Counting κ β) (slack : κ → Nat) (m : KeyMap κ β) (owed todo : List κ) : Prop :=
  ∀ k v, m.lookup k = some v → C.count v + owed.count k = C.refsTo m k + todo.count k + slack k

/-- Every reference leads to an object of the map. -/
def Closed (C : Counting κ β) (m : KeyMap κ β) : Prop :=
  ∀ d v, m.lookup d = some v → ∀ k ∈ C.refs v, (m.lookup k).isSome

/-- Every object has a count, those in `exempt` apart. -/
def Held (C : Counting κ β) (exempt : κ → Prop) (m : KeyMap κ β) : Prop :=
  ∀ k v, m.lookup k = some v → ¬ exempt k → 0 < C.count v

theorem refsTo_eq_zero {m : KeyMap κ β} {j : κ} :
    C.refsTo m j = 0 ↔ ∀ k v, m.lookup k = some v → j ∉ C.refs v := by
  simp only [refsTo, total_eq_zero, count_eq_zero]

theorem refsTo_pos {m : KeyMap κ β} {d k : κ} {v : β} (hd : m.lookup d = some v)
    (hk : k ∈ C.refs v) : 0 < C.refsTo m k :=
  (count_pos_iff.mpr hk).trans_le (le_total (fun v => (C.refs v).count k) hd)

section

variable {m : KeyMap κ β} {k : κ} {v : β} (h : m.lookup k = some v)
include h

theorem refsTo_erase (j : κ) : C.refsTo (m.erase k) j + (C.refs v).count j = C.refsTo m j :=
  total_erase _ h

theorem refsTo_erase_eq_zero {j : κ} (hfree : C.refsTo m j = 0) : C.refsTo (m.erase k) j = 0 := by
  have := refsTo_erase (C := C) h j
  omega

theorem refsTo_setCount (c : Nat) (j : κ) :
    C.refsTo (m.insert k (C.setCount c v)) j = C.refsTo m j := by
  have := total_insert_old (fun v => (C.refs v).count j) (C.setCount c v) h
  simp only [C.refs_setCount] at this
  simp only [refsTo]
  omega

end

theorem balanced_nil {slack : κ → Nat} {m : KeyMap κ β} {todo : List κ} :
    Balanced C slack m [] todo ↔ Counted C slack m todo := by
  simp [Balanced, Counted]

theorem Counted.not_referred {slack : κ → Nat} {m : KeyMap κ β} {k : κ} {v : β} {todo : List κ}
    (hc : Counted C slack m (k :: todo)) (hk : m.lookup k = some v) (h : C.count v - 1 = 0) :
    C.refsTo m k = 0 ∧ todo.count k = 0 := by
  have := hc k v hk
  rw [count_cons_self] at this
  omega

section

variable {slack : κ → Nat} {m : KeyMap κ β} {k : κ} {v : β} {todo : List κ}

section

variable (hc : Counted C slack m (k :: todo))
include hc

theorem Counted.skip (hk : m.lookup k = none) : Counted C slack m todo := by
  intro j w hj
  have hne : k ≠ j := by
    rintro rfl
    simp [hk] at hj
  have := hc j w hj
  rwa [count_cons_of_ne hne] at this

theorem Counted.erase (hk : m.lookup k = some v) :
    Counted C slack (m.erase k) (C.refs v ++ todo) := by
  intro j w hj
  rw [lookup_erase_ite] at hj
  split at hj
  · cases hj
  rename_i hne
  have h1 := hc j w hj
  have h2 := refsTo_erase (C := C) hk j
  rw [count_cons_of_ne (Ne.symm hne)] at h1
  rw [count_append]
  omega

theorem Counted.dec (hk : m.lookup k = some v) :
    Counted C slack (m.insert k (C.setCount (C.count v - 1) v)) todo := by
  intro j w hj
  rw [lookup_insert_ite] at hj
  rw [refsTo_setCount hk]
  split_ifs at hj with heq
  · cases hj
    subst heq
    have := hc j v hk
    rw [count_cons_self] at this
    rw [C.count_setCount]
    omega
  · have := hc j w hj
    rwa [count_cons_of_ne (Ne.symm heq)] at this

end

theorem Closed.erase (hcl : Closed C m) (h : C.refsTo (m.erase k) k = 0) : Closed C (m.erase k) := by
  intro d w hd j hj
  have hne : j ≠ k := by
    rintro rfl
    exact refsTo_eq_zero.mp h d w hd hj
  rw [lookup_erase_ite] at hd
  rw [lookup_erase_ite, if_neg hne]
  split at hd
  · cases hd
  · exact hcl d w hd j hj

theorem Closed.setCount (hcl : Closed C m) (hk : m.lookup k = some v) (c : Nat) :
    Closed C (m.insert k (C.setCount c v)) := by
  intro d w hd j hj
  have hlive : (m.lookup j).isSome := by
    rw [lookup_insert_ite] at hd
    split at hd
    · cases hd
      rw [C.refs_setCount] at hj
      exact hcl k v hk j hj
    · exact hcl d w hd j hj
  rw [lookup_insert_ite]
  split
  · rfl
  · exact hlive

theorem Held.erase {exempt : κ → Prop} (hh : Held C exempt m) : Held C exempt (m.erase k) := by
  intro j w hj
  rw [lookup_erase_ite] at hj
  split at hj
  · cases hj
  · exact hh j w hj

theorem Held.dec {exempt : κ → Prop} (hroot : exempt root) (hh : Held C exempt m)
    (h : ¬ (C.count v - 1 = 0 ∧ k ≠ root)) :
    Held C exempt (m.insert k (C.setCount (C.count v - 1) v)) := by
  intro j w hj hex
  rw [lookup_insert_ite] at hj
  split_ifs at hj with heq
  · subst heq
    cases hj
    have hne : j ≠ root := by
      rintro rfl
      exact hex hroot
    have hleft : C.count v - 1 ≠ 0 := fun h0 => h ⟨h0, hne⟩
    rw [C.count_setCount]
    omega
  · exact hh j w hj hex

end

section

variable {slack : κ → Nat} {m : KeyMap κ β} {k : κ} {v v' : β} {owed todo : List κ}

theorem refsTo_insert {out inn : List κ} (hk : m.lookup k = some v)
    (hrefs : ∀ j, (C.refs v').count j + out.count j = (C.refs v).count j + inn.count j) (j : κ) :
    C.refsTo (m.insert k v') j + out.count j = C.refsTo m j + inn.count j := by
  have h1 := total_insert_old (fun v => (C.refs v).count j) v' hk
  have h2 := hrefs j
  simp only [refsTo]
  omega

theorem Balanced.insert {out inn : List κ} (h : Balanced C slack m owed todo)
    (hk : m.lookup k = some v) (hcount : C.count v' = C.count v)
    (hrefs : ∀ j, (C.refs v').count j + out.count j = (C.refs v).count j + inn.count j) :
    Balanced C slack (m.insert k v') (inn ++ owed) (out ++ todo) := by
  intro j w hj
  have hto := refsTo_insert hk hrefs j
  have hold : ∃ w', m.lookup j = some w' ∧ C.count w' = C.count w := by
    rw [lookup_insert_ite] at hj
    split_ifs at hj with heq
    · cases hj
      exact ⟨v, heq ▸ hk, hcount.symm⟩
    · exact ⟨w, hj, rfl⟩
  obtain ⟨w', hw', hc⟩ := hold
  have := h j w' hw'
  simp only [count_append]
  omega

theorem Balanced.inc (h : Balanced C slack m (k :: owed) todo) (hk : m.lookup k = some v) :
    Balanced C slack (m.insert k (C.setCount (C.count v + 1) v)) owed todo := by
  intro j w hj
  rw [lookup_insert_ite] at hj
  rw [refsTo_setCount hk]
  split_ifs at hj with heq
  · subst heq
    cases hj
    have := h j v hk
    rw [count_cons_self] at this
    rw [C.count_setCount]
    omega
  · have := h j w hj
    rwa [count_cons_of_ne (Ne.symm heq)] at this

theorem Balanced.rebalance {owed' todo' : List κ} (h : Balanced C slack m owed todo)
    (heq : ∀ j, owed.count j + todo'.count j = owed'.count j + todo.count j) :
    Balanced C slack m owed' todo' := by
  intro j w hj
  have h1 := h j w hj
  have h2 := heq j
  omega

theorem Counted.insert_new (h : Counted C slack m []) (hcl : Closed C m) (hk : m.lookup k = none)
    (hrefs : C.refs v = []) (hcount : C.count v = 0) (hslack : slack k = 0) :
    Counted C slack (m.insert k v) [] := by
  have hto : ∀ j, C.refsTo (m.insert k v) j = C.refsTo m j := fun j => by
    have := total_insert_new (fun v => (C.refs v).count j) v hk
    simpa [refsTo, hrefs] using this
  intro j w hj
  rw [hto]
  rw [lookup_insert_ite] at hj
  split_ifs at hj with heq
  · subst heq
    cases hj
    have hfree : C.refsTo m j = 0 := refsTo_eq_zero.mpr fun d u hd hj => by
      have := hcl d u hd j hj
      simp [hk] at this
    simp [hcount, hfree, hslack]
  · exact h j w hj

theorem Closed.insert (hcl : Closed C m)
    (hrefs : ∀ j ∈ C.refs v, j = k ∨ (m.lookup j).isSome) : Closed C (m.insert k v) := by
  intro d w hd j hj
  have hlive : j = k ∨ (m.lookup j).isSome := by
    rw [lookup_insert_ite] at hd
    split at hd
    · cases hd
      exact hrefs j hj
    · exact .inr (hcl d w hd j hj)
  rw [lookup_insert_ite]
  split_ifs with hne
  · rfl
  · exact hlive.resolve_left hne

section

variable {exempt : κ → Prop} (hh : Held C exempt m)
include hh

theorem Held.insert
    (hv : ¬ exempt k → 0 < C.count v) : Held C exempt (m.insert k v) := by
  intro j w hj hex
  rw [lookup_insert_ite] at hj
  split_ifs at hj with heq
  · subst heq
    cases hj
    exact hv hex
  · exact hh j w hj hex

theorem Held.shrink {exempt' : κ → Prop}
    (hc : Counted C slack m todo)
    (h : ∀ j w, m.lookup j = some w → exempt j → exempt' j ∨ 0 < C.refsTo m j + todo.count j) :
    Held C exempt' m := by
  intro j w hj hex
  by_cases hj' : exempt j
  · have hpos := (h j w hj hj').resolve_left hex
    have := hc j w hj
    omega
  · exact hh j w hj hj'

theorem Held.mono {exempt' : κ → Prop}
    (h : ∀ j, exempt j → exempt' j) : Held C exempt' m :=
  fun j w hj hex => hh j w hj fun he => hex (h j he)

end

theorem Counted.leak (h : Counted C slack m (k :: todo)) :
    Counted C (fun j => slack j + [k].count j) m todo := by
  intro j w hj
  have := h j w hj
  rw [← singleton_append, count_append] at this
  show _ = _ + _ + (slack j + [k].count j)
  omega

end

/-- A map whose counts cover its references, those still owed a count and those still to collect
included, whose references lead to objects, and whose objects have a count, `exempt` apart. -/
structure Sound (C : Counting κ β) (slack : κ → Nat) (exempt : κ → Prop) (m : KeyMap κ β)
    (owed todo : List κ) : Prop where
  balanced : Balanced C slack m owed todo
  closed : Closed C m
  held : Held C exempt m

namespace Sound

variable {slack : κ → Nat} {exempt : κ → Prop} {m m' : KeyMap κ β} {k : κ} {v v' : β}
  {owed todo : List κ}

theorem counted (h : Sound C slack exempt m [] todo) : Counted C slack m todo :=
  balanced_nil.mp h.balanced

/-- Replacing an object by one with other references: what it gained is owed, what it lost is to be
collected. -/
theorem insert {out inn : List κ} (h : Sound C slack exempt m owed todo)
    (hk : m.lookup k = some v) (hcount : C.count v' = C.count v)
    (hrefs : ∀ j, (C.refs v').count j + out.count j = (C.refs v).count j + inn.count j)
    (hinn : ∀ j ∈ inn, (m.lookup j).isSome) :
    Sound C slack exempt (m.insert k v') (inn ++ owed) (out ++ todo) := by
  refine ⟨h.balanced.insert hk hcount hrefs, h.closed.insert fun j hj => ?_,
    h.held.insert fun hex => hcount ▸ h.held k v hk hex⟩
  have h1 : 0 < (C.refs v').count j := count_pos_iff.mpr hj
  have h2 := hrefs j
  by_cases hold : j ∈ C.refs v
  · exact .inr (h.closed k v hk j hold)
  · have h3 : (C.refs v).count j = 0 := count_eq_zero.mpr hold
    exact .inr (hinn j (count_pos_iff.mp (by omega)))

theorem inc (h : Sound C slack exempt m (k :: owed) todo) (hk : m.lookup k = some v) :
    Sound C slack exempt (m.insert k (C.setCount (C.count v + 1) v)) owed todo :=
  ⟨h.balanced.inc hk, h.closed.setCount hk _,
    h.held.insert fun _ => by rw [C.count_setCount]; exact Nat.succ_pos _⟩

theorem rebalance {owed' todo' : List κ} (h : Sound C slack exempt m owed todo)
    (heq : ∀ j, owed.count j + todo'.count j = owed'.count j + todo.count j) :
    Sound C slack exempt m owed' todo' :=
  ⟨h.balanced.rebalance heq, h.closed, h.held⟩

theorem leak (h : Sound C slack exempt m [] (k :: todo)) :
    Sound C (fun j => slack j + [k].count j) exempt m [] todo :=
  ⟨balanced_nil.mpr h.counted.leak, h.closed, h.held⟩

theorem insert_new (h : Sound C slack exempt m [] []) (hk : m.lookup k = none)
    (hrefs : C.refs v = []) (hcount : C.count v = 0) (hslack : slack k = 0) :
    Sound C slack (fun j => exempt j ∨ j = k) (m.insert k v) [] [] := by
  refine ⟨balanced_nil.mpr (h.counted.insert_new h.closed hk hrefs hcount hslack),
    h.closed.insert (by rw [hrefs]; simp), ?_⟩
  exact (h.held.mono fun j hj => .inl hj).insert fun hex => absurd (.inr rfl) hex

theorem shrink {exempt' : κ → Prop} (h : Sound C slack exempt m [] todo)
    (hex : ∀ j w, m.lookup j = some w → exempt j → exempt' j ∨ 0 < C.refsTo m j + todo.count j) :
    Sound C slack exempt' m [] todo :=
  { h with held := h.held.shrink h.counted hex }

theorem of_referred {d : κ} (h : Sound C slack (fun j => exempt j ∨ j = k) m [] todo)
    (hd : m.lookup d = some v) (hk : k ∈ C.refs v) : Sound C slack exempt m [] todo := by
  refine h.shrink fun j w _ hj => hj.imp id fun hjk => ?_
  have hpos : 0 < C.refsTo m k := refsTo_pos hd hk
  rw [hjk]
  omega

theorem mono {exempt' : κ → Prop} (h : Sound C slack exempt m owed todo)
    (hex : ∀ j, exempt j → exempt' j) : Sound C slack exempt' m owed todo :=
  { h with held := h.held.mono hex }

theorem erase (h : Sound C slack exempt m [] []) (hk : m.lookup k = some v)
    (hfree : C.refsTo (m.erase k) k = 0) : Sound C slack exempt (m.erase k) [] (C.refs v) := by
  refine ⟨balanced_nil.mpr fun j w hj => ?_, h.closed.erase hfree, h.held.erase⟩
  rw [lookup_erase_ite] at hj
  split at hj
  · cases hj
  have h1 := h.counted j w hj
  have h2 := refsTo_erase (C := C) hk j
  rw [count_nil] at h1
  omega

theorem slack_congr {slack' : κ → Nat} (h : Sound C slack exempt m owed todo)
    (heq : ∀ j, (m.lookup j).isSome → slack' j = slack j) : Sound C slack' exempt m owed todo := by
  refine ⟨fun j w hj => ?_, h.closed, h.held⟩
  rw [heq j (by simp [hj])]
  exact h.balanced j w hj

theorem congr (heq : ∀ k, (m'.lookup k).map (fun v => (C.refs v, C.count v)) =
      (m.lookup k).map fun v => (C.refs v, C.count v))
    (h : Sound C slack exempt m owed todo) : Sound C slack exempt m' owed todo := by
  have hold : ∀ {k v'}, m'.lookup k = some v' →
      ∃ v, m.lookup k = some v ∧ C.refs v = C.refs v' ∧ C.count v = C.count v' := by
    intro k v' hk
    have := heq k
    rw [hk, map_some, eq_comm, Option.map_eq_some_iff] at this
    simpa only [Prod.mk.injEq] using this
  have hto : ∀ j, C.refsTo m' j = C.refsTo m j := fun j => total_congr fun k => by
    have := congrArg (Option.map fun p : List κ × Nat => p.1.count j) (heq k)
    rw [Option.map_map, Option.map_map] at this
    exact this
  constructor
  · intro k v' hk
    obtain ⟨v, hv, -, hcount⟩ := hold hk
    rw [hto, ← hcount]
    exact h.balanced k v hv
  · intro d v' hd k hk
    obtain ⟨v, hv, hrefs, -⟩ := hold hd
    have hlive := h.closed d v hv k (hrefs ▸ hk)
    have := congrArg isSome (heq k)
    simp only [isSome_map] at this
    rw [this]
    exact hlive
  · intro k v' hk hex
    obtain ⟨v, hv, -, hcount⟩ := hold hk
    rw [← hcount]
    exact h.held k v hv hex

end Sound

theorem collect_sound {slack : κ → Nat} {exempt : κ → Prop} (hroot : exempt root) (m : KeyMap κ β)
    (todo : List κ) (h : Sound C slack exempt m [] todo) :
    Sound C slack exempt (C.collect root m todo).1 [] [] := by
  fun_induction collect C root m todo with
  | case1 m => exact h
  | case2 m k todo hk ih => exact ih ⟨balanced_nil.mpr (h.counted.skip hk), h.closed, h.held⟩
  | case3 m k todo v hk hgone rest ih =>
    have hfree := refsTo_erase_eq_zero hk (h.counted.not_referred hk hgone.1).1
    exact ih ⟨balanced_nil.mpr (h.counted.erase hk), h.closed.erase hfree, h.held.erase⟩
  | case4 m k todo v hk hstay ih =>
    exact ih ⟨balanced_nil.mpr (h.counted.dec hk), h.closed.setCount hk _, h.held.dec hroot hstay⟩

theorem collect_append (m : KeyMap κ β) (todo later : List κ) :
    C.collect root m (todo ++ later) =
      ((C.collect root (C.collect root m todo).1 later).1,
        (C.collect root m todo).2 ++ (C.collect root (C.collect root m todo).1 later).2) := by
  fun_induction collect C root m todo with
  | case1 m => rfl
  | case2 m k todo hk ih =>
    rw [← ih, cons_append, collect]
    split
    · rfl
    · simp_all
  | case3 m k todo v hk hgone rest ih =>
    rw [cons_append, collect]
    split
    · simp_all
    rename_i v' hv'
    obtain rfl : v = v' := mem_unique hk hv'
    rw [if_pos hgone, ← append_assoc, ih]
    rfl
  | case4 m k todo v hk hstay ih =>
    rw [cons_append, collect]
    split
    · simp_all
    rename_i v' hv'
    obtain rfl : v = v' := mem_unique hk hv'
    rw [if_neg hstay]
    exact ih

theorem collect_absent {m : KeyMap κ β} {k : κ} (hk : m.lookup k = none) :
    C.collect root m [k] = (m, []) := by
  rw [collect]
  split
  · rw [collect]
  · simp_all

section

variable {m : KeyMap κ β} {k : κ} {v : β} (hk : m.lookup k = some v)
include hk

theorem collect_stays
    (h : ¬ (C.count v - 1 = 0 ∧ k ≠ root)) :
    C.collect root m [k] = (m.insert k (C.setCount (C.count v - 1) v), []) := by
  rw [collect]
  split
  · simp_all
  · rename_i v' hv'
    obtain rfl : v = v' := mem_unique hk hv'
    rw [if_neg h, collect]

theorem collect_goes
    (h : C.count v - 1 = 0 ∧ k ≠ root) :
    C.collect root m [k] = ((C.collect root (m.erase k) (C.refs v)).1,
      (k, v) :: (C.collect root (m.erase k) (C.refs v)).2) := by
  rw [collect]
  split
  · simp_all
  · rename_i v' hv'
    obtain rfl : v = v' := mem_unique hk hv'
    rw [if_pos h, append_nil]

end

section

variable (m : KeyMap κ β)

theorem collect_frame (todo : List κ) {j : κ} {w : β}
    (h : (C.collect root m todo).1.lookup j = some w) :
    ∃ v, m.lookup j = some v ∧ w = C.setCount (C.count w) v := by
  fun_induction collect C root m todo with
  | case1 m => exact ⟨w, h, (C.setCount_count w).symm⟩
  | case2 m k todo hk ih => exact ih h
  | case3 m k todo v hk hgone rest ih =>
    obtain ⟨v', hv', hw⟩ := ih h
    rw [lookup_erase_ite] at hv'
    split at hv'
    · cases hv'
    · exact ⟨v', hv', hw⟩
  | case4 m k todo v hk hstay ih =>
    obtain ⟨v', hv', hw⟩ := ih h
    rw [lookup_insert_ite] at hv'
    split_ifs at hv' with heq
    · subst heq
      cases hv'
      rw [C.setCount_setCount] at hw
      exact ⟨v, hk, hw⟩
    · exact ⟨v', hv', hw⟩

theorem collect_gone (todo : List κ) {j : κ} {w : β}
    (h : (j, w) ∈ (C.collect root m todo).2) : (C.collect root m todo).1.lookup j = none := by
  fun_induction collect C root m todo with
  | case1 m => cases h
  | case2 m k todo hk ih => exact ih h
  | case3 m k todo v hk hgone rest ih =>
    rcases mem_cons.mp h with heq | hrest
    · obtain ⟨rfl, rfl⟩ := Prod.mk.injEq .. ▸ heq
      cases hj : rest.1.lookup j with
      | none => rfl
      | some u =>
        obtain ⟨u', hu', -⟩ := collect_frame _ _ hj
        simp at hu'
    · exact ih hrest
  | case4 m k todo v hk hstay ih => exact ih h

theorem collect_root (todo : List κ) (h : (m.lookup root).isSome) :
    ((C.collect root m todo).1.lookup root).isSome := by
  fun_induction collect C root m todo with
  | case1 m => exact h
  | case2 m k todo hk ih => exact ih h
  | case3 m k todo v hk hgone rest ih =>
    refine ih ?_
    rw [lookup_erase_ite, if_neg (Ne.symm hgone.2)]
    exact h
  | case4 m k todo v hk hstay ih =>
    refine ih ?_
    rw [lookup_insert_ite]
    split
    · rfl
    · exact h

/-- A set that holds the worklist and what its objects refer to: the objects outside of it stay. -/
theorem collect_outside {P : κ → Prop} (todo : List κ) (htodo : ∀ k ∈ todo, P k)
    (hrefs : ∀ k v, P k → m.lookup k = some v → ∀ j ∈ C.refs v, P j) {j : κ} (hj : ¬ P j) :
    (C.collect root m todo).1.lookup j = m.lookup j := by
  fun_induction collect C root m todo with
  | case1 m => rfl
  | case2 m k todo hk ih => exact ih (fun i hi => htodo i (.tail _ hi)) hrefs
  | case3 m k todo v hk hgone rest ih =>
    have hPk := htodo k (.head _)
    have hne : j ≠ k := fun heq => hj (heq ▸ hPk)
    refine (ih ?_ fun i w hi hw => hrefs i w hi ?_).trans ?_
    · intro i hi
      rcases mem_append.mp hi with href | hlater
      · exact hrefs k v hPk hk i href
      · exact htodo i (.tail _ hlater)
    · rw [lookup_erase_ite] at hw
      split at hw
      · cases hw
      · exact hw
    · rw [lookup_erase_ite, if_neg hne]
  | case4 m k todo v hk hstay ih =>
    have hne : j ≠ k := fun heq => hj (heq ▸ htodo k (.head _))
    refine (ih (fun i hi => htodo i (.tail _ hi)) fun i w hi hw => ?_).trans ?_
    · rw [lookup_insert_ite] at hw
      split_ifs at hw with heq
      · subst heq
        cases hw
        rw [C.refs_setCount]
        exact hrefs _ v hi hk
      · exact hrefs i w hi hw
    · rw [lookup_insert_ite, if_neg hne]

end

end Counting
