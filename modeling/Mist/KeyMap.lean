import Mathlib.Data.Finmap
import Mathlib.Algebra.BigOperators.Group.Multiset.Basic
import Mathlib.Data.Set.Card
import Mathlib.Tactic.Ring

/-! Finite maps as the hash maps of a program: a map is known by its lookups, and `total` sums a
weight over the values. -/

abbrev KeyMap (κ β : Type) := Finmap fun _ : κ => β

namespace KeyMap

open List Prod

variable {κ β : Type}

def total (w : β → Nat) (m : KeyMap κ β) : Nat := (m.entries.map fun e => w e.2).sum

variable [DecidableEq κ]

theorem lookup_insert_ite (m : KeyMap κ β) (j k : κ) (v : β) :
    (m.insert k v).lookup j = if j = k then some v else m.lookup j := by
  by_cases h : j = k
  · subst h; simp
  · simp [h, Finmap.lookup_insert_of_ne m h]

theorem lookup_erase_ite (m : KeyMap κ β) (j k : κ) :
    (m.erase k).lookup j = if j = k then none else m.lookup j := by
  by_cases h : j = k
  · subst h; simp
  · simp [h, Finmap.lookup_erase_ne h]

theorem erase_insert (m : KeyMap κ β) (k : κ) (v : β) : (m.insert k v).erase k = m.erase k := by
  apply Finmap.ext_lookup
  intro j
  rw [lookup_erase_ite, lookup_erase_ite, lookup_insert_ite]
  by_cases hj : j = k <;> simp [hj]

section

variable (w : β → Nat)

theorem total_erase {m : KeyMap κ β} {k : κ} {v : β} (h : m.lookup k = some v) :
    total w (m.erase k) + w v = total w m := by
  induction m using Finmap.induction_on with
  | _ s =>
    have hk : k ∈ s := by
      rw [Finmap.lookup_toFinmap] at h
      rw [← AList.lookup_isSome, h]
      rfl
    obtain ⟨b, l₁, l₂, hk₁, hs, he⟩ := exists_of_kerase (AList.mem_keys.mp hk)
    have hb : b = v := by
      have : s.entries.dlookup k = some v := h
      rw [hs, dlookup_append, dlookup_eq_none.mpr hk₁] at this
      simpa using this
    subst hb
    show ((s.entries.kerase k).map fun e => w e.2).sum + w b = (s.entries.map fun e => w e.2).sum
    rw [he, hs]
    simp only [map_append, map_cons, sum_append, sum_cons]
    ring

theorem total_insert_new {m : KeyMap κ β} {k : κ} (v : β) (h : m.lookup k = none) :
    total w (m.insert k v) = total w m + w v := by
  have he : (m.insert k v).erase k = m := by
    apply Finmap.ext_lookup
    intro j
    by_cases hj : j = k
    · subst hj; simp [h]
    · simp [hj]
  rw [← total_erase w (Finmap.lookup_insert (a := k) (b := v) m), he]

theorem total_insert_old {m : KeyMap κ β} {k : κ} {v : β} (v' : β)
    (h : m.lookup k = some v) : total w (m.insert k v') + w v = total w m + w v' := by
  have h1 := total_erase w (Finmap.lookup_insert (a := k) (b := v') m)
  have h2 := total_erase w h
  rw [erase_insert] at h1
  omega

theorem le_total {m : KeyMap κ β} {k : κ} {v : β} (h : m.lookup k = some v) : w v ≤ total w m := by
  have := total_erase w h
  omega

theorem total_eq_zero {m : KeyMap κ β} : total w m = 0 ↔ ∀ k v, m.lookup k = some v → w v = 0 := by
  constructor
  · intro h k v hk
    have := le_total w hk
    omega
  induction m using Finmap.induction_on with
  | _ s =>
    intro h
    apply sum_eq_zero
    intro x hx
    obtain ⟨e, he, rfl⟩ := mem_map.mp hx
    exact h e.1 e.2 (AList.mem_lookup_iff.mpr he)

end

/-- A property of maps that holds of the empty one and survives putting a key back holds of all. -/
theorem erase_induction {P : KeyMap κ β → Prop} (hempty : ∀ m, (∀ k, m.lookup k = none) → P m)
    (hstep : ∀ m k v, m.lookup k = some v → P (m.erase k) → P m) (m : KeyMap κ β) : P m := by
  induction hn : total (fun _ => 1) m generalizing m with
  | zero =>
    refine hempty m fun k => ?_
    cases hk : m.lookup k with
    | none => rfl
    | some v => exact absurd ((total_eq_zero _).mp hn k v hk) (by decide)
  | succ n ih =>
    obtain ⟨k, v, hk⟩ : ∃ k v, m.lookup k = some v := by
      by_contra hnone
      have : total (fun _ => 1) m = 0 := (total_eq_zero _).mpr fun k v hk => absurd ⟨k, v, hk⟩ hnone
      omega
    refine hstep m k v hk (ih _ ?_)
    have := total_erase (fun _ => 1) hk
    omega

theorem total_congr {γ : Type} {w : β → Nat} {w' : γ → Nat} {m : KeyMap κ β} {m' : KeyMap κ γ}
    (h : ∀ k, (m.lookup k).map w = (m'.lookup k).map w') : total w m = total w' m' := by
  induction m using erase_induction generalizing m' with
  | hempty m hnone =>
    rw [(total_eq_zero w).mpr (by simp [hnone]), (total_eq_zero w').mpr]
    intro k v hk
    have := h k
    simp [hnone, hk] at this
  | hstep m k v hk ih =>
    obtain ⟨v', hk', hv⟩ : ∃ v', m'.lookup k = some v' ∧ w' v' = w v := by
      have := h k
      rw [hk, Option.map_some, eq_comm, Option.map_eq_some_iff] at this
      exact this
    have hrest : total w (m.erase k) = total w' (m'.erase k) := by
      apply ih
      intro j
      rw [lookup_erase_ite, lookup_erase_ite]
      split
      · rfl
      · exact h j
    rw [← total_erase w hk, ← total_erase w' hk', hrest, hv]

/-- If a value weighs what a set of its own counts, the total counts their disjoint union. -/
theorem encard_eq_total {γ : Type} {w : β → Nat} {s : β → Set γ} (h : ∀ v, (s v).encard = w v)
    (m : KeyMap κ β) : {p : κ × γ | ∃ v, m.lookup p.1 = some v ∧ p.2 ∈ s v}.encard = total w m := by
  induction m using erase_induction with
  | hempty m hnone => simp [hnone, (total_eq_zero w).mpr]
  | hstep m k v hk ih =>
    have hsplit : {p : κ × γ | ∃ v, m.lookup p.1 = some v ∧ p.2 ∈ s v} =
        {p | ∃ v, (m.erase k).lookup p.1 = some v ∧ p.2 ∈ s v} ∪ mk k '' s v := by
      ext ⟨j, c⟩
      simp only [lookup_erase_ite, Set.mem_ofPred_eq, Set.mem_union, Set.mem_image, mk.injEq,
        exists_eq_right_right]
      by_cases hj : j = k
      · subst hj
        simp [hk]
      · simp [hj, Ne.symm hj]
    have hdisj : Disjoint {p : κ × γ | ∃ v, (m.erase k).lookup p.1 = some v ∧ p.2 ∈ s v}
        (mk k '' s v) := by
      rw [Set.disjoint_left]
      rintro ⟨j, c⟩ ⟨v', hv', -⟩ ⟨c', -, hc⟩
      obtain rfl : k = j := congrArg fst hc
      simp at hv'
    rw [hsplit, Set.encard_union_eq hdisj, ih, (mk_right_injective k).encard_image, h,
      ← total_erase w hk]
    rfl

end KeyMap
