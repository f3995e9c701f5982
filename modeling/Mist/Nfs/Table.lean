import Mathlib.Data.List.Basic

/-! Tables as lists of pairs, with a key at most once: what the hash maps of a server are read and
changed by. -/

namespace Mist.Nfs

open List

abbrev Table (α β : Type) := List (α × β)

namespace Table

variable {α β : Type} [DecidableEq α]

def get (t : Table α β) (k : α) : Option β := (t.find? fun p => p.1 = k).map Prod.snd

def remove (t : Table α β) (k : α) : Table α β := t.filter fun p => p.1 ≠ k

def insert (t : Table α β) (k : α) (v : β) : Table α β := (k, v) :: t.remove k

theorem get_filter (t : Table α β) (keep : α → Bool) (j : α) :
    get (t.filter fun p => keep p.1) j = if keep j then t.get j else none := by
  induction t with
  | nil => simp [get]
  | cons p t ih =>
    simp only [get, filter_cons, find?_cons] at ih ⊢
    by_cases hpj : p.1 = j
    · subst hpj
      by_cases hkeep : keep p.1
      · simp [hkeep]
      · rw [if_neg hkeep, ih]
        simp [hkeep]
    · by_cases hkeep : keep p.1
      · rw [if_pos hkeep, find?_cons]
        simp only [hpj, decide_false]
        exact ih
      · rw [if_neg hkeep]
        simp only [hpj, decide_false]
        exact ih

theorem get_remove (t : Table α β) (k j : α) :
    (t.remove k).get j = if j = k then none else t.get j := by
  have h := get_filter t (fun i => decide (i ≠ k)) j
  simp only [decide_eq_true_eq, ite_not] at h
  exact h

theorem remove_of_notMem {t : Table α β} {k : α} (h : k ∉ t.map Prod.fst) : t.remove k = t := by
  refine filter_eq_self.mpr fun p hp => ?_
  simpa using fun heq : p.1 = k => h (heq ▸ mem_map_of_mem hp)

theorem get_insert (t : Table α β) (k j : α) (v : β) :
    (t.insert k v).get j = if j = k then some v else t.get j := by
  by_cases h : j = k
  · simp [insert, get, h]
  have hrest := get_remove t k j
  rw [if_neg h] at hrest ⊢
  rw [← hrest]
  simp [insert, get, Ne.symm h]

theorem mem_of_get {t : Table α β} {k : α} {v : β} (h : t.get k = some v) : (k, v) ∈ t := by
  obtain ⟨p, hp, rfl⟩ := Option.map_eq_some_iff.mp h
  have hk : p.1 = k := by simpa using find?_some hp
  subst hk
  exact mem_of_find?_eq_some hp

theorem get_of_mem {t : Table α β} {k : α} {v : β} (h : (t.map Prod.fst).Nodup) (hmem : (k, v) ∈ t) :
    t.get k = some v := by
  induction t with
  | nil => cases hmem
  | cons p t ih =>
    obtain ⟨hp, hrest⟩ := nodup_cons.mp h
    rcases mem_cons.mp hmem with rfl | hmem
    · simp [get]
    · have hne : p.1 ≠ k := fun heq => hp (heq ▸ mem_map_of_mem hmem)
      simpa [get, hne] using ih hrest hmem

theorem get_of_remove {t : Table α β} {k j : α} {v : β} (h : (t.remove k).get j = some v) :
    t.get j = some v := by
  rw [get_remove] at h
  split at h
  · cases h
  · exact h

end Table

end Mist.Nfs
