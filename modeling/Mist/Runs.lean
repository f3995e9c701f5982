import Mathlib.Control.Basic

/-! Runs of a system of labelled steps.  `step s a` is the state after action `a`, if the system can
take it in `s`. -/

namespace Runs

open List Option

variable {σ α : Type} {step : σ → α → Option σ} {ok : σ → α → Prop} {s t : σ}

inductive Reaches (step : σ → α → Option σ) (ok : σ → α → Prop) (s : σ) : σ → Prop
  | refl : Reaches step ok s s
  | tail {t u : σ} {a : α} : Reaches step ok s t → ok t a → step t a = some u → Reaches step ok s u

/-- What holds at the start and is kept by every step holds in every state reached. -/
theorem Reaches.inv {I : σ → Prop} (h : Reaches step ok s t) (hs : I s)
    (hstep : ∀ t a u, I t → ok t a → step t a = some u → I u) : I t := by
  induction h with
  | refl => exact hs
  | tail _ hok hu ih => exact hstep _ _ _ ih hok hu

theorem Reaches.head {u : σ} {a : α} (hok : ok s a) (hu : step s a = some u)
    (h : Reaches step ok u t) : Reaches step ok s t := by
  induction h with
  | refl => exact .tail .refl hok hu
  | tail _ hok hu ih => exact .tail ih hok hu

theorem Reaches.trans {u : σ} (h : Reaches step ok s t) (h' : Reaches step ok t u) :
    Reaches step ok s u := by
  induction h' with
  | refl => exact h
  | tail _ hok hu ih => exact .tail ih hok hu

theorem Reaches.of_guarded [∀ s a, Decidable (ok s a)] (as : List α)
    (h : as.foldlM (fun s a => if ok s a then step s a else none) s = some t) :
    Reaches step ok s t := by
  induction as generalizing s with
  | nil =>
    obtain rfl : s = t := by simpa using h
    exact .refl
  | cons a as ih =>
    obtain ⟨u, hu, hrest⟩ := bind_eq_some_iff.mp (by simpa using h)
    obtain ⟨hok, hu⟩ := ite_none_right_eq_some.mp hu
    exact .head hok hu (ih hrest)

theorem Reaches.of_foldlM (as : List α) (h : as.foldlM step s = some t) :
    Reaches step (fun _ _ => True) s t :=
  .of_guarded as (by simpa using h)

section

variable [∀ s a, Decidable (ok s a)] {p q : σ → Prop} [DecidablePred p] (as : List α)
  (h : (as.foldlM (fun s a => if ok s a then step s a else none) s).any fun t => p t)
include h

theorem Reaches.exists_of_guarded : ∃ t, Reaches step ok s t ∧ p t := by
  obtain ⟨t, ht, hp⟩ := (Option.any_eq_true ..).mp h
  exact ⟨t, .of_guarded as ht, of_decide_eq_true hp⟩

theorem Reaches.exists_of_guarded_and (hq : ∀ t, Reaches step ok s t → q t) :
    ∃ t, Reaches step ok s t ∧ p t ∧ q t := by
  obtain ⟨t, ht, hp⟩ := exists_of_guarded as h
  exact ⟨t, ht, hp, hq t ht⟩

variable (p) in
theorem Reaches.exists_imp (hq : ∀ t, Reaches step ok s t → p t → q t) :
    ∃ t, Reaches step ok s t ∧ q t := by
  obtain ⟨t, ht, hp⟩ := exists_of_guarded as h
  exact ⟨t, ht, hq t ht hp⟩

end

/-- A run whose every step makes a number smaller is no longer than the number. -/
theorem length_le_of_decreasing (cost : σ → Nat) {as : List α}
    (hcost : ∀ s a t, a ∈ as → step s a = some t → cost t < cost s)
    (h : as.foldlM step s = some t) : as.length ≤ cost s := by
  induction as generalizing s with
  | nil => exact Nat.zero_le _
  | cons a as ih =>
    obtain ⟨u, hu, hrest⟩ := bind_eq_some_iff.mp (by simpa using h)
    have hstep := hcost s a u mem_cons_self hu
    have := ih (fun s b t hb => hcost s b t (.tail _ hb)) hrest
    rw [length_cons]
    omega

/-- What no step of a fold changes is at its end as at its start. -/
theorem foldl_same {β : Type} (p : σ → β) {f : σ → α → σ} (h : ∀ s a, p (f s a) = p s)
    (l : List α) (s : σ) : p (l.foldl f s) = p s :=
  foldlRecOn l f (motive := (p · = p s)) rfl fun _ hs a _ => (h _ a).trans hs

theorem lt_length {l : List α} {i : Nat} {a : α} (h : l[i]? = some a) : i < l.length :=
  (List.getElem?_eq_some_iff.mp h).1

theorem getElem?_set_cases {l : List α} {i j : Nat} {a b : α}
    (h : (l.set i a)[j]? = some b) : (i = j ∧ a = b) ∨ (i ≠ j ∧ l[j]? = some b) := by
  rw [getElem?_set] at h
  split at h
  · rename_i hij
    obtain ⟨-, h⟩ := ite_none_right_eq_some.mp h
    exact .inl ⟨hij, some.inj h⟩
  · rename_i hij
    exact .inr ⟨hij, h⟩

theorem mem_set_of_mem {l : List α} {i : Nat} {a b c : α} (hi : l[i]? = some b)
    (h : c ∈ l) : c = b ∨ c ∈ l.set i a := by
  obtain ⟨j, hj⟩ := mem_iff_getElem?.mp h
  by_cases hij : i = j
  · subst hij
    exact .inl (mem_unique hj hi)
  · exact .inr (mem_iff_getElem?.mpr ⟨j, by rw [getElem?_set_ne hij, hj]⟩)

theorem forall_set {p : α → Prop} {l : List α} {i : Nat} {a : α} (h : ∀ b ∈ l, p b) (ha : p a) :
    ∀ b ∈ l.set i a, p b := by
  intro b hb
  rcases mem_or_eq_of_mem_set hb with hb | rfl
  · exact h b hb
  · exact ha

theorem mem_append_cases {l : List α} {a b : α} (h : b ∈ l ++ [a]) : b ∈ l ∨ b = a := by
  simpa using h

theorem forall_concat {p : α → Prop} {l : List α} {a : α} (h : ∀ b ∈ l, p b) (ha : p a) :
    ∀ b ∈ l ++ [a], p b := by
  intro b hb
  rcases mem_append_cases hb with hb | rfl
  · exact h b hb
  · exact ha

theorem getElem?_append_cases {l : List α} {j : Nat} {a b : α}
    (h : (l ++ [a])[j]? = some b) : l[j]? = some b ∨ (j = l.length ∧ a = b) := by
  rcases Nat.lt_trichotomy j l.length with hlt | rfl | hgt
  · rw [getElem?_append_left hlt] at h
    exact .inl h
  · rw [getElem?_concat_length] at h
    exact .inr ⟨rfl, some.inj h⟩
  · rw [getElem?_eq_none (by simp; omega)] at h
    cases h

end Runs
