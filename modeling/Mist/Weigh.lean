import Mist.KeyMap
import Mathlib.Algebra.Order.Group.Nat
import Mathlib.Algebra.Order.BigOperators.Group.List

/-! Sums over lists: `weigh w l` sums a weight over a list. -/

def weigh {α : Type} (w : α → Nat) : List α → Nat
  | [] => 0
  | a :: l => w a + weigh w l

variable {α β κ : Type}

theorem weigh_eq_sum (w : α → Nat) (l : List α) : weigh w l = (l.map w).sum := by
  induction l with
  | nil => rfl
  | cons a l ih => rw [weigh, ih, List.map_cons, List.sum_cons]

theorem weigh_append (w : α → Nat) (l l' : List α) : weigh w (l ++ l') = weigh w l + weigh w l' := by
  simp [weigh_eq_sum]

theorem weigh_set (w : α → Nat) {l : List α} {i : Nat} {a : α} (h : l[i]? = some a) (b : α) :
    weigh w (l.set i b) + w a = weigh w l + w b := by
  induction l generalizing i with
  | nil => cases h
  | cons c l ih =>
    cases i with
    | zero =>
      cases h
      simp only [List.set_cons_zero, weigh]
      omega
    | succ i =>
      have := ih h
      simp only [List.set_cons_succ, weigh]
      omega

theorem weigh_modify_le {w : α → Nat} {f : α → α} {k : Nat} (h : ∀ a, w (f a) ≤ w a + k)
    (l : List α) (i : Nat) : weigh w (l.modify i f) ≤ weigh w l + k := by
  induction l generalizing i with
  | nil => cases i <;> exact Nat.le_add_right ..
  | cons a l ih =>
    cases i with
    | zero =>
      have := h a
      simp only [List.modify_zero_cons, weigh]
      omega
    | succ i =>
      have := ih i
      simp only [List.modify_succ_cons, weigh]
      omega

theorem weigh_le {w w' : α → Nat} {l : List α} (h : ∀ a ∈ l, w a ≤ w' a) :
    weigh w l ≤ weigh w' l := by
  simpa only [weigh_eq_sum] using List.sum_le_sum h

theorem weigh_congr {w w' : α → Nat} {l : List α} (h : ∀ a ∈ l, w a = w' a) :
    weigh w l = weigh w' l := by
  rw [weigh_eq_sum, weigh_eq_sum, List.map_congr_left h]

theorem weigh_eq_zero {w : α → Nat} {l : List α} (h : ∀ a ∈ l, w a = 0) : weigh w l = 0 :=
  (weigh_congr h).trans (by simp [weigh_eq_sum])

theorem weigh_map (w : β → Nat) (f : α → β) (l : List α) : weigh w (l.map f) = weigh (w ∘ f) l := by
  simp [weigh_eq_sum]

theorem weigh_flatMap (w : β → Nat) (f : α → List β) (l : List α) :
    weigh w (l.flatMap f) = weigh (fun a => weigh w (f a)) l := by
  simp [weigh_eq_sum, List.flatMap, List.sum_flatten, Function.comp_def]

theorem weigh_one (l : List α) : weigh (fun _ => 1) l = l.length := by
  simp [weigh_eq_sum]

theorem weigh_add (w w' : α → Nat) (l : List α) :
    weigh (fun a => w a + w' a) l = weigh w l + weigh w' l := by
  simp [weigh_eq_sum]

theorem weigh_countP_comm (r : α → β → Bool) (l : List α) (m : List β) :
    weigh (fun a => m.countP (r a)) l = weigh (fun b => l.countP fun a => r a b) m := by
  induction l with
  | nil => exact (weigh_eq_zero fun _ _ => rfl).symm
  | cons a l ih =>
    have hcount : m.countP (r a) = weigh (fun b => if r a b then 1 else 0) m := by
      clear ih
      induction m with
      | nil => rfl
      | cons b m ih => rw [List.countP_cons, weigh, ih, Nat.add_comm]
    rw [weigh, ih, hcount, ← weigh_add]
    refine weigh_congr fun b _ => ?_
    rw [List.countP_cons, Nat.add_comm]

theorem eq_of_weigh_eq {w w' : α → Nat} {l : List α} (h : ∀ a ∈ l, w a ≤ w' a)
    (hsum : weigh w l = weigh w' l) : ∀ a ∈ l, w a = w' a := by
  induction l with
  | nil => exact nofun
  | cons b l ih =>
    have hb := h b List.mem_cons_self
    have hrest : ∀ a ∈ l, w a ≤ w' a := fun a ha => h a (.tail _ ha)
    have hle := weigh_le hrest
    rw [weigh, weigh] at hsum
    rintro a (_ | ⟨_, ha⟩)
    · omega
    · exact ih hrest (by omega) a ha

/-- Where the weights add up to the number of members, either all weigh one, or one weighs nothing
and another weighs more. -/
theorem pos_iff_le_one {w : α → Nat} {l : List α} (h : weigh w l = l.length) :
    (∀ a ∈ l, 0 < w a) ↔ ∀ a ∈ l, w a ≤ 1 := by
  rw [← weigh_one] at h
  exact ⟨fun hpos a ha => (eq_of_weigh_eq hpos h.symm a ha).ge,
    fun hle a ha => (eq_of_weigh_eq hle h a ha).ge⟩

namespace KeyMap

variable [DecidableEq κ]

def eraseAll (m : KeyMap κ β) (ks : List κ) : KeyMap κ β := ks.foldl (fun m k => m.erase k) m

theorem lookup_eraseAll (m : KeyMap κ β) (ks : List κ) (j : κ) :
    (eraseAll m ks).lookup j = if j ∈ ks then none else m.lookup j := by
  induction ks generalizing m with
  | nil => simp [eraseAll]
  | cons k ks ih =>
    have hrest := ih (m.erase k)
    rw [lookup_erase_ite] at hrest
    refine hrest.trans ?_
    by_cases hks : j ∈ ks
    · simp [hks]
    · by_cases hjk : j = k <;> simp [hks, hjk]

theorem total_eraseAll {m : KeyMap κ β} {ks : List κ} (w : β → Nat) (size : κ → Nat)
    (hnodup : ks.Nodup) (h : ∀ k ∈ ks, ∃ v, m.lookup k = some v ∧ w v = size k) :
    total w (eraseAll m ks) + weigh size ks = total w m := by
  induction ks generalizing m with
  | nil => rfl
  | cons k ks ih =>
    obtain ⟨hk, hks⟩ := List.nodup_cons.mp hnodup
    obtain ⟨v, hv, hw⟩ := h k List.mem_cons_self
    have hrest := ih (m := m.erase k) hks fun j hj => by
      obtain ⟨u, hu, hsize⟩ := h j (.tail _ hj)
      refine ⟨u, ?_, hsize⟩
      have hjk : j ≠ k := fun heq => hk (heq ▸ hj)
      rw [lookup_erase_ite, if_neg hjk, hu]
    have herase := total_erase w hv
    have hfold : total w (eraseAll m (k :: ks)) = total w (eraseAll (m.erase k) ks) := rfl
    rw [hfold, weigh]
    omega

theorem weigh_le_total {m : KeyMap κ β} {ks : List κ} (w : β → Nat) (size : κ → Nat)
    (hnodup : ks.Nodup) (h : ∀ k ∈ ks, ∃ v, m.lookup k = some v ∧ w v = size k) :
    weigh size ks ≤ total w m := by
  have := total_eraseAll w size hnodup h
  omega

end KeyMap
