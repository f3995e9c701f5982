import Mist.RefCount

/-! What a collection takes, said without running it. -/

section

variable {κ : Type}

/-- The keys can go in this order.  `weight i j` is the number of references from `i` to `j` and
`dropped j` the number that `j` has lost already. -/
def Falls (root : κ) (live : κ → Prop) (weight : κ → κ → Nat) (count : κ → Nat) :
    (κ → Nat) → List κ → Prop
  | _, [] => True
  | dropped, k :: rest =>
    live k ∧ k ≠ root ∧ k ∉ rest ∧ 0 < dropped k ∧ count k ≤ dropped k ∧
      Falls root live weight count (fun j => dropped j + weight k j) rest

variable {root : κ} {live live' : κ → Prop} {weight weight' : κ → κ → Nat}
  {count count' dropped dropped' : κ → Nat} {l : List κ}

variable (h : Falls root live weight count dropped l)
include h

theorem Falls.all_live : ∀ k ∈ l, live k := by
  induction l generalizing dropped with
  | nil => exact fun _ hk => absurd hk List.not_mem_nil
  | cons j l ih =>
    intro k hk
    rcases List.mem_cons.mp hk with rfl | hk
    · exact h.1
    · exact ih h.2.2.2.2.2 k hk

theorem Falls.mono
    (hlive : ∀ k ∈ l, live k → live' k) (hweight : ∀ i ∈ l, ∀ j ∈ l, weight i j ≤ weight' i j)
    (hdropped : ∀ j ∈ l, dropped j ≤ dropped' j ∧ count' j + dropped j ≤ count j + dropped' j) :
    Falls root live' weight' count' dropped' l := by
  induction l generalizing dropped dropped' with
  | nil => trivial
  | cons k l ih =>
    obtain ⟨hk, hroot, hfresh, hpos, hcount, hrest⟩ := h
    have hself := hdropped k List.mem_cons_self
    refine ⟨hlive k List.mem_cons_self hk, hroot, hfresh, by omega, by omega, ih hrest ?_ ?_ ?_⟩
    · exact fun j hj => hlive j (.tail _ hj)
    · exact fun i hi j hj => hweight i (.tail _ hi) j (.tail _ hj)
    intro j hj
    have h1 := hdropped j (.tail _ hj)
    have h2 := hweight k List.mem_cons_self j (.tail _ hj)
    omega

end

namespace Counting

open List KeyMap

variable {κ β : Type} [DecidableEq κ] {C : Counting κ β} {root : κ}

def weight (C : Counting κ β) (m : KeyMap κ β) (i j : κ) : Nat :=
  (((m.lookup i).map C.refs).getD []).count j

def countOf (C : Counting κ β) (m : KeyMap κ β) (k : κ) : Nat := ((m.lookup k).map C.count).getD 0

theorem collect_falls (m : KeyMap κ β) (todo : List κ) :
    Falls root (fun k => (m.lookup k).isSome) (C.weight m) (C.countOf m) (fun k => todo.count k)
      ((C.collect root m todo).2.map Prod.fst) := by
  fun_induction collect C root m todo with
  | case1 m => trivial
  | case2 m k todo hk ih =>
    refine ih.mono (fun _ _ h => h) (fun _ _ _ _ => Nat.le_refl _) fun j hj => ?_
    have hle : todo.count j ≤ (k :: todo).count j := count_le_count_cons
    omega
  | case3 m k todo v hk hgone rest ih =>
    have hfresh : ∀ j ∈ rest.2.map Prod.fst, j ≠ k := by
      rintro j hj rfl
      have := ih.all_live j hj
      simp at this
    have hself : (k :: todo).count k = todo.count k + 1 := count_cons_self
    refine ⟨by simp [hk], hgone.2, fun hmem => hfresh k hmem rfl, by dsimp only; omega, ?_, ?_⟩
    · have hcount : C.countOf m k = C.count v := by simp [countOf, hk]
      show C.countOf m k ≤ (k :: todo).count k
      omega
    refine ih.mono (fun j hj h => ?_) (fun i hi j _ => ?_) fun j hj => ?_
    · rwa [lookup_erase_ite, if_neg (hfresh j hj)] at h
    · rw [weight, weight, lookup_erase_ite, if_neg (hfresh i hi)]
    · have hcount : C.countOf (m.erase k) j = C.countOf m j := by
        rw [countOf, countOf, lookup_erase_ite, if_neg (hfresh j hj)]
      have hweight : C.weight m k j = (C.refs v).count j := by simp [weight, hk]
      have hle : todo.count j ≤ (k :: todo).count j := count_le_count_cons
      show (C.refs v ++ todo).count j ≤ (k :: todo).count j + C.weight m k j ∧
        C.countOf m j + (C.refs v ++ todo).count j ≤
          C.countOf (m.erase k) j + ((k :: todo).count j + C.weight m k j)
      rw [count_append, hcount, hweight]
      omega
  | case4 m k todo v hk hstay ih =>
    refine ih.mono (fun j _ h => ?_) (fun i _ j _ => ?_) fun j hj => ?_
    · rw [lookup_insert_ite] at h
      split_ifs at h with hj
      · rw [hj, hk]
        rfl
      · exact h
    · rw [weight, weight, lookup_insert_ite]
      split_ifs with hi
      · rw [hi, hk, Option.map_some, Option.map_some, C.refs_setCount]
      · omega
    · show todo.count j ≤ (k :: todo).count j ∧ C.countOf m j + todo.count j ≤
        C.countOf (m.insert k (C.setCount (C.count v - 1) v)) j + (k :: todo).count j
      by_cases hjk : j = k
      · subst hjk
        have hcount : C.countOf m j = C.count v := by simp [countOf, hk]
        have hcount' : C.countOf (m.insert j (C.setCount (C.count v - 1) v)) j = C.count v - 1 := by
          simp [countOf, C.count_setCount]
        rw [count_cons_self]
        omega
      · have hcount : C.countOf (m.insert k (C.setCount (C.count v - 1) v)) j = C.countOf m j := by
          rw [countOf, countOf, lookup_insert_ite, if_neg hjk]
        rw [count_cons_of_ne (Ne.symm hjk)]
        omega

theorem mem_collect_of_lookup (m : KeyMap κ β) (todo : List κ) {k : κ} (hk : (m.lookup k).isSome)
    (h : (C.collect root m todo).1.lookup k = none) :
    k ∈ (C.collect root m todo).2.map Prod.fst := by
  fun_induction collect C root m todo with
  | case1 m =>
    rw [h] at hk
    cases hk
  | case2 m j todo hj ih => exact ih hk h
  | case3 m j todo v hj hgone rest ih =>
    by_cases hkj : k = j
    · exact hkj ▸ mem_cons_self
    · refine mem_cons_of_mem _ (ih ?_ h)
      rwa [lookup_erase_ite, if_neg hkj]
  | case4 m j todo v hj hstay ih =>
    refine ih ?_ h
    rw [lookup_insert_ite]
    split
    · rfl
    · exact hk

end Counting
