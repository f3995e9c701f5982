import Mist.Guest.Tree

/-! A run of guest operations as a history of trees: the tree at moment `i` is the one after the
first `i` operations. -/

namespace Mist

open List

namespace Tree

noncomputable def moment (T : Tree) (ops : List Op) (i : Nat) : Tree := T.run (ops.take i)

section

variable {T : Tree} {ops : List Op} {i j : Nat} {op : Op} {k : NodeKey}

theorem moment_length (T : Tree) (ops : List Op) : T.moment ops ops.length = T.run ops := by
  rw [moment, take_length]

theorem moment_succ (h : ops[i]? = some op) : T.moment ops (i + 1) = (T.moment ops i).apply op := by
  simp [moment, run, take_add_one, h, foldl_append]

theorem moment_beyond (h : ops[i]? = none) : T.moment ops (i + 1) = T.moment ops i := by
  simp [moment, run, take_add_one, h]

theorem ValidRun.at (h : T.ValidRun ops) (hi : ops[i]? = some op) : (T.moment ops i).Valid op := by
  induction ops generalizing T i with
  | nil => simp at hi
  | cons o ops ih =>
    cases i with
    | zero =>
      obtain rfl : o = op := by simpa using hi
      exact h.1
    | succ i => exact ih h.2 (by simpa using hi)

theorem ValidRun.wf (h : T.ValidRun ops) (hT : T.WF) (i : Nat) : (T.moment ops i).WF := by
  induction i with
  | zero => exact hT
  | succ i ih =>
    cases hi : ops[i]? with
    | none => rwa [moment_beyond hi]
    | some op => rw [moment_succ hi]; exact ih.apply (h.at hi)

theorem ValidRun.run_wf (h : T.ValidRun ops) (hT : T.WF) : (T.run ops).WF := by
  rw [← moment_length]
  exact h.wf hT ops.length

theorem moment_root (T : Tree) (ops : List Op) (i : Nat) : (T.moment ops i).root = T.root := by
  induction i with
  | zero => rfl
  | succ i ih =>
    cases hi : ops[i]? with
    | none => rwa [moment_beyond hi]
    | some op => rwa [moment_succ hi, apply_root]

theorem ValidRun.born_kind (h : T.ValidRun ops) (hij : i ≤ j) (hk : (T.moment ops i).born k) :
    (T.moment ops j).born k ∧ (T.moment ops j).kind k = (T.moment ops i).kind k := by
  induction hij with
  | refl => exact ⟨hk, rfl⟩
  | @step j _ ih =>
    cases hj : ops[j]? with
    | none => rwa [moment_beyond hj]
    | some op =>
      rw [moment_succ hj]
      exact ⟨born_apply ih.1 op, (kind_apply (h.at hj) ih.1).trans ih.2⟩

theorem ValidRun.dead (h : T.ValidRun ops) (hij : i ≤ j) (hk : (T.moment ops i).born k)
    (hdead : ¬ (T.moment ops i).Live k) : ¬ (T.moment ops j).Live k := by
  induction hij with
  | refl => exact hdead
  | @step j hij ih =>
    cases hj : ops[j]? with
    | none => rwa [moment_beyond hj]
    | some op =>
      rw [moment_succ hj]
      exact dead_apply (h.at hj) (h.born_kind hij hk).1 ih

theorem moment_append (T : Tree) (ops more : List Op) (hi : i ≤ ops.length) :
    T.moment (ops ++ more) i = T.moment ops i := by
  rw [moment, moment, take_append_of_le_length hi]

theorem run_concat (T : Tree) (ops : List Op) (op : Op) :
    T.run (ops ++ [op]) = (T.run ops).apply op := by
  rw [run, foldl_append]
  rfl

theorem ValidRun.concat (h : T.ValidRun ops) (hv : (T.run ops).Valid op) :
    T.ValidRun (ops ++ [op]) := by
  induction ops generalizing T with
  | nil => exact ⟨hv, trivial⟩
  | cons o ops ih => exact ⟨h.1, ih h.2 hv⟩

end

/-- `v` is what the guest has under a name at some moment from `i` on. -/
def Seen (T : Tree) (ops : List Op) (i : Nat) (d : NodeKey) (x : Name) (v : Option NodeKey) : Prop :=
  ∃ s, i ≤ s ∧ s ≤ ops.length ∧ v = (T.moment ops s).entry d x

section

variable {T : Tree} {ops : List Op} {i : Nat} {d : NodeKey} {x : Name} {v : Option NodeKey} {op : Op}

theorem Seen.now (hi : i ≤ ops.length) (h : v = (T.moment ops i).entry d x) : T.Seen ops i d x v :=
  ⟨i, Nat.le_refl i, hi, h⟩

theorem Seen.next (h : T.Seen ops i d x v) (hi : ops[i]? = some op)
    (hsame : ((T.moment ops i).apply op).entry d x = (T.moment ops i).entry d x) :
    T.Seen ops (i + 1) d x v := by
  obtain ⟨s, his, hs, hv⟩ := h
  rcases Nat.lt_or_eq_of_le his with hlt | rfl
  · exact ⟨s, hlt, hs, hv⟩
  have hlt : i < ops.length := (List.getElem?_eq_some_iff.mp hi).1
  refine ⟨i + 1, Nat.le_refl _, hlt, ?_⟩
  rw [moment_succ hi, hsame]
  exact hv

theorem Seen.last (h : T.Seen ops ops.length d x v) : v = (T.run ops).entry d x := by
  obtain ⟨s, h1, h2, hv⟩ := h
  obtain rfl : s = ops.length := Nat.le_antisymm h2 h1
  rwa [moment_length] at hv

end

end Tree

end Mist
