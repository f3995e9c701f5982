import Mathlib.Data.Set.Basic
import Mathlib.Logic.Function.Basic
import Mist.Proto

/-! The guest's file tree and its operations, each with the journal record that reports it. -/

namespace Mist

open Option Function

/-- The tree of one share in the guest.  A key stands for one file for ever: `born` holds the keys in
use so far. -/
structure Tree where
  root : NodeKey
  attr : NodeKey → Attr
  entry : NodeKey → Name → Option NodeKey
  born : NodeKey → Prop

namespace Tree

def kind (T : Tree) (k : NodeKey) : Kind := (T.attr k).kind

/-- The nodes at or below `a`. -/
inductive Reach (T : Tree) (a : NodeKey) : NodeKey → Prop
  | refl : Reach T a a
  | step {q k : NodeKey} {x : Name} : Reach T a q → T.entry q x = some k → Reach T a k

def Live (T : Tree) (k : NodeKey) : Prop := k = T.root ∨ ∃ d x, T.entry d x = some k

def names (T : Tree) (k : NodeKey) : Set (NodeKey × Name) := {p | T.entry p.1 p.2 = some k}

def emptyShare (root : NodeKey) (a : Attr) : Tree where
  root := root
  attr _ := a
  entry _ _ := none
  born k := k = root

structure WF (T : Tree) : Prop where
  rootDir : T.kind T.root = .dir
  rootBorn : T.born T.root
  rooted : ∀ {d x k}, T.entry d x = some k → T.Reach T.root d
  dirs : ∀ {d x k}, T.entry d x = some k → T.kind d = .dir
  unique : ∀ {d x d' x' k}, T.entry d x = some k → T.entry d' x' = some k → T.kind k = .dir →
    d = d' ∧ x = x'
  noRoot : ∀ {d x}, T.entry d x ≠ some T.root
  born : ∀ {d x k}, T.entry d x = some k → T.born k

def set (T : Tree) (d : NodeKey) (x : Name) (k : Option NodeKey) : Tree :=
  { T with entry := fun d' y => if d' = d ∧ y = x then k else T.entry d' y }

open Classical in
/-- Forget the entries of the directories that cannot be reached from the root. -/
noncomputable def prune (T : Tree) : Tree :=
  { T with entry := fun d x => if T.Reach T.root d then T.entry d x else none }

end Tree

/-- A guest operation with what its journal record says of the node. -/
inductive Op where
  | create (d : NodeKey) (x : Name) (k : NodeKey) (a : Attr)
  | link (d : NodeKey) (x : Name) (k : NodeKey) (a : Attr)
  | unlink (d : NodeKey) (x : Name)
  | removeTree (d : NodeKey) (x : Name)
  | rename (d : NodeKey) (x : Name) (e : NodeKey) (y : Name)
  | write (k : NodeKey) (version size : UInt64) (mtime : Ts) (inProgress : Bool)
  | chmod (k : NodeKey) (a : Attr)

def Op.record : Op → Rec
  | .create d x k a => .created d x k (some a)
  | .link d x k a => .created d x k (some a)
  | .unlink d x => .removed d x
  | .removeTree d x => .removed d x
  | .rename d x e y => .renamed d x e y
  | .write k version size mtime inProgress => .content k version size mtime inProgress
  | .chmod k a => .attrChanged k a

namespace Tree

/-- When the guest's kernel carries an operation out.  `unlink` is of a file or an empty directory;
a rename may replace a file or an empty directory, but neither its own node nor go below itself. -/
def Valid (T : Tree) : Op → Prop
  | .create d x k _ => T.Live d ∧ T.kind d = .dir ∧ T.entry d x = none ∧ ¬ T.born k
  | .link d x k a =>
    T.Live d ∧ T.kind d = .dir ∧ T.entry d x = none ∧ T.Live k ∧ T.kind k ≠ .dir ∧ a.kind = T.kind k
  | .unlink d x => ∃ k, T.entry d x = some k ∧ ∀ y, T.entry k y = none
  | .removeTree d x => ∃ k, T.entry d x = some k
  | .rename d x e y =>
    ∃ k, T.entry d x = some k ∧ T.Live e ∧ T.kind e = .dir ∧ ¬ T.Reach k e ∧
      ∀ m, T.entry e y = some m →
        m ≠ k ∧ (T.kind m = .dir ↔ T.kind k = .dir) ∧ ∀ z, T.entry m z = none
  | .write k _ _ _ _ => T.Live k
  | .chmod k a => T.Live k ∧ a.kind = T.kind k

noncomputable def apply (T : Tree) : Op → Tree
  | .create d x k a =>
    { T.set d x (some k) with
      attr := Function.update T.attr k a
      born := fun j => j = k ∨ T.born j }
  | .link d x k a => { T.set d x (some k) with attr := Function.update T.attr k a }
  | .unlink d x => T.set d x none
  | .removeTree d x => (T.set d x none).prune
  | .rename d x e y => (T.set d x none).set e y (T.entry d x)
  | .write k version size mtime _ =>
    { T with
      attr := Function.update T.attr k
        { T.attr k with size, mtime, contentVersion := version } }
  | .chmod k a => { T with attr := Function.update T.attr k a }

noncomputable def run (T : Tree) (ops : List Op) : Tree := ops.foldl apply T

def ValidRun (T : Tree) : List Op → Prop
  | [] => True
  | op :: ops => T.Valid op ∧ (T.apply op).ValidRun ops

variable {T : Tree} {k d q : NodeKey} {x : Name} {a : Attr} {T' : Tree} {op : Op}

theorem emptyShare_wf (root : NodeKey) (ha : a.kind = .dir) : (emptyShare root a).WF := by
  constructor <;> simp [emptyShare, kind, ha]

theorem kind_update (T : Tree) (ha : a.kind = T.kind k) :
    (fun j => (Function.update T.attr k a j).kind) = T.kind := by
  funext j
  by_cases hj : j = k
  · rw [hj, update_self, ha]
  · rw [update_of_ne hj]
    rfl

theorem ValidRun.take {ops : List Op} (h : T.ValidRun ops) (i : Nat) : T.ValidRun (ops.take i) := by
  induction ops generalizing T i with
  | nil => simpa using h
  | cons op ops ih =>
    cases i with
    | zero => trivial
    | succ i => exact ⟨h.1, ih h.2 i⟩

theorem Reach.trans {a b : NodeKey} (h1 : T.Reach a b) (h2 : T.Reach b k) : T.Reach a k := by
  induction h2 with
  | refl => exact h1
  | step _ he ih => exact .step ih he

theorem WF.live_iff_reach (h : T.WF) : T.Live k ↔ T.Reach T.root k := by
  constructor
  · rintro (rfl | ⟨d, x, hx⟩)
    · exact .refl
    · exact .step (h.rooted hx) hx
  intro hr
  cases hr with
  | refl => exact .inl rfl
  | step _ he => exact .inr ⟨_, _, he⟩

theorem WF.live_born (h : T.WF) (hk : T.Live k) : T.born k := by
  rcases hk with rfl | ⟨d, x, hx⟩
  · exact h.rootBorn
  · exact h.born hx

theorem WF.entry_of_not_born (h : T.WF) (hk : ¬ T.born k) (x : Name) : T.entry k x = none := by
  cases he : T.entry k x with
  | none => rfl
  | some j => exact absurd (h.live_born (h.live_iff_reach.mpr (h.rooted he))) hk

theorem entry_set (T : Tree) (d : NodeKey) (x : Name) (k : Option NodeKey) (d' : NodeKey) (y : Name) :
    (T.set d x k).entry d' y = if d' = d ∧ y = x then k else T.entry d' y := rfl

@[simp] theorem entry_set_self (T : Tree) (d : NodeKey) (x : Name) (k : Option NodeKey) :
    (T.set d x k).entry d x = k := by
  simp [entry_set]

theorem WF.entry_ne_self (h : T.WF) : T.entry d x ≠ some d := by
  intro hd
  suffices hne : ∀ q, T.Reach T.root q → q ≠ d from hne d (h.rooted hd) rfl
  intro q hq
  induction hq with
  | refl =>
    rintro rfl
    exact h.noRoot hd
  | step _ he ih =>
    rintro rfl
    exact ih (h.unique he hd (h.dirs hd)).1

theorem Reach.clear {a : NodeKey} (hx : T.entry d x = some k) (h : T.Reach a q) :
    T.Reach k q ∨ (T.set d x none).Reach a q := by
  induction h with
  | refl => exact .inr .refl
  | @step p j y _ he ih =>
    rcases ih with hbelow | hr
    · exact .inl (.step hbelow he)
    by_cases hs : p = d ∧ y = x
    · obtain ⟨rfl, rfl⟩ := hs
      obtain rfl : k = j := mem_unique hx he
      exact .inl .refl
    · refine .inr (.step (x := y) hr ?_)
      rw [entry_set, if_neg hs]
      exact he

theorem Reach.mono {a : NodeKey} (h : T.Reach a q)
    (hle : ∀ d x k, T.Reach a d → T.entry d x = some k → T'.entry d x = some k) : T'.Reach a q := by
  induction h with
  | refl => exact .refl
  | step hr he ih => exact .step ih (hle _ _ _ hr he)

theorem Reach.eq_of_empty (hk : ∀ y, T.entry k y = none) (h : T.Reach k q) : q = k := by
  induction h with
  | refl => rfl
  | step _ he ih =>
    subst ih
    simp [hk] at he

theorem kind_create (T : Tree) (d : NodeKey) (x : Name) (a : Attr) {j : NodeKey} (hj : j ≠ k) :
    (T.apply (.create d x k a)).kind j = T.kind j := by
  simp only [apply, kind, update_of_ne hj]

theorem kind_write (T : Tree) (k : NodeKey) (version size : UInt64) (mtime : Ts)
    (inProgress : Bool) : (T.apply (.write k version size mtime inProgress)).kind = T.kind :=
  T.kind_update (a := { T.attr k with size, mtime, contentVersion := version }) rfl

/-- A free name of a live directory may be given to a new node or to another file. -/
theorem WF.enter (h : T.WF) {attr : NodeKey → Attr} {born : NodeKey → Prop} (hd : T.Live d)
    (hdir : T.kind d = .dir) (hfree : T.entry d x = none) (hroot : k ≠ T.root)
    (hborn : ∀ {j}, j = k ∨ T.born j → born j) (hkind : ∀ {j}, T.born j → (attr j).kind = T.kind j)
    (hnew : (attr k).kind = .dir → ¬ T.born k) :
    ({ T.set d x (some k) with attr, born } : Tree).WF := by
  have hcases : ∀ {d' y j}, (T.set d x (some k)).entry d' y = some j →
      (d' = d ∧ y = x ∧ j = k) ∨ T.entry d' y = some j := by
    intro d' y j hj
    rw [entry_set] at hj
    split_ifs at hj with hs
    · exact .inl ⟨hs.1, hs.2, (some.inj hj).symm⟩
    · exact .inr hj
  have hreach : ∀ {q}, T.Reach T.root q →
      ({ T.set d x (some k) with attr, born } : Tree).Reach T.root q :=
    fun hr => hr.mono fun d' y j _ hj => by
      simp only [entry_set]
      rw [if_neg]
      · exact hj
      · rintro ⟨rfl, rfl⟩
        simp [hfree] at hj
  refine ⟨(hkind h.rootBorn).trans h.rootDir, hborn (.inr h.rootBorn), fun hj => ?_, fun hj => ?_,
    fun h1 h2 hj => ?_, fun hj => ?_, fun hj => ?_⟩
  · rcases hcases hj with ⟨rfl, -, -⟩ | hj
    · exact hreach (h.live_iff_reach.mp hd)
    · exact hreach (h.rooted hj)
  · rcases hcases hj with ⟨rfl, -, -⟩ | hj
    · exact (hkind (h.live_born hd)).trans hdir
    · exact (hkind (h.live_born (h.live_iff_reach.mpr (h.rooted hj)))).trans (h.dirs hj)
  · rcases hcases h1 with ⟨rfl, rfl, rfl⟩ | h1
    · rcases hcases h2 with ⟨rfl, rfl, -⟩ | h2
      · exact ⟨rfl, rfl⟩
      · exact absurd (h.born h2) (hnew hj)
    · rcases hcases h2 with ⟨-, -, heq⟩ | h2
      · exact absurd (heq ▸ h.born h1) (hnew (heq ▸ hj))
      · exact h.unique h1 h2 ((hkind (h.born h1)).symm.trans hj)
  · rcases hcases hj with ⟨-, -, heq⟩ | hj
    · exact hroot heq.symm
    · exact h.noRoot hj
  · rcases hcases hj with ⟨-, -, rfl⟩ | hj
    · exact hborn (.inl rfl)
    · exact hborn (.inr (h.born hj))

theorem WF.create (h : T.WF) (hv : T.Valid (.create d x k a)) : (T.apply (.create d x k a)).WF := by
  obtain ⟨hd, hdir, hfree, hk⟩ := hv
  refine h.enter hd hdir hfree (fun heq => hk (heq ▸ h.rootBorn)) id (fun hj => ?_) fun _ => hk
  exact kind_create T d x a fun heq => hk (heq ▸ hj)

theorem WF.restrict (h : T.WF) (hroot : T'.root = T.root) (hkind : T'.kind = T.kind)
    (hborn : T'.born = T.born) (hle : ∀ {d x k}, T'.entry d x = some k → T.entry d x = some k)
    (hrooted : ∀ {d x k}, T'.entry d x = some k → T'.Reach T.root d) : T'.WF := by
  refine ⟨?_, ?_, fun hj => ?_, fun hj => ?_, fun h1 h2 hj => ?_, fun hj => ?_, fun hj => ?_⟩
  · rw [hroot, hkind]
    exact h.rootDir
  · rw [hroot, hborn]
    exact h.rootBorn
  · rw [hroot]
    exact hrooted hj
  · rw [hkind]
    exact h.dirs (hle hj)
  · rw [hkind] at hj
    exact h.unique (hle h1) (hle h2) hj
  · rw [hroot] at hj
    exact h.noRoot (hle hj)
  · rw [hborn]
    exact h.born (hle hj)

theorem WF.of_kind (h : T.WF) (hroot : T'.root = T.root) (hkind : T'.kind = T.kind)
    (hborn : T'.born = T.born) (hentry : T'.entry = T.entry) : T'.WF :=
  h.restrict hroot hkind hborn (fun hj => hentry ▸ hj) fun hj =>
    (h.rooted (hentry ▸ hj)).mono fun _ _ _ _ he => hentry ▸ he

theorem WF.link (h : T.WF) (hv : T.Valid (.link d x k a)) : (T.apply (.link d x k a)).WF := by
  obtain ⟨hd, hdir, hfree, hk, hfile, ha⟩ := hv
  have hkind := fun j => congrFun (T.kind_update ha) j
  refine h.enter hd hdir hfree (fun heq => hfile (heq ▸ h.rootDir)) (fun hj => ?_)
    (fun _ => hkind _) fun hnew => absurd ((hkind k).symm.trans hnew) hfile
  rcases hj with rfl | hj
  · exact h.live_born hk
  · exact hj

theorem entry_of_entry_clear {d' : NodeKey} {y : Name}
    (h : (T.set d x none).entry d' y = some k) : ¬ (d' = d ∧ y = x) ∧ T.entry d' y = some k := by
  rw [entry_set] at h
  split at h
  · cases h
  · rename_i hs
    exact ⟨hs, h⟩

theorem WF.unlink (h : T.WF) (hv : T.Valid (.unlink d x)) : (T.apply (.unlink d x)).WF := by
  obtain ⟨k, hx, hk⟩ := hv
  refine h.restrict rfl rfl rfl (fun hj => (entry_of_entry_clear hj).2) fun {d' y j} hj => ?_
  have hold := (entry_of_entry_clear hj).2
  rcases (h.rooted hold).clear hx with hbelow | hr
  · rw [hbelow.eq_of_empty hk, hk] at hold
    cases hold
  · exact hr

theorem reach_prune : T.prune.Reach T.root q ↔ T.Reach T.root q := by
  constructor
  · intro hr
    refine hr.mono fun d x k _ he => ?_
    obtain ⟨-, he⟩ := ite_none_right_eq_some.mp he
    exact he
  · intro hr
    refine hr.mono fun d x k hd he => ?_
    simp only [prune]
    rw [if_pos hd]
    exact he

theorem entry_of_entry_prune (h : T.prune.entry d x = some k) :
    T.Reach T.root d ∧ T.entry d x = some k := by
  obtain ⟨hr, h⟩ := ite_none_right_eq_some.mp h
  exact ⟨hr, h⟩

theorem WF.removeTree (h : T.WF) : (T.apply (.removeTree d x)).WF := by
  refine h.restrict rfl rfl rfl (fun hj => (entry_of_entry_clear (entry_of_entry_prune hj).2).2)
    fun hj => ?_
  exact reach_prune.mpr (entry_of_entry_prune hj).1

section

variable {d e k : NodeKey} {x y : Name}

theorem entry_rename {d' j : NodeKey} {z : Name}
    (h : ((T.set d x none).set e y (some k)).entry d' z = some j) :
    (d' = e ∧ z = y ∧ j = k) ∨ (¬ (d' = d ∧ z = x) ∧ T.entry d' z = some j) := by
  rw [entry_set] at h
  split_ifs at h with hs
  · exact .inl ⟨hs.1, hs.2, (some.inj h).symm⟩
  · exact .inr (entry_of_entry_clear h)

theorem Reach.place {a q : NodeKey} (hempty : ∀ m, T.entry e y = some m → ∀ z, T.entry m z = none)
    (h : T.Reach a q) : T.entry e y = some q ∨ (T.set e y (some k)).Reach a q := by
  induction h with
  | refl => exact .inr .refl
  | @step p j z _ he ih =>
    rcases ih with hm | hr
    · simp [hempty p hm] at he
    by_cases hs : p = e ∧ z = y
    · obtain ⟨rfl, rfl⟩ := hs
      exact .inl he
    · refine .inr (.step (x := z) hr ?_)
      rw [entry_set, if_neg hs]
      exact he

theorem Reach.moved {q : NodeKey} (hx : T.entry d x = some k) (hout : ¬ T.Reach k e)
    (h : T.Reach k q) : ((T.set d x none).set e y (some k)).Reach k q := by
  induction h with
  | refl => exact .refl
  | @step p j z hp he ih =>
    by_cases hs : p = d ∧ z = x
    · obtain ⟨rfl, rfl⟩ := hs
      obtain rfl : k = j := mem_unique hx he
      exact .refl
    refine .step (x := z) ih ?_
    have hpe : ¬ (p = e ∧ z = y) := fun heq => hout (heq.1 ▸ hp)
    rw [entry_set, if_neg hpe, entry_set, if_neg hs]
    exact he

theorem WF.rename (h : T.WF) (hv : T.Valid (.rename d x e y)) : (T.apply (.rename d x e y)).WF := by
  obtain ⟨k, hx, he, hdir, hout, hm⟩ := hv
  have happ : T.apply (.rename d x e y) = (T.set d x none).set e y (some k) := by
    simp only [apply, hx]
  rw [happ]
  have hempty : ∀ m, (T.set d x none).entry e y = some m → ∀ z, (T.set d x none).entry m z = none := by
    intro m hm' z
    rw [entry_set]
    split
    · rfl
    · exact (hm m (entry_of_entry_clear hm').2).2.2 z
  have hreach : ∀ {q z j}, (T.set d x none).Reach T.root q → T.entry q z = some j →
      ((T.set d x none).set e y (some k)).Reach T.root q := by
    intro q z j hr hz
    rcases hr.place hempty with hq | hr
    · rw [(hm q (entry_of_entry_clear hq).2).2.2 z] at hz
      cases hz
    · exact hr
  have hreach_e : ((T.set d x none).set e y (some k)).Reach T.root e := by
    rcases (h.live_iff_reach.mp he).clear hx with hbelow | hr
    · exact absurd hbelow hout
    rcases hr.place hempty with hq | hr
    · have := entry_of_entry_clear hq
      simp [(hm e this.2).2.2 y] at this
    · exact hr
  have hreach_k : ((T.set d x none).set e y (some k)).Reach T.root k :=
    .step hreach_e (entry_set_self ..)
  refine ⟨h.rootDir, h.rootBorn, fun hj => ?_, fun hj => ?_, fun {d₁ x₁ d₂ x₂ j} h1 h2 hj => ?_,
    fun hj => ?_, fun hj => ?_⟩
  · rcases entry_rename hj with ⟨rfl, -, -⟩ | ⟨-, hj⟩
    · exact hreach_e
    · rcases (h.rooted hj).clear hx with hbelow | hr
      · exact hreach_k.trans (hbelow.moved hx hout)
      · exact hreach hr hj
  · rcases entry_rename hj with ⟨rfl, -, -⟩ | ⟨-, hj⟩
    · exact hdir
    · exact h.dirs hj
  · -- a directory that moved had one name, and that name is gone
    have hmoved : ∀ {d' z}, ¬ (d' = d ∧ z = x) → T.entry d' z = some j → j ≠ k := by
      rintro d' z hs hz rfl
      exact hs (h.unique hz hx hj)
    rcases entry_rename h1 with ⟨rfl, rfl, rfl⟩ | ⟨hs1, h1⟩
    · rcases entry_rename h2 with ⟨rfl, rfl, -⟩ | ⟨hs2, h2⟩
      · exact ⟨rfl, rfl⟩
      · exact absurd rfl (hmoved hs2 h2)
    · rcases entry_rename h2 with ⟨-, -, heq⟩ | ⟨-, h2⟩
      · exact absurd heq (hmoved hs1 h1)
      · exact h.unique h1 h2 hj
  · rcases entry_rename hj with ⟨-, -, heq⟩ | ⟨-, hj⟩
    · exact h.noRoot (heq ▸ hx)
    · exact h.noRoot hj
  · rcases entry_rename hj with ⟨-, -, rfl⟩ | ⟨-, hj⟩
    · exact h.born hx
    · exact h.born hj

end

theorem WF.apply (h : T.WF) (hv : T.Valid op) : (T.apply op).WF := by
  cases op with
  | create d x k a => exact h.create hv
  | link d x k a => exact h.link hv
  | unlink d x => exact h.unlink hv
  | removeTree d x => exact h.removeTree
  | rename d x e y => exact h.rename hv
  | write k version size mtime inProgress => exact h.of_kind rfl (T.kind_write ..) rfl rfl
  | chmod k a => exact h.of_kind rfl (T.kind_update hv.2) rfl rfl

@[simp] theorem apply_root (T : Tree) (op : Op) : (T.apply op).root = T.root := by
  cases op <;> rfl

theorem born_apply (h : T.born k) (op : Op) : (T.apply op).born k := by
  cases op with
  | create d x j a => exact .inr h
  | _ => exact h

theorem dead_apply (hv : T.Valid op) (hborn : T.born k)
    (hdead : ¬ T.Live k) : ¬ (T.apply op).Live k := by
  rintro (heq | ⟨d', z, hz⟩)
  · exact hdead (.inl (heq.trans (apply_root T op)))
  have hnamed : ∀ {d' z}, T.entry d' z ≠ some k := fun hz => hdead (.inr ⟨_, _, hz⟩)
  cases op with
  | create d x j a =>
    simp only [apply, entry_set] at hz
    split at hz
    · cases hz
      exact hv.2.2.2 hborn
    · exact hnamed hz
  | link d x j a =>
    simp only [apply, entry_set] at hz
    split at hz
    · cases hz
      exact hdead hv.2.2.2.1
    · exact hnamed hz
  | unlink d x => exact hnamed (entry_of_entry_clear hz).2
  | removeTree d x => exact hnamed (entry_of_entry_clear (entry_of_entry_prune hz).2).2
  | rename d x e y =>
    simp only [apply, entry_set] at hz
    split at hz
    · exact hnamed hz
    · split at hz
      · cases hz
      · exact hnamed hz
  | write j version size mtime inProgress => exact hnamed hz
  | chmod j a => exact hnamed hz

theorem kind_apply (hv : T.Valid op) (h : T.born k) : (T.apply op).kind k = T.kind k := by
  cases op with
  | create d x j a =>
    refine kind_create T d x a ?_
    rintro rfl
    exact hv.2.2.2 h
  | link d x j a => exact congrFun (T.kind_update hv.2.2.2.2.2) k
  | write j version size mtime inProgress => rw [kind_write]
  | chmod j a => exact congrFun (T.kind_update hv.2) k
  | unlink d x => rfl
  | removeTree d x => rfl
  | rename d x e y => rfl

end Tree

end Mist
