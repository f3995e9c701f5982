import Mist.Replica.Apply

/-! The tree a replica shows.  A collection only takes nodes away, so what a record does to it is
stated for the nodes that are left. -/

namespace Mist

open List DirState Node Prod

/-- A tree as its readers see it: the nodes, the directories, the dentries and the parents. -/
@[ext] structure View where
  live : NodeKey → Prop
  dir : NodeKey → Prop
  entry : NodeKey → Name → Option NodeKey
  parent : NodeKey → Option NodeKey

def View.upsert (v : View) (k : NodeKey) (a : Attr) (p : NodeKey) : View where
  live j := j = k ∨ v.live j
  dir j := (j = k ∧ a.kind = .dir) ∨ v.dir j
  entry := v.entry
  parent j := if j = k then some p else v.parent j

def View.set (v : View) (p : NodeKey) (x : Name) (k : Option NodeKey) : View :=
  { v with entry := fun d y => if d = p ∧ y = x then k else v.entry d y }

def View.setParent (v : View) (k p : NodeKey) : View :=
  { v with parent := fun j => if j = k then some p else v.parent j }

/-- The part of a node its place in the tree depends on. -/
def Node.shape (n : Node) : Option (List CEnt) × NodeKey := (n.dir.map DirState.ents, n.parent)

theorem Node.targets_eq (n : Node) :
    n.targets = (n.shape.1.map fun es => es.map CEnt.node).getD [] := by
  unfold targets shape
  cases n.dir <;> rfl

namespace ShareReplica

def entry (r : ShareReplica) (dir : NodeKey) (name : Name) : Option NodeKey :=
  (r.dirOf dir).bind fun t => (t.find name).map Prod.fst

def isDir (r : ShareReplica) (key : NodeKey) : Bool := (r.dirOf key).isSome

def view (r : ShareReplica) : View where
  live k := r.live k
  dir k := r.isDir k
  entry := r.entry
  parent := r.parentOf

/-- The link counts cover the dentries, with `slack` more, up to the links still to count and those
still to drop; every dentry leads to a node, and every node but `exempt` has a link. -/
abbrev Counts (r : ShareReplica) (slack : NodeKey → Nat) (exempt : NodeKey → Prop)
    (owed todo : List NodeKey) : Prop :=
  Node.counting.Sound slack exempt r.shards owed todo

/-- The link count of every node is the number of its dentries, and only the root may have none. -/
abbrev Exact (r : ShareReplica) : Prop := r.Counts (fun _ => 0) (· = r.root) [] []

/-- `r` is what is left of `v` after some nodes went. -/
structure Left (r : ShareReplica) (v : View) : Prop where
  live : ∀ k, r.live k → v.live k
  dir : ∀ k, r.live k → (r.isDir k ↔ v.dir k)
  entry : ∀ k, r.live k → ∀ x, r.entry k x = v.entry k x
  parent : ∀ k, r.live k → r.parentOf k = v.parent k

structure Keeps (r r' : ShareReplica) : Prop where
  info : r'.info = r.info
  root : r.live r.root → r'.live r'.root

theorem Keeps.refl (r : ShareReplica) : Keeps r r := ⟨rfl, id⟩

variable {r r' : ShareReplica} {k d : NodeKey}

theorem Keeps.trans {r'' : ShareReplica} (h : Keeps r r') (h' : Keeps r' r'') : Keeps r r'' :=
  ⟨h'.info.trans h.info, fun hroot => h'.root (h.root hroot)⟩

theorem Keeps.of_live (hinfo : r'.info = r.info) (h : ∀ k, r.live k → r'.live k) : Keeps r r' := by
  refine ⟨hinfo, fun hroot => ?_⟩
  rw [ShareReplica.root, hinfo]
  exact h _ hroot

theorem Keeps.exact (h : Keeps r r')
    (hs : r'.Counts (fun _ => 0) (· = r.root) [] []) : r'.Exact := by
  rw [Exact, ShareReplica.root, h.info]
  exact hs

theorem Left.refl (r : ShareReplica) : Left r r.view :=
  ⟨fun _ h => h, fun _ _ => Iff.rfl, fun _ _ _ => rfl, fun _ _ => rfl⟩

theorem live_iff : r.live k ↔ ∃ n, r.shards.lookup k = some n := Option.isSome_iff_exists

theorem dirOf_eq_some {t : DirState} :
    r.dirOf k = some t ↔ ∃ n, r.shards.lookup k = some n ∧ n.dir = some t := by
  simp only [dirOf, Option.bind_eq_some_iff]

theorem live_of_isDir (h : r.isDir k) : r.live k := by
  obtain ⟨t, ht⟩ := Option.isSome_iff_exists.mp h
  obtain ⟨n, hn, -⟩ := dirOf_eq_some.mp ht
  exact live_iff.mpr ⟨n, hn⟩

theorem isDir_of_entry {x : Name} (h : r.entry d x = some k) : r.isDir d := by
  obtain ⟨t, ht, -⟩ := Option.bind_eq_some_iff.mp h
  simp [isDir, ht]

theorem entry_of_not_dir (h : ¬ r.isDir d) (x : Name) : r.entry d x = none := by
  cases he : r.entry d x with
  | none => rfl
  | some k => exact absurd (isDir_of_entry he) h

theorem entry_eq_some {x : Name} :
    r.entry d x = some k ↔ ∃ t kind, r.dirOf d = some t ∧ t.find x = some (k, kind) := by
  simp only [entry, Option.bind_eq_some_iff, Option.map_eq_some_iff, Prod.exists, exists_and_right,
    exists_eq_right]
  exact ⟨fun ⟨t, ht, kind, hk⟩ => ⟨t, kind, ht, hk⟩, fun ⟨t, kind, ht, hk⟩ => ⟨t, ht, kind, hk⟩⟩

theorem mem_targets :
    (∃ n, r.shards.lookup d = some n ∧ k ∈ n.targets) ↔ ∃ x, r.entry d x = some k := by
  constructor
  · rintro ⟨n, hn, hk⟩
    cases hd : n.dir with
    | none => simp [targets, hd] at hk
    | some t =>
      rw [targets, hd] at hk
      obtain ⟨x, kind, hx⟩ := mem_children.mp hk
      exact ⟨x, entry_eq_some.mpr ⟨t, kind, dirOf_eq_some.mpr ⟨n, hn, hd⟩, hx⟩⟩
  · rintro ⟨x, hx⟩
    obtain ⟨t, kind, ht, hk⟩ := entry_eq_some.mp hx
    obtain ⟨n, hn, hd⟩ := dirOf_eq_some.mp ht
    refine ⟨n, hn, ?_⟩
    rw [targets, hd]
    exact mem_children.mpr ⟨x, kind, hk⟩

theorem encard_names (t : DirState) (k : NodeKey) :
    {x | (t.find x).map Prod.fst = some k}.encard = t.children.count k := by
  have hset : {x | (t.find x).map fst = some k} =
      (((t.ents.filter fun e => e.node = k).map CEnt.name).toFinset : Set Name) := by
    ext x
    simp only [Set.mem_ofPred_eq, coe_toFinset, mem_map, mem_filter, decide_eq_true_eq]
    constructor
    · intro h
      obtain ⟨⟨k', kind⟩, hf, rfl⟩ := Option.map_eq_some_iff.mp h
      obtain ⟨e, he, hn, hk, -⟩ := find_eq_some.mp hf
      exact ⟨e, ⟨he, hk⟩, hn⟩
    · rintro ⟨e, ⟨he, hk⟩, hn⟩
      rw [find_eq_some.mpr ⟨e, he, hn, hk, rfl⟩]
      rfl
  have hnodup : ((t.ents.filter fun e => e.node = k).map CEnt.name).Nodup :=
    t.names.sublist (filter_sublist.map _)
  rw [hset, Set.encard_coe_eq_coe_finsetCard, toFinset_card_of_nodup hnodup, length_map,
    children, count_eq_countP, countP_map, countP_eq_length_filter]
  rfl

theorem refsTo_eq_encard (r : ShareReplica) (k : NodeKey) :
    {p : NodeKey × Name | r.entry p.1 p.2 = some k}.encard = counting.refsTo r.shards k := by
  rw [Counting.refsTo, ← KeyMap.encard_eq_total
    (s := fun n => {x | ∃ t, n.dir = some t ∧ (t.find x).map fst = some k})]
  · congr 1
    ext ⟨d, x⟩
    simp only [Set.mem_ofPred_eq, entry, dirOf, Option.bind_eq_some_iff]
    constructor
    · rintro ⟨t, ⟨n, hn, ht⟩, hx⟩
      exact ⟨n, hn, t, ht, hx⟩
    · rintro ⟨n, hn, t, ht, hx⟩
      exact ⟨t, ⟨n, hn, ht⟩, hx⟩
  · intro n
    cases hd : n.dir with
    | none => simp [targets, hd]
    | some t => simpa [targets, hd] using encard_names t k

section

variable {r r' : ShareReplica}

theorem views_of_shape {k : NodeKey}
    (h : (r'.shards.lookup k).map shape = (r.shards.lookup k).map shape) :
    r'.live k = r.live k ∧ r'.isDir k = r.isDir k ∧ (∀ x, r'.entry k x = r.entry k x) ∧
      r'.parentOf k = r.parentOf k := by
  simp only [live, isDir, entry, parentOf, dirOf]
  cases hr' : r'.shards.lookup k with
  | none =>
    rw [hr', eq_comm, Option.map_none, Option.map_eq_none_iff] at h
    simp [h]
  | some n' =>
    rw [hr', eq_comm, Option.map_some, Option.map_eq_some_iff] at h
    obtain ⟨n, hn, hshape⟩ := h
    have hents : n.dir.map ents = n'.dir.map ents := congrArg fst hshape
    have hparent : n.parent = n'.parent := congrArg snd hshape
    rw [hn]
    refine ⟨rfl, ?_, fun x => ?_, by simp [hparent]⟩
    · simpa using (congrArg Option.isSome hents).symm
    have hfind := congrArg (fun o => o.bind fun es : List CEnt =>
      (es.find? fun e => decide (e.name = x)).map CEnt.node) hents
    simp only [Option.bind_map, Function.comp_def] at hfind
    simp only [Option.bind_some, find, findEnt, Option.map_map, Function.comp_def]
    exact hfind.symm

theorem view_eq_of_shape
    (h : ∀ k, (r'.shards.lookup k).map shape = (r.shards.lookup k).map shape) :
    r'.view = r.view := by
  apply View.ext
  · funext k
    exact congrArg (· = true) (views_of_shape (h k)).1
  · funext k
    exact congrArg (· = true) (views_of_shape (h k)).2.1
  · funext k x
    exact (views_of_shape (h k)).2.2.1 x
  · funext k
    exact (views_of_shape (h k)).2.2.2

theorem left_of_shape
    (h : ∀ k n', r'.shards.lookup k = some n' →
      ∃ n, r.shards.lookup k = some n ∧ n'.shape = n.shape) : Left r' r.view := by
  have hkey : ∀ k, r'.live k →
      (r'.shards.lookup k).map shape = (r.shards.lookup k).map shape := by
    intro k hk
    obtain ⟨n', hn'⟩ := live_iff.mp hk
    obtain ⟨n, hn, hs⟩ := h k n' hn'
    simp [hn, hn', hs]
  refine ⟨fun k hk => ?_, fun k hk => ?_, fun k hk => ?_, fun k hk => ?_⟩
  · have := (views_of_shape (hkey k hk)).1
    show r.live k
    rw [← this]
    exact hk
  · have := (views_of_shape (hkey k hk)).2.1
    show r'.isDir k ↔ r.isDir k
    rw [this]
  · exact (views_of_shape (hkey k hk)).2.2.1
  · exact (views_of_shape (hkey k hk)).2.2.2

end

end ShareReplica

end Mist
