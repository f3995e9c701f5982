import Mathlib.Data.List.Count
import Mathlib.Data.List.Nodup
import Mathlib.Data.List.Perm.Basic
import Mist.Proto

/-! The entry table of one directory. -/

namespace Mist

open List

/-- First real cookie: 1 and 2 are the synthetic "." and ".." of a mount surface. -/
def firstCookie : Nat := 3

structure CEnt where
  cookie : Nat
  name : Name
  node : NodeKey
  kind : Kind
  deriving DecidableEq

/-- A directory's live entries: no name twice, cookies increasing and below the next one. -/
structure DirState where
  ents : List CEnt
  nextCookie : Nat
  dirgen : Nat
  complete : Bool
  names : (ents.map CEnt.name).Nodup
  sorted : (ents.map CEnt.cookie).Pairwise (· < ·)
  below : ∀ e ∈ ents, e.cookie < nextCookie
  deriving DecidableEq

/-- What an upsert did: whether the target gained a name, the node that lost it, and the change in
the number of dentries. -/
structure UpsertResult where
  gainedLink : Bool
  displaced : Option NodeKey
  dentryDelta : Int

namespace DirState

def new : DirState where
  ents := []
  nextCookie := firstCookie
  dirgen := 0
  complete := false
  names := List.nodup_nil
  sorted := List.Pairwise.nil
  below := by simp

def liveLen (d : DirState) : Nat := d.ents.length

def children (d : DirState) : List NodeKey := d.ents.map CEnt.node

def findEnt (d : DirState) (name : Name) : Option CEnt := d.ents.find? fun e => e.name = name

def find (d : DirState) (name : Name) : Option (NodeKey × Kind) :=
  (d.findEnt name).map fun e => (e.node, e.kind)

/-- Drop the entry of `name`; the cookies of the others stay. -/
def kill (d : DirState) (name : Name) : DirState where
  ents := d.ents.filter fun e => e.name ≠ name
  nextCookie := d.nextCookie
  dirgen := d.dirgen
  complete := d.complete
  names := d.names.sublist (List.filter_sublist.map _)
  sorted := d.sorted.sublist (List.filter_sublist.map _)
  below e he := d.below e (List.mem_of_mem_filter he)

variable {d t t' : DirState} {name x : Name} {e : CEnt} {k : NodeKey}

theorem findEnt_eq_none : d.findEnt name = none ↔ name ∉ d.ents.map CEnt.name := by
  rw [findEnt, find?_eq_none, mem_map]
  simp

theorem ent_unique (d : DirState) {e' : CEnt} (he : e ∈ d.ents) (he' : e' ∈ d.ents)
    (h : e.name = e'.name) : e = e' :=
  inj_on_of_nodup_map d.names he he' h

theorem findEnt_eq_some : d.findEnt name = some e ↔ e ∈ d.ents ∧ e.name = name := by
  cases hf : d.findEnt name with
  | none =>
    have hnone := findEnt_eq_none.mp hf
    constructor
    · intro h
      cases h
    · rintro ⟨he, hn⟩
      exact absurd (mem_map.mpr ⟨e, he, hn⟩) hnone
  | some found =>
    have hmem : found ∈ d.ents := mem_of_find?_eq_some hf
    have hname : found.name = name := by simpa using find?_some hf
    rw [Option.some.injEq]
    refine ⟨fun h => h ▸ ⟨hmem, hname⟩, fun ⟨he, hn⟩ => ?_⟩
    exact d.ent_unique hmem he (hname.trans hn.symm)

theorem findEnt_kill (d : DirState) (name other : Name) :
    (d.kill name).findEnt other = if other = name then none else d.findEnt other := by
  simp only [findEnt, kill, find?_filter]
  split_ifs with h
  · subst h
    simp
  congr 1
  funext e
  by_cases he : e.name = other <;> simp [he, h]

theorem perm_kill (h : d.findEnt name = some e) : d.ents.Perm (e :: (d.kill name).ents) := by
  obtain ⟨he, hn⟩ := findEnt_eq_some.mp h
  have hnodup := Nodup.of_map _ d.names
  rw [kill, perm_ext_iff_of_nodup hnodup]
  · intro e'
    simp only [mem_cons, mem_filter, decide_eq_true_eq]
    constructor
    · intro he'
      by_cases hn' : e'.name = name
      · exact .inl (d.ent_unique he' he (hn'.trans hn.symm))
      · exact .inr ⟨he', hn'⟩
    · rintro (rfl | ⟨he', _⟩)
      · exact he
      · exact he'
  · refine nodup_cons.mpr ⟨?_, hnodup.filter _⟩
    simp [hn]

theorem count_kill (h : d.findEnt name = some e)
    (j : NodeKey) : (d.kill name).children.count j + [e.node].count j = d.children.count j := by
  have hcount := ((perm_kill h).map CEnt.node).count_eq j
  rw [map_cons, ← singleton_append, count_append] at hcount
  simp only [children]
  omega

/-- Append an entry for a name that has none, under a fresh cookie. -/
def insertNew (d : DirState) (name : Name) (node : NodeKey) (kind : Kind)
    (h : d.findEnt name = none) : DirState where
  ents := d.ents ++ [⟨d.nextCookie, name, node, kind⟩]
  nextCookie := d.nextCookie + 1
  dirgen := d.dirgen + 1
  complete := d.complete
  names := by
    rw [List.map_append, List.nodup_append]
    refine ⟨d.names, by simp, fun a ha b hb => ?_⟩
    obtain rfl : b = name := by simpa using hb
    rintro rfl
    exact findEnt_eq_none.mp h ha
  sorted := by
    rw [List.map_append, List.pairwise_append]
    refine ⟨d.sorted, by simp, fun a ha b hb => ?_⟩
    obtain ⟨e, he, rfl⟩ := List.mem_map.mp ha
    obtain rfl : b = d.nextCookie := by simpa using hb
    exact d.below e he
  below e he := by
    rcases List.mem_append.mp he with h | h
    · exact Nat.lt_succ_of_lt (d.below e h)
    · obtain rfl : e = ⟨d.nextCookie, name, node, kind⟩ := by simpa using h
      exact Nat.lt_succ_self _

def setKind (d : DirState) (name : Name) (kind : Kind) : DirState where
  ents := d.ents.map fun e => if e.name = name then { e with kind } else e
  nextCookie := d.nextCookie
  dirgen := d.dirgen
  complete := d.complete
  names := by
    rw [List.map_map, show CEnt.name ∘ (fun e => if e.name = name then { e with kind } else e) =
      CEnt.name from funext fun e => by simp only [Function.comp]; split <;> rfl]
    exact d.names
  sorted := by
    rw [List.map_map, show CEnt.cookie ∘ (fun e => if e.name = name then { e with kind } else e) =
      CEnt.cookie from funext fun e => by simp only [Function.comp]; split <;> rfl]
    exact d.sorted
  below e he := by
    obtain ⟨e', he', rfl⟩ := List.mem_map.mp he
    have := d.below e' he'
    split <;> exact this

/-- Idempotent dentry upsert: the same name and node keep the entry and its cookie, another target
replaces the entry under a fresh cookie. -/
def upsert (d : DirState) (name : Name) (node : NodeKey) (kind : Kind) : DirState × UpsertResult :=
  match h : d.findEnt name with
  | some e =>
    if e.node = node then
      (d.setKind name kind, ⟨false, none, 0⟩)
    else
      ((d.kill name).insertNew name node kind (by rw [findEnt_kill]; simp), ⟨true, some e.node, 0⟩)
  | none => (d.insertNew name node kind h, ⟨true, none, 1⟩)

def remove (d : DirState) (name : Name) : Option (NodeKey × DirState) :=
  (d.findEnt name).map fun e => (e.node, { d.kill name with dirgen := d.dirgen + 1 })

def rangeAfter (d : DirState) (after : Nat) : List CEnt := d.ents.filter fun e => after < e.cookie

theorem find_eq_some {node : NodeKey} {kind : Kind} :
    d.find name = some (node, kind) ↔
      ∃ e ∈ d.ents, e.name = name ∧ e.node = node ∧ e.kind = kind := by
  simp only [find, Option.map_eq_some_iff, findEnt_eq_some, Prod.mk.injEq]
  constructor
  · rintro ⟨e, ⟨he, hn⟩, h1, h2⟩
    exact ⟨e, he, hn, h1, h2⟩
  · rintro ⟨e, he, hn, h1, h2⟩
    exact ⟨e, ⟨he, hn⟩, h1, h2⟩

theorem mem_children {node : NodeKey} :
    node ∈ d.children ↔ ∃ name kind, d.find name = some (node, kind) := by
  simp only [children, mem_map, find_eq_some]
  constructor
  · rintro ⟨e, he, rfl⟩
    exact ⟨e.name, e.kind, e, he, rfl, rfl, rfl⟩
  · rintro ⟨_, _, e, he, -, rfl, -⟩
    exact ⟨e, he, rfl⟩

theorem find_new (name : Name) : new.find name = none := rfl

section

variable (d : DirState)

variable (name : Name)

theorem findEnt_insertNew (other : Name) (node : NodeKey) (kind : Kind)
    (h : d.findEnt name = none) :
    (d.insertNew name node kind h).findEnt other =
      if other = name then some ⟨d.nextCookie, name, node, kind⟩ else d.findEnt other := by
  simp only [findEnt, insertNew, find?_append]
  split_ifs with hn
  · subst hn
    rw [show (d.ents.find? fun e => e.name = other) = none from h]
    simp
  · simp [Ne.symm hn]

theorem findEnt_setKind (other : Name) (kind : Kind) :
    (d.setKind name kind).findEnt other =
      (d.findEnt other).map fun e => if other = name then { e with kind } else e := by
  simp only [findEnt, setKind, find?_map]
  rw [show (fun e : CEnt => decide (e.name = other)) ∘
      (fun e => if e.name = name then { e with kind } else e) = fun e => decide (e.name = other) from
    funext fun e => by simp only [Function.comp]; split <;> rfl]
  cases hf : d.ents.find? fun e => e.name = other with
  | none => rfl
  | some e =>
    have : e.name = other := by simpa using find?_some hf
    simp [this]

theorem find_upsert (other : Name) (node : NodeKey) (kind : Kind) :
    (d.upsert name node kind).1.find other =
      if other = name then some (node, kind) else d.find other := by
  unfold upsert
  split
  · rename_i e h
    split
    · rename_i hnode
      simp only [find, findEnt_setKind]
      split
      · rename_i hn
        subst hn
        simp [h, hnode]
      · simp
    · simp only [find, findEnt_insertNew, findEnt_kill]
      split <;> rfl
  · simp only [find, findEnt_insertNew]
    split <;> rfl

theorem count_upsert (node : NodeKey) (kind : Kind) (j : NodeKey) :
    (d.upsert name node kind).1.children.count j +
        (d.upsert name node kind).2.displaced.toList.count j =
      d.children.count j +
        (if (d.upsert name node kind).2.gainedLink then [node] else []).count j := by
  unfold upsert
  split
  · rename_i e h
    split
    · simp only [children, setKind, map_map, Option.toList_none, count_nil, Nat.add_zero,
        Bool.false_eq_true, if_false]
      rw [show CEnt.node ∘ (fun e => if e.name = name then { e with kind } else e) = CEnt.node from
        funext fun e => by simp only [Function.comp]; split <;> rfl]
    · have hk := count_kill h j
      simp only [children, insertNew, map_append, map_cons, map_nil,
        count_append, Option.toList_some, if_true] at hk ⊢
      omega
  · simp [children, insertNew, count_append]

theorem length_upsert (node : NodeKey) (kind : Kind) :
    0 ≤ (d.upsert name node kind).2.dentryDelta ∧
      ((d.upsert name node kind).1.ents.length : Int) =
        d.ents.length + (d.upsert name node kind).2.dentryDelta := by
  unfold upsert
  split
  · rename_i e h
    split
    · simp [setKind]
    · have hk := (perm_kill h).length_eq
      simp [insertNew, hk]
  · simp [insertNew]

end

section

variable (h : t.remove x = some (k, t'))
include h

theorem find_remove (y : Name) : t'.find y = if y = x then none else t.find y := by
  obtain ⟨e, -, he⟩ := Option.map_eq_some_iff.mp h
  obtain ⟨-, rfl⟩ := Prod.mk.inj he
  have : (t.kill x).findEnt y = if y = x then none else t.findEnt y := findEnt_kill t x y
  show ((t.kill x).findEnt y).map _ = _
  rw [this]
  split <;> rfl

theorem count_remove (j : NodeKey) : t'.children.count j + [k].count j = t.children.count j := by
  obtain ⟨e, hf, he⟩ := Option.map_eq_some_iff.mp h
  obtain ⟨rfl, rfl⟩ := Prod.mk.inj he
  exact count_kill hf j

theorem length_remove : t'.ents.length + 1 = t.ents.length := by
  obtain ⟨e, hf, he⟩ := Option.map_eq_some_iff.mp h
  obtain ⟨-, rfl⟩ := Prod.mk.inj he
  exact (perm_kill hf).length_eq.symm

end

theorem remove_eq_some {kind : Kind}
    (h : t.find x = some (k, kind)) : ∃ t', t.remove x = some (k, t') := by
  obtain ⟨e, hf, he⟩ := Option.map_eq_some_iff.mp h
  obtain ⟨rfl, -⟩ := Prod.mk.inj he
  exact ⟨_, Option.map_eq_some_iff.mpr ⟨e, hf, rfl⟩⟩

theorem remove_eq_none : t.remove x = none ↔ t.find x = none := by
  simp [remove, find]

theorem displaced_upsert (t : DirState) (x : Name) (k : NodeKey) (kind : Kind) :
    (t.upsert x k kind).2.displaced = ((t.find x).map Prod.fst).filter (· ≠ k) := by
  unfold upsert find
  split
  · rename_i e he
    rw [he]
    split_ifs with h
    · simp [h, Option.filter]
    · simp [h, Option.filter]
  · rename_i he
    simp [he]

theorem gainedLink_upsert (t : DirState) (x : Name) (k : NodeKey) (kind : Kind) :
    (t.upsert x k kind).2.gainedLink = ((t.find x).map Prod.fst != some k) := by
  unfold upsert find
  split
  · rename_i e he
    rw [he]
    split_ifs with h
    · simp [h]
    · simp [h]
  · rename_i he
    simp [he]

end DirState

end Mist
