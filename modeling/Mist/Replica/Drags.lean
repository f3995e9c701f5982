import Mist.Falls
import Mist.Replica.Coat
import Mist.Replica.Tables

/-! Entries of a record take the names of other nodes of a directory.  What goes with those is said
in terms of the replica before the record. -/

namespace Mist

open List Option DirState Counting Node Prod Runs

namespace DirState

variable {t : DirState}

theorem complete_upsert (t : DirState) (x : Name) (k : NodeKey) (kind : Kind) :
    (t.upsert x k kind).1.complete = t.complete := by
  unfold upsert
  split
  · split <;> rfl
  · rfl

section

variable {x : Name} {k : NodeKey} {kind : Kind} (h : t.find x = some (k, kind))
include h

theorem setKind_self : t.setKind x kind = t := by
  obtain ⟨e, he, hname, -, hkind⟩ := find_eq_some.mp h
  have hents : (t.setKind x kind).ents = t.ents := by
    conv_rhs => rw [← map_id t.ents]
    refine map_congr_left fun e' he' => ?_
    split_ifs with hx
    · obtain rfl := t.ent_unique he' he (hx.trans hname.symm)
      rw [← hkind]
      rfl
    · rfl
  unfold setKind at hents ⊢
  cases t
  simp only at hents
  simp only [hents]

theorem upsert_again : t.upsert x k kind = (t, ⟨false, none, 0⟩) := by
  obtain ⟨e, he, hname, hnode, -⟩ := find_eq_some.mp h
  have hent : t.findEnt x = some e := findEnt_eq_some.mpr ⟨he, hname⟩
  unfold upsert
  split
  · rename_i e' he'
    obtain rfl : e = e' := mem_unique hent he'
    rw [if_pos hnode, setKind_self h]
  · simp_all

end

variable {es : List SnapEntry}

theorem fill_again
    (h : ∀ e ∈ es, t.find e.name = some (e.node, e.attr.kind)) : t.fill es = ⟨t, 0, [], []⟩ := by
  induction es with
  | nil => rfl
  | cons e es ih =>
    rw [fill, upsert_again (h e (.head _)), ih fun e' he' => h e' (.tail _ he')]
    rfl

theorem fill_complete (t : DirState) (es : List SnapEntry) :
    (t.fill es).table.complete = t.complete := by
  induction es generalizing t with
  | nil => rfl
  | cons e es ih => rw [fill, ih, complete_upsert]

theorem find_fill (hnames : (es.map SnapEntry.name).Nodup) :
    ∀ e ∈ es, (t.fill es).table.find e.name = some (e.node, e.attr.kind) := by
  induction es generalizing t with
  | nil => exact fun _ he => absurd he not_mem_nil
  | cons e es ih =>
    obtain ⟨hfresh, hnames⟩ := nodup_cons.mp hnames
    intro e' he'
    rcases mem_cons.mp he' with rfl | he'
    · have hlater : ∀ e₁ ∈ es, e₁.name ≠ e'.name := fun e₁ he₁ heq =>
        hfresh (mem_map.mpr ⟨e₁, he₁, heq⟩)
      rw [fill, find_fill_of_notMem hlater, find_upsert, if_pos rfl]
    · exact ih hnames e' he'

theorem fill_links (hnames : (es.map SnapEntry.name).Nodup) :
    (t.fill es).toLink =
        (es.filter fun e => (t.find e.name).map Prod.fst ≠ some e.node).map SnapEntry.node ∧
      (t.fill es).toUnlink =
        es.filterMap fun e => ((t.find e.name).map Prod.fst).filter (· ≠ e.node) := by
  induction es generalizing t with
  | nil => exact ⟨rfl, rfl⟩
  | cons e es ih =>
    obtain ⟨hfresh, hnames⟩ := nodup_cons.mp hnames
    obtain ⟨hlink, hunlink⟩ := ih (t := (t.upsert e.name e.node e.attr.kind).1) hnames
    have hfind : ∀ e' ∈ es, (t.upsert e.name e.node e.attr.kind).1.find e'.name = t.find e'.name := by
      intro e' he'
      rw [find_upsert, if_neg fun heq => hfresh (mem_map.mpr ⟨e', he', heq⟩)]
    have hlink' : es.filter (fun e' => ((t.upsert e.name e.node e.attr.kind).1.find e'.name).map
        fst ≠ some e'.node) = es.filter fun e' => (t.find e'.name).map fst ≠ some e'.node :=
      filter_congr fun e' he' => by rw [hfind e' he']
    have hunlink' : es.filterMap (fun e' => (((t.upsert e.name e.node e.attr.kind).1.find
        e'.name).map fst).filter (· ≠ e'.node)) =
        es.filterMap fun e' => ((t.find e'.name).map fst).filter (· ≠ e'.node) :=
      filterMap_congr fun e' he' => by rw [hfind e' he']
    rw [hlink'] at hlink
    rw [hunlink'] at hunlink
    refine ⟨?_, ?_⟩
    · rw [fill, gainedLink_upsert, hlink]
      by_cases hsame : (t.find e.name).map fst = some e.node
      · simp [hsame]
      · simp [hsame, bne_iff_ne]
    · rw [fill, displaced_upsert, hunlink, filterMap_cons]
      cases ((t.find e.name).map fst).filter (· ≠ e.node) with
      | none => rfl
      | some m => rfl

end DirState

namespace ShareReplica

def gains (r : ShareReplica) (p : NodeKey) (es : List SnapEntry) : List NodeKey :=
  (es.filter fun e => r.entry p e.name ≠ some e.node).map SnapEntry.node

def loses (r : ShareReplica) (p : NodeKey) (es : List SnapEntry) : List NodeKey :=
  es.filterMap fun e => (r.entry p e.name).filter (· ≠ e.node)

/-- The node goes along when those nodes lose their names: it is one of a sequence of nodes that have
no name left outside of the nodes before it. -/
def Drags (r : ShareReplica) (p : NodeKey) (es : List SnapEntry) (k : NodeKey) : Prop :=
  ∃ seq, k ∈ seq ∧ Falls r.root (fun j => r.live j ∨ j = p ∨ ∃ e ∈ es, e.node = j)
    (fun i j => if i = p
      then Node.counting.weight r.shards i j + (r.gains p es).count j - (r.loses p es).count j
      else Node.counting.weight r.shards i j)
    (fun j => r.linkCount j + (r.gains p es).count j) (fun j => (r.loses p es).count j) seq

structure SameGraph (r r' : ShareReplica) : Prop where
  weight : ∀ i j, Node.counting.weight r'.shards i j = Node.counting.weight r.shards i j
  count : ∀ k, r'.linkCount k = r.linkCount k

section

variable {r r' r'' : ShareReplica} {k p : NodeKey}

theorem SameGraph.trans (h : SameGraph r r') (h' : SameGraph r' r'') : SameGraph r r'' :=
  ⟨fun i j => (h'.weight i j).trans (h.weight i j), fun k => (h'.count k).trans (h.count k)⟩

theorem SameGraph.refl (r : ShareReplica) : SameGraph r r := ⟨fun _ _ => rfl, fun _ => rfl⟩

theorem upsertNode_graph (r : ShareReplica) (k : NodeKey) (a : Attr) (p : NodeKey) :
    SameGraph r (r.upsertNode k a p) := by
  have hnode : ∀ j, (r.upsertNode k a p).shards.lookup j =
      if j = k then some (r.upserted k a p) else r.shards.lookup j := fun j => by
    rw [upsertNode_shards, KeyMap.lookup_insert_ite]
  refine ⟨fun i j => ?_, fun j => ?_⟩
  · rw [weight, hnode]
    split_ifs with hi
    · rw [hi, map_some, counting_refs, upserted_targets, getD_some]
      rfl
    · rfl
  · rw [linkCount, hnode]
    split_ifs with hj
    · rw [hj, map_some, upserted_links, getD_some]
    · rfl

theorem SameTree.graph (h : SameTree r r') : SameGraph r r' := by
  refine ⟨fun i j => ?_, fun j => ?_⟩
  · have := congrArg (Option.map fun p : Nat × Option (List CEnt) × NodeKey =>
      (p.2.1.map fun es => es.map CEnt.node).getD []) (h.skel i)
    rw [Option.map_map, Option.map_map] at this
    have htargets : (r'.shards.lookup i).map targets = (r.shards.lookup i).map targets := by
      simpa only [Function.comp_def, ← targets_eq] using this
    show (((r'.shards.lookup i).map targets).getD []).count j = _
    rw [htargets]
    rfl
  · have := congrArg (Option.map fst) (h.skel j)
    rw [Option.map_map, Option.map_map] at this
    exact congrArg (Option.getD · 0) this

end

section

variable {r s : ShareReplica} {p k : NodeKey} {t t' : DirState} {es : List SnapEntry}

theorem filled_calm (r : ShareReplica) (p : NodeKey) (t : DirState) (f : Filled) :
    Calm k r (r.filled p t f) :=
  ((setDir_calm r t).trans (entriesAdd_calm _ _)).trans
    (foldl_calm (fun r _ _ => linkInc_calm r) _)

theorem dentrySet_fill (hp : r.dirOf p = some t) (e : SnapEntry) :
    r.dentrySet p e.name e.node e.attr.kind =
      (t.fill [e]).toUnlink.foldl linkDec (r.filled p (t.fill [e]).table (t.fill [e])) := by
  rw [dentrySet_eq hp, linked, placed, filled]
  simp only [fill, append_nil, Int.add_zero]
  split <;> rfl

theorem weight_eq (r : ShareReplica) (i j : NodeKey) :
    counting.weight r.shards i j = (((r.dirOf i).map children).getD []).count j := by
  rw [weight, dirOf]
  cases r.shards.lookup i <;> rfl

theorem filled_survives (hp : s.dirOf p = some t) (hnames : (es.map SnapEntry.name).Nodup)
    (ht : t'.ents = (t.fill es).table.ents) (hgraph : SameGraph r s) (hroot : s.root = r.root)
    (hlive : ∀ j, s.live j → r.live j ∨ j = p ∨ ∃ e ∈ es, e.node = j)
    (hentry : ∀ x, s.entry p x = r.entry p x) (hk : s.live k) (h : ¬ r.Drags p es k) :
    ((t.fill es).toUnlink.foldl linkDec (s.filled p t' (t.fill es))).live k := by
  by_contra hgone
  have hfind : ∀ x, (t.find x).map fst = r.entry p x := fun x => by
    rw [← hentry, entry, hp]
    rfl
  obtain ⟨hlink, hunlink⟩ := fill_links (t := t) hnames
  simp only [hfind] at hlink hunlink
  have hnone : (counting.collect r.root (s.filled p t' (t.fill es)).shards
      (t.fill es).toUnlink).1.lookup k = none := by
    rw [live, foldl_linkDec_shards, not_isSome_iff_eq_none, root, filled_info] at hgone
    rw [← hroot]
    exact hgone
  have hmem := mem_collect_of_lookup _ _ ((filled_live s p t' _ k).trans hk) hnone
  refine h ⟨_, hmem, (collect_falls ..).mono (fun j _ hj => ?_) (fun i _ j _ => ?_) fun j hj => ?_⟩
  · exact hlive j ((filled_live s p t' _ j).symm.trans hj)
  · have hcount := t.count_fill es j
    rw [weight_eq, filled_dirOf hp]
    split_ifs with hi
    · have hw : counting.weight r.shards i j = t.children.count j := by
        rw [← hgraph.weight, weight_eq, hi, hp]
        rfl
      have hc : t'.children.count j = (t.fill es).table.children.count j := by
        rw [children, ht, children]
      rw [hw, gains, loses, ← hlink, ← hunlink]
      show t'.children.count j ≤ _
      omega
    · rw [← hgraph.weight, weight_eq]
  · refine ⟨by rw [loses, ← hunlink], ?_⟩
    have hmid : counting.countOf (s.filled p t' (t.fill es)).shards j =
        r.linkCount j + (r.gains p es).count j := by
      have hjlive := (collect_falls ..).all_live j hj
      obtain ⟨n, hn⟩ := live_iff.mp ((filled_live s p t' _ j).symm.trans hjlive)
      have hlinks : r.linkCount j = n.links := by
        rw [← hgraph.count, linkCount, hn]
        rfl
      rw [countOf, filled_lookup, hn, hlinks, gains, ← hlink]
      rfl
    rw [hmid, loses, ← hunlink]

end

end ShareReplica

end Mist
