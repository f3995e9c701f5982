import Mist.Replica.View

/-! What the primitives on nodes do to the tree. -/

namespace Mist

open Option KeyMap DirState Counting Node

namespace ShareReplica

@[simp] theorem entriesAdd_shards (r : ShareReplica) (delta : Int) :
    (r.entriesAdd delta).shards = r.shards := by
  unfold entriesAdd; split <;> rfl

@[simp] theorem entriesAdd_info (r : ShareReplica) (delta : Int) :
    (r.entriesAdd delta).info = r.info := by
  unfold entriesAdd; split <;> rfl

section

variable (r : ShareReplica) (gone : NodeKey × Node)

@[simp] theorem forget_shards : (r.forget gone).shards = r.shards := by
  unfold forget; split <;> split <;> rfl

@[simp] theorem forget_info : (r.forget gone).info = r.info := by
  unfold forget; split <;> split <;> rfl

@[simp] theorem forget_state : (r.forget gone).state = r.state := by
  unfold forget; split <;> split <;> rfl

@[simp] theorem forget_pending : (r.forget gone).pending = r.pending := by
  unfold forget; split <;> split <;> rfl

theorem forget_symlinks :
    (r.forget gone).symlinks = if gone.2.hasSide then r.symlinks.erase gone.1 else r.symlinks := by
  unfold forget; split <;> split <;> rfl

theorem forget_rdevs :
    (r.forget gone).rdevs = if gone.2.hasSide then r.rdevs.erase gone.1 else r.rdevs := by
  unfold forget; split <;> split <;> rfl

end

theorem foldl_forget (l : List (NodeKey × Node)) (r : ShareReplica) :
    (l.foldl forget r).shards = r.shards ∧ (l.foldl forget r).info = r.info :=
  ⟨Runs.foldl_same shards forget_shards l r, Runs.foldl_same info forget_info l r⟩

@[simp] theorem linkDec_info (r : ShareReplica) (k : NodeKey) : (r.linkDec k).info = r.info :=
  (foldl_forget _ _).2

theorem linkDec_shards (r : ShareReplica) (k : NodeKey) :
    (r.linkDec k).shards = (counting.collect r.root r.shards [k]).1 :=
  (foldl_forget _ _).1

@[simp] theorem foldl_linkDec_info (l : List NodeKey) (r : ShareReplica) :
    (l.foldl linkDec r).info = r.info :=
  Runs.foldl_same info linkDec_info l r

theorem foldl_linkDec_shards (l : List NodeKey) (r : ShareReplica) :
    (l.foldl linkDec r).shards = (counting.collect r.root r.shards l).1 := by
  induction l generalizing r with
  | nil => rw [collect]; rfl
  | cons k l ih =>
    rw [List.foldl_cons, ih, linkDec_shards, root, linkDec_info, ← List.singleton_append (l := l),
      collect_append]
    rfl

@[simp] theorem modifyNode_info (r : ShareReplica) (k : NodeKey) (f : Node → Node) :
    (r.modifyNode k f).info = r.info := by
  unfold modifyNode; split <;> rfl

variable {r : ShareReplica} {slack : NodeKey → Nat} {exempt : NodeKey → Prop}

theorem modifyNode_shards {k : NodeKey} {n : Node} (h : r.shards.lookup k = some n)
    (f : Node → Node) : (r.modifyNode k f).shards = r.shards.insert k (f n) := by
  simp [modifyNode, h]

theorem lookup_modifyNode (r : ShareReplica) (k j : NodeKey) (f : Node → Node) :
    (r.modifyNode k f).shards.lookup j =
      if j = k then (r.shards.lookup j).map f else r.shards.lookup j := by
  unfold modifyNode
  split
  · rename_i n hn
    simp only [lookup_insert_ite]
    split_ifs with h
    · rw [h, hn, map_some]
    · rfl
  · rename_i hn
    split_ifs with h
    · rw [h, hn, map_none]
    · rfl

theorem modifyNode_keeps (r : ShareReplica) (k : NodeKey) (f : Node → Node) :
    Keeps r (r.modifyNode k f) := by
  refine .of_live (modifyNode_info r k f) fun j hj => ?_
  rw [live, lookup_modifyNode]
  split
  · rwa [isSome_map]
  · exact hj

theorem entriesAdd_keeps (r : ShareReplica) (delta : Int) : Keeps r (r.entriesAdd delta) :=
  .of_live (entriesAdd_info r delta) fun k hk => by rwa [live, entriesAdd_shards]

structure SameTree (r r' : ShareReplica) : Prop where
  info : r'.info = r.info
  skel : ∀ k, (r'.shards.lookup k).map (fun n => (n.links, n.shape)) =
    (r.shards.lookup k).map fun n => (n.links, n.shape)

section

variable {r r' r'' : ShareReplica}

theorem SameTree.trans (h : SameTree r r') (h' : SameTree r' r'') : SameTree r r'' :=
  ⟨h'.info.trans h.info, fun k => (h'.skel k).trans (h.skel k)⟩

theorem SameTree.of_shards (hinfo : r'.info = r.info) (hshards : r'.shards = r.shards) :
    SameTree r r' :=
  ⟨hinfo, fun _ => by rw [hshards]⟩

theorem SameTree.view (h : SameTree r r') : r'.view = r.view := by
  apply view_eq_of_shape
  intro k
  have := congrArg (Option.map Prod.snd) (h.skel k)
  rw [map_map, map_map] at this
  exact this

theorem SameTree.keeps (h : SameTree r r') : Keeps r r' := by
  refine .of_live h.info fun k hk => ?_
  have := congrArg isSome (h.skel k)
  rw [isSome_map, isSome_map] at this
  rw [live, this]
  exact hk

theorem SameTree.counts {slack : NodeKey → Nat} {owed todo : List NodeKey}
    {exempt : NodeKey → Prop} (h : SameTree r r') (hs : r.Counts slack exempt owed todo) :
    r'.Counts slack exempt owed todo := by
  refine hs.congr fun k => ?_
  have := congrArg (Option.map fun p : Nat × Option (List CEnt) × NodeKey =>
    ((p.2.1.map fun es => es.map CEnt.node).getD [], p.1)) (h.skel k)
  rw [map_map, map_map] at this
  simpa only [counting_refs, counting_count, targets_eq, Function.comp_def] using this

section

variable (r : ShareReplica) (k : NodeKey)

theorem modifyNode_same {f : Node → Node}
    (hf : ∀ n, (f n).links = n.links ∧ (f n).shape = n.shape) : SameTree r (r.modifyNode k f) := by
  refine ⟨modifyNode_info r k f, fun j => ?_⟩
  rw [lookup_modifyNode]
  split
  · cases r.shards.lookup j with
    | none => rfl
    | some n => simp [hf n]
  · rfl

theorem noteSide_same (a : Attr) : SameTree r (r.noteSide k a).1 := .of_shards rfl rfl

theorem updateAttr_same (a : Attr) : SameTree r (r.updateAttr k a).1 :=
  (noteSide_same r k a).trans (modifyNode_same _ k fun _ => ⟨rfl, rfl⟩)

theorem updateContent_same (version size : UInt64) (mtime : Ts) :
    SameTree r (r.updateContent k version size mtime).1 :=
  modifyNode_same _ k fun _ => ⟨rfl, rfl⟩

theorem stashPending_same (p : Pending) : SameTree r (r.stashPending k p) := .of_shards rfl rfl

theorem applyPending_same (p : Pending) : SameTree r (r.applyPending k p) := by
  cases p with
  | attr a => exact updateAttr_same r k a
  | content version size mtime => exact updateContent_same r k version size mtime

theorem drainPending_same : SameTree r (r.drainPending k) := by
  unfold drainPending
  split
  · exact .of_shards rfl rfl
  · exact List.foldlRecOn _ _ (.of_shards rfl rfl) fun q h p _ => h.trans (applyPending_same q k p)

theorem markDirComplete_same : SameTree r (r.markDirComplete k) :=
  modifyNode_same _ k fun n => ⟨rfl, by cases h : n.dir <;> simp [shape, h]⟩

end

end

theorem upsertNode_info (r : ShareReplica) (k : NodeKey) (a : Attr) (p : NodeKey) :
    (r.upsertNode k a p).info = r.info := by
  simp only [upsertNode, noteSide]; split <;> rfl

def upserted (r : ShareReplica) (k : NodeKey) (a : Attr) (p : NodeKey) : Node :=
  match r.shards.lookup k with
  | some n => n.refresh a p (r.noteSide k a).2
  | none => Node.create a p (r.noteSide k a).2

section

variable (r : ShareReplica) (k : NodeKey) (a : Attr)

variable (p : NodeKey)

theorem upsertNode_shards : (r.upsertNode k a p).shards = r.shards.insert k (r.upserted k a p) := by
  simp only [upsertNode, noteSide, upserted]; cases r.shards.lookup k <;> rfl

theorem upserted_parent : (r.upserted k a p).parent = p := by
  unfold upserted; split <;> rfl

theorem upserted_links : (r.upserted k a p).links = r.linkCount k := by
  unfold upserted linkCount; split <;> simp_all [refresh, create, setAttr]

theorem upserted_dir :
    (r.upserted k a p).dir =
      (r.dirOf k).or (if a.kind = .dir then some DirState.new else none) := by
  unfold upserted dirOf
  split
  · rename_i n hn
    rw [hn]
    cases hd : n.dir <;> by_cases ha : a.kind = .dir <;>
      simp [refresh, setAttr, hd, ha]
  · rename_i hn
    rw [hn]
    by_cases ha : a.kind = .dir <;> simp [create, setAttr, ha]

theorem dirOf_upsertNode (j : NodeKey) :
    (r.upsertNode k a p).dirOf j =
      if j = k then (r.dirOf k).or (if a.kind = .dir then some DirState.new else none)
      else r.dirOf j := by
  rw [dirOf, upsertNode_shards, lookup_insert_ite]
  split
  · rw [bind_some, upserted_dir]
  · rfl

theorem upsertNode_view : (r.upsertNode k a p).view = r.view.upsert k a p := by
  have hnode : ∀ j, (r.upsertNode k a p).shards.lookup j =
      if j = k then some (r.upserted k a p) else r.shards.lookup j := fun j => by
    rw [upsertNode_shards, lookup_insert_ite]
  have hdir := dirOf_upsertNode r k a p
  apply View.ext
  · funext j
    simp only [view, View.upsert, live, hnode]
    by_cases hj : j = k <;> simp [hj]
  · funext j
    simp only [view, View.upsert, isDir, hdir]
    by_cases hj : j = k <;> by_cases ha : a.kind = .dir <;> simp [hj, ha]
  · funext j x
    simp only [view, View.upsert, entry, hdir]
    by_cases hj : j = k
    · subst hj
      cases r.dirOf j <;> by_cases ha : a.kind = .dir <;> simp [ha, find_new]
    · rw [if_neg hj]
  · funext j
    simp only [view, View.upsert, parentOf, hnode]
    by_cases hj : j = k <;> simp [hj, upserted_parent]

theorem upserted_targets :
    (r.upserted k a p).targets = ((r.shards.lookup k).map Node.targets).getD [] := by
  rw [targets, upserted_dir, dirOf]
  cases r.shards.lookup k with
  | none => by_cases ha : a.kind = .dir <;> simp [ha, DirState.new, DirState.children]
  | some n =>
    cases hd : n.dir <;> by_cases ha : a.kind = .dir <;>
      simp [ha, hd, targets, DirState.new, children]

end

theorem upsertNode_counts_known {owed todo : List NodeKey} (k : NodeKey) (a : Attr) (p : NodeKey)
    (h : r.Counts slack exempt owed todo) (hk : r.live k) :
    (r.upsertNode k a p).Counts slack exempt owed todo := by
  obtain ⟨n, hn⟩ := live_iff.mp hk
  refine h.congr fun j => ?_
  rw [upsertNode_shards, lookup_insert_ite]
  split_ifs with hj
  · subst hj
    simp only [counting_refs, counting_count, hn, map_some, upserted_targets,
      upserted_links, linkCount, getD_some]
  · rfl

theorem upsertNode_counts (k : NodeKey) (a : Attr) (p : NodeKey) (h : r.Counts slack exempt [] [])
    (hk : ¬ r.live k → slack k = 0) :
    (r.upsertNode k a p).Counts slack (fun j => exempt j ∨ j = k) [] [] := by
  by_cases hlive : r.live k
  · exact upsertNode_counts_known k a p (h.mono fun j hj => .inl hj) hlive
  have hn : r.shards.lookup k = none := by simpa [live] using hlive
  have hrefs : counting.refs (r.upserted k a p) = [] := by
    rw [counting_refs, upserted_targets, hn]
    rfl
  have hcount : counting.count (r.upserted k a p) = 0 := by
    rw [counting_count, upserted_links, linkCount, hn]
    rfl
  rw [Counts, upsertNode_shards]
  exact h.insert_new hn hrefs hcount (hk hlive)

theorem upsertNode_keeps (r : ShareReplica) (k : NodeKey) (a : Attr) (p : NodeKey) :
    Keeps r (r.upsertNode k a p) := by
  refine .of_live (upsertNode_info r k a p) fun j hj => ?_
  rw [live, upsertNode_shards, lookup_insert_ite]
  split
  · rfl
  · exact hj

theorem foldl_linkDec_left (l : List NodeKey) (r : ShareReplica) :
    Left (l.foldl linkDec r) r.view := by
  refine left_of_shape fun k n' hn' => ?_
  rw [foldl_linkDec_shards] at hn'
  obtain ⟨n, hn, heq⟩ := collect_frame _ _ hn'
  exact ⟨n, hn, by rw [heq]; rfl⟩

theorem foldl_linkDec_counts {l : List NodeKey} (hroot : exempt r.root) (h : r.Counts slack exempt [] l) :
    (l.foldl linkDec r).Counts slack exempt [] [] := by
  rw [Counts, foldl_linkDec_shards]
  exact collect_sound hroot _ _ h

theorem foldl_linkDec_keeps (l : List NodeKey) (r : ShareReplica) : Keeps r (l.foldl linkDec r) := by
  refine ⟨foldl_linkDec_info l r, fun hroot => ?_⟩
  rw [live, foldl_linkDec_shards, root, foldl_linkDec_info]
  exact collect_root _ _ hroot

section

variable {r : ShareReplica} {k : NodeKey} {n : Node}

section

variable (hn : r.shards.lookup k = some n)
include hn

theorem forceRemove_eq :
    r.forceRemove k = ((r.modifyNode k fun n => { n with links := 0 }).forget
        (k, { n with links := 0 })).settle
      (counting.collect r.root (r.shards.erase k) n.targets) := by
  simp only [forceRemove, removeNode, modifyNode_shards hn, Finmap.lookup_insert,
    erase_insert, root, modifyNode_info]
  rfl

theorem forceRemove_shards :
    (r.forceRemove k).shards = (counting.collect r.root (r.shards.erase k) n.targets).1 := by
  rw [forceRemove_eq hn]
  exact (foldl_forget _ _).1

theorem forceRemove_info : (r.forceRemove k).info = r.info := by
  rw [forceRemove_eq hn]
  exact (foldl_forget _ _).2.trans ((forget_info ..).trans (modifyNode_info ..))

theorem forceRemove_left : Left (r.forceRemove k) r.view := by
  refine left_of_shape fun j n' hn' => ?_
  rw [forceRemove_shards hn] at hn'
  obtain ⟨v, hv, heq⟩ := collect_frame _ _ hn'
  rw [lookup_erase_ite] at hv
  split at hv
  · cases hv
  · exact ⟨v, hv, by rw [heq]; rfl⟩

theorem forceRemove_keeps (hk : k ≠ r.root) : Keeps r (r.forceRemove k) := by
  refine ⟨forceRemove_info hn, fun hroot => ?_⟩
  rw [live, forceRemove_shards hn, root, forceRemove_info hn]
  refine collect_root _ _ ?_
  rw [lookup_erase_ite, if_neg fun heq => hk heq.symm]
  exact hroot

end

theorem forceRemove_counts {slack : NodeKey → Nat} {exempt : NodeKey → Prop} (hroot : exempt r.root)
    (hn : r.shards.lookup k = some n) (hfree : counting.refsTo (r.shards.erase k) k = 0)
    (h : r.Counts slack exempt [] []) : (r.forceRemove k).Counts slack exempt [] [] := by
  rw [Counts, forceRemove_shards hn]
  exact collect_sound hroot _ _ (h.erase hn hfree)

end

end ShareReplica

end Mist
