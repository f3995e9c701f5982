import Mist.Replica.Feed
import Mist.Runs

/-! The link counts of a replica fed snapshot and journal records in any order. -/

namespace Mist

open List Option Runs Counting Node Reaches

namespace DirState

theorem count_fill_pos (t : DirState) {es : List SnapEntry} {e : SnapEntry} (he : e ∈ es) :
    0 < (t.fill es).table.children.count e.node + (t.fill es).toUnlink.count e.node := by
  induction es generalizing t with
  | nil => cases he
  | cons e₀ es ih =>
    rcases mem_cons.mp he with rfl | he
    · have hcount := t.count_fill (e :: es) e.node
      suffices hpos : 0 < t.children.count e.node + (t.fill (e :: es)).toLink.count e.node by omega
      cases hg : (t.upsert e.name e.node e.attr.kind).2.gainedLink with
      | true => simp [fill, hg]
      | false =>
        rw [gainedLink_upsert, bne_eq_false_iff_eq, map_eq_some_iff] at hg
        obtain ⟨⟨k, kind⟩, hf, hk⟩ := hg
        have hmem : e.node ∈ t.children := hk ▸ mem_children.mpr ⟨e.name, kind, hf⟩
        have := count_pos_iff.mpr hmem
        omega
    · have hrest := ih (t.upsert e₀.name e₀.node e₀.attr.kind).1 he
      simp only [fill, count_append]
      omega

end DirState

namespace ShareReplica

/-- How many dentries of other directories lead to a node. -/
def namedElsewhere (r : ShareReplica) (k : NodeKey) : Nat :=
  Node.counting.refsTo (r.shards.erase k) k

def unnamed (r : ShareReplica) (k : NodeKey) : Bool :=
  r.live k && Node.counting.refsTo r.shards k = 0

/-- Whether the directory a node is created in is there once the node is. -/
def knowsParent (r : ShareReplica) (parent node : NodeKey) (attr : Option Attr) : Bool :=
  r.isDir parent || (parent = node && (attr.map Attr.kind).getD .reg = .dir)

section

variable {r : ShareReplica} {exempt : NodeKey → Prop}

theorem created_known (p : NodeKey) (x : Name) (k : NodeKey) (attr : Option Attr)
    (h : r.Counts (fun _ => 0) exempt [] []) :
    ∃ r₁ : ShareReplica, (r.applyRec (.created p x k attr)).1 =
        r₁.dentrySet p x k ((attr.map Attr.kind).getD .reg) ∧
      r₁.info = r.info ∧ r₁.live k ∧ r₁.isDir p = r.knowsParent p k attr ∧
      r₁.Counts (fun _ => 0) (fun j => exempt j ∨ j = k) [] [] := by
  -- the node after an upsert with these attributes
  have hupsert : ∀ a r₁, SameTree (r.upsertNode k a p) r₁ → r₁.info = r.info ∧ r₁.live k ∧
      (r₁.isDir p = r.knowsParent p k (some a)) ∧
      r₁.Counts (fun _ => 0) (fun j => exempt j ∨ j = k) [] [] := by
    intro a r₁ hsame
    have hview : r₁.view = r.view.upsert k a p := hsame.view.trans (upsertNode_view ..)
    refine ⟨hsame.info.trans (upsertNode_info ..), (view_live hview k).mpr (.inl rfl), ?_,
      hsame.counts (upsertNode_counts k a p h fun _ => rfl)⟩
    have hdir : r₁.isDir p ↔ (p = k ∧ a.kind = .dir) ∨ r.isDir p := by
      show r₁.view.dir p ↔ _
      rw [hview]
      rfl
    rw [Bool.eq_iff_iff, hdir, knowsParent]
    simp [or_comm]
  cases attr with
  | some a =>
    obtain ⟨r₁, heq, hsame⟩ := created_eq r p x k a
    exact ⟨r₁, heq, hupsert a r₁ hsame⟩
  | none =>
    by_cases hk : r.live k
    · refine ⟨r, by simp [applyRec, hk], rfl, hk, by simp [knowsParent], h.mono fun _ hj => .inl hj⟩
    · exact ⟨r.upsertNode k (placeholderAttr .reg) p, by simp [applyRec, hk],
        hupsert (placeholderAttr .reg) _ ⟨rfl, fun _ => rfl⟩⟩

/-- A `Created` record leaves at most its node without a dentry, and that in an unknown directory. -/
theorem created_links (p : NodeKey) (x : Name) (k : NodeKey) (attr : Option Attr)
    (hroot : exempt r.root) (h : r.Counts (fun _ => 0) exempt [] []) :
    ((r.applyRec (.created p x k attr)).1).Counts (fun _ => 0)
      (fun j => exempt j ∨ (j = k ∧ r.knowsParent p k attr = false)) [] [] := by
  obtain ⟨r₁, heq, hinfo, hlive, hdir, hcounts⟩ := created_known p x k attr h
  rw [heq]
  cases hp : r₁.dirOf p with
  | none =>
    have hunknown : r.knowsParent p k attr = false := by
      rw [← hdir, isDir, hp]
      rfl
    rw [dentrySet, hp]
    exact hcounts.mono fun j hj => hj.imp id fun hjk => ⟨hjk, hunknown⟩
  | some t =>
    have hroot₁ : exempt r₁.root := by
      rw [root, hinfo]
      exact hroot
    exact (dentrySet_counts hroot₁ hp hlive hcounts).mono fun j hj => .inl hj

/-- A snapshot record of any kind leaves at most its directory without a dentry. -/
theorem applySnapDir_links {d : SnapDir} (hkind : d.dirAttr.kind = .dir) (hroot : exempt r.root)
    (h : r.Counts (fun _ => 0) exempt [] []) :
    ∃ r', r.applySnapDir d = some r' ∧ r'.info = r.info ∧
      r'.Counts (fun _ => 0) (fun j => exempt j ∨ j = d.dir) [] [] := by
  obtain ⟨hinfo, hlive, -, -⟩ := r.snapNodes_listed hkind
  have hcounts := snapNodes_counts d h
  obtain ⟨t, ht⟩ := r.snapNodes_table hkind
  have hstored := ((r.snapNodes d).snapStored_info d t).trans hinfo
  have hbalance := snapStored_counts ht
    (fun e he => (hlive e.node).mpr (.inr (.inr ⟨e, he, rfl⟩))) hcounts
  refine ⟨_, applySnapDir_eq ht, (foldl_linkDec_info ..).trans hstored, ?_⟩
  refine foldl_linkDec_counts ?_ (hbalance.shrink fun j n hn hex => hex.imp id ?_)
  · rw [root, hstored]
    exact .inl hroot
  -- a listed node is in the table, or still has the link of a name it lost
  rintro ⟨e, he, rfl⟩
  by_cases hmem : e.node ∈ (t.fill d.entries).table.children
  · obtain ⟨x, kind, hx⟩ := DirState.mem_children.mp hmem
    have hentry : ((r.snapNodes d).snapStored d t).entry d.dir x = some e.node := by
      rw [snapStored_entry ht, if_pos rfl, hx]
      rfl
    obtain ⟨n', hn', hn'mem⟩ := mem_targets.mpr ⟨x, hentry⟩
    have : 0 < counting.refsTo _ e.node := refsTo_pos hn' hn'mem
    omega
  · have hpos := t.count_fill_pos he
    rw [count_eq_zero.mpr hmem] at hpos
    omega

/-- A `Renamed` record keeps the counts if it moves nothing, or moves it into a directory of the
replica and to a name it does not have yet. -/
theorem renamed_links {d e : NodeKey} {x y : Name} (hroot : exempt r.root)
    (hmove : ∀ k, r.entry d x = some k → r.isDir e ∧ (r.entry e y = some k → d = e ∧ x = y))
    (h : r.Counts (fun _ => 0) exempt [] []) :
    ((r.applyRec (.renamed d x e y)).1).Counts (fun _ => 0) exempt [] [] := by
  cases hx : r.entry d x with
  | none => rwa [renamed_of_none hx]
  | some k =>
    obtain ⟨hdir, hfree⟩ := hmove k hx
    obtain ⟨r₁, kind, heq, hkeeps, hview, hcounts⟩ := renamed_eq (e := e) (y := y) hx
    have hdir₁ : r₁.view.dir e := by
      rw [hview]
      exact hdir
    obtain ⟨t, ht⟩ := isSome_iff_exists.mp hdir₁
    have hk : r₁.live k := by
      rw [view_live hview]
      obtain ⟨n, hn, hmem⟩ := mem_targets.mpr ⟨x, hx⟩
      exact h.closed d n hn k hmem
    have hy : r₁.entry e y ≠ some k := by
      rw [view_entry hview]
      intro hy
      simp only [View.set] at hy
      split at hy
      · cases hy
      · rename_i hne
        obtain ⟨rfl, rfl⟩ := hfree hy
        exact hne ⟨rfl, rfl⟩
    rw [heq]
    refine dentryRelink_counts ?_ ht hk hy (hcounts _ _ h)
    rw [root, hkeeps.info]
    exact hroot

/-- A `SelfRemoved` record keeps the counts if no other directory lists the node. -/
theorem selfRemoved_links {k : NodeKey} (hroot : exempt r.root) (hfree : r.namedElsewhere k = 0)
    (h : r.Counts (fun _ => 0) exempt [] []) :
    ((r.applyRec (.selfRemoved k)).1).Counts (fun _ => 0) exempt [] [] := by
  simp only [applyRec]
  split_ifs with hk
  · obtain ⟨n, hn⟩ := live_iff.mp hk.1
    exact forceRemove_counts hroot hn hfree h
  · exact h

end

end ShareReplica

/-- A replica with the nodes that are still without a dentry since they came: the directories that
wait for the listing of their parent, and the nodes created in a directory it did not have. -/
structure Fed where
  replica : ShareReplica
  waiting : List NodeKey
  dropped : List NodeKey

namespace Fed

open ShareReplica

def new (info : ShareInfo) : Fed := ⟨.new info, [], []⟩

/-- The state around the replica a record leaves, with what the record brought. -/
def next (s : Fed) (r : ShareReplica) (waiting dropped : List NodeKey) : Fed where
  replica := r
  waiting := (waiting ++ s.waiting).filter r.unnamed
  dropped := (dropped ++ s.dropped).filter r.unnamed

def created (s : Fed) (parent : NodeKey) (name : Name) (node : NodeKey) (attr : Option Attr) : Fed :=
  s.next (s.replica.applyRec (.created parent name node attr)).1 []
    (if s.replica.knowsParent parent node attr then [] else [node])

/-- Apply one valid record.  A batch is its `Created` records one by one. -/
def step (s : Fed) (f : Feed) : Option Fed :=
  if f.valid s.replica.info.id then
    match f with
    | .snap d => (s.replica.applySnapDir d).map fun r => s.next r [d.dir] []
    | .record (.created parent name node attr) => some (s.created parent name node attr)
    | .record (.createdBatch parent entries) =>
      some (entries.foldl (fun s e => s.created parent e.name e.node (some e.attr)) s)
    | .record rec => some (s.next (s.replica.applyRec rec).1 [] [])
  else none

/-- The records the counts are kept for: a `Renamed` moves its node into a directory of the replica
and not onto another name of the same node, and a `SelfRemoved` takes no node that another directory
lists. -/
def Orderly (s : Fed) : Feed → Prop
  | .record (.renamed fromParent fromName toParent toName) =>
    ∀ k ∈ s.replica.entry fromParent fromName, s.replica.isDir toParent ∧
      (s.replica.entry toParent toName = some k → fromParent = toParent ∧ fromName = toName)
  | .record (.selfRemoved node) => s.replica.namedElsewhere node = 0
  | _ => True

/-- Every count is the number of dentries that lead to the node, every dentry leads to a node, and
every node but the root and those in `apart` has a dentry. -/
structure Linked (r : ShareReplica) (apart : List NodeKey) : Prop where
  counts : ∀ k, r.live k → {p : NodeKey × Name | r.entry p.1 p.2 = some k}.encard = r.linkCount k
  targets : ∀ d x k, r.entry d x = some k → r.live k
  named : ∀ k, r.live k → k = r.root ∨ k ∈ apart ∨ ∃ d x, r.entry d x = some k

def Counted (s : Fed) : Prop :=
  s.replica.Counts (fun _ => 0) (fun k => k = s.replica.root ∨ k ∈ s.waiting ++ s.dropped) [] []

variable {s : Fed} {r : ShareReplica} {waiting dropped : List NodeKey}

theorem Counted.next (hinfo : r.info = s.replica.info)
    (h : r.Counts (fun _ => 0) (fun k => (k = s.replica.root ∨ k ∈ s.waiting ++ s.dropped) ∨
      k ∈ waiting ++ dropped) [] []) : (s.next r waiting dropped).Counted := by
  refine h.shrink fun k n hn hk => ?_
  have hroot : r.root = s.replica.root := by rw [root, hinfo, root]
  by_cases hfree : counting.refsTo r.shards k = 0
  · have hun : r.unnamed k := by simp [unnamed, live, hn, hfree]
    refine .inl ?_
    simp only [Fed.next, mem_append, mem_filter, hun, hroot, and_true] at hk ⊢
    tauto
  · exact .inr (by omega)

theorem Counted.created (h : s.Counted) (p : NodeKey) (x : Name) (k : NodeKey) (attr : Option Attr) :
    (s.created p x k attr).Counted := by
  refine Counted.next (applyRec_keeps ..).info ?_
  refine (created_links p x k attr (.inl rfl) h).mono fun j hj => hj.imp id ?_
  rintro ⟨rfl, hunknown⟩
  simp [hunknown]

theorem Counted.createdBatch (h : s.Counted) (p : NodeKey) (es : List SnapEntry) :
    (es.foldl (fun s e => s.created p e.name e.node (some e.attr)) s).Counted := by
  exact foldlRecOn es _ h fun s hs e _ => hs.created p e.name e.node (some e.attr)

theorem Counted.linked (h : s.Counted) : Linked s.replica (s.waiting ++ s.dropped) := by
  refine ⟨fun k hk => ?_, fun d x k hx => ?_, fun k hk => ?_⟩
  · obtain ⟨n, hn⟩ := live_iff.mp hk
    have := h.counted k n hn
    simp only [count_nil, Nat.add_zero] at this
    rw [refsTo_eq_encard, ← this, linkCount, hn]
    rfl
  · obtain ⟨n, hn, hmem⟩ := mem_targets.mpr ⟨x, hx⟩
    exact h.closed d n hn k hmem
  · obtain ⟨n, hn⟩ := live_iff.mp hk
    by_cases hapart : k = s.replica.root ∨ k ∈ s.waiting ++ s.dropped
    · exact hapart.imp id .inl
    have hpos := h.held k n hn hapart
    have hcount := h.counted k n hn
    have hrefs : counting.refsTo s.replica.shards k ≠ 0 := by
      simp only [count_nil, Nat.add_zero] at hcount
      omega
    rw [ne_eq, refsTo_eq_zero] at hrefs
    push Not at hrefs
    obtain ⟨d, m, hm, hmem⟩ := hrefs
    obtain ⟨x, hx⟩ := mem_targets.mp ⟨m, hm, hmem⟩
    exact .inr (.inr ⟨d, x, hx⟩)

theorem Counted.step {s' : Fed} {f : Feed} (h : s.Counted) (hok : s.Orderly f)
    (hs : s.step f = some s') : s'.Counted := by
  obtain ⟨hvalid, hs⟩ := ite_none_right_eq_some.mp hs
  cases f with
  | snap d =>
    obtain ⟨-, hok⟩ := (Bool.and_eq_true ..).mp hvalid
    obtain ⟨r', hr', hinfo, hcounts⟩ :=
      applySnapDir_links (SnapDir.dir_of_validate hok) (.inl rfl) h
    simp only [hr', map_some, some.injEq] at hs
    rw [← hs]
    exact .next hinfo (hcounts.mono fun j hj => hj.imp id fun hjd => by simp [hjd])
  | record rec =>
    -- a record that brings no node
    have hplain : (s.replica.applyRec rec).1.Counts (fun _ => 0)
        (fun k => k = s.replica.root ∨ k ∈ s.waiting ++ s.dropped) [] [] →
        (s.next (s.replica.applyRec rec).1 [] []).Counted := fun hcounts =>
      .next (applyRec_keeps ..).info (hcounts.mono fun _ hj => .inl hj)
    cases rec with
    | created p x k attr =>
      cases hs
      exact h.created p x k attr
    | createdBatch p es =>
      cases hs
      exact h.createdBatch p es
    | removed p x =>
      cases hs
      exact hplain (dentryRemove_counts (.inl rfl) h)
    | renamed d x e y =>
      cases hs
      exact hplain (renamed_links (.inl rfl) hok h)
    | attrChanged k a =>
      cases hs
      exact hplain ((attrChanged_same ..).counts h)
    | content k version size mtime inProgress =>
      cases hs
      exact hplain ((content_same ..).counts h)
    | selfRemoved k =>
      cases hs
      exact hplain (selfRemoved_links (.inl rfl) hok h)
    | overflow =>
      cases hs
      exact hplain h
    | echoMarker tag =>
      cases hs
      exact hplain h

theorem Counted.new (info : ShareInfo) : (Fed.new info).Counted := ⟨nofun, nofun, nofun⟩

instance (s : Fed) (f : Feed) : Decidable (s.Orderly f) :=
  match f with
  | .snap _ => .isTrue trivial
  | .record (.created ..) => .isTrue trivial
  | .record (.createdBatch ..) => .isTrue trivial
  | .record (.removed ..) => .isTrue trivial
  | .record (.renamed ..) => inferInstanceAs (Decidable (∀ k ∈ _, _))
  | .record (.attrChanged ..) => .isTrue trivial
  | .record (.content ..) => .isTrue trivial
  | .record (.selfRemoved _) => inferInstanceAs (Decidable (_ = _))
  | .record .overflow => .isTrue trivial
  | .record (.echoMarker _) => .isTrue trivial

theorem step_replica {s' : Fed} {f : Feed} (hs : s.step f = some s') :
    s.replica.feed f = some s'.replica := by
  have hbatch : ∀ (p : NodeKey) (es : List SnapEntry) (s : Fed),
      (es.foldl (fun s e => s.created p e.name e.node (some e.attr)) s).replica =
        (s.replica.applyRec (.createdBatch p es)).1 := by
    intro p es
    induction es with
    | nil => exact fun _ => rfl
    | cons e es ih => exact fun s => ih (s.created p e.name e.node (some e.attr))
  obtain ⟨-, hs⟩ := ite_none_right_eq_some.mp hs
  cases f with
  | snap d =>
    obtain ⟨r, hr, rfl⟩ := map_eq_some_iff.mp hs
    exact hr
  | record rec =>
    cases rec with
    | createdBatch p es =>
      cases hs
      rw [feed, hbatch]
    | _ =>
      cases hs
      rfl

/-- If the `Renamed` and `SelfRemoved` records are orderly, the counts are those of the dentries,
and only nodes not listed yet are without one. -/
theorem linked_of_reaches {info : ShareInfo} (h : Runs.Reaches Fed.step Orderly (Fed.new info) s) :
    Linked s.replica (s.waiting ++ s.dropped) :=
  (h.inv (Counted.new info) fun _ _ _ hc hok hs => hc.step hok hs).linked

/-- A directory listed before its parent, a hard link, a move of it and a removal. -/
theorem linked_of_reaches_movedLink :
    ∃ s, Runs.Reaches Fed.step Orderly (Fed.new ⟨⟨1⟩, ⟨2, 1⟩⟩) s ∧
      (s.replica.linkCount ⟨4, 1⟩ = 2 ∧ s.waiting = [⟨2, 1⟩]) ∧
      Linked s.replica (s.waiting ++ s.dropped) :=
  exists_of_guarded_and
    [.listing ⟨1⟩ ⟨3, 1⟩ ⟨2, 1⟩ [],
      .listing ⟨1⟩ ⟨2, 1⟩ ⟨2, 1⟩ [(.letter 'd', ⟨3, 1⟩, .dir), (.letter 'f', ⟨4, 1⟩, .reg)],
      .record (.created ⟨3, 1⟩ (.letter 'g') ⟨4, 1⟩ (some (placeholderAttr .reg))),
      .record (.created ⟨2, 1⟩ (.letter 'h') ⟨4, 1⟩ (some (placeholderAttr .reg))),
      .record (.renamed ⟨2, 1⟩ (.letter 'f') ⟨3, 1⟩ (.letter 'i')),
      .record (.removed ⟨3, 1⟩ (.letter 'g'))]
    (by decide +kernel) fun _ hs => linked_of_reaches hs

theorem Linked.refsTo_eq {apart : List NodeKey} {k : NodeKey} (h : Linked r apart) (hk : r.live k) :
    counting.refsTo r.shards k = r.linkCount k := by
  have := h.counts k hk
  rw [refsTo_eq_encard] at this
  exact_mod_cast this

theorem Linked.refsTo_pos {apart : List NodeKey} {k : NodeKey} (h : Linked r apart) (hk : r.live k)
    (hroot : k ≠ r.root) (hapart : k ∉ apart) : 0 < counting.refsTo r.shards k := by
  obtain ⟨d, x, hx⟩ := ((h.named k hk).resolve_left hroot).resolve_left hapart
  obtain ⟨n, hn, hmem⟩ := mem_targets.mpr ⟨x, hx⟩
  exact Counting.refsTo_pos hn hmem

/-- A file created in an unknown directory stays without a dentry, one moved onto its other name or
into such a directory keeps a link, and one removed by itself leaves its dentry. -/
theorem unlisted_and_miscounted :
    let run := Reaches Fed.step (fun _ _ => True) (Fed.new ⟨⟨1⟩, ⟨2, 1⟩⟩)
    (∃ s, run s ∧ s.dropped = [⟨4, 1⟩] ∧ ¬ Linked s.replica s.waiting) ∧
      (∃ s, run s ∧ s.replica.linkCount ⟨4, 1⟩ = 2 ∧ ¬ Linked s.replica s.waiting) ∧
      (∃ s, run s ∧ s.replica.linkCount ⟨4, 1⟩ = 1 ∧ ¬ Linked s.replica s.waiting) ∧
      ∃ s, run s ∧ s.replica.live ⟨4, 1⟩ = false ∧ ¬ Linked s.replica s.waiting := by
  refine ⟨?_, ?_, ?_, ?_⟩
  · refine exists_imp (fun s => s.dropped = [⟨4, 1⟩] ∧ s.replica.live ⟨4, 1⟩ ∧
        (⟨4, 1⟩ : NodeKey) ≠ s.replica.root ∧ ⟨4, 1⟩ ∉ s.waiting ∧
        counting.refsTo s.replica.shards ⟨4, 1⟩ = 0)
      [.listing ⟨1⟩ ⟨2, 1⟩ ⟨2, 1⟩ [],
       .record (.created ⟨3, 1⟩ (.letter 'f') ⟨4, 1⟩ (some (placeholderAttr .reg)))]
      (by decide +kernel) ?_
    rintro s - ⟨hdropped, hlive, hroot, hwaiting, hnone⟩
    exact ⟨hdropped, fun h => absurd (h.refsTo_pos hlive hroot hwaiting) (by omega)⟩
  · refine exists_imp (fun s => s.replica.linkCount ⟨4, 1⟩ = 2 ∧
        s.replica.live ⟨4, 1⟩ ∧ counting.refsTo s.replica.shards ⟨4, 1⟩ = 1)
      [.listing ⟨1⟩ ⟨2, 1⟩ ⟨2, 1⟩ [(.letter 'f', ⟨4, 1⟩, .reg), (.letter 'g', ⟨4, 1⟩, .reg)],
       .record (.renamed ⟨2, 1⟩ (.letter 'f') ⟨2, 1⟩ (.letter 'g'))]
      (by decide +kernel) ?_
    rintro s - ⟨hcount, hlive, hone⟩
    exact ⟨hcount, fun h => absurd (h.refsTo_eq hlive) (by omega)⟩
  · refine exists_imp (fun s => s.replica.linkCount ⟨4, 1⟩ = 1 ∧
        s.replica.live ⟨4, 1⟩ ∧ counting.refsTo s.replica.shards ⟨4, 1⟩ = 0)
      [.listing ⟨1⟩ ⟨2, 1⟩ ⟨2, 1⟩ [(.letter 'f', ⟨4, 1⟩, .reg)],
       .record (.renamed ⟨2, 1⟩ (.letter 'f') ⟨3, 1⟩ (.letter 'f'))]
      (by decide +kernel) ?_
    rintro s - ⟨hcount, hlive, hzero⟩
    exact ⟨hcount, fun h => absurd (h.refsTo_eq hlive) (by omega)⟩
  · refine exists_imp (fun s => s.replica.live ⟨4, 1⟩ = false ∧
        s.replica.entry ⟨2, 1⟩ (.letter 'f') = some ⟨4, 1⟩)
      [.listing ⟨1⟩ ⟨2, 1⟩ ⟨2, 1⟩ [(.letter 'f', ⟨4, 1⟩, .reg)], .record (.selfRemoved ⟨4, 1⟩)]
      (by decide +kernel) ?_
    rintro s - ⟨hdead, hentry⟩
    refine ⟨hdead, fun h => ?_⟩
    have hlive := h.targets _ _ _ hentry
    rw [hdead] at hlive
    cases hlive

end Fed

end Mist
