import Mist.Replica.Nodes

/-! What the dentry operations and the journal records do to the tree and to the counts. -/

namespace Mist

open List Option DirState

namespace ShareReplica

section

variable {r : ShareReplica} {p : NodeKey} {t t' : DirState}

theorem setDir_info (r : ShareReplica) (p : NodeKey) (t : DirState) :
    (r.setDir p t).info = r.info := modifyNode_info ..

section

variable (hp : r.dirOf p = some t)
include hp

theorem dirOf_setDir (d : NodeKey) :
    (r.setDir p t').dirOf d = if d = p then some t' else r.dirOf d := by
  rw [dirOf, setDir, lookup_modifyNode]
  split_ifs with hd
  · obtain ⟨n, hn, -⟩ := dirOf_eq_some.mp hp
    rw [hd, hn]
    rfl
  · rfl

theorem setDir_view {x : Name} {k : Option NodeKey}
    (hfind : ∀ y, (t'.find y).map Prod.fst = if y = x then k else (t.find y).map Prod.fst) :
    (r.setDir p t').view = r.view.set p x k := by
  have hlookup := fun j => lookup_modifyNode r p j fun n => { n with dir := some t' }
  apply View.ext
  · funext d
    simp only [view, View.set, live, setDir, hlookup]
    split <;> simp
  · funext d
    simp only [view, View.set, isDir, dirOf_setDir hp]
    split_ifs with hd
    · simp [hd, hp]
    · rfl
  · funext d y
    simp only [view, View.set, entry, dirOf_setDir hp]
    by_cases hd : d = p
    · rw [if_pos hd, bind_some, hfind, hd, hp]
      by_cases hy : y = x <;> simp [hy]
    · simp [hd]
  · funext d
    simp only [view, View.set, parentOf, setDir, hlookup]
    split
    · rw [Option.map_map]; rfl
    · rfl

theorem setDir_counts {slack : NodeKey → Nat} {exempt : NodeKey → Prop}
    {owed todo out inn : List NodeKey}
    (h : r.Counts slack exempt owed todo)
    (hcount : ∀ j, t'.children.count j + out.count j = t.children.count j + inn.count j)
    (hinn : ∀ j ∈ inn, r.live j) :
    (r.setDir p t').Counts slack exempt (inn ++ owed) (out ++ todo) := by
  obtain ⟨n, hn, hd⟩ := dirOf_eq_some.mp hp
  rw [Counts, setDir, modifyNode_shards hn]
  refine h.insert hn rfl (fun j => ?_) hinn
  simpa only [Node.counting_refs, Node.targets, hd, map_some, getD_some] using hcount j

end

end

theorem linkInc_info (r : ShareReplica) (k : NodeKey) : (r.linkInc k).info = r.info :=
  modifyNode_info ..

theorem linkInc_view (r : ShareReplica) (k : NodeKey) : (r.linkInc k).view = r.view := by
  apply view_eq_of_shape
  intro j
  rw [linkInc, lookup_modifyNode]
  split
  · rw [Option.map_map]; rfl
  · rfl

variable {r : ShareReplica}

theorem linkInc_counts {k : NodeKey} {slack : NodeKey → Nat} {exempt : NodeKey → Prop}
    {owed todo : List NodeKey} (hk : r.live k) (h : r.Counts slack exempt (k :: owed) todo) :
    (r.linkInc k).Counts slack exempt owed todo := by
  obtain ⟨n, hn⟩ := live_iff.mp hk
  rw [Counts, linkInc, modifyNode_shards hn]
  exact h.inc hn

theorem view_entriesAdd (r : ShareReplica) (delta : Int) : (r.entriesAdd delta).view = r.view :=
  view_eq_of_shape fun k => by rw [entriesAdd_shards]

theorem view_live {v : View} (h : r.view = v) (k : NodeKey) : r.live k ↔ v.live k := by
  rw [← h]; rfl

theorem view_entry {v : View} (h : r.view = v) (d : NodeKey) (x : Name) :
    r.entry d x = v.entry d x := by
  rw [← h]; rfl

section

variable {r : ShareReplica} {p k : NodeKey} {x : Name} {kind : Kind} {t : DirState}

def placed (r : ShareReplica) (p : NodeKey) (t : DirState) (x : Name) (k : NodeKey) (kind : Kind) :
    ShareReplica :=
  (r.setDir p (t.upsert x k kind).1).entriesAdd (t.upsert x k kind).2.dentryDelta

theorem placed_info (r : ShareReplica) (p : NodeKey) (t : DirState) (x : Name) (k : NodeKey)
    (kind : Kind) : (r.placed p t x k kind).info = r.info := by
  rw [placed, entriesAdd_info, setDir_info]

theorem placed_view (hp : r.dirOf p = some t) (x : Name) (k : NodeKey) (kind : Kind) :
    (r.placed p t x k kind).view = r.view.set p x (some k) := by
  rw [placed, view_entriesAdd]
  refine setDir_view hp fun y => ?_
  rw [find_upsert]
  split <;> rfl

variable {slack : NodeKey → Nat} {exempt : NodeKey → Prop}

theorem placed_counts {todo : List NodeKey} (hp : r.dirOf p = some t) (hk : r.live k) (x : Name)
    (kind : Kind) (h : r.Counts slack exempt [] todo) :
    (r.placed p t x k kind).Counts slack exempt
      (if (t.upsert x k kind).2.gainedLink then [k] else [])
      ((t.upsert x k kind).2.displaced.toList ++ todo) := by
  rw [Counts, placed, entriesAdd_shards, ← append_nil (ite ..)]
  refine setDir_counts hp h (t.count_upsert x k kind) fun j hj => ?_
  split at hj
  · rwa [mem_singleton.mp hj]
  · cases hj

/-- The replica with the dentry set and its link counted, before the displaced node is dropped. -/
def linked (r : ShareReplica) (p : NodeKey) (t : DirState) (x : Name) (k : NodeKey) (kind : Kind) :
    ShareReplica :=
  if (t.upsert x k kind).2.gainedLink then (r.placed p t x k kind).linkInc k
  else r.placed p t x k kind

theorem dentrySet_eq (hp : r.dirOf p = some t) :
    r.dentrySet p x k kind =
      (t.upsert x k kind).2.displaced.toList.foldl linkDec (r.linked p t x k kind) := by
  simp only [dentrySet, hp, linked, placed]

theorem linked_info (r : ShareReplica) (p : NodeKey) (t : DirState) (x : Name) (k : NodeKey)
    (kind : Kind) : (r.linked p t x k kind).info = r.info := by
  unfold linked
  split
  · rw [linkInc_info, placed_info]
  · rw [placed_info]

section

variable (hp : r.dirOf p = some t)
include hp

theorem linked_view (x : Name) (k : NodeKey) (kind : Kind) :
    (r.linked p t x k kind).view = r.view.set p x (some k) := by
  unfold linked
  split
  · rw [linkInc_view, placed_view hp]
  · rw [placed_view hp]

theorem linked_balance (hk : r.live k) (h : r.Counts slack exempt [] []) :
    (r.linked p t x k kind).Counts slack exempt []
      (t.upsert x k kind).2.displaced.toList := by
  have hset := placed_counts hp hk x kind h
  rw [append_nil] at hset
  unfold linked
  split_ifs with hg
  · rw [if_pos hg] at hset
    exact linkInc_counts ((view_live (placed_view hp x k kind) k).mpr hk) hset
  · rwa [if_neg hg] at hset

theorem linked_counts
    (hk : r.live k) (h : r.Counts slack (fun j => exempt j ∨ j = k) [] []) :
    (r.linked p t x k kind).Counts slack exempt [] (t.upsert x k kind).2.displaced.toList := by
  have hentry : (r.linked p t x k kind).entry p x = some k := by
    rw [view_entry (linked_view hp x k kind)]
    simp [View.set]
  obtain ⟨n, hn, hmem⟩ := mem_targets.mpr ⟨x, hentry⟩
  exact (linked_balance hp hk h).of_referred hn hmem

end

theorem dentrySet_counts (hroot : exempt r.root) (hp : r.dirOf p = some t) (hk : r.live k)
    (h : r.Counts slack (fun j => exempt j ∨ j = k) [] []) :
    (r.dentrySet p x k kind).Counts slack exempt [] [] := by
  rw [dentrySet_eq hp]
  refine foldl_linkDec_counts ?_ (linked_counts hp hk h)
  rw [root, linked_info]
  exact hroot

theorem dentrySet_left (hp : r.dirOf p = some t) :
    Left (r.dentrySet p x k kind) (r.view.set p x (some k)) := by
  rw [dentrySet_eq hp, ← linked_view hp]
  exact foldl_linkDec_left _ _

theorem dentrySet_keeps (r : ShareReplica) (p : NodeKey) (x : Name) (k : NodeKey) (kind : Kind) :
    Keeps r (r.dentrySet p x k kind) := by
  cases hp : r.dirOf p with
  | none =>
    simp only [dentrySet, hp]
    exact .refl r
  | some t =>
    rw [dentrySet_eq hp]
    refine Keeps.trans (.of_live (linked_info ..) fun j hj => ?_) (foldl_linkDec_keeps _ _)
    rw [view_live (linked_view hp ..)]
    exact hj

end

section

variable {r : ShareReplica} {p k : NodeKey} {x : Name}

theorem dentryRemove_of_none (h : r.entry p x = none) : r.dentryRemove p x = r := by
  have : (r.dirOf p).bind (fun t => t.remove x) = none := by
    cases hp : r.dirOf p with
    | none => rfl
    | some t =>
      rw [entry, hp, bind_some, map_eq_none_iff] at h
      exact remove_eq_none.mpr h
  simp only [dentryRemove, this]

theorem dentryRemove_eq (h : r.entry p x = some k) :
    ∃ t t', r.dirOf p = some t ∧ t.remove x = some (k, t') ∧
      r.dentryRemove p x = [k].foldl linkDec ((r.setDir p t').entriesAdd (-1)) := by
  obtain ⟨t, kind, ht, hx⟩ := entry_eq_some.mp h
  obtain ⟨t', ht'⟩ := remove_eq_some hx
  refine ⟨t, t', ht, ht', ?_⟩
  simp only [dentryRemove, ht, bind_some, ht', foldl_cons, foldl_nil]

theorem setDir_remove_view {t t' : DirState} (hp : r.dirOf p = some t)
    (ht : t.remove x = some (k, t')) : (r.setDir p t').view = r.view.set p x none := by
  refine setDir_view hp fun y => ?_
  rw [find_remove ht]
  split <;> rfl

theorem setDir_remove_counts {t t' : DirState} {slack : NodeKey → Nat} {exempt : NodeKey → Prop}
    (hp : r.dirOf p = some t) (ht : t.remove x = some (k, t')) (h : r.Counts slack exempt [] []) :
    (r.setDir p t').Counts slack exempt [] [k] := by
  have hset : (r.setDir p t').Counts slack exempt ([] ++ []) ([k] ++ []) :=
    setDir_counts hp h (fun j => by rw [count_remove ht]; rfl) (by simp)
  exact hset

theorem dentryRemove_counts {slack : NodeKey → Nat} {exempt : NodeKey → Prop}
    (hroot : exempt r.root) (h : r.Counts slack exempt [] []) :
    (r.dentryRemove p x).Counts slack exempt [] [] := by
  cases hx : r.entry p x with
  | none => rwa [dentryRemove_of_none hx]
  | some k =>
    obtain ⟨t, t', hp, ht, heq⟩ := dentryRemove_eq hx
    rw [heq]
    refine foldl_linkDec_counts ?_ ?_
    · rw [root, entriesAdd_info, setDir_info]
      exact hroot
    · exact setDir_remove_counts hp ht h

theorem dentryRemove_left (r : ShareReplica) (p : NodeKey) (x : Name) :
    Left (r.dentryRemove p x) (r.view.set p x none) := by
  cases hx : r.entry p x with
  | none =>
    have : r.view.set p x none = r.view := by
      apply View.ext
      iterate 2 rfl
      · funext d y
        simp only [View.set]
        split_ifs with h
        · rw [h.1, h.2]
          exact hx.symm
        · rfl
      · rfl
    rw [dentryRemove_of_none hx, this]
    exact Left.refl r
  | some k =>
    obtain ⟨t, t', hp, ht, heq⟩ := dentryRemove_eq hx
    rw [heq, ← setDir_remove_view hp ht, ← view_entriesAdd _ (-1)]
    exact foldl_linkDec_left _ _

theorem dentryRemove_keeps (r : ShareReplica) (p : NodeKey) (x : Name) :
    Keeps r (r.dentryRemove p x) := by
  cases hx : r.entry p x with
  | none =>
    rw [dentryRemove_of_none hx]
    exact .refl r
  | some k =>
    obtain ⟨t, t', -, -, heq⟩ := dentryRemove_eq hx
    rw [heq]
    exact ((modifyNode_keeps ..).trans (entriesAdd_keeps ..)).trans (foldl_linkDec_keeps ..)

end

section

variable {r : ShareReplica} {d e k : NodeKey} {x y : Name} {slack : NodeKey → Nat}
  {exempt : NodeKey → Prop}

theorem setParent_left {v : View} (h : Left r v) (k p : NodeKey) :
    Left (r.setParent k p) (v.setParent k p) := by
  have hlookup := fun j => lookup_modifyNode r k j fun n => { n with parent := p }
  have hlive : ∀ j, (r.setParent k p).live j = r.live j := fun j => by
    simp only [live, setParent, hlookup]
    split <;> simp
  have hdir : ∀ j, (r.setParent k p).dirOf j = r.dirOf j := fun j => by
    simp only [dirOf, setParent, hlookup]
    split
    · rw [bind_map]; rfl
    · rfl
  refine ⟨fun j hj => h.live j (hlive j ▸ hj), fun j hj => ?_, fun j hj z => ?_, fun j hj => ?_⟩
  · rw [isDir, hdir]
    exact h.dir j (hlive j ▸ hj)
  · rw [entry, hdir]
    exact h.entry j (hlive j ▸ hj) z
  rw [hlive] at hj
  obtain ⟨n, hn⟩ := live_iff.mp hj
  have hold := h.parent j hj
  simp only [parentOf, setParent, hlookup, View.setParent]
  by_cases hjk : j = k
  · rw [if_pos hjk, if_pos hjk, hn]
    rfl
  · rw [if_neg hjk, if_neg hjk]
    exact hold

theorem modifyNode_counts {owed todo : List NodeKey} (k : NodeKey) {f : Node → Node}
    (hf : ∀ n, (f n).targets = n.targets ∧ (f n).links = n.links)
    (h : r.Counts slack exempt owed todo) : (r.modifyNode k f).Counts slack exempt owed todo := by
  refine h.congr fun j => ?_
  rw [lookup_modifyNode]
  split
  · rw [Option.map_map]
    exact congrArg (Option.map · _) (funext fun n => by simp [hf n])
  · rfl

theorem dentryTake_of_none (h : r.entry d x = none) : r.dentryTake d x = none := by
  cases hd : r.dirOf d with
  | none => simp [dentryTake, hd]
  | some t =>
    rw [entry, hd, bind_some, map_eq_none_iff] at h
    simp [dentryTake, hd, h]

theorem dentryTake_eq (h : r.entry d x = some k) :
    ∃ t t' kind, r.dirOf d = some t ∧ t.remove x = some (k, t') ∧
      r.dentryTake d x = some ((k, kind), (r.setDir d t').entriesAdd (-1)) := by
  obtain ⟨t, kind, ht, hx⟩ := entry_eq_some.mp h
  obtain ⟨t', ht'⟩ := remove_eq_some hx
  exact ⟨t, t', kind, ht, ht', by simp [dentryTake, ht, hx, ht']⟩

variable {t : DirState} {kind : Kind}

theorem dentryRelink_eq (he : r.dirOf e = some t) :
    r.dentryRelink e y k kind =
      ((t.upsert y k kind).2.displaced.toList.foldl linkDec
        (r.placed e t y k kind)).setParent k e := by
  simp only [dentryRelink, he, placed]

theorem dentryRelink_left (he : r.dirOf e = some t) :
    Left (r.dentryRelink e y k kind) ((r.view.set e y (some k)).setParent k e) := by
  rw [dentryRelink_eq he, ← placed_view he y k kind]
  exact setParent_left (foldl_linkDec_left _ _) k e

theorem dentryRelink_keeps (r : ShareReplica) (e : NodeKey) (y : Name) (k : NodeKey) (kind : Kind) :
    Keeps r (r.dentryRelink e y k kind) := by
  cases he : r.dirOf e with
  | none =>
    simp only [dentryRelink, he]
    exact .refl r
  | some t =>
    rw [dentryRelink_eq he]
    exact (((modifyNode_keeps ..).trans (entriesAdd_keeps ..)).trans (foldl_linkDec_keeps ..)).trans
      (modifyNode_keeps ..)

theorem dentryRelink_counts (hroot : exempt r.root) (he : r.dirOf e = some t) (hk : r.live k)
    (hy : r.entry e y ≠ some k) (h : r.Counts slack exempt [] [k]) :
    (r.dentryRelink e y k kind).Counts slack exempt [] [] := by
  have hgain : (t.upsert y k kind).2.gainedLink = true := by
    rw [gainedLink_upsert, bne_iff_ne]
    rwa [entry, he, bind_some] at hy
  have hplaced : (r.placed e t y k kind).Counts slack exempt []
      (t.upsert y k kind).2.displaced.toList := by
    refine (placed_counts he hk y kind h).rebalance fun j => ?_
    rw [if_pos hgain, count_append, count_nil]
    omega
  rw [dentryRelink_eq he]
  refine modifyNode_counts k (fun _ => ⟨rfl, rfl⟩) (foldl_linkDec_counts ?_ hplaced)
  rw [root, placed_info]
  exact hroot

theorem dentryRelink_counts_slack (kind : Kind) (hroot : exempt r.root) (hk : r.live k)
    (h : r.Counts slack exempt [] [k]) :
    ∃ slack', (r.dentryRelink e y k kind).Counts slack' exempt [] [] := by
  cases he : r.dirOf e with
  | none =>
    simp only [dentryRelink, he]
    exact ⟨_, h.leak⟩
  | some t =>
    by_cases hy : r.entry e y = some k
    · rw [entry, he, bind_some] at hy
      have hgain : (t.upsert y k kind).2.gainedLink = false := by
        rw [gainedLink_upsert, hy, bne_self_eq_false]
      have hdis : (t.upsert y k kind).2.displaced = none := by
        rw [displaced_upsert, hy]
        simp
      have hplaced := placed_counts he hk y kind h
      rw [hgain, hdis] at hplaced
      rw [dentryRelink_eq he, hdis]
      exact ⟨fun j => slack j + [k].count j,
        modifyNode_counts k (fun _ => ⟨rfl, rfl⟩) (Counting.Sound.leak hplaced)⟩
    · exact ⟨slack, dentryRelink_counts hroot he hk hy h⟩

theorem renamed_of_none (h : r.entry d x = none) : (r.applyRec (.renamed d x e y)).1 = r := by
  simp only [applyRec, dentryTake_of_none h]

theorem renamed_eq (hx : r.entry d x = some k) :
    ∃ r₁ kind, (r.applyRec (.renamed d x e y)).1 = r₁.dentryRelink e y k kind ∧
      Keeps r r₁ ∧ r₁.view = r.view.set d x none ∧
      (∀ slack exempt, r.Counts slack exempt [] [] → r₁.Counts slack exempt [] [k]) := by
  obtain ⟨t, t', kind, hd, ht, heq⟩ := dentryTake_eq hx
  refine ⟨(r.setDir d t').entriesAdd (-1), kind, by simp only [applyRec, heq],
    (modifyNode_keeps ..).trans (entriesAdd_keeps ..),
    (view_entriesAdd ..).trans (setDir_remove_view hd ht), fun slack exempt h => ?_⟩
  exact setDir_remove_counts hd ht h

end

section

variable {r : ShareReplica} {p k : NodeKey} {x : Name} {a : Attr} {slack : NodeKey → Nat}

theorem created_eq (r : ShareReplica) (p : NodeKey) (x : Name) (k : NodeKey) (a : Attr) :
    ∃ r₁, (r.applyRec (.created p x k (some a))).1 = r₁.dentrySet p x k a.kind ∧
      SameTree (r.upsertNode k a p) r₁ := by
  by_cases ha : a.kind = .dir
  · refine ⟨(r.createNode k a p).markDirComplete k, by simp [applyRec, ha], ?_⟩
    exact (drainPending_same ..).trans (markDirComplete_same ..)
  · exact ⟨r.createNode k a p, by simp [applyRec, ha], drainPending_same ..⟩

theorem created_keeps (r : ShareReplica) (p : NodeKey) (x : Name) (k : NodeKey) (a : Attr) :
    Keeps r (r.applyRec (.created p x k (some a))).1 := by
  obtain ⟨r₁, heq, hsame⟩ := created_eq r p x k a
  rw [heq]
  exact ((upsertNode_keeps ..).trans hsame.keeps).trans (dentrySet_keeps ..)

theorem created_left (hp : r.isDir p) (x : Name) (k : NodeKey) (a : Attr) :
    Left (r.applyRec (.created p x k (some a))).1 ((r.view.upsert k a p).set p x (some k)) := by
  obtain ⟨r₁, heq, hsame⟩ := created_eq r p x k a
  have hview : r₁.view = r.view.upsert k a p := hsame.view.trans (upsertNode_view ..)
  have hdir : r₁.isDir p := by
    show r₁.view.dir p
    rw [hview]
    exact .inr hp
  obtain ⟨t, ht⟩ := isSome_iff_exists.mp hdir
  rw [heq, ← hview]
  exact dentrySet_left ht

theorem created_counts {exempt : NodeKey → Prop} (hp : r.isDir p) (x : Name) (a : Attr)
    (h : r.Counts slack exempt [] []) (hk : ¬ r.live k → slack k = 0) (hroot : exempt r.root) :
    ((r.applyRec (.created p x k (some a))).1).Counts slack exempt [] [] := by
  obtain ⟨r₁, heq, hsame⟩ := created_eq r p x k a
  have hview : r₁.view = r.view.upsert k a p := hsame.view.trans (upsertNode_view ..)
  have hdir : r₁.view.dir p := by
    rw [hview]
    exact .inr hp
  obtain ⟨t, ht⟩ := isSome_iff_exists.mp hdir
  have hlive : r₁.live k := by
    rw [view_live hview]
    exact .inl rfl
  rw [heq]
  refine dentrySet_counts ?_ ht hlive (hsame.counts (upsertNode_counts k a p h hk))
  rw [root, hsame.info, upsertNode_info]
  exact hroot

theorem created_unknown_parent (hp : ¬ r.isDir p) (hk : p ≠ k) (x : Name) (a : Attr) :
    SameTree (r.upsertNode k a p) (r.applyRec (.created p x k (some a))).1 := by
  obtain ⟨r₁, heq, hsame⟩ := created_eq r p x k a
  have hdir : ¬ r₁.view.dir p := by
    rw [hsame.view, upsertNode_view]
    rintro (⟨heq, -⟩ | h)
    · exact hk heq
    · exact hp h
  have hnone : r₁.dirOf p = none := by simpa [view, isDir] using hdir
  rw [heq, dentrySet, hnone]
  exact hsame

theorem attrChanged_same (r : ShareReplica) (k : NodeKey) (a : Attr) :
    SameTree r (r.applyRec (.attrChanged k a)).1 := by
  simp only [applyRec]
  split
  · exact updateAttr_same ..
  · exact (updateAttr_same ..).trans (stashPending_same ..)

theorem content_same (r : ShareReplica) (k : NodeKey) (version size : UInt64) (mtime : Ts)
    (inProgress : Bool) : SameTree r (r.applyRec (.content k version size mtime inProgress)).1 := by
  simp only [applyRec]
  split
  · exact updateContent_same ..
  · exact (updateContent_same ..).trans (stashPending_same ..)

end

end ShareReplica

end Mist
