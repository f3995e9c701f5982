import Mist.Replica.Twice

/-! The content version a node shows. -/

namespace Mist

open Option Node Runs

/-- The version a node shows after a record that came early. -/
def Pending.version (v : UInt64) : Pending → UInt64
  | .attr _ => v
  | .content version _ _ => version

namespace ShareReplica

variable {r r' : ShareReplica} {k j : NodeKey}

def contentVersion (r : ShareReplica) (k : NodeKey) : Option UInt64 :=
  (r.shards.lookup k).map Node.contentVersion

theorem contentVersion_of_not_live (h : ¬ r.live k) : r.contentVersion k = none := by
  rw [contentVersion, map_eq_none_iff]
  simpa [live] using h

theorem contentVersion_of_live (h : r.live k) : ∃ v, r.contentVersion k = some v := by
  obtain ⟨n, hn⟩ := live_iff.mp h
  exact ⟨n.contentVersion, by rw [contentVersion, hn]; rfl⟩

theorem Calm.version (h : Calm k r r') (hk : r'.live k) : r'.contentVersion k = r.contentVersion k := by
  obtain ⟨n', hn'⟩ := live_iff.mp hk
  obtain ⟨n, hn, hattr, -⟩ := h.node n' hn'
  rw [contentVersion, contentVersion, hn, hn']
  exact congrArg (fun a => some a.contentVersion) hattr

theorem contentVersion_modifyNode (r : ShareReplica) (f : Node → Node) :
    (r.modifyNode k f).contentVersion j =
      if j = k then (r.shards.lookup j).map fun n => (f n).contentVersion
      else r.contentVersion j := by
  rw [contentVersion, lookup_modifyNode]
  split
  · rw [map_map]
    rfl
  · rfl

theorem contentVersion_noteSide (r : ShareReplica) (a : Attr) :
    (r.noteSide k a).1.contentVersion j = r.contentVersion j := rfl

theorem contentVersion_updateAttr (r : ShareReplica) (a : Attr) :
    (r.updateAttr k a).1.contentVersion j = r.contentVersion j := by
  rw [updateAttr, contentVersion_modifyNode]
  split_ifs with hj
  · rfl
  · exact contentVersion_noteSide r a

theorem contentVersion_updateContent (h : r.live k) (version size : UInt64) (mtime : Ts) :
    (r.updateContent k version size mtime).1.contentVersion k = some version := by
  obtain ⟨n, hn⟩ := live_iff.mp h
  rw [updateContent, contentVersion_modifyNode, if_pos rfl, hn]
  rfl

theorem contentVersion_upsertNode (r : ShareReplica) (a : Attr) (p : NodeKey) :
    (r.upsertNode k a p).contentVersion k = some ((r.contentVersion k).getD a.contentVersion) := by
  have hside : (r.noteSide k a).1.shards = r.shards := rfl
  unfold upsertNode
  dsimp only
  rw [hside]
  cases hn : r.shards.lookup k with
  | none => simp [contentVersion, hn, create, setAttr]
  | some n => simp [contentVersion, hn, refresh, setAttr]

theorem contentVersion_applyPending {v : UInt64} (h : r.contentVersion k = some v) (p : Pending) :
    (r.applyPending k p).contentVersion k = some (p.version v) := by
  cases p with
  | attr a => exact (contentVersion_updateAttr r a).trans h
  | content version size mtime =>
    have hlive : r.live k := by
      obtain ⟨n, hn, -⟩ := map_eq_some_iff.mp h
      exact live_iff.mpr ⟨n, hn⟩
    exact contentVersion_updateContent hlive version size mtime

theorem contentVersion_foldl {v : UInt64} (items : List Pending) (h : r.contentVersion k = some v) :
    (items.foldl (fun r p => r.applyPending k p) r).contentVersion k =
      some (items.foldl Pending.version v) := by
  induction items generalizing r v with
  | nil => exact h
  | cons p items ih => exact ih (contentVersion_applyPending h p)

theorem contentVersion_createNode (r : ShareReplica) (a : Attr) (p : NodeKey) :
    (r.createNode k a p).contentVersion k =
      some (((r.pending.lookup k).getD []).foldl Pending.version
        ((r.contentVersion k).getD a.contentVersion)) := by
  have hnew := contentVersion_upsertNode r a p (k := k)
  rw [createNode, drainPending, upsertNode_pending]
  cases hp : r.pending.lookup k with
  | none => exact hnew
  | some items => exact contentVersion_foldl items hnew

variable {d : NodeKey}

theorem created_version {x : Name} {a : Attr}
    (hk : (r.applyRec (.created d x k (some a))).1.live k) :
    (r.applyRec (.created d x k (some a))).1.contentVersion k =
      some (((r.pending.lookup k).getD []).foldl Pending.version
        ((r.contentVersion k).getD a.contentVersion)) := by
  have hcalm : Calm k (r.createNode k a d) (r.applyRec (.created d x k (some a))).1 :=
    (Calm.ite _ (markDirComplete_calm _)).trans (dentrySet_calm _ _ _ _)
  rw [hcalm.version hk]
  exact contentVersion_createNode r a d

theorem created_calm (r : ShareReplica) (x : Name) (a : Attr) (h : j ≠ k) :
    Calm j r (r.applyRec (.created d x k (some a))).1 :=
  applyRec_calm r (by simpa [Rec.carries] using Ne.symm h)

theorem removed_calm (r : ShareReplica) (d : NodeKey) (x : Name) :
    Calm k r (r.applyRec (.removed d x)).1 :=
  applyRec_calm r (by simp [Rec.carries])

theorem renamed_calm (r : ShareReplica) (d : NodeKey) (x : Name) (e : NodeKey) (y : Name) :
    Calm k r (r.applyRec (.renamed d x e y)).1 :=
  applyRec_calm r (by simp [Rec.carries])

theorem content_version (h : r.live k) (version size : UInt64) (mtime : Ts) (inProgress : Bool) :
    (r.applyRec (.content k version size mtime inProgress)).1.contentVersion k = some version := by
  have hknown : (r.updateContent k version size mtime).2 = true := h
  rw [applyRec]
  simp only [hknown, if_true]
  exact contentVersion_updateContent h version size mtime

section

variable (r : ShareReplica)

theorem content_calm (version size : UInt64) (mtime : Ts) (inProgress : Bool)
    (h : j ≠ k) : Calm j r (r.applyRec (.content k version size mtime inProgress)).1 := by
  refine applyRec_calm r ?_
  simpa [Rec.carries] using Ne.symm h

theorem attrChanged_version (a : Attr) :
    (r.applyRec (.attrChanged k a)).1.contentVersion j = r.contentVersion j := by
  rw [applyRec]
  dsimp only
  split
  · exact contentVersion_updateAttr r a
  · exact contentVersion_updateAttr r a

theorem removed_pending (d : NodeKey) (x : Name) :
    (r.applyRec (.removed d x)).1.pending = r.pending := by
  rw [applyRec]
  unfold dentryRemove
  split
  · rfl
  · rw [linkDec_pending, entriesAdd_pending, setDir, modifyNode_pending]

theorem dentryRelink_pending (d : NodeKey) (x : Name) (kind : Kind) :
    (r.dentryRelink d x k kind).pending = r.pending := by
  unfold dentryRelink
  split
  · rfl
  · rw [setParent, modifyNode_pending, foldl_same pending linkDec_pending, entriesAdd_pending, setDir,
      modifyNode_pending]

end

theorem dentryTake_pending {x : Name} {taken : NodeKey × Kind}
    (h : r.dentryTake d x = some (taken, r')) : r'.pending = r.pending := by
  obtain ⟨t, rfl⟩ := dentryTake_stored h
  rw [entriesAdd_pending, setDir, modifyNode_pending]

theorem renamed_pending (r : ShareReplica) (d : NodeKey) (x : Name) (e : NodeKey) (y : Name) :
    (r.applyRec (.renamed d x e y)).1.pending = r.pending := by
  rw [applyRec]
  cases ht : r.dentryTake d x with
  | none => rfl
  | some taken => exact (dentryRelink_pending ..).trans (dentryTake_pending ht)

theorem created_pending (r : ShareReplica) (d : NodeKey) (x : Name) (a : Attr) :
    (r.applyRec (.created d x k (some a))).1.pending.lookup j =
      if j = k then none else r.pending.lookup j := by
  rw [created_known_eq r d ⟨x, k, a⟩, dentrySet_pending, known_pending]

theorem content_pending (h : r.live k) (version size : UInt64) (mtime : Ts) (inProgress : Bool) :
    (r.applyRec (.content k version size mtime inProgress)).1.pending = r.pending := by
  have hknown : (r.updateContent k version size mtime).2 = true := h
  rw [applyRec]
  simp only [hknown, if_true]
  exact modifyNode_pending ..

theorem attrChanged_pending (h : r.live k) (a : Attr) :
    (r.applyRec (.attrChanged k a)).1.pending = r.pending := by
  have hknown : (r.updateAttr k a).2 = true := h
  rw [applyRec]
  simp only [hknown, if_true]
  exact modifyNode_pending ..

end ShareReplica

end Mist
