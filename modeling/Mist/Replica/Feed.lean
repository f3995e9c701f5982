import Mist.Replica.Snapshot

/-! What a replica is fed: snapshot and journal records in any order, as they come out of decoding
and validation. -/

namespace Mist

open Option

inductive Feed where
  | snap (d : SnapDir)
  | record (rec : Rec)

def Feed.valid (share : ShareId) : Feed → Bool
  | .snap d => d.share = share && d.validate.isOk
  | .record rec => rec.validate.isOk

/-- The whole listing of a directory as one snapshot record, with placeholder attributes. -/
def Feed.listing (share : ShareId) (dir parent : NodeKey) (entries : List (Name × NodeKey × Kind)) :
    Feed :=
  .snap {
    snapId := 1, share, dir, dirAttr := placeholderAttr .dir, parent, last := true
    entries := entries.map fun e => ⟨e.1, e.2.1, placeholderAttr e.2.2⟩ }

theorem SnapDir.dir_of_validate {d : SnapDir} (h : d.validate.isOk) : d.dirAttr.kind = .dir := by
  unfold SnapDir.validate at h
  split at h
  · cases h
  split at h
  · cases h
  · split_ifs at h with hkind
    · cases h
    · exact Decidable.not_not.mp hkind

namespace ShareReplica

/-- Apply one record.  `none` is the failed `expect` of a snapshot record. -/
def feed (r : ShareReplica) : Feed → Option ShareReplica
  | .snap d => r.applySnapDir d
  | .record rec => some (r.applyRec rec).1

def feedValid (r : ShareReplica) (f : Feed) : Option ShareReplica :=
  if f.valid r.info.id then r.feed f else none

theorem createdBatch_eq (r : ShareReplica) (p : NodeKey) (es : List SnapEntry) :
    (r.applyRec (.createdBatch p es)).1 =
      es.foldl (fun r e => (r.applyRec (.created p e.name e.node (some e.attr))).1) r := rfl

theorem foldl_keeps {α : Type} {f : ShareReplica → α → ShareReplica} (hf : ∀ r a, Keeps r (f r a))
    (l : List α) (r : ShareReplica) : Keeps r (l.foldl f r) :=
  List.foldlRecOn l f (.refl r) fun _ h a _ => h.trans (hf _ a)

theorem applyRec_keeps (r : ShareReplica) (rec : Rec) : Keeps r (r.applyRec rec).1 := by
  cases rec with
  | created p x k attr =>
    cases attr with
    | some a => exact created_keeps r p x k a
    | none =>
      by_cases hk : r.live k
      · simpa [applyRec, hk] using dentrySet_keeps r p x k .reg
      · simpa [applyRec, hk] using (upsertNode_keeps ..).trans (dentrySet_keeps _ p x k .reg)
  | createdBatch p es => exact foldl_keeps (fun r e => created_keeps r p e.name e.node e.attr) es r
  | removed p x => exact dentryRemove_keeps r p x
  | renamed d x e y =>
    cases hx : r.entry d x with
    | none =>
      rw [renamed_of_none hx]
      exact .refl r
    | some k =>
      obtain ⟨r₁, kind, heq, hkeeps, -⟩ := renamed_eq (e := e) (y := y) hx
      rw [heq]
      exact hkeeps.trans (dentryRelink_keeps ..)
  | attrChanged k a => exact (attrChanged_same r k a).keeps
  | content k version size mtime inProgress =>
    exact (content_same r k version size mtime inProgress).keeps
  | selfRemoved k =>
    simp only [applyRec]
    split_ifs with hk
    · obtain ⟨n, hn⟩ := live_iff.mp hk.1
      exact forceRemove_keeps hn hk.2
    · exact .refl r
  | overflow => exact .refl r
  | echoMarker tag => exact .refl r

theorem applySnapDir_keeps {r r' : ShareReplica} {d : SnapDir} (h : r.applySnapDir d = some r') :
    Keeps r r' := by
  have hnodes : Keeps r (r.snapNodes d) :=
    (upsertNode_keeps ..).trans
      (foldl_keeps (fun r (e : SnapEntry) => upsertNode_keeps r e.node e.attr d.dir) ..)
  cases ht : (r.snapNodes d).dirOf d.dir with
  | none =>
    have : r.applySnapDir d = none := by
      rw [applySnapDir, map_eq_none_iff]
      exact ht
    rw [this] at h
    cases h
  | some t =>
    rw [applySnapDir_eq ht, some.injEq] at h
    rw [← h]
    refine (hnodes.trans ?_).trans (foldl_linkDec_keeps ..)
    exact ((modifyNode_keeps ..).trans (entriesAdd_keeps ..)).trans
      (foldl_keeps (fun r k => modifyNode_keeps r k _) ..)

theorem feed_keeps {r r' : ShareReplica} {f : Feed} (h : r.feed f = some r') : Keeps r r' := by
  cases f with
  | snap d => exact applySnapDir_keeps h
  | record rec =>
    obtain rfl : (r.applyRec rec).1 = r' := some.inj h
    exact applyRec_keeps r rec

end ShareReplica

end Mist
