import Mist.Replica.Dentry

/-! What the attributes of a node survive. -/

namespace Mist

open Option Counting Runs

def Rec.touches (k : NodeKey) : Rec → Bool
  | .created parent _ node _ => parent = k || node = k
  | .createdBatch parent entries => parent = k || entries.any fun e => e.node = k
  | .removed parent _ => parent = k
  | .renamed fromParent _ toParent _ => fromParent = k || toParent = k
  | .attrChanged node _ => node = k
  | .content node _ _ _ _ => node = k
  | .selfRemoved node => node = k
  | .overflow => false
  | .echoMarker _ => false

def Rec.carries (k : NodeKey) : Rec → Bool
  | .created _ _ node _ => node = k
  | .createdBatch _ entries => entries.any fun e => e.node = k
  | .attrChanged node _ => node = k
  | .content node _ _ _ _ => node = k
  | _ => false

theorem Rec.touches_of_carries {k : NodeKey} {rec : Rec} (h : rec.carries k) : rec.touches k := by
  cases rec <;> simp_all [Rec.carries, Rec.touches]

/-- The node whose attributes a record carries. -/
def Rec.subject : Rec → Option NodeKey
  | .attrChanged node _ => some node
  | .content node _ _ _ _ => some node
  | _ => none

/-- The attributes `a` are those of `b`, but for the content version, which `Content` records set. -/
def Attr.agrees (a b : Attr) : Prop :=
  a = { b with
    contentVersion := a.contentVersion
    symlinkTarget := if b.kind = .symlink ∧ b.symlinkTarget ≠ none then b.symlinkTarget
      else a.symlinkTarget
    rdev := if (b.kind = .chr ∨ b.kind = .blk) ∧ b.rdev ≠ 0 then b.rdev else a.rdev }
  deriving Decidable

namespace ShareReplica

/-- What a record says of its node is what the replica has of it, if it has the node. -/
def Reflects (r : ShareReplica) : Rec → Prop
  | .content node version size mtime _ => ∀ a ∈ (r.getattr node).toOption,
      a.size = size ∧ a.mtime = mtime ∧ a.contentVersion = version
  | .attrChanged node b => ∀ a ∈ (r.getattr node).toOption, a.agrees b
  | _ => True

structure Calm (k : NodeKey) (r r' : ShareReplica) : Prop where
  node : ∀ n', r'.shards.lookup k = some n' →
    ∃ n, r.shards.lookup k = some n ∧ n'.attr = n.attr ∧ n'.hasSide = n.hasSide
  side : r'.live k → r'.symlinks.lookup k = r.symlinks.lookup k ∧
    r'.rdevs.lookup k = r.rdevs.lookup k

section

variable {k j : NodeKey} {r r' r'' : ShareReplica}

theorem Calm.refl (k : NodeKey) (r : ShareReplica) : Calm k r r :=
  ⟨fun n hn => ⟨n, hn, rfl, rfl⟩, fun _ => ⟨rfl, rfl⟩⟩

theorem Calm.live (h : Calm k r r') (hk : r'.live k) : r.live k := by
  obtain ⟨n', hn'⟩ := live_iff.mp hk
  obtain ⟨n, hn, -, -⟩ := h.node n' hn'
  exact live_iff.mpr ⟨n, hn⟩

theorem Calm.trans (h : Calm k r r') (h' : Calm k r' r'') : Calm k r r'' := by
  refine ⟨fun n'' hn'' => ?_, fun hk => ?_⟩
  · obtain ⟨n', hn', hattr', hside'⟩ := h'.node n'' hn''
    obtain ⟨n, hn, hattr, hside⟩ := h.node n' hn'
    exact ⟨n, hn, hattr'.trans hattr, hside'.trans hside⟩
  · obtain ⟨hs', hr'⟩ := h'.side hk
    obtain ⟨hs, hr⟩ := h.side (h'.live hk)
    exact ⟨hs'.trans hs, hr'.trans hr⟩

theorem Calm.ite (b : Prop) [Decidable b] (h : Calm k r r') : Calm k r (if b then r' else r) := by
  split
  · exact h
  · exact .refl k r

theorem Calm.getattr (h : Calm k r r') {a : Attr} (ha : r'.getattr k = .ok a) :
    r.getattr k = .ok a := by
  unfold ShareReplica.getattr at ha ⊢
  cases hn' : r'.shards.lookup k with
  | none => simp [hn'] at ha
  | some n' =>
    obtain ⟨n, hn, hattr, hside⟩ := h.node n' hn'
    obtain ⟨hsym, hrdev⟩ := h.side (live_iff.mpr ⟨n', hn'⟩)
    simp only [hn', hn] at ha ⊢
    rw [← ha, hattr, hside, graftSide, graftSide, hsym, hrdev]

theorem Calm.of_same (hshards : r'.shards = r.shards) (hsym : r'.symlinks = r.symlinks)
    (hrdev : r'.rdevs = r.rdevs) : Calm k r r' :=
  ⟨fun n hn => ⟨n, hshards ▸ hn, rfl, rfl⟩, fun _ => ⟨by rw [hsym], by rw [hrdev]⟩⟩

theorem foldl_calm {α : Type} {f : ShareReplica → α → ShareReplica} {l : List α}
    (h : ∀ r, ∀ a ∈ l, Calm k r (f r a)) (r : ShareReplica) : Calm k r (l.foldl f r) :=
  List.foldlRecOn l f (.refl k r) fun r' hr' a ha => hr'.trans (h r' a ha)

section

variable (r : ShareReplica)

theorem entriesAdd_calm (delta : Int) : Calm k r (r.entriesAdd delta) := by
  unfold entriesAdd
  split <;> exact .of_same rfl rfl rfl

theorem modifyNode_calm {f : Node → Node}
    (hf : j = k → ∀ n, (f n).attr = n.attr ∧ (f n).hasSide = n.hasSide) :
    Calm k r (r.modifyNode j f) := by
  refine ⟨fun n' hn' => ?_, fun _ => ?_⟩
  · rw [lookup_modifyNode] at hn'
    split_ifs at hn' with hkj
    · obtain ⟨n, hn, rfl⟩ := map_eq_some_iff.mp hn'
      obtain ⟨hattr, hside⟩ := hf hkj.symm n
      exact ⟨n, hn, hattr, hside⟩
    · exact ⟨n', hn', rfl, rfl⟩
  · unfold modifyNode
    split <;> exact ⟨rfl, rfl⟩

theorem setDir_calm (t : DirState) : Calm k r (r.setDir j t) :=
  modifyNode_calm r fun _ _ => ⟨rfl, rfl⟩

theorem linkInc_calm : Calm k r (r.linkInc j) := modifyNode_calm r fun _ _ => ⟨rfl, rfl⟩

theorem setParent_calm (p : NodeKey) : Calm k r (r.setParent j p) :=
  modifyNode_calm r fun _ _ => ⟨rfl, rfl⟩

theorem markDirComplete_calm : Calm k r (r.markDirComplete j) :=
  modifyNode_calm r fun _ _ => ⟨rfl, rfl⟩

theorem bumpDirAttr_calm (h : j ≠ k) : Calm k r (r.bumpDirAttr j) :=
  modifyNode_calm r fun hjk => absurd hjk h

theorem noteSide_calm (a : Attr) (h : j ≠ k) : Calm k r (r.noteSide j a).1 := by
  refine ⟨fun n hn => ⟨n, hn, rfl, rfl⟩, fun _ => ⟨?_, ?_⟩⟩
  · cases hs : a.symlinkTarget with
    | none => simp [noteSide, hs]
    | some t => simp [noteSide, hs, Ne.symm h]
  · by_cases hr : a.rdev = 0
    · simp [noteSide, hr]
    · simp [noteSide, hr, Ne.symm h]

theorem insert_calm (n : Node) (h : j ≠ k) (hshards : r'.shards = r.shards.insert j n)
    (hsym : r'.symlinks = r.symlinks) (hrdev : r'.rdevs = r.rdevs) : Calm k r r' := by
  refine ⟨fun n' hn' => ?_, fun _ => ⟨by rw [hsym], by rw [hrdev]⟩⟩
  rw [hshards, KeyMap.lookup_insert_ite, if_neg (Ne.symm h)] at hn'
  exact ⟨n', hn', rfl, rfl⟩

theorem upsertNode_calm (a : Attr) (p : NodeKey) (h : j ≠ k) : Calm k r (r.upsertNode j a p) := by
  refine (noteSide_calm r a h).trans ?_
  unfold upsertNode
  dsimp only
  split <;> exact insert_calm _ _ h rfl rfl rfl

theorem updateAttr_calm (a : Attr) (h : j ≠ k) : Calm k r (r.updateAttr j a).1 :=
  (noteSide_calm r a h).trans (modifyNode_calm _ fun hjk => absurd hjk h)

theorem updateContent_calm (version size : UInt64) (mtime : Ts) (h : j ≠ k) :
    Calm k r (r.updateContent j version size mtime).1 :=
  modifyNode_calm r fun hjk => absurd hjk h

theorem stashPending_calm (p : Pending) : Calm k r (r.stashPending j p) := .of_same rfl rfl rfl

theorem drainPending_calm (h : j ≠ k) : Calm k r (r.drainPending j) := by
  unfold drainPending
  split
  · exact .refl k r
  have hfirst : Calm k r { r with pending := r.pending.erase j } := .of_same rfl rfl rfl
  refine hfirst.trans (foldl_calm (fun r p _ => ?_) _)
  cases p with
  | attr a => exact updateAttr_calm r a h
  | content version size mtime => exact updateContent_calm r version size mtime h

theorem createNode_calm (a : Attr) (p : NodeKey) (h : j ≠ k) : Calm k r (r.createNode j a p) :=
  (upsertNode_calm r a p h).trans (drainPending_calm _ h)

theorem forget_side (gone : NodeKey × Node) (h : gone.1 ≠ k) :
    (r.forget gone).symlinks.lookup k = r.symlinks.lookup k ∧
      (r.forget gone).rdevs.lookup k = r.rdevs.lookup k := by
  rw [forget_symlinks, forget_rdevs]
  split <;> simp [Ne.symm h]

end

theorem foldl_forget_side {l : List (NodeKey × Node)} (h : ∀ g ∈ l, g.1 ≠ k) (r : ShareReplica) :
    (l.foldl forget r).symlinks.lookup k = r.symlinks.lookup k ∧
      (l.foldl forget r).rdevs.lookup k = r.rdevs.lookup k := by
  induction l generalizing r with
  | nil => exact ⟨rfl, rfl⟩
  | cons g l ih =>
    obtain ⟨hs, hr⟩ := ih (fun g' hg' => h g' (.tail _ hg')) (r.forget g)
    obtain ⟨hs', hr'⟩ := forget_side r g (h g (.head _))
    exact ⟨hs.trans hs', hr.trans hr'⟩

theorem settle_shards (r : ShareReplica) (c : KeyMap NodeKey Node × List (NodeKey × Node)) :
    (r.settle c).shards = c.1 := (foldl_forget _ _).1

theorem settle_calm (r : ShareReplica) (m : KeyMap NodeKey Node) (todo : List NodeKey)
    (hm : ∀ n, m.lookup k = some n → r.shards.lookup k = some n) :
    Calm k r (r.settle (Node.counting.collect r.root m todo)) := by
  refine ⟨fun n' hn' => ?_, fun hlive => ?_⟩
  · rw [settle_shards] at hn'
    obtain ⟨n, hn, hset⟩ := collect_frame m todo hn'
    refine ⟨n, hm n hn, ?_, ?_⟩ <;> rw [hset] <;> rfl
  obtain ⟨n', hn'⟩ := live_iff.mp hlive
  rw [settle_shards] at hn'
  refine foldl_forget_side (fun g hg hgk => ?_) _
  have := collect_gone m todo (j := g.1) (w := g.2) hg
  rw [hgk, hn'] at this
  cases this

theorem linkDec_calm (r : ShareReplica) : Calm k r (r.linkDec j) :=
  settle_calm r r.shards [j] fun _ => id

theorem foldl_linkDec_calm (l : List NodeKey) (r : ShareReplica) : Calm k r (l.foldl linkDec r) :=
  foldl_calm (fun r _ _ => linkDec_calm r) r

section

variable (r : ShareReplica)

theorem removeNode_calm : Calm k r (r.removeNode j) := by
  unfold removeNode
  split
  · exact .refl k r
  rename_i n hn
  have hroot : (r.forget (j, n)).root = r.root := by rw [root, forget_info]; rfl
  rw [← hroot]
  by_cases hjk : j = k
  · subst hjk
    have hgone : ((r.forget (j, n)).settle (Node.counting.collect (r.forget (j, n)).root
        (r.shards.erase j) n.targets)).shards.lookup j = none := by
      rw [settle_shards]
      by_contra hsome
      obtain ⟨w, hw⟩ := ne_none_iff_exists'.mp hsome
      obtain ⟨v, hv, -⟩ := collect_frame _ _ hw
      simp at hv
    exact ⟨fun n' hn' => by simp [hgone] at hn', fun hlive => by simp [live, hgone] at hlive⟩
  · have hforget : Calm k r (r.forget (j, n)) :=
      ⟨fun m hm => ⟨m, forget_shards r _ ▸ hm, rfl, rfl⟩, fun _ => forget_side r (j, n) hjk⟩
    refine hforget.trans (settle_calm _ _ _ fun m hm => ?_)
    rw [KeyMap.lookup_erase_ite, if_neg (Ne.symm hjk)] at hm
    rwa [forget_shards]

theorem forceRemove_calm : Calm k r (r.forceRemove j) := by
  have hzero : Calm k r (r.modifyNode j fun n => { n with links := 0 }) :=
    modifyNode_calm r fun _ _ => ⟨rfl, rfl⟩
  exact hzero.trans (removeNode_calm _)

theorem dentrySet_calm (p : NodeKey) (x : Name) (kind : Kind) :
    Calm k r (r.dentrySet p x j kind) := by
  unfold dentrySet
  split
  · exact .refl k r
  · exact ((setDir_calm r _).trans (entriesAdd_calm _ _)).trans
      ((Calm.ite _ (linkInc_calm _)).trans (foldl_linkDec_calm _ _))

theorem dentryRemove_calm (p : NodeKey) (x : Name) : Calm k r (r.dentryRemove p x) := by
  unfold dentryRemove
  split
  · exact .refl k r
  · exact ((setDir_calm r _).trans (entriesAdd_calm _ _)).trans (linkDec_calm _)

theorem dentryRelink_calm (p : NodeKey) (x : Name) (kind : Kind) :
    Calm k r (r.dentryRelink p x j kind) := by
  unfold dentryRelink
  split
  · exact .refl k r
  · exact (((setDir_calm r _).trans (entriesAdd_calm _ _)).trans (foldl_linkDec_calm _ _)).trans
      (setParent_calm _ _)

end

section

variable {p : NodeKey} {x : Name} {taken : NodeKey × Kind} (h : r.dentryTake p x = some (taken, r'))
include h

theorem dentryTake_stored : ∃ t, r' = (r.setDir p t).entriesAdd (-1) := by
  simp only [dentryTake, bind_eq_bind, bind_eq_some_iff] at h
  obtain ⟨t, -, ⟨_, kind⟩, -, ⟨node, t'⟩, -, hr⟩ := h
  exact ⟨t', (Prod.mk.inj (some.inj hr)).2.symm⟩

theorem dentryTake_calm : Calm k r r' := by
  obtain ⟨t, rfl⟩ := dentryTake_stored h
  exact (setDir_calm r _).trans (entriesAdd_calm _ _)

end

theorem applyRec_calm (r : ShareReplica) {rec : Rec} (h : ¬ rec.carries k) :
    Calm k r (r.applyRec rec).1 := by
  cases rec with
  | created parent name node attr =>
    simp only [Rec.carries, decide_eq_true_eq] at h
    refine Calm.trans ?_ ((Calm.ite _ (markDirComplete_calm _)).trans (dentrySet_calm _ _ _ _))
    cases attr with
    | some a => exact createNode_calm r a parent h
    | none =>
      dsimp only
      split
      · exact .refl k r
      · exact upsertNode_calm r _ parent h
  | createdBatch parent entries =>
    simp only [Rec.carries, decide_eq_true_eq, List.any_eq_true, not_exists, not_and] at h
    refine foldl_calm (fun r e he => ?_) r
    exact (createNode_calm r e.attr parent (h e he)).trans
      ((Calm.ite _ (markDirComplete_calm _)).trans (dentrySet_calm _ _ _ _))
  | removed parent name => exact dentryRemove_calm r parent name
  | renamed fromParent fromName toParent toName =>
    simp only [applyRec]
    split
    · rename_i node kind r₁ htake
      exact (dentryTake_calm htake).trans (dentryRelink_calm r₁ _ _ _)
    · exact .refl k r
  | attrChanged node attr =>
    simp only [Rec.carries, decide_eq_true_eq] at h
    have hup := updateAttr_calm r attr h
    simp only [applyRec]
    split
    · exact hup
    · exact hup.trans (stashPending_calm _ _)
  | content node version size mtime inProgress =>
    simp only [Rec.carries, decide_eq_true_eq] at h
    have hup := updateContent_calm r version size mtime h
    simp only [applyRec]
    split
    · exact hup
    · exact hup.trans (stashPending_calm _ _)
  | selfRemoved node =>
    simp only [applyRec]
    split
    · exact forceRemove_calm r
    · exact .refl k r
  | overflow => exact .refl k r
  | echoMarker tag => exact .refl k r

end

section

variable {r r' : ShareReplica}

theorem getattr_eq_ok {k : NodeKey} {n : Node} (h : r.shards.lookup k = some n) :
    r.getattr k = .ok (r.graftSide k n.hasSide n.attr) := by
  simp [getattr, h]

theorem getattr_of_live {k : NodeKey} (h : r.live k) : ∃ b, r.getattr k = .ok b := by
  obtain ⟨n, hn⟩ := live_iff.mp h
  exact ⟨_, getattr_eq_ok hn⟩

theorem live_of_getattr {k : NodeKey} {b : Attr} (hb : r.getattr k = .ok b) : r.live k := by
  cases hn : r.shards.lookup k with
  | none => simp [getattr, hn] at hb
  | some n => exact live_iff.mpr ⟨n, hn⟩

theorem Calm.reflects {rec : Rec} (h : ∀ k, rec.subject = some k → Calm k r r')
    (hr : r.Reflects rec) : r'.Reflects rec := by
  have hget : ∀ k a, rec.subject = some k → a ∈ (r'.getattr k).toOption →
      a ∈ (r.getattr k).toOption := fun k a hk ha => by
    cases hg : r'.getattr k with
    | error e => simp [hg, Except.toOption] at ha
    | ok b => rw [(h k hk).getattr hg, ← hg]; exact ha
  cases rec with
  | content node version size mtime inProgress => exact fun a ha => hr a (hget node a rfl ha)
  | attrChanged node b => exact fun a ha => hr a (hget node a rfl ha)
  | _ => trivial

theorem mem_getattr_modifyNode {k : NodeKey} {f : Node → Node} {a : Attr}
    (h : a ∈ ((r.modifyNode k f).getattr k).toOption) :
    ∃ n, r.shards.lookup k = some n ∧ a = r.graftSide k (f n).hasSide (f n).attr := by
  cases hk : r.shards.lookup k with
  | none =>
    have hnone : (r.modifyNode k f).shards.lookup k = none := by simp [lookup_modifyNode, hk]
    simp [getattr, hnone, Except.toOption] at h
  | some n =>
    refine ⟨n, rfl, ?_⟩
    rw [modifyNode, hk] at h
    have hget : ({ r with shards := r.shards.insert k (f n) } : ShareReplica).getattr k =
        .ok (r.graftSide k (f n).hasSide (f n).attr) := by
      rw [getattr_eq_ok (n := f n) (by simp)]
      rfl
    rw [hget] at h
    exact (some.inj h).symm

theorem graftSide_eq (r : ShareReplica) (k : NodeKey) (hasSide : Bool) (a : Attr) :
    r.graftSide k hasSide a = { a with
      symlinkTarget := if hasSide ∧ a.kind = .symlink then r.symlinks.lookup k else a.symlinkTarget
      rdev := if hasSide ∧ (a.kind = .chr ∨ a.kind = .blk) then (r.rdevs.lookup k).getD 0
        else a.rdev } := by
  cases hasSide <;> simp [graftSide]

theorem content_reflects (r : ShareReplica) (k : NodeKey) (version size : UInt64) (mtime : Ts)
    (inProgress : Bool) :
    (r.applyRec (.content k version size mtime inProgress)).1.Reflects
      (.content k version size mtime inProgress) := by
  intro a ha
  have hmem : a ∈ ((r.updateContent k version size mtime).1.getattr k).toOption := by
    simp only [applyRec] at ha
    split at ha <;> exact ha
  obtain ⟨n, -, rfl⟩ := mem_getattr_modifyNode hmem
  rw [graftSide_eq]
  exact ⟨rfl, rfl, rfl⟩

theorem attrChanged_reflects (r : ShareReplica) (k : NodeKey) (b : Attr) :
    (r.applyRec (.attrChanged k b)).1.Reflects (.attrChanged k b) := by
  intro a ha
  have hmem : a ∈ ((r.updateAttr k b).1.getattr k).toOption := by
    simp only [applyRec] at ha
    split at ha <;> exact ha
  obtain ⟨n, -, rfl⟩ := mem_getattr_modifyNode hmem
  rw [graftSide_eq, Attr.agrees]
  -- the side tables have what the record brought
  have hsym : b.symlinkTarget ≠ none →
      (r.noteSide k b).1.symlinks.lookup k = b.symlinkTarget ∧ (r.noteSide k b).2 = true := by
    intro hne
    obtain ⟨t, ht⟩ := ne_none_iff_exists'.mp hne
    simp [noteSide, ht]
  have hrdev : b.rdev ≠ 0 →
      (r.noteSide k b).1.rdevs.lookup k = some b.rdev ∧ (r.noteSide k b).2 = true := by
    intro hne
    simp [noteSide, hne]
  simp only [Node.attr, Node.setAttr, Attr.mk.injEq, true_and]
  refine ⟨?_, ?_⟩
  · by_cases hb : (b.kind = .chr ∨ b.kind = .blk) ∧ b.rdev ≠ 0
    · obtain ⟨hlook, hside⟩ := hrdev hb.2
      simp [hlook, hside, hb.1, hb.2]
    · simp [hb]
  · by_cases hb : b.kind = .symlink ∧ b.symlinkTarget ≠ none
    · obtain ⟨hlook, hside⟩ := hsym hb.2
      simp [hlook, hside, hb.1, hb.2]
    · simp [hb]

theorem attrChanged_shows {k : NodeKey} (h : r.live k) (a : Attr) :
    ∃ b, (r.applyRec (.attrChanged k a)).1.getattr k = .ok b ∧ b.agrees a := by
  obtain ⟨b, hb⟩ := getattr_of_live ((view_live (attrChanged_same r k a).view k).mpr h)
  refine ⟨b, hb, attrChanged_reflects r k a b ?_⟩
  rw [hb]
  rfl

theorem applyRec_reflects (r : ShareReplica) (rec : Rec) : (r.applyRec rec).1.Reflects rec := by
  cases rec with
  | content node version size mtime inProgress => exact content_reflects r node version size mtime inProgress
  | attrChanged node b => exact attrChanged_reflects r node b
  | _ => trivial

end

section

variable (r : ShareReplica) (k : NodeKey)

@[simp] theorem modifyNode_state (f : Node → Node) : (r.modifyNode k f).state = r.state := by
  unfold modifyNode
  split <;> rfl

@[simp] theorem entriesAdd_state (delta : Int) : (r.entriesAdd delta).state = r.state := by
  unfold entriesAdd
  split <;> rfl

@[simp] theorem settle_state (c : KeyMap NodeKey Node × List (NodeKey × Node)) :
    (r.settle c).state = r.state := by
  rw [settle, foldl_same state forget_state]

@[simp] theorem linkDec_state : (r.linkDec k).state = r.state := settle_state ..

@[simp] theorem upsertNode_state (a : Attr) (p : NodeKey) :
    (r.upsertNode k a p).state = r.state := by
  unfold upsertNode
  dsimp only
  split <;> rfl

@[simp] theorem forceRemove_state : (r.forceRemove k).state = r.state := by
  unfold forceRemove removeNode
  split <;> simp

@[simp] theorem applyPending_state (p : Pending) : (r.applyPending k p).state = r.state := by
  cases p with
  | attr a => exact modifyNode_state ..
  | content version size mtime => exact modifyNode_state ..

@[simp] theorem createNode_state (a : Attr) (p : NodeKey) :
    (r.createNode k a p).state = r.state := by
  unfold createNode drainPending
  split
  · exact upsertNode_state ..
  · rw [foldl_same state fun r p => applyPending_state r k p]
    exact upsertNode_state ..

@[simp] theorem dentrySet_state (p : NodeKey) (x : Name) (kind : Kind) :
    (r.dentrySet p x k kind).state = r.state := by
  unfold dentrySet
  split
  · rfl
  · rw [foldl_same state linkDec_state]
    split <;> simp [linkInc, setDir]

@[simp] theorem dentryRelink_state (p : NodeKey) (x : Name) (kind : Kind) :
    (r.dentryRelink p x k kind).state = r.state := by
  unfold dentryRelink
  split
  · rfl
  · rw [setParent, modifyNode_state, foldl_same state linkDec_state, entriesAdd_state]
    exact modifyNode_state ..

@[simp] theorem dentryRemove_state (p : NodeKey) (x : Name) :
    (r.dentryRemove p x).state = r.state := by
  unfold dentryRemove
  split <;> simp [setDir]

theorem dentryTake_state {r r' : ShareReplica} {p : NodeKey} {x : Name} {taken : NodeKey × Kind}
    (h : r.dentryTake p x = some (taken, r')) : r'.state = r.state := by
  obtain ⟨t, rfl⟩ := dentryTake_stored h
  simp [setDir]

@[simp] theorem applyRec_state (rec : Rec) : (r.applyRec rec).1.state = r.state := by
  cases rec with
  | created parent name node attr =>
    simp only [applyRec, dentrySet_state]
    cases attr with
    | some a => dsimp only; split <;> simp [markDirComplete]
    | none => dsimp only; split <;> split <;> simp [markDirComplete]
  | createdBatch parent entries =>
    refine foldl_same state (fun r e => ?_) entries r
    split <;> simp [markDirComplete]
  | removed parent name => exact dentryRemove_state ..
  | renamed fromParent fromName toParent toName =>
    simp only [applyRec]
    split
    · rename_i htake
      rw [dentryRelink_state, dentryTake_state htake]
    · rfl
  | attrChanged node attr =>
    simp only [applyRec]
    split <;> exact modifyNode_state ..
  | content node version size mtime inProgress =>
    simp only [applyRec]
    split <;> exact modifyNode_state ..
  | selfRemoved node =>
    simp only [applyRec]
    split
    · exact forceRemove_state ..
    · rfl
  | overflow => rfl
  | echoMarker tag => rfl

theorem applyRec_needResync (rec : Rec) : (r.applyRec rec).2 = .needResync ↔ rec = .overflow := by
  cases rec <;> simp [applyRec]
  split <;> simp

end

end ShareReplica

end Mist
