import Mist.Replica.Attrs

/-! The attributes of a node as records lay them over each other.  The content version is apart: it
belongs to `Content` records. -/

namespace Mist

open List Option Attr Finmap

namespace Attr

/-- The attributes `b` of a record over those before it.  Where the record brings no symlink target
and no device number, the side tables keep theirs. -/
def overlay (a b : Attr) : Attr :=
  { b with
    contentVersion := a.contentVersion
    symlinkTarget := b.symlinkTarget.or a.symlinkTarget
    rdev := if b.rdev ≠ 0 then b.rdev else a.rdev }

/-- What a stashed record makes of the attributes. -/
def after (a : Attr) : Pending → Attr
  | .attr b => a.overlay b
  | .content _ size mtime => { a with size, mtime }

def hasSide (a : Attr) : Bool := a.symlinkTarget.isSome || a.rdev ≠ 0

/-- What a reader sees: symlinks have a target, devices a number, if the node has side parts. -/
def shown (a : Attr) (side : Bool) : Attr :=
  { a with
    symlinkTarget := if side ∧ a.kind = .symlink then a.symlinkTarget else none
    rdev := if side ∧ (a.kind = .chr ∨ a.kind = .blk) then a.rdev else 0 }

def lay (a : Attr) (as : List Attr) : Attr := as.foldl overlay a

theorem overlay_assoc (a b c : Attr) : (a.overlay b).overlay c = a.overlay (b.overlay c) := by
  simp only [overlay, mk.injEq, true_and]
  refine ⟨?_, or_assoc.symm⟩
  split
  · rfl
  · split <;> simp_all

theorem overlay_after (a b : Attr) (p : Pending) : (a.overlay b).after p = a.overlay (b.after p) := by
  cases p with
  | attr c => exact overlay_assoc a b c
  | content version size mtime => rfl

theorem foldl_after_overlay (a b : Attr) (ps : List Pending) :
    ps.foldl after (a.overlay b) = a.overlay (ps.foldl after b) :=
  foldl_hom a.overlay fun b p => overlay_after a b p

theorem lay_overlay (a b : Attr) (as : List Attr) : (a.overlay b).lay as = a.overlay (b.lay as) :=
  foldl_hom a.overlay fun b c => overlay_assoc a b c

theorem lay_append (a : Attr) (as bs : List Attr) : a.lay (as ++ bs) = (a.lay as).lay bs :=
  foldl_append

/-- The attributes in front of a list, with the records that came early to the first. -/
def early (stash : List Pending) : List Attr → Option Attr
  | [] => none
  | a :: as => some ((stash.foldl after a).lay as)

/-- Laying the list once more shows nothing new. -/
def Settled (stash : List Pending) (as : List Attr) : Prop :=
  ∀ once ∈ early stash as, (once.lay as).shown true = once.shown true
  deriving Decidable

theorem overlay_self (a : Attr) : a.overlay a = a := by
  cases a
  simp only [overlay, Option.or_self, ite_self]

theorem settled_nil (as : List Attr) : Settled [] as := by
  intro once honce
  cases as with
  | nil => cases honce
  | cons a as =>
    obtain rfl : a.lay as = once := some.inj honce
    have hlay : (a.lay as).lay (a :: as) = (a.lay as).overlay (a.lay as) := lay_overlay ..
    rw [hlay, overlay_self]

theorem shown_overlay {a b c : Attr} (h : b.shown true = c.shown true) (side : Bool) :
    (a.overlay b).shown side = (a.overlay c).shown side := by
  simp only [shown, mk.injEq, true_and] at h
  obtain ⟨hkind, hmode, hnlink, huid, hgid, hsize, hblocks, hmtime, hctime, hrdev, -, hsym⟩ := h
  simp only [shown, overlay, hkind, hmode, hnlink, huid, hgid, hsize, hblocks, hmtime, hctime,
    mk.injEq, true_and]
  rw [hkind] at hrdev hsym
  refine ⟨?_, ?_⟩
  · by_cases hdev : c.kind = .chr ∨ c.kind = .blk
    · rw [if_pos hdev, if_pos hdev] at hrdev
      cases side <;> simp [hrdev, hdev]
    · simp [hdev]
  · by_cases hlink : c.kind = .symlink
    · rw [if_pos hlink, if_pos hlink] at hsym
      cases side <;> simp [hsym, hlink]
    · simp [hlink]

end Attr

namespace ShareReplica

/-- The attributes of a node with its parts in the side tables, and whether it shows these.  Without a
node, what the side tables would give one. -/
def coat (r : ShareReplica) (k : NodeKey) : Attr × Bool :=
  ({ ((r.shards.lookup k).map Node.attr).getD (placeholderAttr .reg) with
      contentVersion := 0
      symlinkTarget := r.symlinks.lookup k
      rdev := (r.rdevs.lookup k).getD 0 },
    ((r.shards.lookup k).map Node.hasSide).getD false)

section

variable {r r' : ShareReplica} {k j : NodeKey} {n : Node}

theorem getattr_coat (h : r.shards.lookup k = some n) :
    r.getattr k =
      .ok { (r.coat k).1.shown (r.coat k).2 with contentVersion := n.contentVersion } := by
  rw [getattr_eq_ok h, graftSide_eq]
  simp only [coat, h, map_some, getD_some, shown, Node.attr]
  congr

theorem Calm.coat (h : Calm k r r') (hk : r'.live k) : r'.coat k = r.coat k := by
  obtain ⟨n', hn'⟩ := live_iff.mp hk
  obtain ⟨n, hn, hattr, hside⟩ := h.node n' hn'
  obtain ⟨hsym, hrdev⟩ := h.side hk
  simp only [ShareReplica.coat, hn', hn, hsym, hrdev, map_some, getD_some, hattr, hside]

theorem coat_noteSide (hn : r'.shards.lookup k = some n) {a : Attr}
    (hattr : n.attr = { a with contentVersion := n.contentVersion, symlinkTarget := none, rdev := 0 })
    (hside : n.hasSide = ((r.coat k).2 || a.hasSide))
    (hsym : r'.symlinks = (r.noteSide k a).1.symlinks) (hrdev : r'.rdevs = (r.noteSide k a).1.rdevs) :
    r'.coat k = ((r.coat k).1.overlay a, (r.coat k).2 || a.hasSide) := by
  have hlink : r'.symlinks.lookup k = a.symlinkTarget.or (r.symlinks.lookup k) := by
    rw [hsym]
    cases ht : a.symlinkTarget with
    | none => simp [noteSide, ht]
    | some t => simp [noteSide, ht]
  have hdev : (r'.rdevs.lookup k).getD 0 =
      if a.rdev ≠ 0 then a.rdev else (r.rdevs.lookup k).getD 0 := by
    rw [hrdev]
    by_cases ha : a.rdev = 0
    · simp [noteSide, ha]
    · simp [noteSide, ha]
  simp only [coat, hn, map_some, getD_some, hattr, hlink, hdev, overlay]
  rw [hside]
  rfl

theorem coat_upsertNode (r : ShareReplica) (k : NodeKey) (a : Attr) (p : NodeKey) :
    (r.upsertNode k a p).coat k = ((r.coat k).1.overlay a, (r.coat k).2 || a.hasSide) := by
  have hn : (r.upsertNode k a p).shards.lookup k = some (r.upserted k a p) := by
    rw [upsertNode_shards, lookup_insert]
  refine coat_noteSide hn ?_ ?_ ?_ ?_
  · unfold upserted
    split <;> rfl
  · unfold upserted coat
    split
    · rename_i n hn
      rw [hn]
      rfl
    · rename_i hn
      rw [hn]
      rfl
  · simp only [upsertNode]
    split <;> rfl
  · simp only [upsertNode]
    split <;> rfl

theorem coat_upsertNode_of_ne (r : ShareReplica) (a : Attr) (p : NodeKey) (h : j ≠ k) :
    (r.upsertNode k a p).coat j = r.coat j := by
  have hn : (r.upsertNode k a p).shards.lookup j = r.shards.lookup j := by
    rw [upsertNode_shards, lookup_insert_of_ne _ h]
  have hsym : (r.upsertNode k a p).symlinks.lookup j = r.symlinks.lookup j := by
    have hnote : (r.noteSide k a).1.symlinks.lookup j = r.symlinks.lookup j := by
      cases ht : a.symlinkTarget <;> simp [noteSide, ht, h]
    rw [← hnote]
    unfold upsertNode
    dsimp only
    split <;> rfl
  have hrdev : (r.upsertNode k a p).rdevs.lookup j = r.rdevs.lookup j := by
    have hnote : (r.noteSide k a).1.rdevs.lookup j = r.rdevs.lookup j := by
      by_cases hz : a.rdev = 0 <;> simp [noteSide, hz, h]
    rw [← hnote]
    unfold upsertNode
    dsimp only
    split <;> rfl
  simp only [coat, hn, hsym, hrdev]

theorem coat_updateAttr (hk : r.shards.lookup k = some n) (a : Attr) :
    (r.updateAttr k a).1.coat k = ((r.coat k).1.overlay a, (r.coat k).2 || a.hasSide) := by
  have hn : (r.updateAttr k a).1.shards.lookup k =
      some { n.setAttr a with hasSide := n.hasSide || (r.noteSide k a).2 } := by
    rw [updateAttr, lookup_modifyNode, if_pos rfl]
    show (r.shards.lookup k).map _ = _
    rw [hk]
    rfl
  refine coat_noteSide hn rfl ?_ ?_ ?_
  · simp only [coat, hk]
    rfl
  · simp only [updateAttr, modifyNode]
    split <;> rfl
  · simp only [updateAttr, modifyNode]
    split <;> rfl

theorem coat_applyPending (hk : r.live k) (p : Pending) :
    ((r.applyPending k p).coat k).1 = (r.coat k).1.after p ∧
      ((r.coat k).2 → ((r.applyPending k p).coat k).2) ∧ (r.applyPending k p).live k := by
  obtain ⟨n, hn⟩ := live_iff.mp hk
  cases p with
  | attr a =>
    have hcoat : (r.applyPending k (.attr a)).coat k = _ := coat_updateAttr hn a
    rw [hcoat]
    refine ⟨rfl, fun h => by simp [h], ?_⟩
    rw [live, applyPending, updateAttr, lookup_modifyNode, if_pos rfl, isSome_map]
    exact hk
  | content version size mtime =>
    simp only [applyPending, updateContent, modifyNode, hn, coat, live, lookup_insert]
    exact ⟨rfl, id, rfl⟩

theorem coat_drainPending (hk : r.live k) :
    ((r.drainPending k).coat k).1 = ((r.pending.lookup k).getD []).foldl Attr.after (r.coat k).1 ∧
      ((r.coat k).2 → ((r.drainPending k).coat k).2) := by
  have hfold : ∀ (items : List Pending) (r : ShareReplica), r.live k →
      ((items.foldl (fun r p => r.applyPending k p) r).coat k).1 =
          items.foldl after (r.coat k).1 ∧
        ((r.coat k).2 → ((items.foldl (fun r p => r.applyPending k p) r).coat k).2) := by
    intro items
    induction items with
    | nil => exact fun r _ => ⟨rfl, id⟩
    | cons p items ih =>
      intro r hk
      obtain ⟨hattr, hside, hlive⟩ := coat_applyPending hk p
      obtain ⟨hattr', hside'⟩ := ih (r.applyPending k p) hlive
      exact ⟨by rw [foldl_cons, hattr', hattr]; rfl, fun h => hside' (hside h)⟩
  unfold drainPending
  cases hp : r.pending.lookup k with
  | none => exact ⟨rfl, id⟩
  | some items => exact hfold items { r with pending := r.pending.erase k } hk

theorem coat_createNode (r : ShareReplica) (k : NodeKey) (a : Attr) (p : NodeKey) :
    ((r.createNode k a p).coat k).1 =
        (r.coat k).1.overlay (((r.pending.lookup k).getD []).foldl Attr.after a) ∧
      (((r.coat k).2 || a.hasSide) → ((r.createNode k a p).coat k).2) := by
  have hlive : (r.upsertNode k a p).live k := by
    rw [live, upsertNode_shards, lookup_insert]
    rfl
  have hpend : (r.upsertNode k a p).pending = r.pending := by
    unfold upsertNode
    dsimp only
    split <;> rfl
  obtain ⟨hattr, hside⟩ := coat_drainPending hlive
  rw [hpend, coat_upsertNode] at hattr
  rw [coat_upsertNode] at hside
  exact ⟨hattr.trans (foldl_after_overlay ..), hside⟩

end

end ShareReplica

end Mist
