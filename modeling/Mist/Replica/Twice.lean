import Mist.Replica.Drags
import Mist.Runs

/-! A record applied twice in a row.  The second time every name leads to its node already. -/

namespace Mist

open List Option Runs KeyMap ShareReplica DirState Node Attr

namespace ShareReplica

structure ShowsSame (r r' : ShareReplica) : Prop where
  lookup : ∀ d x, r'.lookup d x = r.lookup d x
  readdir : ∀ d cookie max, r'.readdir d cookie max = r.readdir d cookie max
  linkCount : ∀ k, r'.linkCount k = r.linkCount k
  getattr : ∀ k, r'.getattr k = r.getattr k

def frame (r : ShareReplica) (k : NodeKey) : Option (Nat × Option DirState × UInt64) :=
  (r.shards.lookup k).map fun n => (n.links, n.dir, n.contentVersion)

/-- The attributes a list of records brings for a node, in order. -/
def attrsOf (k : NodeKey) (l : List (NodeKey × Attr)) : List Attr :=
  (l.filter fun u => u.1 = k).map Prod.snd

/-- Nothing changed but that attributes were laid over those of some nodes. -/
structure Repaints (r r' : ShareReplica) (l : List (NodeKey × Attr)) : Prop where
  frame : ∀ k, r'.frame k = r.frame k
  pending : r'.pending = r.pending
  attrs : ∀ k, (r'.coat k).1 = (r.coat k).1.lay (attrsOf k l)
  side : ∀ k, (r'.coat k).2 = ((r.coat k).2 || (attrsOf k l).any Attr.hasSide)

section

variable {r r' : ShareReplica} {k : NodeKey}

section

variable (h : r'.frame k = r.frame k)
include h

theorem live_of_frame : r'.live k = r.live k := by
  have := congrArg isSome h
  rwa [frame, frame, isSome_map, isSome_map] at this

theorem dirOf_of_frame : r'.dirOf k = r.dirOf k := by
  have := congrArg (Option.bind · fun f => f.2.1) h
  rw [frame, frame, Option.bind_map, Option.bind_map] at this
  exact this

theorem linkCount_of_frame : r'.linkCount k = r.linkCount k := by
  have := congrArg (fun f => (f.map Prod.fst).getD 0) h
  simp only [frame, Option.map_map] at this
  exact this

theorem lookup_eq_of_frame {n : Node} (hn : r.shards.lookup k = some n) :
    ∃ n', r'.shards.lookup k = some n' ∧ n'.contentVersion = n.contentVersion := by
  rw [frame, frame, hn] at h
  obtain ⟨n', hn', heq⟩ := map_eq_some_iff.mp h
  exact ⟨n', hn', congrArg (·.2.2) heq⟩

end

theorem ShowsSame.of_frames (hframe : ∀ k, r'.frame k = r.frame k)
    (hcoat : ∀ k, r.live k → (r'.coat k).1.shown (r'.coat k).2 = (r.coat k).1.shown (r.coat k).2) :
    ShowsSame r r' := by
  have hget : ∀ k, r'.getattr k = r.getattr k := by
    intro k
    cases hn : r.shards.lookup k with
    | none =>
      have hnone : r'.shards.lookup k = none := by
        have := live_of_frame (hframe k)
        rw [live, live, hn] at this
        exact not_isSome_iff_eq_none.mp (by rw [this]; exact Bool.false_ne_true)
      rw [ShareReplica.getattr, hnone, ShareReplica.getattr, hn]
    | some n =>
      obtain ⟨n', hn', hversion⟩ := lookup_eq_of_frame (hframe k) hn
      rw [getattr_coat hn', getattr_coat hn, hcoat k (live_iff.mpr ⟨n, hn⟩), hversion]
  -- of the node of a directory both read only the table
  have hdir : ∀ d, r'.shards.lookup d = none ∧ r.shards.lookup d = none ∨
      ∃ n' n, r'.shards.lookup d = some n' ∧ r.shards.lookup d = some n ∧ n'.dir = n.dir := by
    intro d
    have hd := hframe d
    cases hn : r.shards.lookup d with
    | none =>
      rw [frame, frame, hn, map_none, map_eq_none_iff] at hd
      exact .inl ⟨hd, rfl⟩
    | some n =>
      rw [frame, frame, hn, map_some, map_eq_some_iff] at hd
      obtain ⟨n', hn', heq⟩ := hd
      exact .inr ⟨n', n, hn', rfl, congrArg (·.2.1) heq⟩
  refine ⟨fun d x => ?_, fun d cookie max => ?_, fun k => linkCount_of_frame (hframe k), hget⟩
  · rcases hdir d with ⟨h', h⟩ | ⟨n', n, h', h, heq⟩
    · simp only [ShareReplica.lookup, h, h']
    · simp only [ShareReplica.lookup, h, h', heq, hget]
  · rcases hdir d with ⟨h', h⟩ | ⟨n', n, h', h, heq⟩
    · simp only [ShareReplica.readdir, h, h']
    · simp only [ShareReplica.readdir, h, h', heq]

theorem ShowsSame.of_tables (hshards : r'.shards = r.shards) (hsym : r'.symlinks = r.symlinks)
    (hrdev : r'.rdevs = r.rdevs) : ShowsSame r r' := by
  refine .of_frames (fun k => by rw [frame, hshards, frame]) fun k _ => ?_
  have hcoat : r'.coat k = r.coat k := by simp only [coat, hshards, hsym, hrdev]
  rw [hcoat]

end

section

variable {r r' r'' : ShareReplica} {k p : NodeKey} {l l' : List (NodeKey × Attr)}

theorem attrsOf_append (k : NodeKey) (l l' : List (NodeKey × Attr)) :
    attrsOf k (l ++ l') = attrsOf k l ++ attrsOf k l' := by
  rw [attrsOf, filter_append, map_append, attrsOf, attrsOf]

theorem attrsOf_self (k : NodeKey) (a : Attr) : attrsOf k [(k, a)] = [a] := by simp [attrsOf]

theorem attrsOf_of_ne {j : NodeKey} (h : j ≠ k) (a : Attr) : attrsOf j [(k, a)] = [] := by
  simp [attrsOf, Ne.symm h]

theorem coat_upsertNode_lay (r : ShareReplica) (k : NodeKey) (a : Attr) (p j : NodeKey) :
    (r.upsertNode k a p).coat j =
      ((r.coat j).1.lay (attrsOf j [(k, a)]),
        (r.coat j).2 || (attrsOf j [(k, a)]).any Attr.hasSide) := by
  by_cases hj : j = k
  · rw [hj, coat_upsertNode, attrsOf_self, any_cons, any_nil, Bool.or_false]
    rfl
  · rw [coat_upsertNode_of_ne r a p hj, attrsOf_of_ne hj]
    exact Prod.ext rfl (Bool.or_false _).symm

theorem Repaints.trans (h : Repaints r r' l) (h' : Repaints r' r'' l') :
    Repaints r r'' (l ++ l') := by
  refine ⟨fun k => (h'.frame k).trans (h.frame k), h'.pending.trans h.pending, fun k => ?_,
    fun k => ?_⟩
  · rw [h'.attrs, h.attrs, attrsOf_append]
    exact foldl_append.symm
  · rw [h'.side, h.side, attrsOf_append, any_append, Bool.or_assoc]

theorem Repaints.of_tables (hshards : r'.shards = r.shards) (hsym : r'.symlinks = r.symlinks)
    (hrdev : r'.rdevs = r.rdevs) (hpend : r'.pending = r.pending) : Repaints r r' [] := by
  have hcoat : ∀ k, r'.coat k = r.coat k := fun k => by simp only [coat, hshards, hsym, hrdev]
  refine ⟨fun k => by rw [ShareReplica.frame, hshards, ShareReplica.frame], hpend, fun k => ?_,
    fun k => ?_⟩
  · rw [hcoat]
    rfl
  · rw [hcoat]
    exact (Bool.or_false _).symm

theorem Repaints.refl (r : ShareReplica) : Repaints r r [] := .of_tables rfl rfl rfl rfl

theorem modifyNode_repaints {f : Node → Node} (h : ∀ n, r.shards.lookup k = some n → f n = n) :
    Repaints r (r.modifyNode k f) [] := by
  unfold modifyNode
  split
  · rename_i n hn
    have hsame : r.shards.insert k (f n) = r.shards := by
      rw [h n hn]
      refine Finmap.ext_lookup fun j => ?_
      rw [lookup_insert_ite]
      split_ifs with hj
      · rw [hj, hn]
      · rfl
    exact .of_tables hsame rfl rfl rfl
  · exact .refl r

theorem upsertNode_repaints {a : Attr} (hk : r.live k) (hdir : a.kind = .dir → r.isDir k)
    (p : NodeKey) : Repaints r (r.upsertNode k a p) [(k, a)] := by
  obtain ⟨n, hn⟩ := live_iff.mp hk
  refine ⟨fun j => ?_, ?_, fun j => by rw [coat_upsertNode_lay], fun j => by rw [coat_upsertNode_lay]⟩
  · rw [frame, upsertNode_shards, lookup_insert_ite]
    split_ifs with hj
    · have hkeep : ¬ (a.kind = .dir ∧ n.dir = none) := by
        rintro ⟨ha, hnone⟩
        have := hdir ha
        simp [isDir, dirOf, hn, hnone] at this
      rw [hj, frame, hn, upserted, hn]
      simp only [map_some, refresh, if_neg hkeep]
      rfl
    · rfl
  · unfold upsertNode
    dsimp only
    split <;> rfl

theorem setDir_repaints {t : DirState} (h : r.dirOf p = some t) : Repaints r (r.setDir p t) [] := by
  refine modifyNode_repaints fun n hn => ?_
  obtain ⟨n', hn', ht⟩ := dirOf_eq_some.mp h
  obtain rfl : n = n' := mem_unique hn hn'
  rw [← ht]

theorem markDirComplete_repaints {t : DirState} (h : r.dirOf k = some t) (ht : t.complete = true) :
    Repaints r (r.markDirComplete k) [] := by
  refine modifyNode_repaints fun n hn => ?_
  obtain ⟨n', hn', hdir⟩ := dirOf_eq_some.mp h
  obtain rfl : n = n' := mem_unique hn hn'
  have hsame : { t with complete := true } = t := by
    cases t
    cases ht
    rfl
  rw [hdir, map_some, hsame, ← hdir]

theorem entriesAdd_repaints (r : ShareReplica) (delta : Int) : Repaints r (r.entriesAdd delta) [] := by
  unfold entriesAdd
  split <;> exact .of_tables rfl rfl rfl rfl

theorem Repaints.shows (h : Repaints r r' l)
    (hleft : ∀ k a as, r.live k → attrsOf k l = a :: as →
      ∃ (c : Attr) (stash : List Pending), Attr.Settled stash (a :: as) ∧
      (r.coat k).1 = c.overlay ((stash.foldl Attr.after a).lay as) ∧
      ((a :: as).any Attr.hasSide → (r.coat k).2)) :
    ShowsSame r r' := by
  refine .of_frames h.frame fun k hk => ?_
  cases hl : attrsOf k l with
  | nil =>
    rw [h.attrs, h.side, hl, any_nil, Bool.or_false]
    rfl
  | cons a as =>
    obtain ⟨c, stash, hsettled, hattr, hside⟩ := hleft k a as hk hl
    have hside' : (r'.coat k).2 = (r.coat k).2 := by
      rw [h.side, hl]
      cases hb : (r.coat k).2 with
      | true => rfl
      | false =>
        cases ha : (a :: as).any hasSide with
        | true => exact absurd (hside ha) (by rw [hb]; exact Bool.false_ne_true)
        | false => rfl
    rw [h.attrs, hl, hside', hattr, lay_overlay]
    exact shown_overlay (hsettled _ rfl) _

end

structure InPlace (r : ShareReplica) (p : NodeKey) (e : SnapEntry) : Prop where
  live : r.live e.node
  table : e.attr.kind = .dir → ∃ t, r.dirOf e.node = some t ∧ t.complete = true
  entry : ∀ t, r.dirOf p = some t → t.find e.name = some (e.node, e.attr.kind)

section

variable {r r' s : ShareReplica} {p : NodeKey} {e : SnapEntry}

theorem InPlace.of_frames (h : InPlace r p e) (hframe : ∀ k, r'.frame k = r.frame k) :
    InPlace r' p e where
  live := by rw [live_of_frame (hframe _)]; exact h.live
  table ha := by rw [dirOf_of_frame (hframe _)]; exact h.table ha
  entry t ht := h.entry t (by rw [← dirOf_of_frame (hframe p)]; exact ht)

theorem dentrySet_repaints (h : ∀ t, r.dirOf p = some t → t.find e.name = some (e.node, e.attr.kind)) :
    Repaints r (r.dentrySet p e.name e.node e.attr.kind) [] := by
  cases hp : r.dirOf p with
  | none =>
    rw [dentrySet, hp]
    exact .refl r
  | some t =>
    have hfill : t.fill [e] = ⟨t, 0, [], []⟩ :=
      fill_again fun e' he' => by rw [mem_singleton.mp he']; exact h t hp
    rw [dentrySet_fill hp, hfill]
    show Repaints r ((r.setDir p t).entriesAdd 0) []
    exact (setDir_repaints hp).trans (entriesAdd_repaints _ _)

theorem created_repaints (h : InPlace r p e) (hpend : r.pending.lookup e.node = none) :
    Repaints r (r.applyRec (.created p e.name e.node (some e.attr))).1 [(e.node, e.attr)] := by
  have hup : Repaints r (r.createNode e.node e.attr p) [(e.node, e.attr)] := by
    have hup := upsertNode_repaints (a := e.attr) h.live (fun ha => by
      obtain ⟨t, ht, -⟩ := h.table ha
      rw [isDir, ht]
      rfl) p
    rw [createNode, drainPending, hup.pending, hpend]
    exact hup
  have hmark : Repaints r (if e.attr.kind = .dir then (r.createNode e.node e.attr p).markDirComplete
      e.node else r.createNode e.node e.attr p) [(e.node, e.attr)] := by
    split_ifs with ha
    · obtain ⟨t, ht, hcomplete⟩ := h.table ha
      rw [← dirOf_of_frame (hup.frame _)] at ht
      exact hup.trans (markDirComplete_repaints ht hcomplete)
    · exact hup
  exact hmark.trans (dentrySet_repaints fun t ht =>
    h.entry t (by rw [← dirOf_of_frame (hmark.frame p)]; exact ht))

def paint (es : List SnapEntry) : List (NodeKey × Attr) := es.map fun e => (e.node, e.attr)

theorem createdBatch_repaints {es : List SnapEntry} (h : ∀ e ∈ es, InPlace r p e)
    (hpend : ∀ e ∈ es, r.pending.lookup e.node = none) :
    Repaints r (r.applyRec (.createdBatch p es)).1 (paint es) := by
  rw [createdBatch_eq]
  induction es generalizing r with
  | nil => exact .refl r
  | cons e es ih =>
    have hfirst := created_repaints (h e (.head _)) (hpend e (.head _))
    have hrest := ih (r := (r.applyRec (.created p e.name e.node (some e.attr))).1)
      (fun e' he' => (h e' (.tail _ he')).of_frames hfirst.frame)
      (fun e' he' => by rw [hfirst.pending]; exact hpend e' (.tail _ he'))
    exact hfirst.trans hrest

end

section

variable (r : ShareReplica) (k : NodeKey)

@[simp] theorem modifyNode_pending (f : Node → Node) : (r.modifyNode k f).pending = r.pending := by
  unfold modifyNode
  split <;> rfl

@[simp] theorem entriesAdd_pending (delta : Int) : (r.entriesAdd delta).pending = r.pending := by
  unfold entriesAdd
  split <;> rfl

@[simp] theorem upsertNode_pending (a : Attr) (p : NodeKey) :
    (r.upsertNode k a p).pending = r.pending := by
  unfold upsertNode
  dsimp only
  split <;> rfl

@[simp] theorem linkDec_pending : (r.linkDec k).pending = r.pending := by
  rw [linkDec, settle, foldl_same pending forget_pending]

theorem dentrySet_pending (p : NodeKey) (x : Name) (kind : Kind) :
    (r.dentrySet p x k kind).pending = r.pending := by
  unfold dentrySet
  split
  · rfl
  · dsimp only
    rw [foldl_same pending linkDec_pending]
    split <;> simp [linkInc, setDir]

theorem drainPending_lookup (j : NodeKey) :
    (r.drainPending k).pending.lookup j = if j = k then none else r.pending.lookup j := by
  have hpend : ∀ (r : ShareReplica) (p : Pending), (r.applyPending k p).pending = r.pending := by
    intro r p
    cases p with
    | attr a => exact modifyNode_pending ..
    | content version size mtime => exact modifyNode_pending ..
  unfold drainPending
  cases hp : r.pending.lookup k with
  | none =>
    dsimp only
    split_ifs with hj
    · rw [hj, hp]
    · rfl
  | some items =>
    dsimp only
    rw [foldl_same pending hpend]
    exact lookup_erase_ite ..

end

/-- A `Created` record of a batch in the replica it is applied to, after others of the batch: it drags
none of the nodes created so far along, and does not make the parent a directory late. -/
structure Orderly (r : ShareReplica) (p : NodeKey) (done : List SnapEntry) (e : SnapEntry) : Prop where
  keeps : ∀ e' ∈ done ++ [e], ¬ r.Drags p [e] e'.node
  parent : done ≠ [] → e.node = p → e.attr.kind = .dir → r.isDir p

/-- What the records of a batch applied so far left. -/
structure Left1 (r s : ShareReplica) (p : NodeKey) (done : List SnapEntry) : Prop where
  inPlace : ∀ e ∈ done, InPlace s p e
  pending : ∀ j, s.pending.lookup j = if ∃ e ∈ done, e.node = j then none else r.pending.lookup j
  coat : ∀ j a as, attrsOf j (paint done) = a :: as →
    ∃ c : Attr, (s.coat j).1 =
        c.overlay ((((r.pending.lookup j).getD []).foldl Attr.after a).lay as) ∧
      ((a :: as).any Attr.hasSide → (s.coat j).2)

section

variable {r s : ShareReplica} {p : NodeKey} {e : SnapEntry} {done : List SnapEntry}

/-- The replica between the node of a `Created` record and its dentry. -/
def known (r : ShareReplica) (p : NodeKey) (e : SnapEntry) : ShareReplica :=
  if e.attr.kind = .dir then (r.createNode e.node e.attr p).markDirComplete e.node
  else r.createNode e.node e.attr p

section

variable (r : ShareReplica) (p : NodeKey) (e : SnapEntry)

theorem created_known_eq :
    (r.applyRec (.created p e.name e.node (some e.attr))).1 =
      (r.known p e).dentrySet p e.name e.node e.attr.kind := rfl

theorem known_same : SameTree (r.upsertNode e.node e.attr p) (r.known p e) := by
  unfold known
  split
  · exact (drainPending_same ..).trans (markDirComplete_same ..)
  · exact drainPending_same ..

theorem known_live (j : NodeKey) : (r.known p e).live j ↔ j = e.node ∨ r.live j :=
  view_live ((known_same r p e).view.trans (upsertNode_view ..)) j

theorem known_graph : SameGraph r (r.known p e) :=
  (upsertNode_graph ..).trans (known_same r p e).graph

theorem known_entry (d : NodeKey) (x : Name) : (r.known p e).entry d x = r.entry d x :=
  view_entry ((known_same r p e).view.trans (upsertNode_view ..)) d x

theorem known_root : (r.known p e).root = r.root := by
  rw [root, (known_same r p e).info, upsertNode_info, root]

theorem known_pending (j : NodeKey) :
    (r.known p e).pending.lookup j = if j = e.node then none else r.pending.lookup j := by
  have hcreate : (r.createNode e.node e.attr p).pending.lookup j =
      if j = e.node then none else r.pending.lookup j := by
    rw [createNode, drainPending_lookup, upsertNode_pending]
  unfold known
  split
  · rw [markDirComplete, modifyNode_pending, hcreate]
  · exact hcreate

end

variable {j : NodeKey} {es : List SnapEntry}

theorem known_calm (r : ShareReplica) (p : NodeKey) (h : j ≠ e.node) : Calm j r (r.known p e) :=
  (createNode_calm r e.attr p (Ne.symm h)).trans (Calm.ite _ (markDirComplete_calm _))

theorem known_coat (r : ShareReplica) (p : NodeKey) (e : SnapEntry) :
    ((r.known p e).coat e.node).1 = (r.coat e.node).1.overlay
        (((r.pending.lookup e.node).getD []).foldl Attr.after e.attr) ∧
      (((r.coat e.node).2 || e.attr.hasSide) → ((r.known p e).coat e.node).2) := by
  have hcalm : Calm e.node (r.createNode e.node e.attr p) (r.known p e) :=
    Calm.ite _ (markDirComplete_calm _)
  rw [hcalm.coat ((known_live r p e _).mpr (.inl rfl))]
  exact coat_createNode ..

theorem known_dirOf (r : ShareReplica) (p : NodeKey) (e : SnapEntry) (j : NodeKey) :
    (r.known p e).dirOf j =
      if j = e.node ∧ e.attr.kind = .dir
      then some { (r.dirOf j).getD .new with complete := true } else r.dirOf j := by
  have hcreate : (r.createNode e.node e.attr p).dirOf j = if j = e.node
      then (r.dirOf e.node).or (if e.attr.kind = .dir then some DirState.new else none)
      else r.dirOf j := by
    rw [createNode, dirOf_drainPending, dirOf_upsertNode]
  unfold known
  by_cases ha : e.attr.kind = .dir
  · rw [if_pos ha] at hcreate ⊢
    by_cases hj : j = e.node
    · rw [if_pos hj] at hcreate
      subst hj
      have hold : (r.createNode e.node e.attr p).dirOf e.node =
          some ((r.dirOf e.node).getD .new) := by
        rw [hcreate]
        cases r.dirOf e.node with
        | none => rfl
        | some t => rfl
      rw [if_pos ⟨rfl, ha⟩, dirOf_markDirComplete hold]
    · rw [if_neg hj] at hcreate
      rw [if_neg fun h => hj h.1, ← hcreate, dirOf, markDirComplete, lookup_modifyNode, if_neg hj]
      rfl
  · rw [if_neg ha] at hcreate ⊢
    rw [if_neg fun h => ha h.2, hcreate, or_none]
    split_ifs with hj
    · rw [hj]
    · rfl

/-- What setting the dentry of a node that is known by then leaves: the nodes not dragged along, with
the one table changed. -/
theorem dentrySet_leaves {s₁ : ShareReplica} (hgraph : SameGraph s s₁) (hroot : s₁.root = s.root)
    (hlive : ∀ j, s₁.live j → j = e.node ∨ s.live j) (hentry : ∀ x, s₁.entry p x = s.entry p x) :
    (∀ j, s₁.live j → ¬ s.Drags p [e] j → (s₁.dentrySet p e.name e.node e.attr.kind).live j) ∧
      ∀ j, (s₁.dentrySet p e.name e.node e.attr.kind).live j →
        (s₁.dentrySet p e.name e.node e.attr.kind).dirOf j = if j = p
          then (s₁.dirOf p).map fun t => (t.upsert e.name e.node e.attr.kind).1 else s₁.dirOf j := by
  cases hp : s₁.dirOf p with
  | none =>
    have hsame : s₁.dentrySet p e.name e.node e.attr.kind = s₁ := by simp only [dentrySet, hp]
    rw [hsame]
    refine ⟨fun j hj _ => hj, fun j _ => ?_⟩
    split_ifs with hjp
    · rw [hjp, hp]
      rfl
    · rfl
  | some t =>
    rw [dentrySet_fill hp]
    refine ⟨fun j hj hdrags => ?_, fun j hj => ?_⟩
    · refine filled_survives hp (nodup_singleton _) rfl hgraph hroot (fun i hi => ?_) hentry hj
        hdrags
      rcases hlive i hi with rfl | hi
      · exact .inr (.inr ⟨e, mem_singleton_self e, rfl⟩)
      · exact .inl hi
    · rw [foldl_linkDec_dirOf hj, filled_dirOf hp]
      rfl

theorem attrsOf_paint_eq_nil : attrsOf j (paint es) = [] ↔ ¬ ∃ e ∈ es, e.node = j := by
  simp [attrsOf, paint, filter_eq_nil_iff]

theorem exists_of_attrsOf_paint {a : Attr} {as : List Attr} (h : attrsOf j (paint es) = a :: as) :
    ∃ e ∈ es, e.node = j := by
  by_contra hnone
  rw [attrsOf_paint_eq_nil.mpr hnone] at h
  cases h

theorem Left1.coat_step (h : Left1 r s p done)
    (hlive : ∀ e' ∈ done ++ [e],
      ((s.known p e).dentrySet p e.name e.node e.attr.kind).live e'.node) {a : Attr} {as : List Attr}
    (hj : attrsOf j (paint (done ++ [e])) = a :: as) :
    ∃ c : Attr, (((s.known p e).dentrySet p e.name e.node e.attr.kind).coat j).1 =
        c.overlay ((((r.pending.lookup j).getD []).foldl Attr.after a).lay as) ∧
      ((a :: as).any Attr.hasSide →
        (((s.known p e).dentrySet p e.name e.node e.attr.kind).coat j).2) := by
  have hnew : attrsOf j (paint (done ++ [e])) =
      attrsOf j (paint done) ++ attrsOf j [(e.node, e.attr)] := by
    rw [paint, map_append, attrsOf_append]
    rfl
  rw [hnew] at hj
  by_cases hje : j = e.node
  · subst hje
    rw [attrsOf_self] at hj
    have hcalm : Calm e.node (s.known p e)
      ((s.known p e).dentrySet p e.name e.node e.attr.kind) := dentrySet_calm ..
    rw [hcalm.coat (hlive e (mem_append_right _ (mem_singleton_self e)))]
    obtain ⟨hattr, hside⟩ := known_coat s p e
    cases hl : attrsOf e.node (paint done) with
    | nil =>
      rw [hl, nil_append] at hj
      obtain ⟨rfl, rfl⟩ := cons_eq_cons.mp hj
      rw [h.pending, if_neg (attrsOf_paint_eq_nil.mp hl)] at hattr
      refine ⟨_, hattr, fun hany => hside ?_⟩
      rw [any_cons, any_nil, Bool.or_false] at hany
      rw [hany, Bool.or_true]
    | cons a₀ as₀ =>
      rw [hl, cons_append] at hj
      obtain ⟨rfl, rfl⟩ := cons_eq_cons.mp hj
      obtain ⟨c, hc, hside₀⟩ := h.coat _ _ _ hl
      rw [h.pending, if_pos (exists_of_attrsOf_paint hl), hc] at hattr
      refine ⟨c, ?_, fun hany => hside ?_⟩
      · rw [hattr, lay_append]
        exact overlay_assoc ..
      rw [← cons_append, any_append, Bool.or_eq_true] at hany
      rw [Bool.or_eq_true]
      rcases hany with hany | hany
      · exact .inl (hside₀ hany)
      · rw [any_cons, any_nil, Bool.or_false] at hany
        exact .inr hany
  · rw [attrsOf_of_ne hje, append_nil] at hj
    obtain ⟨e', he', rfl⟩ := exists_of_attrsOf_paint hj
    have hcalm : Calm e'.node s ((s.known p e).dentrySet p e.name e.node e.attr.kind) :=
      (known_calm s p hje).trans (dentrySet_calm ..)
    rw [hcalm.coat (hlive e' (mem_append_left _ he'))]
    exact h.coat _ _ _ hj

theorem Left1.step (h : Left1 r s p done) (ho : Orderly s p done e)
    (hname : ∀ e' ∈ done, e'.name ≠ e.name) :
    Left1 r (s.applyRec (.created p e.name e.node (some e.attr))).1 p (done ++ [e]) := by
  obtain ⟨hkeep, hdir⟩ := dentrySet_leaves (e := e) (known_graph s p e) (known_root s p e)
    (fun j hj => (known_live s p e j).mp hj) (fun x => known_entry s p e p x)
  have hpend := dentrySet_pending (s.known p e) e.node p e.name e.attr.kind
  rw [created_known_eq]
  have hlive : ∀ e' ∈ done ++ [e], (s.known p e).live e'.node := by
    intro e' he'
    rw [known_live]
    rcases mem_append.mp he' with he' | he'
    · exact .inr (h.inPlace e' he').live
    · exact .inl (by rw [mem_singleton.mp he'])
  have hlive' : ∀ e' ∈ done ++ [e],
      ((s.known p e).dentrySet p e.name e.node e.attr.kind).live e'.node := fun e' he' =>
    hkeep _ (hlive e' he') (ho.keeps e' he')
  -- a table that is complete stays so
  have htable : ∀ j t, (s.known p e).dirOf j = some t → t.complete = true →
      ((s.known p e).dentrySet p e.name e.node e.attr.kind).live j →
      ∃ t', ((s.known p e).dentrySet p e.name e.node e.attr.kind).dirOf j = some t' ∧
        t'.complete = true := by
    intro j t ht hcomplete hj
    rw [hdir j hj]
    split_ifs with hjp
    · rw [hjp] at ht
      rw [ht]
      exact ⟨_, rfl, by rw [complete_upsert]; exact hcomplete⟩
    · exact ⟨t, ht, hcomplete⟩
  refine ⟨fun e' he' => ⟨hlive' e' he', fun ha => ?_, fun t ht => ?_⟩, fun j => ?_, fun j a as hj => ?_⟩
  · suffices hknown : ∃ t, (s.known p e).dirOf e'.node = some t ∧ t.complete = true by
      obtain ⟨t, ht, hcomplete⟩ := hknown
      exact htable _ t ht hcomplete (hlive' e' he')
    rw [known_dirOf]
    split_ifs with hother
    · exact ⟨_, rfl, rfl⟩
    rcases mem_append_cases he' with he' | rfl
    · exact (h.inPlace e' he').table ha
    · exact absurd ⟨rfl, ha⟩ hother
  · have hp := live_of_isDir (r := (s.known p e).dentrySet p e.name e.node e.attr.kind) (k := p)
      (by rw [isDir, ht]; rfl)
    rw [hdir p hp, if_pos rfl] at ht
    obtain ⟨t₀, ht₀, rfl⟩ := map_eq_some_iff.mp ht
    rw [find_upsert]
    rcases mem_append.mp he' with he' | he'
    · rw [if_neg (hname e' he')]
      rw [known_dirOf] at ht₀
      split_ifs at ht₀ with hself
      · have hisDir := ho.parent (ne_nil_of_mem he') hself.1.symm hself.2
        obtain ⟨t₁, ht₁⟩ := isSome_iff_exists.mp hisDir
        rw [ht₁] at ht₀
        cases ht₀
        exact (h.inPlace e' he').entry t₁ ht₁
      · exact (h.inPlace e' he').entry t₀ ht₀
    · rw [mem_singleton.mp he', if_pos rfl]
  · rw [hpend, known_pending, h.pending]
    by_cases hj : j = e.node
    · rw [if_pos hj, if_pos ⟨e, mem_append_right _ (mem_singleton_self e), hj.symm⟩]
    rw [if_neg hj]
    refine if_congr ⟨?_, ?_⟩ rfl rfl
    · rintro ⟨e', he', rfl⟩
      exact ⟨e', mem_append_left _ he', rfl⟩
    rintro ⟨e', he', rfl⟩
    rcases mem_append.mp he' with he' | he'
    · exact ⟨e', he', rfl⟩
    · exact absurd (by rw [mem_singleton.mp he']) hj
  · exact h.coat_step hlive' hj

def BatchOrderly (r : ShareReplica) (p : NodeKey) (done : List SnapEntry) : List SnapEntry → Prop
  | [] => True
  | e :: es => Orderly r p done e ∧
    BatchOrderly (r.applyRec (.created p e.name e.node (some e.attr))).1 p (done ++ [e]) es

theorem Left1.batch (h : Left1 r s p done) (ho : BatchOrderly s p done es)
    (hnames : ((done ++ es).map SnapEntry.name).Nodup) :
    Left1 r (s.applyRec (.createdBatch p es)).1 p (done ++ es) := by
  rw [createdBatch_eq]
  induction es generalizing s done with
  | nil =>
    rw [append_nil]
    exact h
  | cons e es ih =>
    have hname : ∀ e' ∈ done, e'.name ≠ e.name := by
      rw [map_append, nodup_append] at hnames
      exact fun e' he' => hnames.2.2 _ (mem_map_of_mem he') _ mem_cons_self
    rw [append_cons] at hnames ⊢
    exact ih (h.step ho.1 hname) ho.2 hnames

theorem Left1.nil (r : ShareReplica) (p : NodeKey) : Left1 r r p [] :=
  ⟨fun _ he => absurd he not_mem_nil, fun _ => by simp, nofun⟩

theorem createdBatch_twice (hnames : (es.map SnapEntry.name).Nodup)
    (hstash : ∀ k, Attr.Settled ((r.pending.lookup k).getD []) (attrsOf k (paint es)))
    (ho : BatchOrderly r p [] es) :
    ShowsSame (r.applyRec (.createdBatch p es)).1
      ((r.applyRec (.createdBatch p es)).1.applyRec (.createdBatch p es)).1 := by
  have hleft := (Left1.nil r p).batch ho hnames
  rw [nil_append] at hleft
  have hagain := createdBatch_repaints hleft.inPlace fun e he => by
    rw [hleft.pending, if_pos ⟨e, he, rfl⟩]
  refine hagain.shows fun k a as _ hk => ?_
  obtain ⟨c, hc, hside⟩ := hleft.coat k a as hk
  exact ⟨c, _, hk ▸ hstash k, hc, hside⟩

theorem placeholder_twice {x : Name} {k : NodeKey}
    (hk : ¬ r.Drags p [⟨x, k, placeholderAttr .reg⟩] k) :
    ShowsSame (r.applyRec (.created p x k none)).1
      ((r.applyRec (.created p x k none)).1.applyRec (.created p x k none)).1 := by
  let e : SnapEntry := ⟨x, k, placeholderAttr .reg⟩
  let s₁ := if r.live k then r else r.upsertNode k (placeholderAttr .reg) p
  have hcreated : ∀ r : ShareReplica, (r.applyRec (.created p x k none)).1 =
      (if r.live k then r else r.upsertNode k (placeholderAttr .reg) p).dentrySet p x k .reg :=
    fun r => rfl
  have hs₁ : SameGraph r s₁ ∧ s₁.root = r.root ∧ (∀ j, s₁.live j ↔ j = k ∨ r.live j) ∧
      ∀ x, s₁.entry p x = r.entry p x := by
    by_cases hlive : r.live k
    · have hsame : s₁ = r := if_pos hlive
      rw [hsame]
      exact ⟨.refl r, rfl, fun j => ⟨.inr, fun h => h.elim (fun hj => hj ▸ hlive) id⟩, fun _ => rfl⟩
    have hup : s₁ = r.upsertNode k (placeholderAttr .reg) p := if_neg hlive
    rw [hup]
    exact ⟨upsertNode_graph .., congrArg ShareInfo.root (upsertNode_info ..),
      view_live (upsertNode_view ..), view_entry (upsertNode_view ..) p⟩
  obtain ⟨hgraph, hroot, hlive₁, hentry⟩ := hs₁
  obtain ⟨hkeep, hdir⟩ := dentrySet_leaves (e := e) hgraph hroot (fun j hj => (hlive₁ j).mp hj) hentry
  have hlive : (s₁.dentrySet p x k .reg).live k := hkeep k ((hlive₁ k).mpr (.inl rfl)) hk
  have hfirst : (r.applyRec (.created p x k none)).1 = s₁.dentrySet p x k .reg := hcreated r
  rw [hfirst, hcreated, if_pos hlive]
  refine Repaints.shows (l := []) (dentrySet_repaints (e := e) fun t ht => ?_) fun _ _ _ _ h => by
    cases h
  have hp : (s₁.dentrySet p x k .reg).live p := live_of_isDir (by rw [isDir, ht]; rfl)
  have ht' := hdir p hp
  rw [if_pos rfl] at ht'
  obtain ⟨t₀, -, heq⟩ := map_eq_some_iff.mp (ht'.symm.trans ht)
  rw [← heq, find_upsert, if_pos rfl]

end

section

variable {r : ShareReplica} {d : SnapDir}

/-- The attributes a snapshot record brings, in the order it lays them. -/
def snapPaint (d : SnapDir) : List (NodeKey × Attr) := (d.dir, d.dirAttr) :: paint d.entries

theorem foldl_upsertNode_repaints {es : List SnapEntry} {p : NodeKey} (hlive : ∀ e ∈ es, r.live e.node)
    (hdir : ∀ e ∈ es, e.attr.kind = .dir → r.isDir e.node) :
    Repaints r (es.foldl (fun r e => r.upsertNode e.node e.attr p) r) (paint es) := by
  induction es generalizing r with
  | nil => exact .refl r
  | cons e es ih =>
    have hfirst := upsertNode_repaints (hlive e (.head _)) (hdir e (.head _)) p
    refine hfirst.trans (ih (fun e' he' => ?_) fun e' he' ha => ?_)
    · rw [live_of_frame (hfirst.frame _)]
      exact hlive e' (.tail _ he')
    · rw [isDir, dirOf_of_frame (hfirst.frame _)]
      exact hdir e' (.tail _ he') ha

theorem foldl_upsertNode_coat (es : List SnapEntry) (p : NodeKey) (r : ShareReplica) (k : NodeKey) :
    (es.foldl (fun r e => r.upsertNode e.node e.attr p) r).coat k =
      ((r.coat k).1.lay (attrsOf k (paint es)),
        (r.coat k).2 || (attrsOf k (paint es)).any Attr.hasSide) := by
  induction es generalizing r with
  | nil => exact Prod.ext rfl (Bool.or_false _).symm
  | cons e es ih =>
    have hsplit : attrsOf k (paint (e :: es)) = attrsOf k [(e.node, e.attr)] ++ attrsOf k (paint es) :=
      attrsOf_append k [(e.node, e.attr)] (paint es)
    rw [foldl_cons, ih, hsplit, coat_upsertNode_lay, lay_append, any_append, Bool.or_assoc]

theorem snapNodes_coat (r : ShareReplica) (d : SnapDir) (k : NodeKey) :
    (r.snapNodes d).coat k =
      ((r.coat k).1.lay (attrsOf k (snapPaint d)),
        (r.coat k).2 || (attrsOf k (snapPaint d)).any Attr.hasSide) := by
  have hsplit : attrsOf k (snapPaint d) =
      attrsOf k [(d.dir, d.dirAttr)] ++ attrsOf k (paint d.entries) :=
    attrsOf_append k [(d.dir, d.dirAttr)] (paint d.entries)
  rw [snapNodes, foldl_upsertNode_coat, hsplit, coat_upsertNode_lay, lay_append, any_append, Bool.or_assoc]

theorem foldl_upsertNode_graph (es : List SnapEntry) (p : NodeKey) (r : ShareReplica) :
    SameGraph r (es.foldl (fun r e => r.upsertNode e.node e.attr p) r) :=
  foldlRecOn es _ (.refl r) fun _ h _ _ => h.trans (upsertNode_graph ..)

theorem snapTable_again {t : DirState}
    (h : ∀ e ∈ d.entries, (snapTable d t).find e.name = some (e.node, e.attr.kind)) :
    snapTable d (snapTable d t) = snapTable d t := by
  rw [snapTable, fill_again h]
  cases hlast : d.last with
  | false => rfl
  | true => rw [snapTable, hlast]; rfl

theorem applySnapDir_twice (hkind : d.dirAttr.kind = .dir)
    (hnames : (d.entries.map SnapEntry.name).Nodup)
    (hkeep : ∀ k, (k = d.dir ∨ ∃ e ∈ d.entries, e.node = k) → ¬ r.Drags d.dir d.entries k) :
    ∃ r₁ r₂, r.applySnapDir d = some r₁ ∧ r₁.applySnapDir d = some r₂ ∧ ShowsSame r₁ r₂ := by
  obtain ⟨hinfo, hlive, hisDir, hentry⟩ := r.snapNodes_listed hkind
  obtain ⟨t, ht⟩ := r.snapNodes_table hkind
  have hgraph : SameGraph r (r.snapNodes d) :=
    (upsertNode_graph ..).trans (foldl_upsertNode_graph ..)
  have hfirst := applySnapDir_eq ht
  have hstored : (r.snapNodes d).snapStored d t =
    (r.snapNodes d).filled d.dir (snapTable d t) (t.fill d.entries) := rfl
  rw [hstored] at hfirst
  generalize hr₁ : (t.fill d.entries).toUnlink.foldl linkDec
    ((r.snapNodes d).filled d.dir (snapTable d t) (t.fill d.entries)) = r₁ at hfirst
  -- the record's nodes are there, with the record's table
  have hlive₁ : ∀ k, (k = d.dir ∨ ∃ e ∈ d.entries, e.node = k) → r₁.live k := by
    intro k hk
    rw [← hr₁]
    exact filled_survives ht hnames (snapTable_ents d t) hgraph (congrArg ShareInfo.root hinfo)
      (fun j hj => (hlive j).mp hj) (fun x => hentry d.dir x) ((hlive k).mpr (.inr hk)) (hkeep k hk)
  have hdir₁ : ∀ k, r₁.live k →
      r₁.dirOf k = if k = d.dir then some (snapTable d t) else (r.snapNodes d).dirOf k := by
    intro k hk
    rw [← hr₁] at hk ⊢
    rw [foldl_linkDec_dirOf hk, filled_dirOf ht]
  have ht₁ : r₁.dirOf d.dir = some (snapTable d t) := by
    rw [hdir₁ d.dir (hlive₁ _ (.inl rfl)), if_pos rfl]
  have hfind : ∀ e ∈ d.entries, (snapTable d t).find e.name = some (e.node, e.attr.kind) := by
    intro e he
    rw [find, findEnt, snapTable_ents]
    exact find_fill hnames e he
  -- so the second time the upserts only lay attributes, and the table is as it was
  have hnodes : Repaints r₁ (r₁.snapNodes d) (snapPaint d) := by
    have hroot : Repaints r₁ (r₁.upsertNode d.dir d.dirAttr d.parent) [(d.dir, d.dirAttr)] :=
      upsertNode_repaints (hlive₁ _ (.inl rfl)) (fun _ => by rw [isDir, ht₁]; rfl) _
    refine hroot.trans (foldl_upsertNode_repaints (fun e he => ?_) fun e he ha => ?_)
    · rw [live_of_frame (hroot.frame _)]
      exact hlive₁ _ (.inr ⟨e, he, rfl⟩)
    rw [isDir, dirOf_of_frame (hroot.frame _), hdir₁ _ (hlive₁ _ (.inr ⟨e, he, rfl⟩))]
    split
    · rfl
    · exact (hisDir e.node).mpr (.inr (.inr ⟨e, he, rfl, ha⟩))
  have ht₂ : (r₁.snapNodes d).dirOf d.dir = some (snapTable d t) := by
    rw [dirOf_of_frame (hnodes.frame _)]
    exact ht₁
  have hfill : (snapTable d t).fill d.entries = ⟨snapTable d t, 0, [], []⟩ := fill_again hfind
  have htable : snapTable d (snapTable d t) = snapTable d t := snapTable_again hfind
  have hsecond := applySnapDir_eq ht₂
  rw [snapStored, hfill, htable] at hsecond
  refine ⟨r₁, _, hfirst, hsecond, ?_⟩
  have hagain : Repaints r₁
      (((r₁.snapNodes d).setDir d.dir (snapTable d t)).entriesAdd 0) (snapPaint d ++ []) :=
    hnodes.trans ((setDir_repaints ht₂).trans (entriesAdd_repaints _ _))
  rw [append_nil] at hagain
  refine hagain.shows fun k a as hk hattrs => ?_
  have hcalm : Calm k (r.snapNodes d) r₁ := by
    rw [← hr₁]
    exact (filled_calm ..).trans (foldl_linkDec_calm _ _)
  refine ⟨(r.coat k).1, [], settled_nil _, ?_, fun hany => ?_⟩
  · rw [hcalm.coat hk, snapNodes_coat, hattrs]
    exact lay_overlay ..
  · rw [hcalm.coat hk, snapNodes_coat, hattrs, hany, Bool.or_true]

end

section

variable {r : ShareReplica} {p k : NodeKey}

theorem ShowsSame.refl (r : ShareReplica) : ShowsSame r r :=
  ⟨fun _ _ => rfl, fun _ _ _ => rfl, fun _ => rfl, fun _ => rfl⟩

theorem dentryRemove_again (r : ShareReplica) (p : NodeKey) (x : Name) :
    (r.dentryRemove p x).dentryRemove p x = r.dentryRemove p x := by
  refine dentryRemove_of_none ?_
  by_cases hp : (r.dentryRemove p x).live p
  · rw [(dentryRemove_left r p x).entry p hp]
    exact if_pos ⟨rfl, rfl⟩
  · rw [live, not_isSome_iff_eq_none] at hp
    rw [entry, dirOf, hp]
    rfl

theorem modifyNode_again {f : Node → Node} (hf : ∀ n, f (f n) = f n) {s : ShareReplica} (h : s.shards = (r.modifyNode k f).shards) :
    (s.modifyNode k f).shards = s.shards := by
  cases hn : r.shards.lookup k with
  | none =>
    have hs : s.shards.lookup k = none := by rw [h, lookup_modifyNode, if_pos rfl, hn]; rfl
    simp only [modifyNode, hs]
  | some n =>
    have hs : s.shards = r.shards.insert k (f n) := by simp only [h, modifyNode, hn]
    simp only [modifyNode, hs, Finmap.lookup_insert, Finmap.insert_insert, hf]

theorem content_tables (r : ShareReplica) (k : NodeKey) (version size : UInt64) (mtime : Ts)
    (inProgress : Bool) :
    let r' := (r.applyRec (.content k version size mtime inProgress)).1
    r'.shards = (r.updateContent k version size mtime).1.shards ∧ r'.symlinks = r.symlinks ∧
      r'.rdevs = r.rdevs := by
  have hside : (r.updateContent k version size mtime).1.symlinks = r.symlinks ∧
      (r.updateContent k version size mtime).1.rdevs = r.rdevs := by
    unfold updateContent modifyNode
    split <;> exact ⟨rfl, rfl⟩
  dsimp only [applyRec]
  split <;> exact ⟨rfl, hside⟩

theorem content_twice (r : ShareReplica) (k : NodeKey) (version size : UInt64) (mtime : Ts)
    (inProgress : Bool) :
    ShowsSame (r.applyRec (.content k version size mtime inProgress)).1
      ((r.applyRec (.content k version size mtime inProgress)).1.applyRec
        (.content k version size mtime inProgress)).1 := by
  obtain ⟨hshards, -, -⟩ := content_tables r k version size mtime inProgress
  obtain ⟨hshards', hsym, hrdev⟩ := content_tables
    (r.applyRec (.content k version size mtime inProgress)).1 k version size mtime inProgress
  have hagain := modifyNode_again (f := fun n => { n with size, mtime, contentVersion := version })
    (fun _ => rfl) hshards
  exact .of_tables (hshards'.trans hagain) hsym hrdev

theorem noteSide_again {s : ShareReplica} {a : Attr}
    (hsym : s.symlinks = (r.noteSide k a).1.symlinks) (hrdev : s.rdevs = (r.noteSide k a).1.rdevs) :
    (s.noteSide k a).1.symlinks = s.symlinks ∧ (s.noteSide k a).1.rdevs = s.rdevs := by
  constructor
  · cases ht : a.symlinkTarget with
    | none => simp only [noteSide, ht]
    | some t => simp only [noteSide, ht, hsym, Finmap.insert_insert]
  · by_cases ha : a.rdev = 0
    · simp only [noteSide, ha, ne_eq, not_true_eq_false, if_false]
    · simp only [noteSide, ha, ne_eq, not_false_eq_true, if_true, hrdev, Finmap.insert_insert]

def laid (a : Attr) (n : Node) : Node := { n.setAttr a with hasSide := n.hasSide || a.hasSide }

theorem attrChanged_tables (r : ShareReplica) (k : NodeKey) (a : Attr) :
    let r' := (r.applyRec (.attrChanged k a)).1
    r'.shards = (r.modifyNode k (laid a)).shards ∧ r'.symlinks = (r.noteSide k a).1.symlinks ∧
      r'.rdevs = (r.noteSide k a).1.rdevs := by
  have hup : (r.updateAttr k a).1.shards = (r.modifyNode k (laid a)).shards ∧
      (r.updateAttr k a).1.symlinks = (r.noteSide k a).1.symlinks ∧
      (r.updateAttr k a).1.rdevs = (r.noteSide k a).1.rdevs := by
    have hshards : (r.noteSide k a).1.shards = r.shards := rfl
    cases hn : r.shards.lookup k with
    | none => simp only [updateAttr, modifyNode, hshards, hn, and_self]
    | some n =>
      simp only [updateAttr, modifyNode, hshards, hn, and_self, and_true]
      rfl
  dsimp only [applyRec]
  split <;> exact hup

theorem attrChanged_twice (r : ShareReplica) (k : NodeKey) (a : Attr) :
    ShowsSame (r.applyRec (.attrChanged k a)).1
      ((r.applyRec (.attrChanged k a)).1.applyRec (.attrChanged k a)).1 := by
  have hlaid : ∀ n, laid a (laid a n) = laid a n := by
    intro n
    simp only [laid, setAttr, Bool.or_assoc, Bool.or_self]
  obtain ⟨hshards, hsym, hrdev⟩ := attrChanged_tables r k a
  obtain ⟨hshards', hsym', hrdev'⟩ := attrChanged_tables (r.applyRec (.attrChanged k a)).1 k a
  obtain ⟨hsame, hsame'⟩ := noteSide_again hsym hrdev
  exact .of_tables (hshards'.trans (modifyNode_again hlaid hshards)) (hsym'.trans hsame)
    (hrdev'.trans hsame')

end

/-- The record's own nodes stay when it displaces others, and what the stash holds for them is no
older than what it brings. -/
def Settles (r : ShareReplica) : Feed → Prop
  | .snap d => ∀ k, (k = d.dir ∨ ∃ e ∈ d.entries, e.node = k) → ¬ r.Drags d.dir d.entries k
  | .record (.created p x k none) => ¬ r.Drags p [⟨x, k, placeholderAttr .reg⟩] k
  | .record (.created p x k (some a)) =>
    Attr.Settled ((r.pending.lookup k).getD []) [a] ∧ ¬ r.Drags p [⟨x, k, a⟩] k
  | .record (.createdBatch p es) =>
    (∀ k, Attr.Settled ((r.pending.lookup k).getD []) (attrsOf k (paint es))) ∧
      BatchOrderly r p [] es
  | _ => True

theorem not_drags_of_loses {r : ShareReplica} {p k : NodeKey} {es : List SnapEntry}
    (h : r.loses p es = []) : ¬ r.Drags p es k := by
  rintro ⟨seq, hk, hfalls⟩
  cases seq with
  | nil => cases hk
  | cons j rest =>
    obtain ⟨-, -, -, hpos, -⟩ := hfalls
    rw [h] at hpos
    cases hpos

theorem created_twice {r : ShareReplica} {p k : NodeKey} {x : Name} {a : Attr}
    (hstash : Attr.Settled ((r.pending.lookup k).getD []) [a]) (hk : ¬ r.Drags p [⟨x, k, a⟩] k) :
    ShowsSame (r.applyRec (.created p x k (some a))).1
      ((r.applyRec (.created p x k (some a))).1.applyRec (.created p x k (some a))).1 := by
  show ShowsSame (r.applyRec (.createdBatch p [⟨x, k, a⟩])).1
    ((r.applyRec (.createdBatch p [⟨x, k, a⟩])).1.applyRec (.createdBatch p [⟨x, k, a⟩])).1
  refine createdBatch_twice (nodup_singleton _) (fun j => ?_)
    ⟨⟨fun e he => ?_, fun h => absurd rfl h⟩, trivial⟩
  · by_cases hj : j = k
    · rw [hj, paint, map_singleton, attrsOf_self]
      exact hstash
    · rw [paint, map_singleton, attrsOf_of_ne hj]
      exact fun _ hnone => absurd hnone (not_mem_none _)
  · rw [nil_append, mem_singleton] at he
    rw [he]
    exact hk

end ShareReplica

/-- The records that say how things are, so that they can be sent again. -/
def Feed.repeatable : Feed → Bool
  | .snap _ => true
  | .record (.created ..) => true
  | .record (.createdBatch ..) => true
  | .record (.removed ..) => true
  | .record (.attrChanged ..) => true
  | .record (.content ..) => true
  | _ => false

def Feed.names : Feed → List Name
  | .snap d => d.entries.map SnapEntry.name
  | .record (.createdBatch _ es) => es.map SnapEntry.name
  | _ => []

/-- A record applied twice in a row shows what it shows applied once. -/
theorem ShareReplica.feed_twice (r : ShareReplica) (f : Feed) (hvalid : f.valid r.info.id)
    (hkind : f.repeatable) (hnames : f.names.Nodup) (h : r.Settles f) :
    ∃ r₁ r₂, r.feed f = some r₁ ∧ r₁.feed f = some r₂ ∧ ShowsSame r₁ r₂ := by
  cases f with
  | snap d =>
    obtain ⟨-, hok⟩ := Bool.and_eq_true_iff.mp hvalid
    exact applySnapDir_twice (SnapDir.dir_of_validate hok) hnames h
  | record rec =>
    refine ⟨_, _, rfl, rfl, ?_⟩
    cases rec with
    | created p x k attr =>
      cases attr with
      | none => exact placeholder_twice h
      | some a => exact created_twice h.1 h.2
    | createdBatch p es => exact createdBatch_twice hnames h.1 h.2
    | removed p x =>
      show ShowsSame (r.dentryRemove p x) ((r.dentryRemove p x).dentryRemove p x)
      rw [dentryRemove_again]
      exact .refl _
    | attrChanged k a => exact attrChanged_twice r k a
    | content k version size mtime inProgress => exact content_twice r k version size mtime inProgress
    | renamed | selfRemoved | overflow | echoMarker => cases hkind

theorem ShareReplica.feed_twice_sized :
    ∃ r r₁ r₂ : ShareReplica,
      Runs.Reaches ShareReplica.feedValid (fun _ _ => True) (ShareReplica.new ⟨⟨1⟩, ⟨2, 1⟩⟩) r ∧
        (r.pending.lookup ⟨4, 1⟩).isSome ∧
        r.feed (.record (.created ⟨2, 1⟩ (.letter 'g') ⟨4, 1⟩
          (some { placeholderAttr .reg with size := 5 }))) = some r₁ ∧
        r₁.feed (.record (.created ⟨2, 1⟩ (.letter 'g') ⟨4, 1⟩
          (some { placeholderAttr .reg with size := 5 }))) = some r₂ ∧ ShowsSame r₁ r₂ := by
  have hrun : ∃ r, Reaches feedValid (fun _ _ => True)
        (new ⟨⟨1⟩, ⟨2, 1⟩⟩) r ∧
      (r.pending.lookup ⟨4, 1⟩).isSome ∧
        Settled ((r.pending.lookup ⟨4, 1⟩).getD []) [{ placeholderAttr .reg with size := 5 }] ∧
        r.loses ⟨2, 1⟩ [⟨.letter 'g', ⟨4, 1⟩, { placeholderAttr .reg with size := 5 }⟩] = [] :=
    Reaches.exists_of_guarded
      [.listing ⟨1⟩ ⟨2, 1⟩ ⟨2, 1⟩ [(.letter 'f', ⟨3, 1⟩, .reg)],
       .record (.content ⟨4, 1⟩ 7 5 ⟨0, 0⟩ false)]
      (by decide +kernel)
  obtain ⟨r, hr, hstash, hsettled, hloses⟩ := hrun
  obtain ⟨r₁, r₂, h₁, h₂, hsame⟩ := feed_twice r
    (.record (.created ⟨2, 1⟩ (.letter 'g') ⟨4, 1⟩ (some { placeholderAttr .reg with size := 5 })))
    rfl rfl nodup_nil ⟨hsettled, not_drags_of_loses hloses⟩
  exact ⟨r, r₁, r₂, hr, hstash, h₁, h₂, hsame⟩

/-- A `Content` record waits for its node; the `Created` record shows the waiting size, and sent
again its own. -/
theorem ShareReplica.feed_twice_early :
    ∃ (r : ShareReplica) (f : Feed),
      Runs.Reaches ShareReplica.feedValid (fun _ _ => True) (ShareReplica.new ⟨⟨1⟩, ⟨2, 1⟩⟩) r ∧
        f.valid r.info.id ∧ f.repeatable ∧ f.names.Nodup ∧
        ¬ ∃ r₁ r₂, r.feed f = some r₁ ∧ r₁.feed f = some r₂ ∧ ShowsSame r₁ r₂ := by
  let f : Feed := .record (.created ⟨2, 1⟩ (.letter 'f') ⟨4, 1⟩ (some (placeholderAttr .reg)))
  have hrun : ∃ r, Reaches feedValid (fun _ _ => True)
        (new ⟨⟨1⟩, ⟨2, 1⟩⟩) r ∧
      f.valid r.info.id ∧ ∀ r₁ ∈ r.feed f, ∀ r₂ ∈ r₁.feed f, r₂.getattr ⟨4, 1⟩ ≠ r₁.getattr ⟨4, 1⟩ :=
    Reaches.exists_of_guarded
      [.listing ⟨1⟩ ⟨2, 1⟩ ⟨2, 1⟩ [], .record (.content ⟨4, 1⟩ 7 5 ⟨0, 0⟩ false)]
      (by decide +kernel)
  obtain ⟨r, hr, hvalid, hdiffer⟩ := hrun
  refine ⟨r, f, hr, hvalid, rfl, nodup_nil, ?_⟩
  rintro ⟨r₁, r₂, h₁, h₂, hsame⟩
  exact hdiffer r₁ h₁ r₂ h₂ (hsame.getattr _)

end Mist
