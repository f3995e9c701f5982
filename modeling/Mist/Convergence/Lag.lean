import Mist.Convergence.Ahead
import Mist.Convergence.Live
import Mist.Mistd.Fanotify

/-! Live convergence with an event reader that lags behind the kernel's queue. -/

namespace Mist

open ShareReplica List ParsedEvent Mist.Tree

/-- What a share that is a whole mount answers while the guest's tree is `T`. -/
noncomputable def Tree.now (T : Tree) : ShareNow where
  subtree := false
  statEntry d x := (T.entry d x).map fun k => (k, T.attr k)
  statNode k := open Classical in if T.Live k then some (T.attr k) else none
  belowMount _ := true

theorem contains_now (T : Tree) (vs : VersionState) (dir : NodeKey) :
    vs.contains T.now dir = (true, vs) :=
  contains_whole rfl vs dir

def onDir (isDir : Bool) : UInt64 := if isDir then FAN_ONDIR else 0

theorem mask_create : ∀ b, (FAN_CREATE ||| onDir b) &&& FAN_RENAME = 0 ∧
    (FAN_CREATE ||| onDir b) &&& FAN_CREATE ≠ 0 := by decide

theorem mask_delete : ∀ b, (FAN_DELETE ||| onDir b) &&& FAN_RENAME = 0 ∧
    (FAN_DELETE ||| onDir b) &&& FAN_CREATE = 0 ∧
    (FAN_DELETE ||| onDir b) &&& (FAN_DELETE ||| FAN_MOVED_FROM) ≠ 0 := by decide

theorem mask_rename : ∀ b, (FAN_RENAME ||| onDir b) &&& FAN_RENAME ≠ 0 := by decide

theorem mask_deleteSelf : ∀ b, (FAN_DELETE_SELF ||| onDir b) &&& FAN_RENAME = 0 ∧
    (FAN_DELETE_SELF ||| onDir b) &&& FAN_DELETE_SELF ≠ 0 := by decide

/-- The event the kernel queues for an operation on names. -/
inductive Op.Event : Op → ParsedEvent → Prop
  | create {d x k a} (isDir : Bool) (pid : Int32) (fid : Option FidName) :
    Event (.create d x k a)
      { mask := FAN_CREATE ||| onDir isDir, pid, fid, dfidName := some ⟨some d, some x.bytes⟩ }
  | unlink {d x} (isDir : Bool) (pid : Int32) (fid : Option FidName) :
    Event (.unlink d x)
      { mask := FAN_DELETE ||| onDir isDir, pid, fid, dfidName := some ⟨some d, some x.bytes⟩ }
  | rename {d x e y} (isDir : Bool) (pid : Int32) (fid dfidName : Option FidName) :
    Event (.rename d x e y)
      { mask := FAN_RENAME ||| onDir isDir, pid, fid, dfidName,
        old := some ⟨some d, some x.bytes⟩, new := some ⟨some e, some y.bytes⟩ }

/-- The event of a node that is gone for good. -/
inductive SelfEvent (k : NodeKey) : ParsedEvent → Prop
  | mk (isDir : Bool) (pid : Int32) (name : Option (List UInt8)) (dfidName : Option FidName) :
    dfidName.bind nameOf = none →
    SelfEvent k
      { mask := FAN_DELETE_SELF ||| onDir isDir, pid, fid := some ⟨some k, name⟩, dfidName }

section

variable {T : Tree} {d e k : NodeKey} {x y : Name} {a : Attr} {ev : ParsedEvent} (vs : VersionState)

theorem createdRec_gone (h : T.entry d x = none) : createdRec T.now d x = [] := by
  simp only [createdRec, now, h, Option.map_none]

theorem createdRec_found (h : T.entry d x = some k) :
    createdRec T.now d x = [.created d x k (some (T.attr k))] := by
  simp only [createdRec, now, h, Option.map_some]

theorem synthesize_create (h : (Op.create d x k a).Event ev) :
    synthesize ev T.now vs = (createdRec T.now d x, vs) := by
  cases h with
  | create isDir pid fid =>
    simp [synthesize, has, mask_create, nameOf_name, contains_now]

theorem synthesize_unlink (h : (Op.unlink d x).Event ev) :
    synthesize ev T.now vs = ([.removed d x], vs) := by
  cases h with
  | unlink isDir pid fid =>
    simp [synthesize, has, mask_delete, nameOf_name, contains_now]

theorem synthesize_rename (h : (Op.rename d x e y).Event ev) :
    synthesize ev T.now vs = ([.renamed d x e y], vs) := by
  cases h with
  | rename isDir pid fid dfidName =>
    simp [synthesize, synthesizeRename, has, mask_rename, nameOf_name, contains_now]

theorem synthesize_self (h : SelfEvent k ev) : synthesize ev T.now vs = ([.selfRemoved k], vs) := by
  cases h with
  | mk isDir pid name dfidName hname =>
    simp [synthesize, synthesizeObject, has, mask_deleteSelf, hname, contains_now]

end

/-- The reader with `pos` operations' events behind it, and the replica its records went to. -/
structure Reader where
  pos : Nat
  replica : ShareReplica
  versions : VersionState

noncomputable def Reader.read (s : Reader) (T : Tree) (ops : List Op) (m : Nat) (ev : ParsedEvent)
    (pos : Nat) : Reader :=
  let out := synthesize ev (T.moment ops m).now s.versions
  { pos, replica := s.replica.replay out.1, versions := out.2 }

/-- One event is read: the next operation's, at any moment after the operation, or that of a node
that went before.  `ok` restricts the steps that are taken. -/
inductive ReadStep (T : Tree) (ops : List Op) (ok : Reader → Nat → Op → Prop) :
    Reader → Reader → Prop
  | op {s : Reader} {m : Nat} {op : Op} {ev : ParsedEvent} : ops[s.pos]? = some op → op.Event ev →
    s.pos < m → m ≤ ops.length → ok s m op → ReadStep T ops ok s (s.read T ops m ev (s.pos + 1))
  | gone {s : Reader} {m : Nat} {k : NodeKey} {ev : ParsedEvent} : (T.moment ops s.pos).born k →
    ¬ (T.moment ops s.pos).Live k → SelfEvent k ev → s.pos ≤ m → m ≤ ops.length →
    ReadStep T ops ok s (s.read T ops m ev s.pos)

/-- What the reader's replica must have for an event not to be lost on it.  If a `Created` record
makes a directory known late, each name in the directory must be free at some time later on, for the
replica takes it for empty; and a rename must leave under its new name what the guest has there later
on, be it the node the replica has under the old name or, if there is none, what it has already. -/
def LagSafe (T : Tree) (ops : List Op) (s : Reader) (m : Nat) : Op → Prop
  | .create d x _ _ => ∀ k, (T.moment ops m).entry d x = some k → (T.moment ops m).kind k = .dir →
    ¬ s.replica.isDir k → ∀ y, T.Seen ops (s.pos + 1) k y none
  | .rename d x e y => s.replica.isDir e →
    T.Seen ops (s.pos + 1) e y ((s.replica.entry d x).or (s.replica.entry e y))
  | _ => True

structure Lagging (T : Tree) (ops : List Op) (s : Reader) : Prop
    extends Ahead T ops s.pos s.replica where
  counts : ∃ slack, s.replica.Counts slack (fun _ => True) [] []

namespace Lagging

variable {T : Tree} {ops : List Op} {s : Reader} {m : Nat} {d e k : NodeKey} {x y : Name} {a : Attr}
  {vs : VersionState}

section

variable (h : Lagging T ops s)
include h

theorem create_gone (hv : T.ValidRun ops) (hi : ops[s.pos]? = some (.create d x k a))
    (hm : s.pos < m) (hle : m ≤ ops.length) (hstat : (T.moment ops m).entry d x = none) :
    Lagging T ops ⟨s.pos + 1, s.replica, vs⟩ := by
  obtain ⟨-, -, hfree, -⟩ := hv.at hi
  refine ⟨h.toAhead.of_left (.refl _) (Left.refl _) h.known h.dirs fun d' hd' y => ?_, h.counts⟩
  obtain ⟨t, ht, htl, heq⟩ := h.seen d' hd' y
  by_cases hs : d' = d ∧ y = x
  · obtain ⟨rfl, rfl⟩ := hs
    rcases Nat.lt_or_eq_of_le ht with hlt | rfl
    · exact ⟨t, hlt, htl, heq⟩
    · exact ⟨m, hm, hle, (heq.trans hfree).trans hstat.symm⟩
  · refine (h.seen d' hd' y).next hi ?_
    simp only [apply, entry_set, if_neg hs]

theorem create_found (hT : T.WF) (hv : T.ValidRun ops) {j : NodeKey}
    (hi : ops[s.pos]? = some (.create d x k a)) (hm : s.pos < m) (hle : m ≤ ops.length)
    (hstat : (T.moment ops m).entry d x = some j)
    (hlist : (T.moment ops m).kind j = .dir → ¬ s.replica.isDir j →
      ∀ y, T.Seen ops (s.pos + 1) j y none) :
    Lagging T ops ⟨s.pos + 1,
      (s.replica.applyRec (.created d x j (some ((T.moment ops m).attr j)))).1, vs⟩ := by
  have hwf := hv.wf hT m
  have hdj : d ≠ j := by
    rintro rfl
    exact hwf.entry_ne_self hstat
  have hlast := hv.born_kind hle (hwf.born hstat)
  rw [moment_length] at hlast
  refine ⟨h.toAhead.created hi (fun d' y hne => ?_) hlast.1 hlast.2.symm hdj ⟨m, hm, hle, hstat.symm⟩
    hlist, created_covered h.counts x _ hdj⟩
  simp only [apply, entry_set, if_neg hne]

theorem unlink (hi : ops[s.pos]? = some (.unlink d x)) :
    Lagging T ops ⟨s.pos + 1, (s.replica.applyRec (.removed d x)).1, vs⟩ :=
  ⟨h.toAhead.removed hi, removed_covered h.counts d x⟩

theorem rename (hi : ops[s.pos]? = some (.rename d x e y))
    (hsafe : LagSafe T ops s m (.rename d x e y)) :
    Lagging T ops ⟨s.pos + 1, (s.replica.applyRec (.renamed d x e y)).1, vs⟩ :=
  ⟨h.toAhead.renamed hi hsafe, renamed_covered h.counts d x e y⟩

theorem selfRemoved (hv : T.ValidRun ops)
    (hborn : (T.moment ops s.pos).born k) (hdead : ¬ (T.moment ops s.pos).Live k) :
    Lagging T ops ⟨s.pos, (s.replica.applyRec (.selfRemoved k)).1, vs⟩ := by
  refine ⟨.of_within (h.toAhead.within.selfRemoved k), selfRemoved_covered h.counts fun d x hx => ?_⟩
  obtain ⟨t, ht, -, heq⟩ := h.seen d (isDir_of_entry hx) x
  exact hv.dead ht hborn hdead (.inr ⟨d, x, heq.symm.trans hx⟩)

theorem step {s' : Reader} (hT : T.WF) (hv : T.ValidRun ops)
    (hstep : ReadStep T ops (LagSafe T ops) s s') : Lagging T ops s' := by
  cases hstep with
  | @op m op ev hi hev hm hle hsafe =>
    cases op with
    | create d x k a =>
      simp only [Reader.read, synthesize_create _ hev]
      cases hstat : (T.moment ops m).entry d x with
      | none =>
        rw [createdRec_gone hstat]
        exact h.create_gone hv hi hm hle hstat
      | some j =>
        rw [createdRec_found hstat]
        exact h.create_found hT hv hi hm hle hstat (hsafe j hstat)
    | unlink d x =>
      simp only [Reader.read, synthesize_unlink _ hev]
      exact h.unlink hi
    | rename d x e y =>
      simp only [Reader.read, synthesize_rename _ hev]
      exact h.rename hi hsafe
    | link | removeTree | write | chmod => cases hev
  | gone hborn hdead hev _ _ =>
    simp only [Reader.read, synthesize_self _ hev]
    exact h.selfRemoved hv hborn hdead

theorem run {s' : Reader} (hT : T.WF) (hv : T.ValidRun ops)
    (hrun : Relation.ReflTransGen (ReadStep T ops (LagSafe T ops)) s s') : Lagging T ops s' := by
  induction hrun with
  | refl => exact h
  | tail _ hstep ih => exact ih.step hT hv hstep

end

theorem start {r : ShareReplica} (hT : T.WF) (hv : T.ValidRun ops) (hshows : Shows r T)
    (hexact : r.Exact) (hdirs : ∀ k, r.live k → (r.isDir k ↔ T.kind k = .dir)) (vs : VersionState) :
    Lagging T ops ⟨0, r, vs⟩ := by
  have hkind : ∀ k, r.live k → (T.run ops).born k ∧ (T.run ops).kind k = T.kind k := fun k hk => by
    have := hv.born_kind (Nat.zero_le ops.length) (hT.live_born ((hshows.live k).mp hk))
    rwa [moment_length] at this
  refine ⟨⟨hshows.root, (hshows.live _).mpr (.inl hshows.root), fun k hk => (hkind k hk).1,
    fun k hk => ?_, fun d _ x => .now (Nat.zero_le _) (hshows.entry d x)⟩, _,
    hexact.mono fun _ _ => trivial⟩
  rw [(hkind k hk).2]
  exact hdirs k hk

end Lagging

/-- Once the queue of a lagging reader is empty the replica's directories list what the guest's do,
if no event was lost on the replica it met. -/
theorem lag_convergence (T : Tree) (hT : T.WF) (ops : List Op) (hv : T.ValidRun ops)
    (r : ShareReplica) (hshows : Shows r T) (hexact : r.Exact)
    (hdirs : ∀ k, r.live k → (r.isDir k ↔ T.kind k = .dir)) (vs : VersionState) (s : Reader)
    (hrun : Relation.ReflTransGen (ReadStep T ops (LagSafe T ops)) ⟨0, r, vs⟩ s)
    (hempty : s.pos = ops.length) :
    (∀ d x, s.replica.entry d x = (T.run ops).entry d x) ∧
      ∀ d, (T.run ops).Live d → (T.run ops).kind d = .dir → s.replica.isDir d := by
  have h := (Lagging.start hT hv hshows hexact hdirs vs).run hT hv hrun
  obtain ⟨slack, hcounts⟩ := h.counts
  have hwf := hv.run_wf hT
  have hahead : Ahead T ops ops.length s.replica := hempty ▸ h.toAhead
  have hroot : s.replica.live (T.run ops).root := hahead.root_run ▸ hahead.rootLive
  have hdir : ∀ k, s.replica.live k → (T.run ops).kind k = .dir → s.replica.isDir k :=
    fun k hk => (h.dirs k hk).mpr
  refine ⟨entry_eq_of_dirs hcounts hwf hroot hdir hahead.entry_of_dir, fun d hd hkind => ?_⟩
  exact hdir d (live_of_reach hcounts hwf hroot hdir hahead.entry_of_dir
    (hwf.live_iff_reach.mp hd)) hkind

section

variable {T : Tree} {ops : List Op} {ok : Reader → Nat → Op → Prop} {i m : Nat} {r : ShareReplica}
  {vs : VersionState} {d e k : NodeKey} {x y : Name} {a : Attr}

theorem ReadStep.create_gone (hi : ops[i]? = some (.create d x k a)) (hm : i < m)
    (hle : m ≤ ops.length) (hstat : (T.moment ops m).entry d x = none)
    (hok : ok ⟨i, r, vs⟩ m (.create d x k a)) : ReadStep T ops ok ⟨i, r, vs⟩ ⟨i + 1, r, vs⟩ := by
  have hev := Op.Event.create (d := d) (x := x) (k := k) (a := a) false 0 none
  have hread := ReadStep.op (T := T) (s := ⟨i, r, vs⟩) hi hev hm hle hok
  simp only [Reader.read, synthesize_create _ hev, createdRec_gone hstat] at hread
  exact hread

theorem ReadStep.rename_unknown (hi : ops[i]? = some (.rename d x e y)) (hm : i < m)
    (hle : m ≤ ops.length) (hnone : r.entry d x = none)
    (hok : ok ⟨i, r, vs⟩ m (.rename d x e y)) : ReadStep T ops ok ⟨i, r, vs⟩ ⟨i + 1, r, vs⟩ := by
  have hev := Op.Event.rename (d := d) (x := x) (e := e) (y := y) false 0 none none
  have hread := ReadStep.op (T := T) (s := ⟨i, r, vs⟩) hi hev hm hle hok
  simp only [Reader.read, synthesize_rename _ hev, replay, foldl_cons, foldl_nil,
    renamed_of_none hnone] at hread
  exact hread

theorem ReadStep.unlink_unknown (hi : ops[i]? = some (.unlink d x)) (hm : i < m)
    (hle : m ≤ ops.length) (hnone : r.entry d x = none)
    (hok : ok ⟨i, r, vs⟩ m (.unlink d x)) : ReadStep T ops ok ⟨i, r, vs⟩ ⟨i + 1, r, vs⟩ := by
  have hev := Op.Event.unlink (d := d) (x := x) false 0 none
  have hread := ReadStep.op (T := T) (s := ⟨i, r, vs⟩) hi hev hm hle hok
  simp only [Reader.read, synthesize_unlink _ hev, replay, foldl_cons, foldl_nil, applyRec,
    dentryRemove_of_none hnone] at hread
  exact hread

end

def touchAndMove : List Op :=
  [.create ⟨2, 1⟩ (.letter 'a') ⟨10, 1⟩ (placeholderAttr .reg),
    .rename ⟨2, 1⟩ (.letter 'a') ⟨2, 1⟩ (.letter 'b')]

def touchMoveRemove : List Op := touchAndMove ++ [.unlink ⟨2, 1⟩ (.letter 'b')]

theorem touchMoveRemove_valid :
    (emptyShare ⟨2, 1⟩ (placeholderAttr .dir)).ValidRun touchMoveRemove := by
  refine ⟨⟨.inl rfl, rfl, rfl, by simp [emptyShare]⟩,
    ⟨⟨10, 1⟩, by decide, .inl rfl, by decide, fun hreach => ?_, fun m hm => ?_⟩,
    ⟨⟨10, 1⟩, by decide, fun y => ?_⟩, trivial⟩
  · have := hreach.eq_of_empty fun y => by simp [Tree.apply, Tree.emptyShare, Tree.set]
    simp at this
  · cases (show none = some m from hm)
  · simp [Tree.apply, Tree.emptyShare, Tree.set]

/-- The reader gets to both events after the move: it finds nothing under the old name, and the
replica has no source for the rename. -/
theorem lag_loses_moved_file :
    ∃ r, Mirrors r (Tree.emptyShare ⟨2, 1⟩ (placeholderAttr .dir)) ∧
    (Tree.emptyShare ⟨2, 1⟩ (placeholderAttr .dir)).ValidRun touchAndMove ∧
    ∃ s, Relation.ReflTransGen
        (ReadStep (Tree.emptyShare ⟨2, 1⟩ (placeholderAttr .dir)) touchAndMove fun _ _ _ => True)
        ⟨0, r, .new⟩ s ∧
      s.pos = touchAndMove.length ∧
      s.replica.entry ⟨2, 1⟩ (.letter 'b') = none ∧
      ((Tree.emptyShare ⟨2, 1⟩ (placeholderAttr .dir)).run touchAndMove).entry ⟨2, 1⟩ (.letter 'b') =
        some ⟨10, 1⟩ := by
  obtain ⟨r, -, h⟩ := seededRoot_mirrors ⟨⟨1⟩, ⟨2, 1⟩⟩ (a := placeholderAttr .dir) rfl 1
  have hnone : ∀ x, r.entry ⟨2, 1⟩ x = none := h.entry ⟨2, 1⟩
  refine ⟨r, h, touchMoveRemove_valid.take 2, ⟨2, r, .new⟩, ?_, rfl, hnone _, by decide⟩
  exact .tail
    (.single (.create_gone rfl Nat.zero_lt_two (Nat.le_refl 2) (by decide) trivial))
    (.rename_unknown rfl Nat.one_lt_two (Nat.le_refl 2) (hnone _) trivial)

theorem lag_convergence_touchMoveRemove :
    ∃ r s, Relation.ReflTransGen
        (ReadStep (Tree.emptyShare ⟨2, 1⟩ (placeholderAttr .dir)) touchMoveRemove
          (LagSafe (Tree.emptyShare ⟨2, 1⟩ (placeholderAttr .dir)) touchMoveRemove))
        ⟨0, r, .new⟩ s ∧
      (∀ d x, s.replica.entry d x =
        ((Tree.emptyShare ⟨2, 1⟩ (placeholderAttr .dir)).run touchMoveRemove).entry d x) ∧
      ∀ d, ((Tree.emptyShare ⟨2, 1⟩ (placeholderAttr .dir)).run touchMoveRemove).Live d →
        ((Tree.emptyShare ⟨2, 1⟩ (placeholderAttr .dir)).run touchMoveRemove).kind d = .dir →
        s.replica.isDir d := by
  obtain ⟨r, -, h⟩ := seededRoot_mirrors ⟨⟨1⟩, ⟨2, 1⟩⟩ (a := placeholderAttr .dir) rfl 1
  have hnone : ∀ x, r.entry ⟨2, 1⟩ x = none := h.entry ⟨2, 1⟩
  have hlater : (emptyShare ⟨2, 1⟩ (placeholderAttr .dir)).Seen touchMoveRemove 2 ⟨2, 1⟩
      (.letter 'b') ((r.entry ⟨2, 1⟩ (.letter 'a')).or (r.entry ⟨2, 1⟩ (.letter 'b'))) := by
    rw [hnone, hnone]
    exact ⟨3, by decide, by decide, by decide⟩
  have hrun : Relation.ReflTransGen
      (ReadStep (emptyShare ⟨2, 1⟩ (placeholderAttr .dir)) touchMoveRemove
        (LagSafe (emptyShare ⟨2, 1⟩ (placeholderAttr .dir)) touchMoveRemove))
      ⟨0, r, .new⟩ ⟨3, r, .new⟩ := by
    refine .tail (.tail (.single
      (.create_gone rfl (m := 3) (by omega) (Nat.le_refl 3) (by decide) fun k hk => ?_))
      (.rename_unknown rfl (m := 3) (by omega) (Nat.le_refl 3) (hnone _) fun _ => hlater))
      (.unlink_unknown rfl (m := 3) (by omega) (Nat.le_refl 3) (hnone _) trivial)
    cases (show none = some k from hk)
  exact ⟨r, _, hrun, lag_convergence _ (emptyShare_wf _ rfl) _ touchMoveRemove_valid r h.toShows
    h.exact h.dirs .new _ hrun rfl⟩

end Mist
