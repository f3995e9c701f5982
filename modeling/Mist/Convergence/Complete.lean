import Mist.Convergence.Lag
import Mist.Convergence.Race
import Mist.Convergence.Walked

/-! What the replica's directories list after a walk over a share that changes meanwhile and the
events of all the changes. -/

namespace Mist

open ShareReplica List Option DirState ParsedEvent Mist.Tree Walk

/-- What a share answers while the guest's file system is `T`.  A share that is a subtree is told by
the path it was configured with. -/
noncomputable def Tree.shareNow (T : Tree) (subtree : Bool) (mount : List Name) : ShareNow where
  subtree
  statEntry d x := (T.entry d x).map fun k => (k, T.statx k)
  statNode k := open Classical in if T.Live k then some (T.statx k) else none
  belowMount k := open Classical in decide (∃ q, T.walk T.root mount = some q ∧ T.Reach q k)

def Op.fills : Op → Option (NodeKey × Name)
  | .create d x _ _ | .link d x _ _ => some (d, x)
  | .rename _ _ e y => some (e, y)
  | _ => none

def Op.frees : Op → Option (NodeKey × Name)
  | .unlink d x => some (d, x)
  | .rename d x _ _ => some (d, x)
  | _ => none

/-- The event the kernel queues for an operation on names. -/
inductive Op.Notice : Op → ParsedEvent → Prop
  | event {op : Op} {ev : ParsedEvent} : op.Event ev → Notice op ev
  | link {d k : NodeKey} {x : Name} {a : Attr} (pid : Int32) (fid : Option FidName) :
    Notice (.link d x k a)
      { mask := FAN_CREATE ||| onDir false, pid, fid, dfidName := some ⟨some d, some x.bytes⟩ }

theorem Op.Notice.naming {op : Op} {ev : ParsedEvent} (h : op.Notice ev) : op.naming := by
  cases h with
  | event h => cases h <;> trivial
  | link => trivial

variable {T : Tree}

theorem Tree.frees_free {op : Op} {d : NodeKey} {x : Name} (hv : T.Valid op)
    (h : op.frees = some (d, x)) : (T.apply op).entry d x = none := by
  cases op with
  | create | link | removeTree | write | chmod => cases h
  | unlink d' x' =>
    obtain ⟨rfl, rfl⟩ := Prod.mk.inj (some.inj h)
    exact entry_set_self ..
  | rename d' x' e y =>
    obtain ⟨rfl, rfl⟩ := Prod.mk.inj (some.inj h)
    obtain ⟨k, hk, -, -, -, hother⟩ := hv
    have hne : ¬ (d' = e ∧ x' = y) := by
      rintro ⟨rfl, rfl⟩
      exact (hother k hk).1 rfl
    simp only [apply, entry_set, if_neg hne, and_self, if_true]

/-- The records an event may give, read while the guest's tree is `T`, whatever the test for the
share answers. -/
inductive Reports (T : Tree) (op : Op) : List Rec → Prop
  | nothing : Reports T op []
  | created {d k : NodeKey} {x : Name} : op.fills = some (d, x) → T.entry d x = some k →
    Reports T op [.created d x k (some (T.statx k))]
  | removed {d : NodeKey} {x : Name} : op.frees = some (d, x) → Reports T op [.removed d x]
  | renamed {d e : NodeKey} {x y : Name} : op = .rename d x e y → Reports T op [.renamed d x e y]

section

variable {T : Tree} {subtree : Bool} {mount : List Name} {op : Op} {ev : ParsedEvent}
  (vs : VersionState)

section

variable {d : NodeKey} {x : Name} (hop : op.fills = some (d, x))
include hop

theorem createdRec_reports :
    Reports T op (createdRec (T.shareNow subtree mount) d x) := by
  cases hx : T.entry d x with
  | none =>
    rw [show createdRec (T.shareNow subtree mount) d x = [] by
      simp only [createdRec, shareNow, hx, map_none]]
    exact .nothing
  | some k =>
    rw [show createdRec (T.shareNow subtree mount) d x = [.created d x k (some (T.statx k))] by
      simp only [createdRec, shareNow, hx, map_some]]
    exact .created hop hx

theorem synthesize_fills {isDir : Bool} {pid : Int32} {fid : Option FidName} :
    Reports T op (synthesize
      { mask := FAN_CREATE ||| onDir isDir, pid, fid, dfidName := some ⟨some d, some x.bytes⟩ }
      (T.shareNow subtree mount) vs).1 := by
  cases hin : (vs.contains (T.shareNow subtree mount) d).1 with
  | false =>
    rw [show (synthesize _ _ _).1 = [] by
      simp [synthesize, has, mask_create, nameOf_name, hin]]
    exact .nothing
  | true =>
    rw [show (synthesize _ _ _).1 = createdRec (T.shareNow subtree mount) d x by
      simp [synthesize, has, mask_create, nameOf_name, hin]]
    exact createdRec_reports hop

end

theorem synthesize_reports (h : op.Notice ev) :
    Reports T op (synthesize ev (T.shareNow subtree mount) vs).1 := by
  cases h with
  | link pid fid => exact synthesize_fills vs rfl
  | event h =>
    cases h with
    | create isDir pid fid => exact synthesize_fills vs rfl
    | @unlink d x isDir pid fid =>
      cases hin : (vs.contains (T.shareNow subtree mount) d).1 with
      | false =>
        rw [show (synthesize _ _ _).1 = [] by
          simp [synthesize, has, mask_delete, nameOf_name, hin]]
        exact .nothing
      | true =>
        rw [show (synthesize _ _ _).1 = [.removed d x] by
          simp [synthesize, has, mask_delete, nameOf_name, hin]]
        exact .removed rfl
    | @rename d x e y isDir pid fid dfidName =>
      cases hfrom : (vs.contains (T.shareNow subtree mount) d).1 with
      | false =>
        cases hto : ((vs.contains (T.shareNow subtree mount) d).2.contains
            (T.shareNow subtree mount) e).1 with
        | false =>
          rw [show (synthesize _ _ _).1 = [] by
            simp [synthesize, synthesizeRename, has, mask_rename, nameOf_name, hfrom, hto]]
          exact .nothing
        | true =>
          rw [show (synthesize _ _ _).1 = createdRec (T.shareNow subtree mount) e y by
            simp [synthesize, synthesizeRename, has, mask_rename, nameOf_name, hfrom, hto]]
          exact createdRec_reports rfl
      | true =>
        cases hto : ((vs.contains (T.shareNow subtree mount) d).2.contains
            (T.shareNow subtree mount) e).1 with
        | false =>
          rw [show (synthesize _ _ _).1 = [.removed d x] by
            simp [synthesize, synthesizeRename, has, mask_rename, nameOf_name, hfrom, hto]]
          exact .removed rfl
        | true =>
          rw [show (synthesize _ _ _).1 = [.renamed d x e y] by
            simp [synthesize, synthesizeRename, has, mask_rename, nameOf_name, hfrom, hto]]
          exact .renamed rfl

end

structure ParsedEvent.OfObject (ev : ParsedEvent) : Prop where
  rename : ev.has FAN_RENAME = false
  create : ev.has FAN_CREATE = false
  delete : ev.has (FAN_DELETE ||| FAN_MOVED_FROM) = false
  movedTo : ev.has FAN_MOVED_TO = false

inductive Rec.OfNode : Rec → Prop
  | content (k : NodeKey) (version size : UInt64) (mtime : Ts) (inProgress : Bool) :
    OfNode (.content k version size mtime inProgress)
  | attrChanged (k : NodeKey) (a : Attr) : OfNode (.attrChanged k a)

theorem synthesize_object {ev : ParsedEvent} (h : ev.OfObject) (share : ShareNow) (vs : VersionState) :
    (synthesize ev share vs).1 = [] ∨ (∃ rec, (synthesize ev share vs).1 = [rec] ∧ rec.OfNode) ∨
      ∃ k, (synthesize ev share vs).1 = [.selfRemoved k] ∧ ev.has FAN_DELETE_SELF ∧
        ev.fid.bind FidName.node = some k := by
  have hcontent : ∀ node vs inProgress, ∃ rec, (contentRec share node vs inProgress).1 = [rec] ∧
      rec.OfNode := by
    intro node vs inProgress
    cases hstat : share.statNode node with
    | none => exact ⟨_, by simp only [contentRec, hstat]; rfl, .content ..⟩
    | some a => exact ⟨_, by simp only [contentRec, hstat]; rfl, .content ..⟩
  have hobject : ∀ vs, (synthesizeObject ev share vs).1 = [] ∨
      (∃ rec, (synthesizeObject ev share vs).1 = [rec] ∧ rec.OfNode) ∨
      ∃ k, (synthesizeObject ev share vs).1 = [.selfRemoved k] ∧ ev.has FAN_DELETE_SELF ∧
        ev.fid.bind FidName.node = some k := by
    intro vs
    unfold synthesizeObject
    split
    · exact .inl rfl
    rename_i node hnode
    dsimp only
    split
    · exact .inl rfl
    split
    · rename_i hself
      exact .inr (.inr ⟨node, rfl, hself, hnode⟩)
    · split
      · exact .inr (.inl (hcontent ..))
      · split
        · cases hstat : share.statNode node with
          | none => exact .inl (by simp only [attrRec, hstat])
          | some a =>
            exact .inr (.inl ⟨.attrChanged node a, by simp only [attrRec, hstat], .attrChanged node a⟩)
        · split
          · split
            · exact .inr (.inl (hcontent ..))
            · exact .inl rfl
          · exact .inl rfl
  unfold synthesize
  rw [if_neg (by rw [h.rename]; exact Bool.false_ne_true)]
  split
  · dsimp only
    split
    · exact .inl rfl
    rw [if_neg (by rw [h.create]; exact Bool.false_ne_true),
      if_neg (by rw [h.delete]; exact Bool.false_ne_true),
      if_neg (by rw [h.movedTo]; exact Bool.false_ne_true)]
    exact hobject _
  · exact hobject vs

/-- Under a name the guest has `v` at some moment from `i` on, or the directory is not in the share. -/
def Tree.SeenIn (T : Tree) (root : NodeKey) (ops : List Op) (i : Nat) (d : NodeKey) (x : Name)
    (v : Option NodeKey) : Prop :=
  T.Seen ops i d x v ∨ (T.moment ops i).born d ∧ ¬ (T.moment ops i).Reach root d

/-- What is asked of the records of operation `i`, of the replica before them.  Under a name that the
operation writes and the records do not, and under the new name of a rename, is then what the guest
has there later on; so is nothing under the names of a directory that is new to the replica, and what
the replica has under the names of the directories that come into the share. -/
structure Fits (T : Tree) (root : NodeKey) (ops : List Op) (i : Nat) (r : ShareReplica) (op : Op)
    (recs : List Rec) : Prop where
  kept : ∀ n ∈ op.record.names, (∀ rec ∈ recs, n ∉ rec.names) → r.isDir n.1 →
    T.SeenIn root ops (i + 1) n.1 n.2 (r.entry n.1 n.2)
  moved : ∀ d x e y, recs = [.renamed d x e y] → r.isDir e →
    T.SeenIn root ops (i + 1) e y ((r.entry d x).or (r.entry e y))
  empty : ∀ d x k a, recs = [.created d x k (some a)] → a.kind = .dir → ¬ r.isDir k →
    ∀ y, T.SeenIn root ops (i + 1) k y none
  arrives : ∀ d, r.isDir d → (T.moment ops i).born d → ¬ (T.moment ops i).Reach root d →
    (T.moment ops (i + 1)).Reach root d → ∀ x, T.Seen ops (i + 1) d x (r.entry d x)

/-- The share's events are read: that of the next operation on names, at any moment after it, and at
any time one about a node. -/
inductive ShareStep (T : Tree) (ops : List Op) (subtree : Bool) (mount : List Name)
    (ok : Reader → Option Op → List Rec → Prop) : Reader → Reader → Prop
  | name {s : Reader} {m : Nat} {op : Op} {ev : ParsedEvent} {recs : List Rec} {vs : VersionState} :
    ops[s.pos]? = some op → op.Notice ev → s.pos < m → m ≤ ops.length →
    synthesize ev ((T.moment ops m).shareNow subtree mount) s.versions = (recs, vs) →
    ok s (some op) recs →
    ShareStep T ops subtree mount ok s ⟨s.pos + 1, s.replica.replay recs, vs⟩
  | content {s : Reader} {op : Op} : ops[s.pos]? = some op → op.record.OfNode →
    ShareStep T ops subtree mount ok s { s with pos := s.pos + 1 }
  | object {s : Reader} {m : Nat} {ev : ParsedEvent} {recs : List Rec} {vs : VersionState} :
    ev.OfObject → s.pos ≤ m → m ≤ ops.length →
    (∀ k, ev.has FAN_DELETE_SELF → ev.fid.bind FidName.node = some k →
      (T.moment ops m).born k ∧ ¬ (T.moment ops m).Live k) →
    synthesize ev ((T.moment ops m).shareNow subtree mount) s.versions = (recs, vs) →
    ok s none recs → ShareStep T ops subtree mount ok s ⟨s.pos, s.replica.replay recs, vs⟩

/-- What is asked of the records that are applied: those of an operation fit, and a node that is gone
has no dentry left. -/
def Suits (T : Tree) (root : NodeKey) (ops : List Op) (s : Reader) (op : Option Op)
    (recs : List Rec) : Prop :=
  (∀ o ∈ op, Fits T root ops s.pos s.replica o recs) ∧
    ∀ k, Rec.selfRemoved k ∈ recs → ∀ d x, s.replica.entry d x ≠ some k

theorem Within.noted {seen : NodeKey → Name → Option NodeKey → Prop} {r : ShareReplica}
    (h : Within T seen r) : Within T (fun d x v => seen d x v ∧ r.isDir d ∧ v = r.entry d x) r :=
  { h with seen := fun d hd x => ⟨h.seen d hd x, hd, rfl⟩ }

/-- The replica of the share while its events are read. -/
structure Following (T : Tree) (root : NodeKey) (ops : List Op) (s : Reader) : Prop where
  within : Within ((T.run ops).at root) (T.SeenIn root ops s.pos) s.replica
  counts : ∃ slack, s.replica.Counts slack (fun _ => True) [] []

namespace Following

variable {T : Tree} {root : NodeKey} {ops : List Op} {s : Reader} {op : Op} {recs : List Rec}
  {vs : VersionState} {r r' : ShareReplica} {i m : Nat} {d : NodeKey} {x : Name}

theorem next (hi : ops[i]? = some op) (hfits : Fits T root ops i r op recs) (hd : r.isDir d)
    (hsame : ((T.moment ops i).apply op).entry d x = (T.moment ops i).entry d x)
    (h : T.SeenIn root ops i d x (r.entry d x)) : T.SeenIn root ops (i + 1) d x (r.entry d x) := by
  rcases h with hseen | ⟨hborn, hout⟩
  · exact .inl (hseen.next hi hsame)
  by_cases hin : (T.moment ops (i + 1)).Reach root d
  · exact .inl (hfits.arrives d hd hborn hout hin x)
  · refine .inr ⟨?_, hin⟩
    rw [moment_succ hi]
    exact born_apply hborn op

theorem others (hi : ops[i]? = some op) (hop : op.naming) (hfits : Fits T root ops i r op recs)
    (hd : r.isDir d) (hrecs : ∀ rec ∈ recs, (d, x) ∉ rec.names)
    (h : T.SeenIn root ops i d x (r.entry d x)) : T.SeenIn root ops (i + 1) d x (r.entry d x) := by
  by_cases hn : (d, x) ∈ op.record.names
  · exact hfits.kept (d, x) hn hrecs hd
  · exact next hi hfits hd (entry_apply_of_not_mem hop hn) h

section

variable (h : Following T root ops s)
include h

theorem name (hT : T.WF) (hv : T.ValidRun ops)
    (hi : ops[s.pos]? = some op) (hop : op.naming) (hm : s.pos < m) (hle : m ≤ ops.length)
    (hrecs : Reports (T.moment ops m) op recs) (hfits : Fits T root ops s.pos s.replica op recs) :
    Following T root ops ⟨s.pos + 1, s.replica.replay recs, vs⟩ := by
  have hw := h.within.noted
  have hwf := hv.wf hT m
  cases hrecs with
  | nothing =>
    refine ⟨hw.of_left (.refl _) (Left.refl _) hw.known hw.dirs fun d hd x => ?_, h.counts⟩
    exact others hi hop hfits hd (by simp) (h.within.seen d hd x)
  | @created d k x hfills hk =>
    have hdk : d ≠ k := by
      rintro rfl
      exact hwf.entry_ne_self hk
    have hlast := hv.born_kind hle (hwf.born hk)
    rw [moment_length] at hlast
    refine ⟨hw.created hlast.1 hlast.2.symm hdk (fun d' y v hne hv => ?_) (fun _ => .inl ?_)
      (fun hdir hnew y => hfits.empty d x k _ rfl hdir hnew y), created_covered h.counts x _ hdk⟩
    · obtain ⟨hseen, hd', rfl⟩ := hv
      refine others hi hop hfits hd' ?_ hseen
      simpa [Rec.names] using hne
    · exact ⟨m, hm, hle, hk.symm⟩
  | @removed d x hfrees =>
    refine ⟨hw.removed (fun d' y v hne hv => ?_) (fun _ => .inl ?_), removed_covered h.counts d x⟩
    · obtain ⟨hseen, hd', rfl⟩ := hv
      refine others hi hop hfits hd' ?_ hseen
      simpa [Rec.names] using hne
    · refine .now (Nat.le_trans hm hle) ?_
      rw [moment_succ hi, frees_free (hv.at hi) hfrees]
  | @renamed d e x y hop' =>
    subst hop'
    refine ⟨hw.renamed (fun d' z v h1 h2 hv => ?_) (fun hslots _ => .inl ?_)
      (fun he => hfits.moved d x e y rfl he), renamed_covered h.counts d x e y⟩
    · obtain ⟨hseen, hd', rfl⟩ := hv
      refine others hi hop hfits hd' ?_ hseen
      simp only [Rec.names, forall_eq, mem_cons, not_mem_nil, or_false, Prod.mk.injEq, not_or]
      exact ⟨h1, h2⟩
    · refine .now (Nat.le_trans hm hle) ?_
      rw [moment_succ hi, frees_free (hv.at hi) rfl]

theorem object {ev : ParsedEvent} (hev : ev.OfObject) {share : ShareNow}
    (hrecs : (synthesize ev share s.versions).1 = recs)
    (hfree : ∀ k, Rec.selfRemoved k ∈ recs → ∀ d x, s.replica.entry d x ≠ some k) :
    Following T root ops ⟨s.pos, s.replica.replay recs, vs⟩ := by
  rcases synthesize_object hev share s.versions with hnone | ⟨rec, hrec, hnode⟩ | ⟨k, hself, -⟩
  · obtain rfl := hrecs.symm.trans hnone
    exact { h with }
  · obtain rfl := hrecs.symm.trans hrec
    have hsame : SameTree s.replica (s.replica.applyRec rec).1 := by
      cases hnode with
      | content => exact content_same ..
      | attrChanged => exact attrChanged_same ..
    exact ⟨h.within.sameTree hsame, h.counts.imp fun _ hcounts => hsame.counts hcounts⟩
  · obtain rfl := hrecs.symm.trans hself
    exact ⟨h.within.selfRemoved k, selfRemoved_covered h.counts (hfree k (mem_singleton_self _))⟩

theorem step {s' : Reader} {subtree : Bool} {mount : List Name} (hT : T.WF) (hv : T.ValidRun ops)
    (hstep : ShareStep T ops subtree mount (Suits T root ops) s s') : Following T root ops s' := by
  cases hstep with
  | @name m op ev recs vs hi hev hm hle hrecs hok =>
    have hreports : Reports (T.moment ops m) op
        (synthesize ev ((T.moment ops m).shareNow subtree mount) s.versions).1 :=
      synthesize_reports s.versions hev
    rw [hrecs] at hreports
    exact h.name hT hv hi hev.naming hm hle hreports (hok.1 op rfl)
  | @content op hi hnode =>
    have hentry : ((T.moment ops s.pos).apply op).entry = (T.moment ops s.pos).entry := by
      cases op with
      | write | chmod => rfl
      | create | link | unlink | removeTree | rename => cases hnode
    refine ⟨h.within.of_left (.refl _) (Left.refl _) h.within.known h.within.dirs fun d hd x => ?_,
      h.counts⟩
    rcases h.within.seen d hd x with hseen | ⟨hborn, hout⟩
    · exact .inl (hseen.next hi (by rw [hentry]))
    · refine .inr ?_
      rw [moment_succ hi]
      exact ⟨born_apply hborn op, fun hin => hout (hin.mono fun d x k _ hk => hentry ▸ hk)⟩
  | object hev _ _ _ hrecs hok => exact h.object hev (congrArg Prod.fst hrecs) hok.2

theorem run {s' : Reader} {subtree : Bool} {mount : List Name} (hT : T.WF) (hv : T.ValidRun ops)
    (hrun : Relation.ReflTransGen (ShareStep T ops subtree mount (Suits T root ops)) s s') :
    Following T root ops s' := by
  induction hrun with
  | refl => exact h
  | tail _ hstep ih => exact ih.step hT hv hstep

theorem lists (hT : T.WF) (hv : T.ValidRun ops)
    (hend : s.pos = ops.length) (hd : s.replica.isDir d) (hin : (T.run ops).Reach root d)
    {k : NodeKey} (hk : (T.run ops).Reach d k) (hkind : (T.run ops).kind k = .dir) :
    s.replica.isDir k ∧ ∀ x, s.replica.entry k x = (T.run ops).entry k x := by
  have hentry : ∀ k, s.replica.isDir k → (T.run ops).Reach root k → ∀ x,
      s.replica.entry k x = (T.run ops).entry k x := by
    intro k hk hin x
    rcases h.within.seen k hk x with hseen | ⟨-, hout⟩
    · exact (hend ▸ hseen).last
    · rw [hend, moment_length] at hout
      exact absurd hin hout
  obtain ⟨slack, hcounts⟩ := h.counts
  have hwf := hv.run_wf hT
  have hdir : ∀ k, (T.run ops).Reach d k → (T.run ops).kind k = .dir → s.replica.isDir k := by
    intro k hk
    induction hk with
    | refl => exact fun _ => hd
    | @step q k x hq he ih =>
      intro hkind
      have hentry' := (hentry q (ih (hwf.dirs he)) (hin.trans hq) x).trans he
      exact (h.within.dirs k (live_of_entry hcounts hentry')).mpr hkind
  exact ⟨hdir k hk hkind, hentry k (hdir k hk hkind) (hin.trans hk)⟩

end

end Following

def ShareReplica.marksComplete (r : ShareReplica) (d : NodeKey) : Prop :=
  ∃ t, r.dirOf d = some t ∧ t.complete

/-- After a walk and the events of all operations, a directory that is marked complete lists the
guest's entries, and so does every one below it. -/
theorem complete_dirs (T : Tree) (hT : T.WF) (ops : List Op) (hv : T.ValidRun ops) (info : ShareInfo)
    (hlive : T.Live info.root) (hdir : T.kind info.root = .dir) (subtree : Bool) (mount : List Name)
    (walk : WalkInfo) (w : Walk)
    (hwalk : Relation.ReflTransGen
      (Walk.Step T ops info.root walk (Walk.Checked T ops info walk)) (Walk.start T info.root) w)
    (hdone : w.Done) (done : SnapDone) (vs : VersionState) :
    ∃ r, (ShareReplica.new info).applySnapshot w.sent = some r ∧ ∀ s : Reader,
      Relation.ReflTransGen (ShareStep T ops subtree mount (Suits T info.root ops))
        ⟨0, (r.finishSnapshot done).1, vs⟩ s → s.pos = ops.length →
      ∀ d, s.replica.marksComplete d → (T.run ops).Reach info.root d →
        ∀ k, (T.run ops).Reach d k → (T.run ops).kind k = .dir →
          s.replica.isDir k ∧ ∀ x, s.replica.entry k x = (T.run ops).entry k x := by
  obtain ⟨r, hr, hwithin, hcounts⟩ := done_within hT hv hlive hdir hwalk hdone
  refine ⟨r, hr, fun s hrun hend d hd hin k hk hkind => ?_⟩
  have hstart : Following T info.root ops ⟨0, (r.finishSnapshot done).1, vs⟩ :=
    ⟨{ hwithin with seen := fun d hd x => .inl (hwithin.seen d hd x) }, _, hcounts⟩
  obtain ⟨t, ht, -⟩ := hd
  exact (hstart.run hT hv hrun).lists hT hv hend (isSome_iff_exists.mpr ⟨t, ht⟩) hin hk hkind

noncomputable def furnished : Tree := (Tree.emptyShare ⟨2, 1⟩ (placeholderAttr .dir)).run twoDirs

theorem furnished_wf : furnished.WF := twoDirs_valid.run_wf (emptyShare_wf _ rfl)

def movesP (e : NodeKey) (y : Char) : List Op := [.rename ⟨2, 1⟩ (.letter 'p') e (.letter y)]

theorem movesP_valid {e : NodeKey} {y : Char} (he : furnished.Live e)
    (hdir : furnished.kind e = .dir) (hp : ¬ furnished.Reach ⟨10, 1⟩ e)
    (hfree : furnished.entry e (.letter y) = none) : furnished.ValidRun (movesP e y) := by
  refine ⟨⟨⟨10, 1⟩, by decide, he, hdir, hp, fun m hm => ?_⟩, trivial⟩
  rw [hfree] at hm
  cases hm

theorem Tree.WF.not_reach_root (hT : T.WF) {k : NodeKey} (hk : k ≠ T.root) :
    ¬ T.Reach k T.root := by
  intro h
  generalize hroot : T.root = root at h
  cases h with
  | refl => exact hk hroot.symm
  | step _ he => exact hT.noRoot (hroot ▸ he)

def movedEvent (d : NodeKey) (x : Name) (e : NodeKey) (y : Name) : ParsedEvent where
  mask := FAN_RENAME ||| onDir true
  pid := 7
  old := some ⟨some d, some x.bytes⟩
  new := some ⟨some e, some y.bytes⟩

theorem renames_whole (T : Tree) (vs : VersionState) (d e : NodeKey) (x y : Name) :
    synthesize (movedEvent d x e y) (T.shareNow false []) vs = ([.renamed d x e y], vs) := by
  have hwhole : ∀ k, vs.contains (T.shareNow false []) k = (true, vs) := contains_whole rfl vs
  simp [synthesize, synthesizeRename, has, movedEvent, mask_rename, nameOf_name, hwhole]

def rootEntries : List SnapEntry :=
  [⟨.letter 'p', ⟨10, 1⟩, placeholderAttr .dir⟩, ⟨.letter 'q', ⟨11, 1⟩, placeholderAttr .dir⟩]

theorem furnished_entry (d : NodeKey) (x : Name) : furnished.entry d x =
    if d = ⟨10, 1⟩ ∧ x = .letter 'f' then some ⟨12, 1⟩
    else if d = ⟨2, 1⟩ ∧ x = .letter 'q' then some ⟨11, 1⟩
    else if d = ⟨2, 1⟩ ∧ x = .letter 'p' then some ⟨10, 1⟩ else none := rfl

def walkInfo : WalkInfo := ⟨1, ⟨1⟩, 16⟩

/-- The root has been scanned before the move, and `p` and `q` are to scan. -/
noncomputable def rootScanned : Walk where
  now := 0
  queue := [⟨[.letter 'p'], ⟨10, 1⟩, placeholderAttr .dir, ⟨2, 1⟩⟩,
    ⟨[.letter 'q'], ⟨11, 1⟩, placeholderAttr .dir, ⟨2, 1⟩⟩]
  scans := []
  sent := [(Walk.rootJob furnished ⟨2, 1⟩).record walkInfo rootEntries true]

theorem rootScanned_reached {ok : Walk → DirJob → Option NodeKey → List SnapEntry → Prop}
    (ops : List Op) (hok : ∀ w, ok w (rootJob furnished ⟨2, 1⟩) (some ⟨2, 1⟩) rootEntries) :
    Relation.ReflTransGen (Step furnished ops ⟨2, 1⟩ walkInfo ok)
      (start furnished ⟨2, 1⟩) rootScanned := by
  let job := rootJob furnished ⟨2, 1⟩
  let Step := Step furnished ops ⟨2, 1⟩ walkInfo ok
  let scan (es : List SnapEntry) : Walk := ⟨0, [], [⟨job, ⟨2, 1⟩, 0, es⟩], []⟩
  have hopen : Step (start furnished ⟨2, 1⟩) (scan []) :=
    .openDir (show _ = [] ++ job :: [] from rfl) (.names ⟨rfl, rfl⟩)
  have hp : Step (scan []) (scan (rootEntries.take 1)) :=
    .read (w := scan []) (x := .letter 'p') (k := ⟨10, 1⟩) (show _ = [] ++ _ :: [] from rfl) rfl
  have hq : Step (scan (rootEntries.take 1)) (scan rootEntries) :=
    .read (w := scan (rootEntries.take 1)) (x := .letter 'q') (k := ⟨11, 1⟩)
      (show _ = [] ++ _ :: [] from rfl) rfl
  have hfinish : Step (scan rootEntries) rootScanned := by
    refine .finish (w := scan rootEntries)
      (show _ = [] ++ _ :: [] from rfl) (fun x hx => ?_) (hok _)
    have hsome := hx 0 (Nat.le_refl 0) (Nat.le_refl 0)
    rw [show (furnished.moment ops 0) = furnished from rfl, furnished_entry] at hsome
    by_cases hxp : x = .letter 'p'
    · simp [rootEntries, hxp]
    · by_cases hxq : x = .letter 'q'
      · simp [rootEntries, hxq]
      · simp [hxp, hxq] at hsome
  exact .tail (.tail (.tail (.single hopen) hp) hq) hfinish

/-- The path of `p` leads nowhere after the move, so that `p` is taken for empty; `q` is empty. -/
def afterFailure : Walk where
  now := 1
  queue := []
  scans := []
  sent := [⟨1, ⟨1⟩, ⟨2, 1⟩, placeholderAttr .dir, ⟨2, 1⟩, rootEntries, true⟩,
    ⟨1, ⟨1⟩, ⟨10, 1⟩, placeholderAttr .dir, ⟨2, 1⟩, [], true⟩,
    ⟨1, ⟨1⟩, ⟨11, 1⟩, placeholderAttr .dir, ⟨2, 1⟩, [], true⟩]

theorem afterFailure_reached : Relation.ReflTransGen
    (Step furnished (movesP ⟨2, 1⟩ 'r') ⟨2, 1⟩ walkInfo fun _ _ _ _ => True)
    (start furnished ⟨2, 1⟩) afterFailure := by
  let p : DirJob := ⟨[.letter 'p'], ⟨10, 1⟩, placeholderAttr .dir, ⟨2, 1⟩⟩
  let q : DirJob := ⟨[.letter 'q'], ⟨11, 1⟩, placeholderAttr .dir, ⟨2, 1⟩⟩
  let Step := Step furnished (movesP ⟨2, 1⟩ 'r') ⟨2, 1⟩ walkInfo fun _ _ _ _ => True
  let moved : Walk := { rootScanned with now := 1 }
  let failed : Walk := ⟨1, [q], [], rootScanned.sent ++ p.flush walkInfo [] []⟩
  let opened : Walk := { failed with queue := [], scans := [⟨q, ⟨11, 1⟩, 1, []⟩] }
  have hguest : Step rootScanned moved := .guest (by decide)
  have hfails : Step moved failed :=
    .openFails (show _ = [] ++ p :: [q] from rfl) (.failed fun j hj => by cases hj.1) trivial
  have hopen : Step failed opened := .openDir (show _ = [] ++ q :: [] from rfl) (.names ⟨rfl, rfl⟩)
  have hfinish : Step opened afterFailure := by
    refine .finish (w := opened) (show _ = [] ++ _ :: [] from rfl) (fun x hx => ?_) trivial
    exact absurd rfl (hx 1 (Nat.le_refl 1) (Nat.le_refl 1))
  exact .tail (.tail (.tail (.tail (rootScanned_reached _ fun _ => trivial) hguest) hfails) hopen) hfinish

theorem movesP_whole : furnished.ValidRun (movesP ⟨2, 1⟩ 'r') :=
  movesP_valid (.inl rfl) rfl (furnished_wf.not_reach_root (by decide)) rfl

theorem renamed_notice (d e : NodeKey) (x y : Name) : (Op.rename d x e y).Notice (movedEvent d x e y) :=
  .event (.rename true 7 none none)

theorem movesP_into : furnished.ValidRun (movesP ⟨11, 1⟩ 'p') := by
  refine movesP_valid (.inr ⟨⟨2, 1⟩, .letter 'q', rfl⟩) rfl (fun h => ?_) rfl
  -- below `p` is only the file
  have hbelow : ∀ k, furnished.Reach ⟨10, 1⟩ k → k = ⟨10, 1⟩ ∨ k = ⟨12, 1⟩ := by
    intro k hk
    induction hk with
    | refl => exact .inl rfl
    | @step q k x _ he ih =>
      rw [furnished_entry] at he
      rcases ih with rfl | rfl <;> simp at he
      exact .inr he.2.symm
  rcases hbelow _ h with h | h <;> cases h

theorem creates_into : ∃ vs, synthesize (movedEvent ⟨2, 1⟩ (.letter 'p') ⟨11, 1⟩ (.letter 'p'))
    ((furnished.moment (movesP ⟨11, 1⟩ 'p') 1).shareNow true [.letter 'q']) .new =
      ([.created ⟨11, 1⟩ (.letter 'p') ⟨10, 1⟩ (some (placeholderAttr .dir))], vs) := by
  generalize hnow : (furnished.moment (movesP ⟨11, 1⟩ 'p') 1).shareNow true [.letter 'q'] = now
  have hsub : now.subtree = true := by rw [← hnow]; rfl
  have hfrom : now.belowMount ⟨2, 1⟩ = false := by
    rw [← hnow, shareNow]
    simp only [decide_eq_false_iff_not]
    rintro ⟨q, hq, hreach⟩
    cases hq
    exact (movesP_into.wf furnished_wf 1).not_reach_root (by decide) hreach
  have hto : now.belowMount ⟨11, 1⟩ = true := by
    rw [← hnow, shareNow]
    simp only [decide_eq_true_eq]
    exact ⟨⟨11, 1⟩, rfl, .refl⟩
  have hstat : now.statEntry ⟨11, 1⟩ (.letter 'p') = some (⟨10, 1⟩, placeholderAttr .dir) := by
    rw [← hnow]
    rfl
  have hin : ∀ (vs : VersionState) (k : NodeKey), vs.contain.lookup k = none →
      (vs.contains now k).1 = now.belowMount k ∧
        ∀ j, j ≠ k → vs.contain = ∅ → (vs.contains now k).2.contain.lookup j = none := by
    intro vs k hk
    simp only [VersionState.contains, hsub, if_true, hk]
    refine ⟨trivial, fun j hj hempty => ?_⟩
    rw [hempty, Finmap.lookup_insert_of_ne _ hj]
    split <;> rfl
  have hsource := hin .new ⟨2, 1⟩ rfl
  have htarget := hin (VersionState.new.contains now ⟨2, 1⟩).2 ⟨11, 1⟩
    (hsource.2 _ (by decide) rfl)
  refine ⟨_, Prod.ext ?_ rfl⟩
  simp [synthesize, synthesizeRename, has, movedEvent, mask_rename, nameOf_name, hsource.1,
    hfrom, htarget.1, hto, createdRec, hstat]

/-- A directory is moved between its listing and its scan, or with a file into the share: it is
taken for empty. -/
theorem complete_but_empty :
    (∃ (w : Walk) (r : ShareReplica) (s : Reader), Relation.ReflTransGen
          (Walk.Step furnished (movesP ⟨2, 1⟩ 'r') ⟨2, 1⟩ walkInfo fun _ _ _ _ => True)
          (Walk.start furnished ⟨2, 1⟩) w ∧ w.Done ∧
        (ShareReplica.new ⟨⟨1⟩, ⟨2, 1⟩⟩).applySnapshot w.sent = some r ∧
        Relation.ReflTransGen
          (ShareStep furnished (movesP ⟨2, 1⟩ 'r') false [] fun _ _ _ => True)
          ⟨0, (r.finishSnapshot ⟨1, ⟨1⟩⟩).1, .new⟩ s ∧ s.pos = 1 ∧
        s.replica.marksComplete ⟨10, 1⟩ ∧
        (furnished.run (movesP ⟨2, 1⟩ 'r')).Reach ⟨2, 1⟩ ⟨10, 1⟩ ∧
        s.replica.entry ⟨10, 1⟩ (.letter 'f') = none ∧
        (furnished.run (movesP ⟨2, 1⟩ 'r')).entry ⟨10, 1⟩ (.letter 'f') = some ⟨12, 1⟩) ∧
    ∃ (w : Walk) (r : ShareReplica) (s : Reader),
      Relation.ReflTransGen
          (Walk.Step furnished (movesP ⟨11, 1⟩ 'p') ⟨11, 1⟩ walkInfo fun _ _ _ _ => True)
          (Walk.start furnished ⟨11, 1⟩) w ∧ w.Done ∧
        (ShareReplica.new ⟨⟨1⟩, ⟨11, 1⟩⟩).applySnapshot w.sent = some r ∧
        Relation.ReflTransGen
          (ShareStep furnished (movesP ⟨11, 1⟩ 'p') true [.letter 'q'] fun _ _ _ => True)
          ⟨0, (r.finishSnapshot ⟨1, ⟨1⟩⟩).1, .new⟩ s ∧ s.pos = 1 ∧
        s.replica.marksComplete ⟨10, 1⟩ ∧
        (furnished.run (movesP ⟨11, 1⟩ 'p')).Reach ⟨11, 1⟩ ⟨10, 1⟩ ∧
        s.replica.entry ⟨10, 1⟩ (.letter 'f') = none ∧
        (furnished.run (movesP ⟨11, 1⟩ 'p')).entry ⟨10, 1⟩ (.letter 'f') = some ⟨12, 1⟩ := by
  refine ⟨?_, ?_⟩
  · have hlost : ((new ⟨⟨1⟩, ⟨2, 1⟩⟩).applySnapshot afterFailure.sent).any fun r =>
        let r' := (r.finishSnapshot ⟨1, ⟨1⟩⟩).1.replay
          [.renamed ⟨2, 1⟩ (.letter 'p') ⟨2, 1⟩ (.letter 'r')]
        (r'.dirOf ⟨10, 1⟩).any complete ∧ r'.entry ⟨10, 1⟩ (.letter 'f') = none := by
      decide +kernel
    obtain ⟨r, hr, hr'⟩ := (Option.any_eq_true ..).mp hlost
    obtain ⟨hcomplete, hnone⟩ := of_decide_eq_true hr'
    obtain ⟨t, ht, htc⟩ := (Option.any_eq_true ..).mp hcomplete
    refine ⟨afterFailure, r, _, afterFailure_reached, ⟨rfl, rfl⟩, hr,
      .single (.name rfl (renamed_notice _ _ _ _) (Nat.lt_succ_self 0) (Nat.le_refl 1)
        (renames_whole ..) trivial), rfl, ⟨t, ht, htc⟩, ?_, hnone, rfl⟩
    exact .step (x := .letter 'r') .refl rfl
  · let job := rootJob furnished ⟨11, 1⟩
    let opened : Walk := ⟨0, [], [⟨job, ⟨11, 1⟩, 0, []⟩], []⟩
    let walked : Walk := ⟨0, [], [], [job.record walkInfo [] true]⟩
    let Step := Step furnished (movesP ⟨11, 1⟩ 'p') ⟨11, 1⟩ walkInfo fun _ _ _ _ => True
    have hopen : Step (start furnished ⟨11, 1⟩) opened :=
      .openDir (show _ = [] ++ job :: [] from rfl) (.names ⟨rfl, rfl⟩)
    have hfinish : Step opened walked := by
      refine .finish (w := opened) (show _ = [] ++ _ :: [] from rfl) (fun x hx => ?_) trivial
      exact absurd rfl (hx 0 (Nat.le_refl 0) (Nat.le_refl 0))
    have hlost : ((new ⟨⟨1⟩, ⟨11, 1⟩⟩).applySnapshot walked.sent).any fun r =>
        let r' := (r.finishSnapshot ⟨1, ⟨1⟩⟩).1.replay
          [.created ⟨11, 1⟩ (.letter 'p') ⟨10, 1⟩ (some (placeholderAttr .dir))]
        (r'.dirOf ⟨10, 1⟩).any complete ∧ r'.entry ⟨10, 1⟩ (.letter 'f') = none := by
      decide +kernel
    obtain ⟨r, hr, hr'⟩ := (Option.any_eq_true ..).mp hlost
    obtain ⟨hcomplete, hnone⟩ := of_decide_eq_true hr'
    obtain ⟨t, ht, htc⟩ := (Option.any_eq_true ..).mp hcomplete
    obtain ⟨vs, hrecs⟩ := creates_into
    refine ⟨walked, r, _, .tail (.single hopen) hfinish, ⟨rfl, rfl⟩, hr,
      .single (.name rfl (renamed_notice _ _ _ _) (Nat.lt_succ_self 0) (Nat.le_refl 1)
        hrecs trivial), rfl, ⟨t, ht, htc⟩, ?_, hnone, rfl⟩
    exact .step (x := .letter 'p') .refl rfl

theorem Walk.Right.of_opened {ops : List Op} {r : ShareReplica} {job : DirJob}
    {es : List SnapEntry} {info : WalkInfo} {s : SnapDir} (hone : job.flush info [] es = [s]) :
    Right T ops info r job (some job.node) es := by
  refine ⟨.inl rfl, fun earlier s' later r' heq hne _ => ?_⟩
  rw [hone] at heq
  cases earlier with
  | nil => exact absurd rfl hne
  | cons s₀ earlier => simp at heq

/-- The walk opens `p` before the move and reads it after it. -/
noncomputable def afterBoth : Walk where
  now := 1
  queue := []
  scans := []
  sent := [(Walk.rootJob furnished ⟨2, 1⟩).record walkInfo rootEntries true,
    ⟨1, ⟨1⟩, ⟨10, 1⟩, placeholderAttr .dir, ⟨2, 1⟩, [⟨.letter 'f', ⟨12, 1⟩, placeholderAttr .reg⟩],
      true⟩,
    ⟨1, ⟨1⟩, ⟨11, 1⟩, placeholderAttr .dir, ⟨2, 1⟩, [], true⟩]

theorem afterBoth_reached : Relation.ReflTransGen
    (Step furnished (movesP ⟨2, 1⟩ 'r') ⟨2, 1⟩ walkInfo
      (Checked furnished (movesP ⟨2, 1⟩ 'r') ⟨⟨1⟩, ⟨2, 1⟩⟩ walkInfo))
    (start furnished ⟨2, 1⟩) afterBoth := by
  let ops := movesP ⟨2, 1⟩ 'r'
  let Step := Step furnished ops ⟨2, 1⟩ walkInfo
    (Checked furnished ops ⟨⟨1⟩, ⟨2, 1⟩⟩ walkInfo)
  let p : DirJob := ⟨[.letter 'p'], ⟨10, 1⟩, placeholderAttr .dir, ⟨2, 1⟩⟩
  let q : DirJob := ⟨[.letter 'q'], ⟨11, 1⟩, placeholderAttr .dir, ⟨2, 1⟩⟩
  let f : SnapEntry := ⟨.letter 'f', ⟨12, 1⟩, placeholderAttr .reg⟩
  let opened : Walk := { rootScanned with queue := [q], scans := [⟨p, ⟨10, 1⟩, 0, []⟩] }
  let moved : Walk := { opened with now := 1 }
  let read : Walk := { moved with scans := [⟨p, ⟨10, 1⟩, 0, [f]⟩] }
  let scanned : Walk := ⟨1, [q], [], rootScanned.sent ++ p.flush walkInfo [] [f]⟩
  let opened' : Walk := { scanned with queue := [], scans := [⟨q, ⟨11, 1⟩, 1, []⟩] }
  have hroot : Relation.ReflTransGen Step (start furnished ⟨2, 1⟩) rootScanned :=
    rootScanned_reached ops fun _ _ _ => .of_opened rfl
  have hopen : Step rootScanned opened :=
    .openDir (show _ = [] ++ p :: [q] from rfl) (.names ⟨rfl, rfl⟩)
  have hguest : Step opened moved := .guest (by decide)
  have hread : Step moved read :=
    .read (w := moved) (x := .letter 'f') (k := ⟨12, 1⟩) (show _ = [] ++ _ :: [] from rfl) rfl
  have hfinish : Step read scanned := by
    refine .finish (w := read) (show _ = [] ++ _ :: [] from rfl) (fun x hx => ?_)
      fun _ _ => .of_opened rfl
    have hsome := hx 0 (Nat.le_refl 0) (Nat.zero_le 1)
    rw [show (furnished.moment ops 0) = furnished from rfl, furnished_entry] at hsome
    by_cases hxf : x = .letter 'f'
    · rw [hxf]
      exact mem_singleton_self _
    · simp [hxf] at hsome
  have hopen' : Step scanned opened' :=
    .openDir (show _ = [] ++ q :: [] from rfl) (.names ⟨rfl, rfl⟩)
  have hfinish' : Step opened' afterBoth := by
    refine .finish (w := opened') (show _ = [] ++ _ :: [] from rfl) (fun x hx => ?_)
      fun _ _ => .of_opened rfl
    exact absurd rfl (hx 1 (Nat.le_refl 1) (Nat.le_refl 1))
  exact .tail (.tail (.tail (.tail (.tail (.tail hroot hopen) hguest) hread) hfinish) hopen') hfinish'

theorem complete_dirs_movedOpen :
    ∃ (r : ShareReplica) (s : Reader),
      (ShareReplica.new ⟨⟨1⟩, ⟨2, 1⟩⟩).applySnapshot afterBoth.sent = some r ∧
      Relation.ReflTransGen (ShareStep furnished (movesP ⟨2, 1⟩ 'r') false []
          (Suits furnished ⟨2, 1⟩ (movesP ⟨2, 1⟩ 'r')))
        ⟨0, (r.finishSnapshot ⟨1, ⟨1⟩⟩).1, .new⟩ s ∧ s.pos = 1 ∧ s.replica.marksComplete ⟨10, 1⟩ ∧
      s.replica.entry ⟨10, 1⟩ (.letter 'f') = some ⟨12, 1⟩ := by
  obtain ⟨r, hr, hlists⟩ := complete_dirs furnished furnished_wf (movesP ⟨2, 1⟩ 'r') movesP_whole
    ⟨⟨1⟩, ⟨2, 1⟩⟩ (.inl rfl) rfl false [] walkInfo afterBoth afterBoth_reached ⟨rfl, rfl⟩ ⟨1, ⟨1⟩⟩ .new
  have hkept : ((new ⟨⟨1⟩, ⟨2, 1⟩⟩).applySnapshot afterBoth.sent).any fun r =>
      let r' := (r.finishSnapshot ⟨1, ⟨1⟩⟩).1.replay
        [.renamed ⟨2, 1⟩ (.letter 'p') ⟨2, 1⟩ (.letter 'r')]
      (r.finishSnapshot ⟨1, ⟨1⟩⟩).1.entry ⟨2, 1⟩ (.letter 'p') = some ⟨10, 1⟩ ∧
        (r'.dirOf ⟨10, 1⟩).any complete := by
    decide +kernel
  rw [hr] at hkept
  obtain ⟨hp, hcomplete⟩ := of_decide_eq_true hkept
  obtain ⟨t, ht, htc⟩ := (Option.any_eq_true ..).mp hcomplete
  have hborn : ∀ d, furnished.born d → furnished.Reach ⟨2, 1⟩ d := by
    rintro d (rfl | rfl | rfl | rfl)
    · exact .step (x := .letter 'f') (.step (x := .letter 'p') .refl rfl) rfl
    · exact .step (x := .letter 'q') .refl rfl
    · exact .step (x := .letter 'p') .refl rfl
    · exact .refl
  have hfits : Fits furnished ⟨2, 1⟩ (movesP ⟨2, 1⟩ 'r') 0 (r.finishSnapshot ⟨1, ⟨1⟩⟩).1
      (.rename ⟨2, 1⟩ (.letter 'p') ⟨2, 1⟩ (.letter 'r'))
      [.renamed ⟨2, 1⟩ (.letter 'p') ⟨2, 1⟩ (.letter 'r')] := by
    refine ⟨fun n hn hno => absurd hn (hno _ (mem_singleton_self _)), fun d x e y heq _ => ?_,
      nofun, fun d _ hd hout => absurd (hborn d hd) hout⟩
    cases heq
    rw [hp]
    exact .inl ⟨1, Nat.le_refl 1, Nat.le_refl 1, rfl⟩
  have hstep : ShareStep furnished (movesP ⟨2, 1⟩ 'r') false []
      (Suits furnished ⟨2, 1⟩ (movesP ⟨2, 1⟩ 'r')) ⟨0, (r.finishSnapshot ⟨1, ⟨1⟩⟩).1, .new⟩
      ⟨1, (r.finishSnapshot ⟨1, ⟨1⟩⟩).1.replay
        [.renamed ⟨2, 1⟩ (.letter 'p') ⟨2, 1⟩ (.letter 'r')], .new⟩ := by
    refine .name rfl (renamed_notice ..) (Nat.lt_succ_self 0) (Nat.le_refl 1) (renames_whole ..)
      ⟨fun o ho => ?_, fun k hk => by simp at hk⟩
    cases ho
    exact hfits
  have hin : (furnished.run (movesP ⟨2, 1⟩ 'r')).Reach ⟨2, 1⟩ ⟨10, 1⟩ :=
    .step (x := .letter 'r') .refl rfl
  refine ⟨r, _, hr, .single hstep, rfl, ⟨t, ht, htc⟩, ?_⟩
  exact (hlists _ (.single hstep) rfl ⟨10, 1⟩ ⟨t, ht, htc⟩ hin ⟨10, 1⟩ .refl rfl).2 (.letter 'f')

end Mist
