import Mist.Convergence.Ahead
import Mist.Convergence.Live

/-! Seeding: a snapshot whose directories are read at different moments of a run of guest
operations, and the replay of the run's records over it. -/

namespace Mist

open ShareReplica List Option

/-- The records of a walk that reads directory `d` at moment `cut d`, in any order and chunking:
what it lists is the listing of that moment, in full; it starts at the root, reads every directory it
lists, and no other. -/
structure IsSnapshot (T : Tree) (ops : List Op) (cut : NodeKey → Nat) (snap : List SnapDir) :
    Prop where
  cut_le : ∀ s ∈ snap, cut s.dir ≤ ops.length
  dirAttr : ∀ s ∈ snap, s.dirAttr.kind = .dir
  entries : ∀ s ∈ snap, ∀ e ∈ s.entries,
    (T.moment ops (cut s.dir)).entry s.dir e.name = some e.node ∧
      e.attr.kind = (T.moment ops (cut s.dir)).kind e.node
  covers : ∀ s ∈ snap, ∀ x k, (T.moment ops (cut s.dir)).entry s.dir x = some k →
    ∃ s' ∈ snap, s'.dir = s.dir ∧ ∃ e ∈ s'.entries, e.name = x
  root : ∃ s ∈ snap, s.dir = T.root
  descends : ∀ s ∈ snap, ∀ e ∈ s.entries, e.attr.kind = .dir → ∃ s' ∈ snap, s'.dir = e.node
  found : ∀ s ∈ snap, s.dir = T.root ∨
    ∃ s' ∈ snap, ∃ e ∈ s'.entries, e.node = s.dir ∧ e.attr.kind = .dir

def ShareReplica.applySnapshot (r : ShareReplica) (snap : List SnapDir) : Option ShareReplica :=
  snap.foldlM applySnapDir r

theorem ShareReplica.applySnapshot_holds {P : List SnapDir → ShareReplica → Prop}
    {snap later : List SnapDir} {r : ShareReplica} (h : P snap r)
    (hstep : ∀ d ∈ later, ∀ {snap r}, P snap r →
      ∃ r', applySnapDir r d = some r' ∧ P (snap ++ [d]) r') :
    ∃ r', r.applySnapshot later = some r' ∧ P (snap ++ later) r' := by
  induction later generalizing snap r with
  | nil => exact ⟨r, rfl, by rwa [append_nil]⟩
  | cons d later ih =>
    obtain ⟨r₁, hr₁, h₁⟩ := hstep d (.head _) h
    obtain ⟨r', hr', h'⟩ := ih h₁ fun d hd => hstep d (.tail _ hd)
    refine ⟨r', ?_, by rwa [append_cons]⟩
    simp only [applySnapshot, foldlM_cons, hr₁] at hr' ⊢
    exact hr'

/-- What the replica must have before it replays the record of an operation, for the record to be
applied to it and not lost: a created node needs its directory, or is known already; a rename needs
its source where the record says, the target directory, and a target that the guest has under that
name later on (as it does if the source is the node the guest moved). -/
def ReplaySafe (T : Tree) (ops : List Op) (i : Nat) (r : ShareReplica) : Op → Prop
  | .create d _ k _ => r.isDir d ∨ r.live k
  | .link d _ k _ => r.isDir d ∨ r.live k
  | .rename d x e y =>
    match r.entry d x with
    | none => r.isDir e → T.Seen ops (i + 1) e y (r.entry e y)
    | some m => r.isDir e ∧ r.entry e y ≠ some m ∧ T.Seen ops (i + 1) e y (some m)
  | .unlink _ _ | .removeTree _ _ | .write _ _ _ _ _ | .chmod _ _ => True

/-- The operations of which each removes a single node. -/
def Op.single : Op → Bool
  | .removeTree _ _ => false
  | _ => true

structure Replaying (T : Tree) (ops : List Op) (i : Nat) (r : ShareReplica) : Prop
    extends Ahead T ops i r where
  exact : r.Exact

namespace Replaying

variable {T : Tree} {ops : List Op} {i : Nat} {r r' : ShareReplica} {op : Op} {d k : NodeKey}
  {x : Name}

theorem created_exact (h : r.Exact) (x : Name) (a : Attr) (hdk : d ≠ k)
    (hsafe : r.isDir d ∨ r.live k) : (r.applyRec (.created d x k (some a))).1.Exact := by
  refine (created_keeps ..).exact ?_
  by_cases hp : r.isDir d
  · exact created_counts hp x a h (fun _ => rfl) rfl
  · have hk := hsafe.resolve_left hp
    exact (created_unknown_parent hp hdk x a).counts (upsertNode_counts_known k a d h hk)

section

variable (h : Replaying T ops i r)
include h

theorem create (hT : T.WF) (hv : T.ValidRun ops)
    {a : Attr} (hi : ops[i]? = some (.create d x k a)) (hsafe : r.isDir d ∨ r.live k) :
    Replaying T ops (i + 1) (r.applyRec (.created d x k (some a))).1 := by
  have hwf := hv.wf hT i
  obtain ⟨hd, -, -, hk⟩ := hv.at hi
  have hlt : i + 1 ≤ ops.length := (List.getElem?_eq_some_iff.mp hi).1
  have hdk : d ≠ k := fun heq => hk (heq ▸ hwf.live_born hd)
  have hlast := hv.born_kind (k := k) hlt (by rw [Tree.moment_succ hi]; exact .inl rfl)
  rw [Tree.moment_length] at hlast
  refine ⟨h.toAhead.created hi (fun d' y hne => ?_) hlast.1 ?_ hdk (.now hlt ?_) (fun _ _ y => .now hlt ?_),
    created_exact h.exact x a hdk hsafe⟩
  · simp only [Tree.apply, Tree.entry_set, if_neg hne]
  · rw [hlast.2, Tree.moment_succ hi]
    simp only [Tree.apply, Tree.kind, Function.update_self]
  · rw [Tree.moment_succ hi]
    simp [Tree.apply]
  · rw [Tree.moment_succ hi]
    simp only [Tree.apply, Tree.entry_set]
    rw [if_neg fun heq => hdk heq.1.symm, hwf.entry_of_not_born hk]

theorem link (hT : T.WF) (hv : T.ValidRun ops)
    {a : Attr} (hi : ops[i]? = some (.link d x k a)) (hsafe : r.isDir d ∨ r.live k) :
    Replaying T ops (i + 1) (r.applyRec (.created d x k (some a))).1 := by
  have hwf := hv.wf hT i
  obtain ⟨hd, hdir, -, hk, hfile, ha⟩ := hv.at hi
  have hlt : i + 1 ≤ ops.length := (List.getElem?_eq_some_iff.mp hi).1
  have hdk : d ≠ k := by
    rintro rfl
    exact hfile hdir
  have hlast := hv.born_kind (Nat.le_of_lt hlt) (hwf.live_born hk)
  rw [Tree.moment_length] at hlast
  refine ⟨h.toAhead.created hi (fun d' y hne => ?_) hlast.1 (ha.trans hlast.2.symm) hdk (.now hlt ?_)
    (fun hreg => absurd (ha.symm.trans hreg) hfile), created_exact h.exact x a hdk hsafe⟩
  · simp only [Tree.apply, Tree.entry_set, if_neg hne]
  · rw [Tree.moment_succ hi]
    simp [Tree.apply]

theorem rename {e : NodeKey} {y : Name}
    (hi : ops[i]? = some (.rename d x e y)) (hsafe : ReplaySafe T ops i r (.rename d x e y)) :
    Replaying T ops (i + 1) (r.applyRec (.renamed d x e y)).1 := by
  cases hnode : r.entry d x with
  | none =>
    simp only [ReplaySafe, hnode] at hsafe
    refine ⟨h.toAhead.renamed hi fun he => ?_, ?_⟩
    · rw [hnode]
      exact hsafe he
    · rw [renamed_of_none hnode]
      exact h.exact
  | some m =>
    simp only [ReplaySafe, hnode] at hsafe
    obtain ⟨he, hy, hseen⟩ := hsafe
    refine ⟨h.toAhead.renamed hi fun _ => hnode ▸ hseen, ?_⟩
    obtain ⟨r₁, kind, heq, hkeeps, hview, hcounts⟩ := renamed_eq (e := e) (y := y) hnode
    have he₁ : r₁.view.dir e := by
      rw [hview]
      exact he
    have hm₁ : r₁.live m := by
      rw [view_live hview]
      exact live_of_entry h.exact hnode
    have hy₁ : r₁.entry e y ≠ some m := by
      rw [view_entry hview]
      simp only [View.set]
      split
      · simp
      · exact hy
    obtain ⟨t, ht⟩ := isSome_iff_exists.mp he₁
    rw [heq]
    exact (hkeeps.trans (dentryRelink_keeps ..)).exact (dentryRelink_counts
      (congrArg ShareInfo.root hkeeps.info) ht hm₁ hy₁ (hcounts _ _ h.exact))

theorem sameTree (hi : ops[i]? = some op)
    (hop : ((T.moment ops i).apply op).entry = (T.moment ops i).entry) (hsame : SameTree r r') :
    Replaying T ops (i + 1) r' :=
  ⟨h.toAhead.sameTree hi hop hsame, hsame.keeps.exact (hsame.counts h.exact)⟩

theorem step (hT : T.WF) (hv : T.ValidRun ops) (hi : ops[i]? = some op) (hsingle : op.single)
    (hsafe : ReplaySafe T ops i r op) : Replaying T ops (i + 1) (r.applyRec op.record).1 := by
  cases op with
  | create d x k a => exact h.create hT hv hi hsafe
  | link d x k a => exact h.link hT hv hi hsafe
  | unlink d x =>
    exact ⟨h.toAhead.removed hi, (dentryRemove_keeps r d x).exact (dentryRemove_counts rfl h.exact)⟩
  | removeTree d x => cases hsingle
  | rename d x e y => exact h.rename hi hsafe
  | write k version size mtime inProgress =>
    exact h.sameTree hi rfl (content_same r k version size mtime inProgress)
  | chmod k a => exact h.sameTree hi rfl (attrChanged_same r k a)

end

theorem run (h : Replaying T ops 0 r) (hT : T.WF) (hv : T.ValidRun ops)
    (hsingle : ∀ op ∈ ops, op.single)
    (hsafe : ∀ i op, ops[i]? = some op →
      ReplaySafe T ops i (r.replay ((ops.take i).map Op.record)) op)
    (i : Nat) (hi : i ≤ ops.length) : Replaying T ops i (r.replay ((ops.take i).map Op.record)) := by
  induction i with
  | zero => exact h
  | succ i ih =>
    obtain ⟨op, hop⟩ : ∃ op, ops[i]? = some op := ⟨ops[i], getElem?_eq_getElem hi⟩
    have hmem : op ∈ ops := mem_of_getElem? hop
    have := (ih (by omega)).step hT hv hop (hsingle op hmem) (hsafe i op hop)
    rw [take_add_one, hop]
    simpa [replay, foldl_append] using this

theorem shows (h : Replaying T ops ops.length r) (hwf : (T.run ops).WF) : Shows r (T.run ops) :=
  .of_dirs h.exact hwf h.root_run h.rootLive (fun k hk => (h.dirs k hk).mpr) h.toAhead.entry_of_dir

end Replaying

structure Listing (T : Tree) (ops : List Op) (cut : NodeKey → Nat) (info : ShareInfo)
    (snap : List SnapDir) (r : ShareReplica) : Prop where
  info : r.info = info
  counts : r.Counts (fun _ => 0) (fun _ => True) [] []
  live : ∀ k, r.live k ↔ ∃ s ∈ snap, k = s.dir ∨ ∃ e ∈ s.entries, e.node = k
  dir : ∀ k, r.isDir k ↔ ∃ s ∈ snap, k = s.dir ∨ ∃ e ∈ s.entries, e.node = k ∧ e.attr.kind = .dir
  listed : ∀ p x k, r.entry p x = some k → (T.moment ops (cut p)).entry p x = some k
  names : ∀ s ∈ snap, ∀ e ∈ s.entries,
    r.entry s.dir e.name = (T.moment ops (cut s.dir)).entry s.dir e.name

namespace Listing

variable {T : Tree} {ops : List Op} {cut : NodeKey → Nat} {info : ShareInfo} {snap : List SnapDir}
  {r : ShareReplica}

theorem new (T : Tree) (ops : List Op) (cut : NodeKey → Nat) (info : ShareInfo) :
    Listing T ops cut info [] (new info) := by
  refine ⟨rfl, new_sound info _, fun k => ?_, fun k => ?_, fun p x k hk => ?_, by simp⟩
  · simp [ShareReplica.new, ShareReplica.live]
  · simp [ShareReplica.new, isDir, dirOf]
  · simp [ShareReplica.new, ShareReplica.entry, dirOf] at hk

section

variable (h : Listing T ops cut info snap r)
include h

theorem snapDir {d : SnapDir} (hkind : d.dirAttr.kind = .dir)
    (hes : ∀ e ∈ d.entries, (T.moment ops (cut d.dir)).entry d.dir e.name = some e.node) :
    ∃ r', r.applySnapDir d = some r' ∧ Listing T ops cut info (snap ++ [d]) r' := by
  obtain ⟨r', hr', hl⟩ := applySnapDir_listed ((T.moment ops (cut d.dir)).entry d.dir) hkind hes
    (h.listed d.dir) h.counts
  refine ⟨r', hr', hl.info.trans h.info, hl.counts, fun k => ?_, fun k => ?_, fun p x k hk => ?_,
    fun s hs e he => ?_⟩
  · rw [hl.live, h.live]
    simp only [mem_append, mem_singleton, or_and_right, exists_or, exists_eq_left]
  · rw [hl.dir, h.dir]
    simp only [mem_append, mem_singleton, or_and_right, exists_or, exists_eq_left]
  · rw [hl.entry] at hk
    split_ifs at hk with hp
    · rw [hp.1]
      exact hk
    · exact h.listed p x k hk
  · rw [hl.entry]
    split_ifs with hp
    · rw [hp.1]
    rcases mem_append.mp hs with hs | hs
    · exact h.names s hs e he
    · obtain rfl := mem_singleton.mp hs
      exact absurd ⟨rfl, e, he, rfl⟩ hp

theorem snapshot (later : List SnapDir)
    (hkind : ∀ s ∈ later, s.dirAttr.kind = .dir)
    (hes : ∀ s ∈ later, ∀ e ∈ s.entries,
      (T.moment ops (cut s.dir)).entry s.dir e.name = some e.node) :
    ∃ r', r.applySnapshot later = some r' ∧ Listing T ops cut info (snap ++ later) r' :=
  applySnapshot_holds h fun d hd _ _ h => h.snapDir (hkind d hd) (hes d hd)

theorem replaying (hT : T.WF) (hv : T.ValidRun ops)
    (hroot : T.root = info.root) (hsnap : IsSnapshot T ops cut snap) : Replaying T ops 0 r := by
  have hr : r.root = T.root := by rw [root, h.info, hroot]
  have hentry : ∀ s ∈ snap, ∀ e ∈ s.entries, r.entry s.dir e.name = some e.node := fun s hs e he => by
    rw [h.names s hs e he]
    exact (hsnap.entries s hs e he).1
  -- the kind a listing gives is the kind the node has for good
  have hkind : ∀ s ∈ snap, ∀ e ∈ s.entries,
      (T.run ops).born e.node ∧ e.attr.kind = (T.run ops).kind e.node := fun s hs e he => by
    obtain ⟨hlist, hk⟩ := hsnap.entries s hs e he
    have := hv.born_kind (hsnap.cut_le s hs) ((hv.wf hT _).born hlist)
    rw [Tree.moment_length] at this
    exact ⟨this.1, hk.trans this.2.symm⟩
  have hrootKind : (T.run ops).born T.root ∧ (T.run ops).kind T.root = .dir := by
    have := hv.born_kind (Nat.zero_le ops.length) hT.rootBorn
    rw [Tree.moment_length] at this
    exact ⟨this.1, this.2.trans hT.rootDir⟩
  have hscanned : ∀ s ∈ snap, (T.run ops).born s.dir ∧ (T.run ops).kind s.dir = .dir := fun s hs => by
    rcases hsnap.found s hs with heq | ⟨s', hs', e, he, heq, hdir⟩
    · rw [heq]
      exact hrootKind
    · rw [← heq, ← (hkind s' hs' e he).2]
      exact ⟨(hkind s' hs' e he).1, hdir⟩
  have hnamed : ∀ k, r.live k → k ≠ T.root → ∃ d x, r.entry d x = some k := fun k hk hne => by
    obtain ⟨s, hs, rfl | ⟨e, he, rfl⟩⟩ := (h.live k).mp hk
    · obtain ⟨s', hs', e, he, heq, -⟩ := (hsnap.found s hs).resolve_left hne
      exact ⟨s'.dir, e.name, heq ▸ hentry s' hs' e he⟩
    · exact ⟨s.dir, e.name, hentry s hs e he⟩
  have hexact : r.Exact := by
    refine ⟨h.counts.balanced, h.counts.closed, fun k n hn hne => ?_⟩
    obtain ⟨d, x, hx⟩ := hnamed k (live_iff.mpr ⟨n, hn⟩) (fun heq => hne (heq.trans hr.symm))
    obtain ⟨n', hn', hmem⟩ := mem_targets.mpr ⟨x, hx⟩
    have := h.counts.counted k n hn
    have hle : n'.targets.count k ≤ Node.counting.refsTo r.shards k :=
      KeyMap.le_total (fun n => n.targets.count k) hn'
    have hpos := count_pos_iff.mpr hmem
    omega
  refine ⟨⟨hr, ?_, fun k hk => ?_, fun k hk => ?_, fun d hd x => ?_⟩, hexact⟩
  · obtain ⟨s, hs, heq⟩ := hsnap.root
    exact (h.live _).mpr ⟨s, hs, .inl (hr.trans heq.symm)⟩
  · obtain ⟨s, hs, rfl | ⟨e, he, rfl⟩⟩ := (h.live k).mp hk
    · exact (hscanned s hs).1
    · exact (hkind s hs e he).1
  · rw [h.dir]
    constructor
    · rintro ⟨s, hs, rfl | ⟨e, he, rfl, hdir⟩⟩
      · exact (hscanned s hs).2
      · exact (hkind s hs e he).2.symm.trans hdir
    intro hdir
    obtain ⟨s, hs, heq | ⟨e, he, rfl⟩⟩ := (h.live k).mp hk
    · exact ⟨s, hs, .inl heq⟩
    · exact ⟨s, hs, .inr ⟨e, he, rfl, (hkind s hs e he).2.trans hdir⟩⟩
  · -- every directory of the replica was read, so its names are those of its moment
    obtain ⟨s, hs, rfl⟩ : ∃ s ∈ snap, s.dir = d := by
      obtain ⟨s, hs, rfl | ⟨e, he, rfl, hdir⟩⟩ := (h.dir d).mp hd
      · exact ⟨s, hs, rfl⟩
      · exact hsnap.descends s hs e he hdir
    refine ⟨cut s.dir, Nat.zero_le _, hsnap.cut_le s hs, ?_⟩
    cases hx : r.entry s.dir x with
    | some k => exact (h.listed _ _ _ hx).symm
    | none =>
      cases hl : (T.moment ops (cut s.dir)).entry s.dir x with
      | none => rfl
      | some k =>
        obtain ⟨s', hs', heq, e, he, rfl⟩ := hsnap.covers s hs x k hl
        rw [← heq, hentry s' hs' e he] at hx
        cases hx

end

end Listing

/-- A snapshot and the replay of the run's records over it show the guest's tree, if every record
meets a replica that can take it. -/
theorem seed_shows (info : ShareInfo) (T : Tree) (hT : T.WF) (hroot : T.root = info.root)
    (ops : List Op) (hv : T.ValidRun ops) (hsingle : ∀ op ∈ ops, op.single) (cut : NodeKey → Nat)
    (snap : List SnapDir) (hsnap : IsSnapshot T ops cut snap) (done : SnapDone) :
    ∃ r, (ShareReplica.new info).applySnapshot snap = some r ∧
      ((∀ i op, ops[i]? = some op →
          ReplaySafe T ops i ((r.finishSnapshot done).1.replay ((ops.take i).map Op.record)) op) →
        Shows ((r.finishSnapshot done).1.replay (ops.map Op.record)) (T.run ops)) := by
  obtain ⟨r, hr, hl⟩ := (Listing.new T ops cut info).snapshot snap hsnap.dirAttr
    fun s hs e he => (hsnap.entries s hs e he).1
  refine ⟨r, hr, fun hsafe => ?_⟩
  have hfin : Listing T ops cut info snap (r.finishSnapshot done).1 := { hl with }
  have hend := (hfin.replaying hT hv hroot hsnap).run hT hv hsingle hsafe ops.length (by omega)
  rw [take_length] at hend
  exact hend.shows (hv.run_wf hT)

def twoDirs : List Op :=
  [.create ⟨2, 1⟩ (.letter 'p') ⟨10, 1⟩ (placeholderAttr .dir),
    .create ⟨2, 1⟩ (.letter 'q') ⟨11, 1⟩ (placeholderAttr .dir),
    .create ⟨10, 1⟩ (.letter 'f') ⟨12, 1⟩ (placeholderAttr .reg)]

theorem twoDirs_valid : (Tree.emptyShare ⟨2, 1⟩ (placeholderAttr .dir)).ValidRun twoDirs := by
  refine ⟨⟨.inl rfl, rfl, rfl, ?_⟩, ⟨.inl rfl, rfl, by decide, ?_⟩,
    ⟨.inr ⟨⟨2, 1⟩, (.letter 'p'), by decide⟩, by decide, by decide, ?_⟩, trivial⟩ <;>
  simp [Tree.apply, Tree.emptyShare, Tree.set]

def moveAcross : List Op := [.rename ⟨10, 1⟩ (.letter 'f') ⟨11, 1⟩ (.letter 'f')]

theorem moveAcross_valid : ((Tree.emptyShare ⟨2, 1⟩ (placeholderAttr .dir)).run twoDirs).ValidRun moveAcross := by
  refine ⟨⟨⟨12, 1⟩, by decide, .inr ⟨⟨2, 1⟩, (.letter 'q'), by decide⟩, by decide, fun hreach => ?_,
    fun m hm => ?_⟩, trivial⟩
  · have := hreach.eq_of_empty fun y => by
      simp [Tree.run, twoDirs, Tree.apply, Tree.emptyShare, Tree.set]
    simp at this
  · cases (show none = some m from hm)

theorem twoDirs_root {n : Nat} {x : Name} {k : NodeKey}
    (hx : (((Tree.emptyShare ⟨2, 1⟩ (placeholderAttr .dir)).run twoDirs).moment moveAcross n).entry
      ⟨2, 1⟩ x = some k) : x = .letter 'p' ∨ x = .letter 'q' := by
  by_contra hne
  rw [not_or] at hne
  cases n <;> simp [Tree.moment, Tree.run, twoDirs, moveAcross, Tree.apply, Tree.emptyShare,
    Tree.set, hne] at hx

def readAround (d : NodeKey) : Nat := if d = ⟨10, 1⟩ then 1 else 0

def aroundSnapshot : List SnapDir :=
  [⟨1, ⟨1⟩, ⟨2, 1⟩, placeholderAttr .dir, ⟨2, 1⟩,
      [⟨(.letter 'p'), ⟨10, 1⟩, placeholderAttr .dir⟩, ⟨(.letter 'q'), ⟨11, 1⟩, placeholderAttr .dir⟩],
      true⟩,
    ⟨1, ⟨1⟩, ⟨11, 1⟩, placeholderAttr .dir, ⟨2, 1⟩, [], true⟩,
    ⟨1, ⟨1⟩, ⟨10, 1⟩, placeholderAttr .dir, ⟨2, 1⟩, [], true⟩]

theorem aroundSnapshot_is :
    IsSnapshot ((Tree.emptyShare ⟨2, 1⟩ (placeholderAttr .dir)).run twoDirs) moveAcross readAround aroundSnapshot := by
  refine ⟨by decide, by decide, ?_, ?_, ⟨_, .head _, rfl⟩, by decide, by decide⟩
  · simp only [aroundSnapshot, mem_cons, not_mem_nil, or_false, forall_eq_or_imp, forall_eq]
    simp only [IsEmpty.forall_iff, implies_true, and_true]
    exact ⟨⟨by decide, by decide⟩, ⟨by decide, by decide⟩⟩
  simp only [aroundSnapshot, mem_cons, not_mem_nil, or_false, forall_eq_or_imp, forall_eq]
  refine ⟨fun x k hx => ?_, fun x k hx => ?_, fun x k hx => ?_⟩
  · rcases twoDirs_root hx with rfl | rfl
    · exact ⟨_, .inl rfl, rfl, _, .head _, rfl⟩
    · exact ⟨_, .inl rfl, rfl, _, .tail _ mem_cons_self, rfl⟩
  · simp [readAround, Tree.moment, Tree.run, twoDirs, Tree.apply, Tree.emptyShare, Tree.set] at hx
  · simp [readAround, Tree.moment, Tree.run, twoDirs, moveAcross, Tree.apply, Tree.emptyShare,
      Tree.set] at hx
    exact absurd hx.2.1 hx.1

/-- The walk sees the file in neither directory, and the record of the move finds no source: the
replica has lost the file. -/
theorem seed_loses_moved_file :
    ((Tree.emptyShare ⟨2, 1⟩ (placeholderAttr .dir)).run twoDirs).ValidRun moveAcross ∧
    IsSnapshot ((Tree.emptyShare ⟨2, 1⟩ (placeholderAttr .dir)).run twoDirs) moveAcross readAround aroundSnapshot ∧
    ∃ r, (ShareReplica.new ⟨⟨1⟩, ⟨2, 1⟩⟩).applySnapshot aroundSnapshot = some r ∧
      ¬ Shows ((r.finishSnapshot ⟨1, ⟨1⟩⟩).1.replay (moveAcross.map Op.record))
        (((Tree.emptyShare ⟨2, 1⟩ (placeholderAttr .dir)).run twoDirs).run moveAcross) := by
  refine ⟨moveAcross_valid, aroundSnapshot_is, ?_⟩
  have hlost : ((new ⟨⟨1⟩, ⟨2, 1⟩⟩).applySnapshot aroundSnapshot).map (fun r =>
      ((r.finishSnapshot ⟨1, ⟨1⟩⟩).1.replay (moveAcross.map Op.record)).entry ⟨11, 1⟩ (.letter 'f')) =
        some none := by decide +kernel
  obtain ⟨r, hr, hentry⟩ := map_eq_some_iff.mp hlost
  refine ⟨r, hr, fun hshows => ?_⟩
  have := hshows.entry ⟨11, 1⟩ (.letter 'f')
  rw [hentry] at this
  cases (show none = some _ from this)

def afterSnapshot : List SnapDir :=
  [⟨1, ⟨1⟩, ⟨2, 1⟩, placeholderAttr .dir, ⟨2, 1⟩,
      [⟨(.letter 'p'), ⟨10, 1⟩, placeholderAttr .dir⟩, ⟨(.letter 'q'), ⟨11, 1⟩, placeholderAttr .dir⟩],
      true⟩,
    ⟨1, ⟨1⟩, ⟨10, 1⟩, placeholderAttr .dir, ⟨2, 1⟩, [], true⟩,
    ⟨1, ⟨1⟩, ⟨11, 1⟩, placeholderAttr .dir, ⟨2, 1⟩,
      [⟨(.letter 'f'), ⟨12, 1⟩, placeholderAttr .reg⟩], true⟩]

theorem afterSnapshot_is :
    IsSnapshot ((Tree.emptyShare ⟨2, 1⟩ (placeholderAttr .dir)).run twoDirs) moveAcross (fun _ => 1) afterSnapshot := by
  refine ⟨by decide, by decide, ?_, ?_, ⟨_, .head _, rfl⟩, by decide, by decide⟩
  · simp only [afterSnapshot, mem_cons, not_mem_nil, or_false, forall_eq_or_imp, forall_eq]
    simp only [IsEmpty.forall_iff, implies_true, true_and]
    exact ⟨⟨⟨by decide, by decide⟩, ⟨by decide, by decide⟩⟩, by decide, by decide⟩
  simp only [afterSnapshot, mem_cons, not_mem_nil, or_false, forall_eq_or_imp, forall_eq]
  refine ⟨fun x k hx => ?_, fun x k hx => ?_, fun x k hx => ?_⟩
  · rcases twoDirs_root hx with rfl | rfl
    · exact ⟨_, .inl rfl, rfl, _, .head _, rfl⟩
    · exact ⟨_, .inl rfl, rfl, _, .tail _ mem_cons_self, rfl⟩
  · simp [Tree.moment, Tree.run, twoDirs, moveAcross, Tree.apply, Tree.emptyShare, Tree.set] at hx
    exact absurd hx.2.1 hx.1
  · by_cases hf : x = (.letter 'f')
    · exact ⟨_, .inr (.inr rfl), rfl, _, .head _, hf.symm⟩
    · simp [Tree.moment, Tree.run, twoDirs, moveAcross, Tree.apply, Tree.emptyShare, Tree.set,
        hf] at hx

theorem seed_shows_afterSnapshot :
    ∃ r, (ShareReplica.new ⟨⟨1⟩, ⟨2, 1⟩⟩).applySnapshot afterSnapshot = some r ∧
      Shows ((r.finishSnapshot ⟨1, ⟨1⟩⟩).1.replay (moveAcross.map Op.record))
        (((Tree.emptyShare ⟨2, 1⟩ (placeholderAttr .dir)).run twoDirs).run moveAcross) := by
  obtain ⟨r, hr, hshows⟩ := seed_shows ⟨⟨1⟩, ⟨2, 1⟩⟩ ((Tree.emptyShare ⟨2, 1⟩ (placeholderAttr .dir)).run twoDirs)
    (twoDirs_valid.run_wf (Tree.emptyShare_wf _ rfl)) rfl moveAcross moveAcross_valid (by decide)
    (fun _ => 1) afterSnapshot afterSnapshot_is ⟨1, ⟨1⟩⟩
  refine ⟨r, hr, hshows fun i op hop => ?_⟩
  have hlisted : ((new ⟨⟨1⟩, ⟨2, 1⟩⟩).applySnapshot afterSnapshot).map (fun r =>
      ((r.finishSnapshot ⟨1, ⟨1⟩⟩).1.entry ⟨10, 1⟩ (.letter 'f'),
        (r.finishSnapshot ⟨1, ⟨1⟩⟩).1.entry ⟨11, 1⟩ (.letter 'f'))) = some (none, some ⟨12, 1⟩) := by
    decide +kernel
  rw [hr, map_some, some.injEq, Prod.mk.injEq] at hlisted
  match i, hop with
  | 0, hop =>
    cases hop
    show match (r.finishSnapshot ⟨1, ⟨1⟩⟩).1.entry ⟨10, 1⟩ (.letter 'f') with
      | none => _
      | some m => _
    rw [hlisted.1]
    intro _
    exact ⟨1, by decide, by decide, hlisted.2⟩

end Mist
