import Mist.Convergence.Shows

/-! Live convergence: a replica that shows the guest's tree shows it after every operation whose
record it applies. -/

namespace Mist

open ShareReplica Option

/-- The replica shows the tree with exact counts, its tables are those of the directories, and each
directory has the parent that holds it. -/
structure Mirrors (r : ShareReplica) (T : Tree) : Prop extends Shows r T where
  exact : r.Exact
  dirs : ∀ k, r.live k → (r.isDir k ↔ T.kind k = .dir)
  parents : ∀ {d x k}, T.entry d x = some k → T.kind k = .dir → r.parentOf k = some d

namespace Mirrors

variable {r r' : ShareReplica} {T T' : Tree} {v : View}

theorem root_live (h : Mirrors r T) : r.live r.root := (h.live _).mpr (.inl h.root)

variable {d k : NodeKey} {x : Name}

section

variable (h : Mirrors r T)
include h

theorem isDir_iff : r.isDir k ↔ T.Live k ∧ T.kind k = .dir := by
  constructor
  · intro hk
    exact ⟨(h.live k).mp (live_of_isDir hk), (h.dirs k (live_of_isDir hk)).mp hk⟩
  · rintro ⟨hk, hdir⟩
    exact (h.dirs k ((h.live k).mpr hk)).mpr hdir

theorem of_left (hT' : T'.WF) (hroot : T'.root = T.root) (hkeeps : Keeps r r')
    (hs : r'.Counts (fun _ => 0) (· = r.root) [] []) (hleft : Left r' v)
    (hdir : ∀ k, v.live k → (v.dir k ↔ T'.kind k = .dir))
    (hentry : ∀ d, r'.live d → ∀ x, v.entry d x = T'.entry d x)
    (hparent : ∀ {d x k}, T'.entry d x = some k → T'.kind k = .dir → v.parent k = some d) :
    Mirrors r' T' := by
  have hroot' : r'.root = T'.root := by
    rw [hroot, ← h.root, root, hkeeps.info]
    rfl
  have hdirs : ∀ k, r'.live k → (r'.isDir k ↔ T'.kind k = .dir) := fun k hk =>
    (hleft.dir k hk).trans (hdir k (hleft.live k hk))
  have hshows : Shows r' T' :=
    .of_dirs (hkeeps.exact hs) hT' hroot' (hkeeps.root h.root_live) (fun k hk => (hdirs k hk).mpr) fun d hd x => by
      rw [hleft.entry d (live_of_isDir hd), hentry d (live_of_isDir hd)]
  refine ⟨hshows, hkeeps.exact hs, hdirs, fun {d x k} he hk => ?_⟩
  have hlive : r'.live k := (hshows.live k).mpr (.inr ⟨d, x, he⟩)
  rw [hleft.parent k hlive]
  exact hparent he hk

theorem placed {a : Attr} (hT' : T'.WF) (hroot : T'.root = T.root)
    (hentry : T'.entry = (T.set d x (some k)).entry) (hd : T.Live d) (hdir : T.kind d = .dir)
    (hkind : ∀ j, T.Live j → T'.kind j = T.kind j) (ha : a.kind = T'.kind k) :
    Mirrors (r.applyRec (.created d x k (some a))).1 T' := by
  have hp : r.isDir d := h.isDir_iff.mpr ⟨hd, hdir⟩
  refine h.of_left hT' hroot (created_keeps r d x k a) (created_counts hp x a h.exact (fun _ => rfl) rfl)
    (created_left hp x k a) (fun j hj => ?_) (fun d' _ y => ?_) fun {d' y j} he hj => ?_
  · by_cases hjk : j = k
    · subst hjk
      simp only [View.set, View.upsert, view, true_and, ha]
      refine or_iff_left_of_imp fun hold => ?_
      obtain ⟨hlive, hold⟩ := h.isDir_iff.mp hold
      exact (hkind j hlive).trans hold
    · have hlive : r.live j := by simpa [View.set, View.upsert, view, hjk] using hj
      rw [hkind j ((h.live j).mp hlive), ← h.dirs j hlive]
      simp [View.set, View.upsert, view, hjk]
  · rw [hentry]
    simp only [View.set, View.upsert, view, Tree.entry_set, h.entry]
  · by_cases hjk : j = k
    · subst hjk
      have hslot : T'.entry d x = some j := hentry ▸ Tree.entry_set_self ..
      obtain ⟨rfl, -⟩ := hT'.unique he hslot hj
      simp [View.set, View.upsert]
    · rw [hentry, Tree.entry_set] at he
      split at he
      · exact absurd (some.inj he).symm hjk
      · rw [hkind j (.inr ⟨d', y, he⟩)] at hj
        simp only [View.set, View.upsert, if_neg hjk]
        exact h.parents he hj

theorem create (hT : T.WF) {a b : Attr} (hv : T.Valid (.create d x k a)) (hb : b.kind = a.kind) :
    Mirrors (r.applyRec (.created d x k (some b))).1 (T.apply (.create d x k a)) := by
  refine h.placed (hT.create hv) rfl rfl hv.1 hv.2.1 (fun j hj => ?_) ?_
  · exact Tree.kind_create T d x a fun heq => hv.2.2.2 (heq ▸ hT.live_born hj)
  · simpa [Tree.apply, Tree.kind] using hb

theorem link (hT : T.WF) {a b : Attr} (hv : T.Valid (.link d x k a)) (hb : b.kind = a.kind) :
    Mirrors (r.applyRec (.created d x k (some b))).1 (T.apply (.link d x k a)) := by
  refine h.placed (hT.link hv) rfl rfl hv.1 hv.2.1 (fun j _ => ?_) ?_
  · exact congrFun (T.kind_update hv.2.2.2.2.2) j
  · simpa [Tree.apply, Tree.kind] using hb

theorem remove (hT' : T'.WF) (hroot : T'.root = T.root)
    (hkind : T'.kind = T.kind)
    (hentry : ∀ d', (r.dentryRemove d x).live d' → ∀ y, (T.set d x none).entry d' y = T'.entry d' y)
    (hle : ∀ {d' y k}, T'.entry d' y = some k → T.entry d' y = some k) :
    Mirrors (r.applyRec (.removed d x)).1 T' := by
  refine h.of_left hT' hroot (dentryRemove_keeps r d x) (dentryRemove_counts rfl h.exact)
    (dentryRemove_left r d x) (fun j hj => ?_) (fun d' hd' y => ?_) fun he hj => ?_
  · rw [hkind]
    exact h.dirs j hj
  · rw [← hentry d' hd' y]
    simp only [View.set, view, Tree.entry_set, h.entry]
  · rw [hkind] at hj
    exact h.parents (hle he) hj

theorem unlink (hT : T.WF) (hv : T.Valid (.unlink d x)) :
    Mirrors (r.applyRec (.removed d x)).1 (T.apply (.unlink d x)) :=
  h.remove (hT.unlink hv) rfl rfl (fun _ _ _ => rfl) fun he => (Tree.entry_of_entry_clear he).2

/-- A directory that survives the removal of a name still has its way to the root. -/
theorem reach_of_survivor (hT : T.WF) {q : NodeKey}
    (hq : T.Reach T.root q) (hlive : (r.dentryRemove d x).live q) (hdir : T.kind q = .dir) :
    (T.set d x none).Reach T.root q := by
  have hleft := dentryRemove_left r d x
  induction hq with
  | refl => exact .refl
  | @step p k w _ he ih =>
    have hne : k ≠ (r.dentryRemove d x).root := by
      rw [root, (dentryRemove_keeps r d x).info]
      rintro rfl
      exact hT.noRoot (he.trans (congrArg some h.root))
    obtain ⟨d₁, x₁, h₁⟩ := (named_of_live ((dentryRemove_keeps r d x).exact (dentryRemove_counts rfl h.exact)) hlive).resolve_left hne
    have hparent := live_of_isDir (isDir_of_entry h₁)
    have hslot : (T.set d x none).entry d₁ x₁ = some k := by
      rw [hleft.entry d₁ hparent] at h₁
      simpa only [View.set, view, Tree.entry_set, h.entry] using h₁
    obtain ⟨rfl, rfl⟩ := hT.unique (Tree.entry_of_entry_clear hslot).2 he hdir
    exact .step (ih hparent (hT.dirs he)) hslot

theorem removeTree (hT : T.WF) :
    Mirrors (r.applyRec (.removed d x)).1 (T.apply (.removeTree d x)) := by
  refine h.remove hT.removeTree rfl rfl (fun d' hd' y => ?_)
    fun he => (Tree.entry_of_entry_clear (Tree.entry_of_entry_prune he).2).2
  simp only [Tree.apply, Tree.prune]
  split_ifs with hgone
  · rfl
  cases he : (T.set d x none).entry d' y with
  | none => rfl
  | some k =>
    have hold := (Tree.entry_of_entry_clear he).2
    exact absurd (h.reach_of_survivor hT (hT.rooted hold) hd' (hT.dirs hold)) hgone

theorem rename (hT : T.WF) {e : NodeKey} {y : Name} (hv : T.Valid (.rename d x e y)) :
    Mirrors (r.applyRec (.renamed d x e y)).1 (T.apply (.rename d x e y)) := by
  have hT' := hT.rename hv
  obtain ⟨k, hx, he, hdir, -, hm⟩ := hv
  have happ : T.apply (.rename d x e y) = (T.set d x none).set e y (some k) := by
    simp only [Tree.apply, hx]
  rw [happ] at hT' ⊢
  obtain ⟨r₁, kind, heq, hkeeps, hview, hcounts⟩ := renamed_eq (e := e) (y := y) ((h.entry d x).trans hx)
  have he₁ : r₁.isDir e := by
    show r₁.view.dir e
    rw [hview]
    exact h.isDir_iff.mpr ⟨he, hdir⟩
  have hk₁ : r₁.live k := by
    rw [view_live hview]
    exact (h.live k).mpr (.inr ⟨d, x, hx⟩)
  have hy₁ : r₁.entry e y ≠ some k := by
    rw [view_entry hview]
    simp only [View.set, view, h.entry]
    split
    · simp
    · exact fun hy => (hm k hy).1 rfl
  obtain ⟨t, ht⟩ := isSome_iff_exists.mp he₁
  rw [heq]
  refine h.of_left hT' rfl (hkeeps.trans (dentryRelink_keeps ..))
    (dentryRelink_counts (congrArg ShareInfo.root hkeeps.info) ht hk₁ hy₁ (hcounts _ _ h.exact)) (hview ▸ dentryRelink_left ht)
    (fun j hj => h.dirs j hj) (fun d' _ z => ?_) fun {d' z j} hz hj => ?_
  · simp only [View.setParent, View.set, view, Tree.entry_set, h.entry]
  by_cases hjk : j = k
  · subst hjk
    rw [(hT'.unique hz (Tree.entry_set_self ..) hj).1]
    simp [View.setParent]
  · rcases Tree.entry_rename hz with ⟨-, -, heq⟩ | ⟨-, hold⟩
    · exact absurd heq hjk
    · simp only [View.setParent, if_neg hjk]
      exact h.parents hold hj

theorem sameTree (hsame : SameTree r r') (hroot : T'.root = T.root)
    (hkind : T'.kind = T.kind) (hentry : T'.entry = T.entry) : Mirrors r' T' := by
  have hview := hsame.view
  have hlive : ∀ k, r'.live k ↔ r.live k := view_live hview
  refine ⟨⟨?_, fun d x => ?_, fun k => ?_⟩, ?_, fun k hk => ?_, fun {d x k} he hk => ?_⟩
  · rw [root, hsame.info, hroot]
    exact h.root
  · rw [view_entry hview, hentry]
    exact h.entry d x
  · rw [hlive, Tree.Live, hroot, hentry]
    exact h.live k
  · exact hsame.keeps.exact (hsame.counts h.exact)
  · show r'.view.dir k ↔ _
    rw [hview, hkind]
    exact h.dirs k ((hlive k).mp hk)
  rw [hentry] at he
  rw [hkind] at hk
  show r'.view.parent k = _
  rw [hview]
  exact h.parents he hk

theorem step (hT : T.WF) {op : Op} (hv : T.Valid op) :
    Mirrors (r.applyRec op.record).1 (T.apply op) := by
  cases op with
  | create d x k a => exact h.create hT hv rfl
  | link d x k a => exact h.link hT hv rfl
  | unlink d x => exact h.unlink hT hv
  | removeTree d x => exact h.removeTree hT
  | rename d x e y => exact h.rename hT hv
  | write k version size mtime inProgress =>
    exact h.sameTree (content_same r k version size mtime inProgress) rfl (T.kind_write ..) rfl
  | chmod k a => exact h.sameTree (attrChanged_same r k a) rfl (T.kind_update hv.2) rfl

end

end Mirrors

def ShareReplica.replay (r : ShareReplica) (recs : List Rec) : ShareReplica :=
  recs.foldl (fun r rec => (r.applyRec rec).1) r

namespace Mirrors

variable {r : ShareReplica} {T : Tree}

theorem run (h : Mirrors r T) (hT : T.WF) {ops : List Op} (hv : T.ValidRun ops) :
    Mirrors (r.replay (ops.map Op.record)) (T.run ops) ∧ (T.run ops).WF := by
  induction ops generalizing r T with
  | nil => exact ⟨h, hT⟩
  | cons op ops ih => exact ih (h.step hT hv.1) (hT.apply hv.1) hv.2

theorem lookup_eq (h : Mirrors r T) {d : NodeKey} (hd : T.Live d) (hdir : T.kind d = .dir) (x : Name) :
    (r.lookup d x).map Prod.fst = (T.entry d x).elim (.error .noEnt) .ok := by
  obtain ⟨t, ht⟩ := isSome_iff_exists.mp (h.isDir_iff.mpr ⟨hd, hdir⟩)
  obtain ⟨n, hn, hnt⟩ := dirOf_eq_some.mp ht
  have hentry : (t.find x).map Prod.fst = T.entry d x := by
    rw [← h.entry, entry, ht]
    rfl
  rw [lookup, hn]
  simp only [hnt]
  cases hf : t.find x with
  | none =>
    rw [hf] at hentry
    rw [← hentry]
    rfl
  | some c =>
    rw [hf] at hentry
    rw [← hentry]
    obtain ⟨m, hm⟩ := live_iff.mp ((h.live c.1).mpr (.inr ⟨d, x, hentry.symm⟩))
    simp only [getattr, hm]
    rfl

theorem linkCount_eq (h : Mirrors r T) (k : NodeKey) : (T.names k).encard = r.linkCount k :=
  h.toShows.linkCount_eq h.exact k

end Mirrors

def ShareReplica.seededRoot (info : ShareInfo) (a : Attr) (snapId : UInt64) : Option ShareReplica :=
  ((new info).applySnapDir
      { snapId, share := info.id, dir := info.root, dirAttr := a, parent := info.root, entries := [],
        last := true }).map
    fun r => (r.finishSnapshot ⟨snapId, info.id⟩).1

theorem new_sound (info : ShareInfo) (exempt : NodeKey → Prop) :
    (new info).Counts (fun _ => 0) exempt [] [] := by
  refine ⟨fun k v hk => ?_, fun k v hk => ?_, fun k v hk => ?_⟩ <;>
    simp [new] at hk

theorem finishSnapshot_same (r : ShareReplica) (done : SnapDone) :
    SameTree r (r.finishSnapshot done).1 :=
  .of_shards rfl rfl

theorem seededRoot_mirrors (info : ShareInfo) {a : Attr} (ha : a.kind = .dir) (snapId : UInt64) :
    ∃ r, seededRoot info a snapId = some r ∧ Mirrors r (Tree.emptyShare info.root a) := by
  obtain ⟨r, hr, h⟩ := applySnapDir_listed (r := new info)
    (d := { snapId, share := info.id, dir := info.root, dirAttr := a, parent := info.root,
            entries := [], last := true })
    (fun _ => none) ha (by simp) (by simp [new, entry, dirOf]) (new_sound info _)
  have hlive : ∀ k, r.live k ↔ k = info.root := fun k => by
    rw [h.live]
    simp [new, live]
  have hroot : r.root = info.root := congrArg ShareInfo.root h.info
  refine ⟨(r.finishSnapshot ⟨snapId, info.id⟩).1, by simp only [seededRoot, hr, map_some], ?_⟩
  refine Mirrors.sameTree ⟨⟨hroot, fun d x => ?_, fun k => ?_⟩, ⟨h.counts.balanced, h.counts.closed, ?_⟩,
    fun k hk => ?_, fun he => ?_⟩ (finishSnapshot_same r _) rfl rfl rfl
  · rw [h.entry]
    simp [new, entry, dirOf, Tree.emptyShare]
  · rw [hlive]
    simp [Tree.Live, Tree.emptyShare]
  · intro k n hn hne
    have hk : r.live k := live_iff.mpr ⟨n, hn⟩
    exact absurd (((hlive k).mp hk).trans hroot.symm) hne
  · rw [h.dir]
    simp [(hlive k).mp hk, Tree.emptyShare, Tree.kind, ha]
  · cases he

/-- After every prefix of a valid run from an empty share, the replica that applied the records
shows the guest's tree. -/
theorem live_convergence (info : ShareInfo) (a : Attr) (ha : a.kind = .dir) (snapId : UInt64)
    (ops : List Op) (hv : (Tree.emptyShare info.root a).ValidRun ops) :
    ∃ r₀, seededRoot info a snapId = some r₀ ∧ ∀ i : Nat,
      let r := r₀.replay ((ops.take i).map Op.record)
      let T := (Tree.emptyShare info.root a).run (ops.take i)
      (∀ d, T.Live d → T.kind d = .dir → ∀ x,
        (r.lookup d x).map Prod.fst = (T.entry d x).elim (.error .noEnt) .ok) ∧
      (∀ k, r.live k ↔ T.Reach T.root k) ∧
      (∀ k, (T.names k).encard = r.linkCount k) ∧
      ∀ d x k, T.entry d x = some k → T.kind k = .dir → r.parentOf k = some d := by
  obtain ⟨r₀, hr₀, h₀⟩ := seededRoot_mirrors info ha snapId
  refine ⟨r₀, hr₀, fun i => ?_⟩
  obtain ⟨h, hT⟩ := h₀.run (Tree.emptyShare_wf _ ha) (hv.take i)
  exact ⟨fun d hd hdir x => h.lookup_eq hd hdir x, fun k => (h.live k).trans hT.live_iff_reach,
    h.linkCount_eq, fun d x k he hk => h.parents he hk⟩

def moveOutAndRemove : List Op :=
  [.create ⟨2, 1⟩ (.letter 'd') ⟨10, 1⟩ (placeholderAttr .dir),
    .create ⟨10, 1⟩ (.letter 'f') ⟨11, 1⟩ (placeholderAttr .reg),
    .rename ⟨10, 1⟩ (.letter 'f') ⟨2, 1⟩ (.letter 'g'),
    .removeTree ⟨2, 1⟩ (.letter 'd')]

theorem moveOutAndRemove_valid : (Tree.emptyShare ⟨2, 1⟩ (placeholderAttr .dir)).ValidRun moveOutAndRemove := by
  refine ⟨⟨.inl rfl, rfl, rfl, by simp [Tree.emptyShare]⟩,
    ⟨.inr ⟨⟨2, 1⟩, (.letter 'd'), by decide⟩, by decide, by decide, ?_⟩,
    ⟨⟨11, 1⟩, by decide, .inl rfl, by decide, fun hreach => ?_, fun m hm => ?_⟩,
    ⟨⟨10, 1⟩, by decide⟩, trivial⟩
  · simp [Tree.apply, Tree.emptyShare, Tree.set]
  · have := hreach.eq_of_empty fun y => by simp [Tree.apply, Tree.emptyShare, Tree.set]
    simp at this
  · cases (show none = some m from hm)

theorem live_convergence_moveOutAndRemove :
    ∃ r₀, seededRoot ⟨⟨1⟩, ⟨2, 1⟩⟩ (placeholderAttr .dir) 1 = some r₀ ∧ ∀ i : Nat,
      let r := r₀.replay ((moveOutAndRemove.take i).map Op.record)
      let T := (Tree.emptyShare ⟨2, 1⟩ (placeholderAttr .dir)).run (moveOutAndRemove.take i)
      (∀ d, T.Live d → T.kind d = .dir → ∀ x,
        (r.lookup d x).map Prod.fst = (T.entry d x).elim (.error .noEnt) .ok) ∧
      (∀ k, r.live k ↔ T.Reach T.root k) ∧
      (∀ k, (T.names k).encard = r.linkCount k) ∧
      ∀ d x k, T.entry d x = some k → T.kind k = .dir → r.parentOf k = some d :=
  live_convergence ⟨⟨1⟩, ⟨2, 1⟩⟩ (placeholderAttr .dir) rfl 1 moveOutAndRemove moveOutAndRemove_valid

end Mist
