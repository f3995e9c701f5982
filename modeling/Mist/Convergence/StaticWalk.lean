import Mist.Convergence.Complete
import Mist.Mistd.Rows
import Mist.Replica.Twice

/-! The walk of a tree that does not change, and the replica that its records make. -/

namespace Mist

open ShareReplica List DirJob Control Attr

theorem Attr.lay_same {a b : Attr} {as : List Attr} (has : ∀ c ∈ as, c = b) (hne : as ≠ []) :
    a.lay as = a.overlay b := by
  induction as generalizing a with
  | nil => exact absurd rfl hne
  | cons c as ih =>
    obtain rfl := has c mem_cons_self
    by_cases hnil : as = []
    · rw [hnil]
      rfl
    · rw [lay, foldl_cons, ← lay, ih (fun c' hc' => has c' (.tail _ hc')) hnil, overlay_assoc,
        overlay_self]

namespace ShareReplica

variable {r r' : ShareReplica} {k : NodeKey} {a b : Attr} {d : SnapDir}

def Wears (r : ShareReplica) (k : NodeKey) (b : Attr) : Prop :=
  (∃ a : Attr, (r.coat k).1 = a.overlay b) ∧ (b.hasSide → (r.coat k).2 = true)

theorem Wears.getattr (h : r.Wears k b) (hk : r.live k) :
    ∃ a, r.getattr k = .ok a ∧ a.agrees b := by
  obtain ⟨n, hn⟩ := live_iff.mp hk
  obtain ⟨⟨a, ha⟩, hside⟩ := h
  refine ⟨_, getattr_coat hn, ?_⟩
  rw [ha]
  simp only [agrees, shown, overlay, Attr.mk.injEq, true_and]
  refine ⟨?_, ?_⟩
  · by_cases hdev : (b.kind = .chr ∨ b.kind = .blk) ∧ b.rdev ≠ 0
    · have hon := hside (by simp [hasSide, hdev.2])
      simp [hon, hdev.1, hdev.2]
    · rw [if_neg hdev]
  · by_cases hlink : b.kind = .symlink ∧ b.symlinkTarget ≠ none
    · obtain ⟨target, htarget⟩ := Option.ne_none_iff_exists'.mp hlink.2
      have hon := hside (by simp [hasSide, htarget])
      simp [hon, hlink.1, htarget]
    · rw [if_neg hlink]

theorem applySnapDir_calm (hkind : d.dirAttr.kind = .dir) (hr' : r.applySnapDir d = some r') :
    Calm k (r.snapNodes d) r' := by
  obtain ⟨t, ht⟩ := r.snapNodes_table hkind
  rw [applySnapDir_eq ht] at hr'
  cases hr'
  exact (filled_calm (r.snapNodes d) d.dir (snapTable d t) (t.fill d.entries)).trans
    (foldl_linkDec_calm _ _)

theorem applySnapDir_wears {attrOf : NodeKey → Attr} (hkind : d.dirAttr.kind = .dir)
    (hr' : r.applySnapDir d = some r') (hpaint : ∀ p ∈ snapPaint d, p.2 = attrOf p.1)
    (hold : ∀ k, r.live k → r.Wears k (attrOf k)) (hk : r'.live k) : r'.Wears k (attrOf k) := by
  have hcoat := (applySnapDir_calm hkind hr').coat hk
  rw [snapNodes_coat] at hcoat
  rw [Wears, hcoat]
  by_cases hnil : attrsOf k (snapPaint d) = []
  · -- the record is not about the node
    have hlive : r.live k := by
      obtain ⟨r₁, hr₁, hsnapped⟩ := applySnapDir_snapped r hkind
      obtain rfl := Option.mem_unique hr₁ hr'
      have hnot : ∀ p ∈ snapPaint d, p.1 ≠ k := by
        simpa [attrsOf, filter_eq_nil_iff] using hnil
      refine (hsnapped.live k hk).resolve_right ?_
      rintro (rfl | ⟨e, he, rfl⟩)
      · exact hnot (d.dir, d.dirAttr) mem_cons_self rfl
      · exact hnot (e.node, e.attr) (mem_cons_of_mem _ (mem_map_of_mem he)) rfl
    rw [hnil]
    obtain ⟨hlaid, hside⟩ := hold k hlive
    exact ⟨hlaid, fun h => by simp [hside h]⟩
  · have hsame : ∀ c ∈ attrsOf k (snapPaint d), c = attrOf k := by
      intro c hc
      obtain ⟨p, hp, rfl⟩ := mem_map.mp hc
      obtain ⟨hmem, hkey⟩ := mem_filter.mp hp
      rw [hpaint p hmem, of_decide_eq_true hkey]
    refine ⟨⟨_, lay_same hsame hnil⟩, fun h => ?_⟩
    obtain ⟨c, hc⟩ := exists_mem_of_ne_nil _ hnil
    exact Bool.or_eq_true_iff.mpr (.inr (any_eq_true.mpr ⟨c, hc, hsame c hc ▸ h⟩))

theorem snapNodes_dirOf {t : DirState} (h : r.dirOf k = some t) : (r.snapNodes d).dirOf k = some t := by
  have hstep : ∀ (r : ShareReplica) (j : NodeKey) (a : Attr) (p : NodeKey), r.dirOf k = some t →
      (r.upsertNode j a p).dirOf k = some t := by
    intro r j a p h
    rw [dirOf_upsertNode]
    split
    · rename_i hkj
      rw [← hkj, h]
      rfl
    · exact h
  exact foldlRecOn d.entries _ (motive := (dirOf · k = some t)) (hstep r _ _ _ h)
    fun r h _ _ => hstep r _ _ _ h

theorem applySnapDir_marks (hkind : d.dirAttr.kind = .dir) (hr' : r.applySnapDir d = some r')
    (hk : r'.live k) (h : r.marksComplete k ∨ k = d.dir ∧ d.last = true) : r'.marksComplete k := by
  obtain ⟨t, ht⟩ := r.snapNodes_table hkind
  rw [applySnapDir_eq ht] at hr'
  cases hr'
  rw [marksComplete, foldl_linkDec_dirOf hk, snapStored_dirOf ht]
  split_ifs with hdir
  · refine ⟨_, rfl, ?_⟩
    unfold snapTable
    split
    · rfl
    rename_i hlast
    obtain ⟨t', ht', hcomplete⟩ := h.resolve_right fun h => hlast h.2
    obtain rfl := Option.some.inj ((hdir ▸ snapNodes_dirOf ht').symm.trans ht)
    rw [DirState.fill_complete]
    exact hcomplete
  · obtain ⟨t', ht', hcomplete⟩ := h.resolve_right fun h => hdir h.1
    exact ⟨t', snapNodes_dirOf ht', hcomplete⟩

end ShareReplica

structure Rebuilt (T : Tree) (r : ShareReplica) : Prop extends Shows r T where
  attrs : ∀ k, T.Live k → ∃ a, r.getattr k = .ok a ∧ a.agrees (T.statx k)
  complete : ∀ d ∈ T.dirs, r.marksComplete d
  links : ∀ k, (T.names k).encard = r.linkCount k

structure Tree.Recorded (T : Tree) (recs : List SnapDir) : Prop where
  dirs : ∀ s ∈ recs, s.dir ∈ T.dirs ∧ s.dirAttr = T.statx s.dir
  entries : ∀ s ∈ recs, ∀ e ∈ s.entries, T.entry s.dir e.name = some e.node ∧ e.attr = T.statx e.node
  all : ∀ d x k, T.entry d x = some k → ∃ s ∈ recs, s.dir = d ∧ ∃ e ∈ s.entries, e.name = x
  last : ∀ d ∈ T.dirs, ∃ s ∈ recs, s.dir = d ∧ s.last = true

/-- The replica after some of these records. -/
structure Rebuilding (T : Tree) (info : ShareInfo) (snap : List SnapDir) (r : ShareReplica) : Prop
    extends Listing T [] (fun _ => 0) info snap r where
  wears : ∀ k, r.live k → r.Wears k (T.statx k)
  marks : ∀ s ∈ snap, s.last = true → r.marksComplete s.dir

section

variable {T : Tree} {info : ShareInfo} {recs snap later : List SnapDir} {r : ShareReplica}

theorem Tree.Recorded.perm (h : T.Recorded snap) (hperm : recs.Perm snap) : T.Recorded recs := by
  refine ⟨fun s hs => h.dirs s (hperm.mem_iff.mp hs), fun s hs => h.entries s (hperm.mem_iff.mp hs),
    fun d x k hx => ?_, fun d hd => ?_⟩
  · obtain ⟨s, hs, hrest⟩ := h.all d x k hx
    exact ⟨s, hperm.mem_iff.mpr hs, hrest⟩
  · obtain ⟨s, hs, hrest⟩ := h.last d hd
    exact ⟨s, hperm.mem_iff.mpr hs, hrest⟩

theorem Tree.Recorded.isSnapshot (h : T.Recorded recs) (hT : T.WF) :
    IsSnapshot T [] (fun _ => 0) recs := by
  have hkind : ∀ s ∈ recs, ∀ e ∈ s.entries, e.attr.kind = T.kind e.node := fun s hs e he => by
    rw [(h.entries s hs e he).2]
    rfl
  refine ⟨fun s hs => Nat.zero_le _, fun s hs => ?_, fun s hs e he => ?_, fun s hs x k hx => ?_, ?_,
    fun s hs e he hdir => ?_, fun s hs => ?_⟩
  · rw [(h.dirs s hs).2]
    exact (h.dirs s hs).1.2
  · exact ⟨(h.entries s hs e he).1, hkind s hs e he⟩
  · exact h.all s.dir x k hx
  · obtain ⟨s, hs, hdir, -⟩ := h.last T.root ⟨.inl rfl, hT.rootDir⟩
    exact ⟨s, hs, hdir⟩
  · obtain ⟨s', hs', hdir', -⟩ := h.last e.node
      ⟨.inr ⟨_, _, (h.entries s hs e he).1⟩, (hkind s hs e he).symm.trans hdir⟩
    exact ⟨s', hs', hdir'⟩
  obtain ⟨hlive, hdir⟩ := (h.dirs s hs).1
  refine hlive.imp id ?_
  rintro ⟨d, x, hx⟩
  obtain ⟨s', hs', rfl, e, he, rfl⟩ := h.all d x s.dir hx
  have hnode := Option.some.inj ((h.entries s' hs' e he).1.symm.trans hx)
  exact ⟨s', hs', e, he, hnode, (hkind s' hs' e he).trans (hnode ▸ hdir)⟩

theorem Rebuilding.new (T : Tree) (info : ShareInfo) : Rebuilding T info [] (new info) :=
  ⟨Listing.new T [] _ info, fun k hk => by simp [ShareReplica.new, live] at hk,
    fun s hs => (nomatch hs)⟩

theorem Rebuilding.snapDir (h : Rebuilding T info snap r) {d : SnapDir} (hdir : d.dir ∈ T.dirs)
    (hattr : d.dirAttr = T.statx d.dir)
    (hes : ∀ e ∈ d.entries, T.entry d.dir e.name = some e.node ∧ e.attr = T.statx e.node) :
    ∃ r', r.applySnapDir d = some r' ∧ Rebuilding T info (snap ++ [d]) r' := by
  have hkind : d.dirAttr.kind = .dir := by
    rw [hattr]
    exact hdir.2
  obtain ⟨r', hr', hlisting⟩ := h.toListing.snapDir hkind fun e he => (hes e he).1
  have hpaint : ∀ p ∈ snapPaint d, p.2 = T.statx p.1 := by
    intro p hp
    rcases mem_cons.mp hp with rfl | hp
    · exact hattr
    · obtain ⟨e, he, rfl⟩ := mem_map.mp hp
      exact (hes e he).2
  refine ⟨r', hr', hlisting, fun k hk => applySnapDir_wears hkind hr' hpaint h.wears hk,
    fun s hs hlast => ?_⟩
  have hlive : r'.live s.dir := (hlisting.live _).mpr ⟨s, hs, .inl rfl⟩
  refine applySnapDir_marks hkind hr' hlive ?_
  rcases Runs.mem_append_cases hs with hold | rfl
  · exact .inl (h.marks s hold hlast)
  · exact .inr ⟨rfl, hlast⟩

theorem Tree.Recorded.rebuilt (h : T.Recorded recs) (hT : T.WF) (hroot : T.root = info.root) :
    ∃ r, (new info).applySnapshot recs = some r ∧ Rebuilt T r := by
  obtain ⟨r, hr, hend⟩ := applySnapshot_holds (Rebuilding.new T info) fun d hd _ _ h' =>
    h'.snapDir (h.dirs d hd).1 (h.dirs d hd).2 (h.entries d hd)
  have hreplaying := hend.toListing.replaying hT trivial hroot (h.isSnapshot hT)
  have hshows : Shows r T := hreplaying.shows hT
  refine ⟨r, hr, hshows, fun k hk => ?_, fun d hd => ?_, hshows.linkCount_eq hreplaying.exact⟩
  · have hlive := (hshows.live k).mpr hk
    exact (hend.wears k hlive).getattr hlive
  · obtain ⟨s, hs, rfl, hlast⟩ := h.last d hd
    exact hend.marks s hs hlast

end

/-- For every directory one record that is marked last, and none of the directory behind it. -/
def Tree.LastOnce (T : Tree) (sent : List SnapDir) : Prop :=
  ∀ d ∈ T.dirs, ∃ before rec after, sent = before ++ rec :: after ∧ rec.dir = d ∧ rec.last = true ∧
    (∀ s ∈ before, s.dir = d → s.last = false) ∧ ∀ s ∈ after, s.dir ≠ d

section

variable {fs : GuestFs} {w : WalkInfo} {T : Tree} {job : DirJob} {pending es : List SnapEntry}
  {taken : List Taken}

theorem DirJob.mem_flush {rec : SnapDir} (h : rec ∈ job.flush w pending es) :
    ∃ part last, rec = job.record w part last ∧ ∀ e ∈ part, e ∈ pending ++ es := by
  induction es generalizing pending with
  | nil =>
    obtain rfl := mem_singleton.mp h
    exact ⟨pending, true, rfl, fun e he => by simpa using he⟩
  | cons e es ih =>
    rw [flush] at h
    split at h
    · rcases mem_cons.mp h with rfl | h
      · exact ⟨pending ++ [e], false, rfl, fun e' he' => by
          rw [append_cons]
          exact mem_append_left _ he'⟩
      · obtain ⟨part, last, rfl, hpart⟩ := ih h
        exact ⟨part, last, rfl, fun e' he' => by simpa using .inr (.inr (hpart e' he'))⟩
    · obtain ⟨part, last, rfl, hpart⟩ := ih h
      exact ⟨part, last, rfl, fun e' he' => by
        rw [append_cons]
        exact hpart e' he'⟩

theorem DirJob.flush_all (job : DirJob) (w : WalkInfo) {e : SnapEntry} (he : e ∈ pending ++ es) :
    ∃ rec ∈ job.flush w pending es, e ∈ rec.entries := by
  induction es generalizing pending with
  | nil =>
    rw [append_nil] at he
    exact ⟨_, mem_singleton_self _, he⟩
  | cons e' es ih =>
    rw [flush]
    rw [append_cons] at he
    split
    · rcases mem_append.mp he with he | he
      · exact ⟨_, .head _, he⟩
      · obtain ⟨rec, hrec, hmem⟩ := ih (show e ∈ [] ++ es from he)
        exact ⟨rec, .tail _ hrec, hmem⟩
    · exact ih he

theorem DirJob.flush_last (job : DirJob) (w : WalkInfo) (pending es : List SnapEntry) :
    ∃ full part, job.flush w pending es = full ++ [job.record w part true] ∧
      ∀ s ∈ full, s.last = false := by
  induction es generalizing pending with
  | nil => exact ⟨[], pending, rfl, fun s hs => (nomatch hs)⟩
  | cons e es ih =>
    rw [flush]
    split
    · obtain ⟨full, part, heq, hfull⟩ := ih []
      refine ⟨job.record w (pending ++ [e]) false :: full, part, by rw [heq, cons_append], ?_⟩
      intro s hs
      rcases mem_cons.mp hs with rfl | hs
      · rfl
      · exact hfull s hs
    · exact ih (pending ++ [e])

theorem Covers.recorded (h : Covers fs w T (taken.map Taken.job) taken) (hT : T.WF) :
    T.Recorded (taken.flatMap fun t => t.job.flush w [] t.entries) := by
  have hmem : ∀ s ∈ taken.flatMap fun t => t.job.flush w [] t.entries, ∃ t ∈ taken, ∃ part last,
      s = t.job.record w part last ∧ ∀ e ∈ part, e ∈ t.entries := by
    intro s hs
    obtain ⟨t, ht, hs⟩ := mem_flatMap.mp hs
    exact ⟨t, ht, mem_flush hs⟩
  refine ⟨fun s hs => ?_, fun s hs e he => ?_, fun d x k hx => ?_, fun d hd => ?_⟩
  · obtain ⟨t, ht, part, last, rfl, -⟩ := hmem s hs
    have hfound := h.found t.job (mem_map_of_mem ht)
    exact ⟨⟨hfound.live, hfound.leads.2⟩, hfound.attr⟩
  · obtain ⟨t, ht, part, last, rfl, hpart⟩ := hmem s hs
    exact (h.scans t ht).lists.entries e (hpart e he)
  · obtain ⟨t, ht, rfl⟩ := (h.all hT d).mpr
      ⟨hT.live_iff_reach.mpr (hT.rooted hx), hT.dirs hx⟩
    obtain ⟨e, he, rfl⟩ := (h.scans t ht).lists.all x k hx
    obtain ⟨s, hs, hentry⟩ := t.job.flush_all w (show e ∈ [] ++ t.entries from he)
    obtain ⟨part, last, rfl, -⟩ := mem_flush hs
    exact ⟨_, mem_flatMap.mpr ⟨t, ht, hs⟩, rfl, e, hentry, rfl⟩
  · obtain ⟨t, ht, rfl⟩ := (h.all hT d).mpr hd
    obtain ⟨full, part, heq, -⟩ := t.job.flush_last w [] t.entries
    exact ⟨t.job.record w part true, mem_flatMap.mpr ⟨t, ht, by simp [heq]⟩, rfl, rfl⟩

theorem Covers.lastOnce (h : Covers fs w T (taken.map Taken.job) taken) (hT : T.WF) :
    T.LastOnce (taken.flatMap fun t => t.job.flush w [] t.entries) := by
  intro d hd
  obtain ⟨t, ht, rfl⟩ := (h.all hT d).mpr hd
  obtain ⟨front, back, rfl⟩ := append_of_mem ht
  obtain ⟨full, part, heq, hfull⟩ := t.job.flush_last w [] t.entries
  have honce := h.once
  rw [map_map, map_append, map_cons, nodup_append, nodup_cons] at honce
  -- the records of the other jobs are of other directories
  have hdir : ∀ (l : List Taken) (s : SnapDir),
      s ∈ l.flatMap (fun t => t.job.flush w [] t.entries) → ∃ u ∈ l, s.dir = u.job.node := by
    intro l s hs
    obtain ⟨u, hu, hs⟩ := mem_flatMap.mp hs
    obtain ⟨part, last, rfl, -⟩ := mem_flush hs
    exact ⟨u, hu, rfl⟩
  refine ⟨front.flatMap (fun t => t.job.flush w [] t.entries) ++ full, t.job.record w part true,
    back.flatMap fun t => t.job.flush w [] t.entries, ?_, rfl, rfl, fun s hs hnode => ?_,
    fun s hs hnode => ?_⟩
  · simp only [flatMap_append, flatMap_cons, heq, append_assoc, singleton_append]
  · rcases mem_append.mp hs with hs | hs
    · obtain ⟨u, hu, hu'⟩ := hdir front s hs
      exact absurd (hu'.symm.trans hnode) (honce.2.2 _ (mem_map_of_mem hu) _ (.head _))
    · exact hfull s hs
  · obtain ⟨u, hu, hu'⟩ := hdir back s hs
    exact honce.2.1.1 (mem_map.mpr ⟨u, hu, hu'.symm.trans hnode⟩)

end

/-- The walk of a finite static tree ends after a bounded number of steps, and its records make the
tree in whatever order they are applied. -/
theorem static_walk (info : ShareInfo) (T : Tree) (hT : T.WF) (hroot : T.root = info.root)
    (hfinite : T.dentries.Finite) (hopen : T.Openable) (fs : GuestFs) (hfs : fs.Serves T)
    (w : WalkInfo) (parallelism : Nat) (actions : List WalkAction) (s : Orchestrator)
    (hrun : actions.foldlM (Orchestrator.step fs w) (.start fs w T.root parallelism) = some s) :
    actions.length ≤ 7 * T.dirs.ncard + T.dentries.ncard + 2 ∧
    ((∃ done, s.control = .returned done) ∨ ∃ a, (s.step fs w a).isSome) ∧
    ∀ done, s.control = .returned done → T.LastOnce s.sent ∧
      done.dirs = T.dirs.ncard.toUInt64 ∧ done.entries = T.dentries.ncard.toUInt64 ∧
      ∀ recs : List SnapDir, recs.Perm s.sent →
        ∃ r, (ShareReplica.new info).applySnapshot recs = some r ∧ Rebuilt T r := by
  have hstart : Orchestrator.Sound fs w T (Nat.max parallelism 1)
      (.start fs w T.root parallelism) [] := .start hfs hT parallelism
  obtain ⟨taken, hend, hspent⟩ := hstart.run hfs hT hopen (Nat.le_max_right ..) hrun
  refine ⟨?_, Orchestrator.progress fs w s, fun done hdone => ?_⟩
  · have hbound := hend.spent_le hfinite
    have hfirst : 1 ≤ (Orchestrator.start fs w T.root parallelism).spent [] := by
      simp [Orchestrator.start, hfs.statRoot, Orchestrator.spent, spent]
    omega
  · obtain ⟨hqueue, htasks, rfl⟩ := hend.returned done hdone
    have hcovers := hend.covers
    simp only [Orchestrator.jobs, hqueue, htasks, hdone, rest_returned, map_nil,
      nil_append] at hcovers
    have hsent := hend.sent
    rw [hdone, rest_returned, append_nil] at hsent
    have honce : (taken.map fun t => t.job.node).Nodup := by
      have := hcovers.once
      rwa [map_map] at this
    have hdirs : taken.length = T.dirs.ncard := by
      rw [← length_map (f := fun t : Taken => t.job.node)]
      exact length_eq_ncard honce fun d => mem_map.trans (hcovers.all hT d)
    have hnames : weigh (fun t => t.entries.length) taken = T.dentries.ncard := by
      rw [← Taken.length_dentries]
      refine length_eq_ncard (hcovers.nodup_dentries honce) fun p => ?_
      rw [hcovers.mem_dentries]
      refine and_iff_left_of_imp fun hp => ?_
      obtain ⟨k, hk⟩ := Option.ne_none_iff_exists'.mp hp
      exact (hcovers.all hT p.1).mpr ⟨hT.live_iff_reach.mpr (hT.rooted hk), hT.dirs hk⟩
    refine ⟨hsent ▸ hcovers.lastOnce hT, ?_, ?_, fun recs hperm => ?_⟩
    · rw [← hdirs]
      exact hend.dirs
    · rw [← hnames]
      exact hend.entries
    · rw [hsent] at hperm
      exact ((hcovers.recorded hT).perm hperm).rebuilt hT hroot

def flatRows : List Row :=
  [⟨⟨2, 1⟩, .letter 'f', ⟨11, 1⟩⟩, ⟨⟨2, 1⟩, .letter 'g', ⟨11, 1⟩⟩, ⟨⟨2, 1⟩, .letter 'l', ⟨12, 1⟩⟩,
    ⟨⟨2, 1⟩, .letter 'e', ⟨13, 1⟩⟩]

def flatAttr (k : NodeKey) : Attr :=
  if k = ⟨11, 1⟩ then { placeholderAttr .reg with nlink := 2 }
  else if k = ⟨12, 1⟩ then { placeholderAttr .symlink with symlinkTarget := some [102] }
  else placeholderAttr .dir

/-- Start a task, wait, let it end and join it, and send its records. -/
def scanOne (records : Nat) : List WalkAction :=
  [.go, .go, .scan 0, .complete 0, .join 0] ++ List.replicate records .go ++ [.go]

def Control.isReturned : Control → Bool
  | .returned _ => true
  | .fill | .wait | .send .. => false

theorem Control.isReturned_iff {c : Control} : c.isReturned ↔ ∃ done, c = .returned done := by
  cases c <;> simp [isReturned]

def flatActions : List WalkAction := scanOne 3 ++ scanOne 1 ++ [.go, .go]

theorem flat_make : Row.Make ⟨2, 1⟩ flatAttr flatRows := by decide +kernel

theorem static_walk_flat :
    ∃ s done, flatActions.foldlM
        (Orchestrator.step (.ofRows ⟨2, 1⟩ flatAttr flatRows) ⟨1, ⟨1⟩, 2⟩)
        (.start (.ofRows ⟨2, 1⟩ flatAttr flatRows) ⟨1, ⟨1⟩, 2⟩ ⟨2, 1⟩ 16) = some s ∧
      s.control = .returned done ∧
      (Tree.ofRows ⟨2, 1⟩ flatAttr flatRows).LastOnce s.sent ∧
      ∀ recs : List SnapDir, recs.Perm s.sent →
        ∃ r, (ShareReplica.new ⟨⟨1⟩, ⟨2, 1⟩⟩).applySnapshot recs = some r ∧
          Rebuilt (Tree.ofRows ⟨2, 1⟩ flatAttr flatRows) r := by
  have hany : (flatActions.foldlM (Orchestrator.step (.ofRows ⟨2, 1⟩ flatAttr flatRows) ⟨1, ⟨1⟩, 2⟩)
      (.start (.ofRows ⟨2, 1⟩ flatAttr flatRows) ⟨1, ⟨1⟩, 2⟩ ⟨2, 1⟩ 16)).any
        fun s => s.control.isReturned := by decide +kernel
  obtain ⟨s, hrun, hreturned⟩ := (Option.any_eq_true ..).mp hany
  obtain ⟨done, hdone⟩ := isReturned_iff.mp hreturned
  obtain ⟨-, -, hend⟩ := static_walk ⟨⟨1⟩, ⟨2, 1⟩⟩ (Tree.ofRows ⟨2, 1⟩ flatAttr flatRows)
    flat_make.wf rfl flat_make.finite (flat_make.openable (by decide)) _ flat_make.serves
    ⟨1, ⟨1⟩, 2⟩ 16 _ s hrun
  obtain ⟨hlast, -, -, hrebuilt⟩ := hend done hdone
  exact ⟨s, done, hrun, hdone, hlast, hrebuilt⟩

def longName : Name := ⟨List.replicate 255 97, by decide +kernel⟩

def deepRows : List Row :=
  (List.range 17).map fun i => ⟨⟨2 + i.toUInt64, 1⟩, longName, ⟨3 + i.toUInt64, 1⟩⟩

def deepAttr (k : NodeKey) : Attr := placeholderAttr (if k.ino ≤ 18 then .dir else .reg)

def deepActions : List WalkAction := (List.replicate 17 (scanOne 1)).flatten ++ [.go, .go]

theorem deep_make : Row.Make ⟨2, 1⟩ deepAttr deepRows := by decide +kernel

/-- The path of the last directory is too long to open: the replica has it as complete, without the
file. -/
theorem deep_tree_cut :
    (Tree.ofRows ⟨2, 1⟩ deepAttr deepRows).WF ∧
    (Tree.ofRows ⟨2, 1⟩ deepAttr deepRows).dentries.Finite ∧
    (GuestFs.ofRows ⟨2, 1⟩ deepAttr deepRows).Serves (Tree.ofRows ⟨2, 1⟩ deepAttr deepRows) ∧
    ∃ s done r, deepActions.foldlM
        (Orchestrator.step (.ofRows ⟨2, 1⟩ deepAttr deepRows) ⟨1, ⟨1⟩, 2048⟩)
        (.start (.ofRows ⟨2, 1⟩ deepAttr deepRows) ⟨1, ⟨1⟩, 2048⟩ ⟨2, 1⟩ 16) = some s ∧
      s.control = .returned done ∧
      (ShareReplica.new ⟨⟨1⟩, ⟨2, 1⟩⟩).applySnapshot s.sent = some r ∧
      ¬ Rebuilt (Tree.ofRows ⟨2, 1⟩ deepAttr deepRows) r := by
  have hany : (deepActions.foldlM
      (Orchestrator.step (.ofRows ⟨2, 1⟩ deepAttr deepRows) ⟨1, ⟨1⟩, 2048⟩)
      (.start (.ofRows ⟨2, 1⟩ deepAttr deepRows) ⟨1, ⟨1⟩, 2048⟩ ⟨2, 1⟩ 16)).any fun s =>
        s.control.isReturned && ((ShareReplica.new ⟨⟨1⟩, ⟨2, 1⟩⟩).applySnapshot s.sent).any fun r =>
          r.entry ⟨18, 1⟩ longName = none := by decide +kernel
  have hentry : (Tree.ofRows ⟨2, 1⟩ deepAttr deepRows).entry ⟨18, 1⟩ longName = some ⟨19, 1⟩ := by
    decide +kernel
  obtain ⟨s, hrun, hs⟩ := (Option.any_eq_true ..).mp hany
  obtain ⟨hreturned, hr⟩ := Bool.and_eq_true_iff.mp hs
  obtain ⟨done, hdone⟩ := isReturned_iff.mp hreturned
  obtain ⟨r, happly, hcut⟩ := (Option.any_eq_true ..).mp hr
  refine ⟨deep_make.wf, deep_make.finite, deep_make.serves, s, done, r, hrun, hdone, happly, ?_⟩
  intro hrebuilt
  rw [← hrebuilt.entry, of_decide_eq_true hcut] at hentry
  cases hentry

end Mist
