import Mist.Convergence.Seed
import Mist.Mistd.Walker
import Mist.Replica.Links

/-! What the host makes of a walk over a share that changes meanwhile. -/

namespace Mist

open ShareReplica List Option

/-- The tree below a directory, taken as the root. -/
def Tree.at (T : Tree) (root : NodeKey) : Tree := { T with root }

/-- The listing of a scan, for the job's directory: it was the one opened, or else each entry is one
the directory has at some moment, and each other name the replica does not have there is free in it
at some moment.  Whenever a further record of the listing is taken, the replica still has the
directory. -/
structure Walk.Right (T : Tree) (ops : List Op) (info : WalkInfo) (r : ShareReplica) (job : DirJob)
    (opened : Option NodeKey) (entries : List SnapEntry) : Prop where
  listing : opened = some job.node ∨
    (∀ e ∈ entries, T.Seen ops 0 job.node e.name (some e.node)) ∧
      ∀ x, x ∉ entries.map SnapEntry.name → r.entry job.node x = none → T.Seen ops 0 job.node x none
  stays : ∀ earlier s later r', job.flush info [] entries = earlier ++ s :: later → earlier ≠ [] →
    r.applySnapshot earlier = some r' → r'.isDir job.node

/-- What the host has made of the records so far is right where no record is awaited. -/
structure Gathered (T : Tree) (ops : List Op) (info : ShareInfo) (awaits : NodeKey → Prop)
    (r : ShareReplica) : Prop where
  info : r.info = info
  rootLive : r.live r.root ∨ awaits r.root
  known : ∀ k, r.live k → (T.run ops).born k
  dirs : ∀ k, r.live k → (r.isDir k ↔ (T.run ops).kind k = .dir)
  counts : r.Counts (fun _ => 0) (fun _ => True) [] []
  seen : ∀ d, r.isDir d → ∀ x, T.Seen ops 0 d x (r.entry d x) ∨ r.entry d x = none ∧ awaits d

namespace Gathered

variable {T : Tree} {ops : List Op} {info : ShareInfo} {awaits awaits' : NodeKey → Prop}
  {r r' : ShareReplica} {d : SnapDir}

variable (h : Gathered T ops info awaits r)
include h

theorem mono (hawaits : ∀ k, awaits k → awaits' k) : Gathered T ops info awaits' r :=
  { h with
    rootLive := h.rootLive.imp_right (hawaits _)
    seen := fun d hd x => (h.seen d hd x).imp_right fun hnone => ⟨hnone.1, hawaits d hnone.2⟩ }

theorem record (hkind : d.dirAttr.kind = .dir)
    (hdir : (T.run ops).born d.dir ∧ (T.run ops).kind d.dir = .dir)
    (hes : ∀ e ∈ d.entries, T.Seen ops 0 d.dir e.name (some e.node) ∧
      (T.run ops).born e.node ∧ e.attr.kind = (T.run ops).kind e.node)
    (hself : awaits d.dir) (hsub : ∀ e ∈ d.entries, e.attr.kind = .dir → awaits e.node) :
    ∃ r', r.applySnapDir d = some r' ∧ Snapped r r' d ∧ Gathered T ops info awaits r' := by
  obtain ⟨r', hr', hs⟩ := r.applySnapDir_snapped hkind
  obtain ⟨r₁, hr₁, -, hcounts⟩ := applySnapDir_links hkind trivial h.counts
  obtain rfl : r₁ = r' := mem_unique hr₁ hr'
  have hroot : r₁.root = r.root := congrArg ShareInfo.root hs.info
  refine ⟨r₁, hr', hs, hs.info.trans h.info, ?_, fun k hk => ?_, fun k hk => ?_,
    hcounts.mono fun _ _ => trivial, fun p hp x => ?_⟩
  · rcases h.rootLive with hlive | hwait
    · exact .inl (hs.root (.inl hlive))
    · exact .inr (hroot ▸ hwait)
  · rcases hs.live k hk with hold | rfl | ⟨e, he, rfl⟩
    · exact h.known k hold
    · exact hdir.1
    · exact (hes e he).2.1
  · rw [hs.dir k hk]
    constructor
    · rintro (hold | rfl | ⟨e, he, rfl, hd⟩)
      · exact (h.dirs k (live_of_isDir hold)).mp hold
      · exact hdir.2
      · exact (hes e he).2.2.symm.trans hd
    · intro hd
      rcases hs.live k hk with hold | rfl | ⟨e, he, rfl⟩
      · exact .inl ((h.dirs k hold).mpr hd)
      · exact .inr (.inl rfl)
      · exact .inr (.inr ⟨e, he, rfl, (hes e he).2.2.trans hd⟩)
  · have hlive := live_of_isDir hp
    by_cases hname : p = d.dir ∧ ∃ e ∈ d.entries, e.name = x
    · obtain ⟨rfl, hmem⟩ := hname
      obtain ⟨e, he, rfl, hentry⟩ := hs.listed hlive x hmem
      rw [hentry]
      exact .inl (hes e he).1
    · rw [hs.other p hlive x fun hpd e he hx => hname ⟨hpd, e, he, hx⟩]
      by_cases hold : r.isDir p
      · exact h.seen p hold x
      refine .inr ⟨entry_of_not_dir hold x, ?_⟩
      rcases (hs.dir p hlive).mp hp with hdir' | rfl | ⟨e, he, rfl, hd⟩
      · exact absurd hdir' hold
      · exact hself
      · exact hsub e he hd

theorem flush {job : DirJob} {es : List SnapEntry}
    (walk : WalkInfo) (pending : List SnapEntry) (hkind : job.attr.kind = .dir)
    (hdir : (T.run ops).born job.node ∧ (T.run ops).kind job.node = .dir)
    (hes : ∀ e ∈ pending ++ es, T.Seen ops 0 job.node e.name (some e.node) ∧
      (T.run ops).born e.node ∧ e.attr.kind = (T.run ops).kind e.node)
    (hself : awaits job.node) (hsub : ∀ e ∈ pending ++ es, e.attr.kind = .dir → awaits e.node)
    (hstays : ∀ earlier s later r', job.flush walk pending es = earlier ++ s :: later →
      earlier ≠ [] → r.applySnapshot earlier = some r' → r'.isDir job.node) :
    ∃ r', r.applySnapshot (job.flush walk pending es) = some r' ∧ Gathered T ops info awaits r' ∧
      (job.node = r.root → r'.live r'.root) ∧
      (r'.isDir job.node → ∀ x, r'.entry job.node x = none →
        x ∉ (pending ++ es).map SnapEntry.name ∧ r.entry job.node x = none) := by
  -- what one record leaves free was free before and is not in the record
  have hfree : ∀ {r r' : ShareReplica} {es : List SnapEntry} {last : Bool},
      Snapped r r' (job.record walk es last) → r'.isDir job.node → ∀ x,
      r'.entry job.node x = none → x ∉ es.map SnapEntry.name ∧ r.entry job.node x = none := by
    intro r r' es last hs hd x hnone
    have hx : x ∉ es.map SnapEntry.name := by
      intro hmem
      obtain ⟨e, -, -, hsome⟩ := hs.listed (live_of_isDir hd) x (mem_map.mp hmem)
      exact some_ne_none _ (hsome.symm.trans hnone)
    refine ⟨hx, ?_⟩
    rw [← hs.other job.node (live_of_isDir hd) x fun _ e he hname => hx (mem_map.mpr ⟨e, he, hname⟩)]
    exact hnone
  induction es generalizing pending r with
  | nil =>
    rw [append_nil] at hes hsub ⊢
    obtain ⟨r', hr', hs, h'⟩ := h.record (d := job.record walk pending true) hkind hdir hes hself hsub
    refine ⟨r', ?_, h', fun hroot => hs.root (.inr hroot), hfree hs⟩
    simp only [DirJob.flush, applySnapshot, foldlM_cons, foldlM_nil, hr']
    rfl
  | cons e es ih =>
    rw [DirJob.flush] at hstays ⊢
    have hassoc : pending ++ e :: es = (pending ++ [e]) ++ es := by simp
    rw [hassoc] at hes hsub ⊢
    split at hstays
    · rename_i hfull
      rw [if_pos hfull]
      obtain ⟨r₁, hr₁, hs, h₁⟩ := h.record (d := job.record walk (pending ++ [e]) false)
        hkind hdir (fun e' he' => hes e' (mem_append_left _ he')) hself
        (fun e' he' => hsub e' (mem_append_left _ he'))
      have hone : ∀ rest, r.applySnapshot (job.record walk (pending ++ [e]) false :: rest) =
          r₁.applySnapshot rest := by
        intro rest
        simp only [applySnapshot, foldlM_cons, hr₁]
        rfl
      have hd₁ : r₁.isDir job.node := by
        cases hrest : job.flush walk [] es with
        | nil => exact absurd hrest (job.flush_ne_nil walk [] es)
        | cons s later =>
          refine hstays [_] s later r₁ (by rw [hrest]; rfl) (cons_ne_nil _ _) ?_
          rw [hone]
          rfl
      obtain ⟨r', hr', h', hroot', hfree'⟩ := ih h₁ []
        (fun e' he' => hes e' (mem_append_right _ he'))
        (fun e' he' => hsub e' (mem_append_right _ he')) fun earlier s later r' heq hne hr' => by
          refine hstays (_ :: earlier) s later r' (by rw [heq]; rfl) (cons_ne_nil _ _) ?_
          rw [hone]
          exact hr'
      refine ⟨r', (hone _).trans hr', h', fun hroot => ?_, fun hd x hnone => ?_⟩
      · exact hroot' (hroot.trans (congrArg ShareInfo.root hs.info).symm)
      obtain ⟨hx, hnone₁⟩ := hfree' hd x hnone
      obtain ⟨hx₁, hnone₀⟩ := hfree hs hd₁ x hnone₁
      rw [map_append, mem_append, not_or]
      exact ⟨⟨hx₁, hx⟩, hnone₀⟩
    · rename_i hfull
      rw [if_neg hfull]
      exact ih h (pending ++ [e]) hes hsub hstays

theorem settle {k : NodeKey}
    (hawaits : ∀ j, awaits j → awaits' j ∨ j = k) (hroot : k = r.root → r.live r.root)
    (hfree : r.isDir k → ∀ x, r.entry k x = none → T.Seen ops 0 k x none) :
    Gathered T ops info awaits' r := by
  refine { h with rootLive := ?_, seen := fun d hd x => ?_ }
  · rcases h.rootLive with hlive | hwait
    · exact .inl hlive
    · exact (hawaits _ hwait).symm.imp (fun heq => hroot heq.symm) id
  rcases h.seen d hd x with hseen | ⟨hnone, hwait⟩
  · exact .inl hseen
  · rcases hawaits d hwait with hwait' | rfl
    · exact .inr ⟨hnone, hwait'⟩
    · refine .inl ?_
      rw [hnone]
      exact hfree hd x hnone

end Gathered

namespace Walk

/-- The walk and what the host has made of its records. -/
structure Sound (T : Tree) (ops : List Op) (info : ShareInfo) (w : Walk) (r : ShareReplica) :
    Prop where
  now_le : w.now ≤ ops.length
  applied : (ShareReplica.new info).applySnapshot w.sent = some r
  gathered : Gathered T ops info (fun k => ∃ job ∈ w.jobs, job.node = k) r
  jobs : ∀ job ∈ w.jobs, job.attr.kind = .dir ∧ (T.run ops).born job.node ∧
    (T.run ops).kind job.node = .dir
  scans : ∀ scan ∈ w.scans, scan.since ≤ w.now ∧ ∀ e ∈ scan.found, ∃ i, scan.since ≤ i ∧ i ≤ w.now ∧
    (T.moment ops i).entry scan.dir e.name = some e.node ∧
    e.attr.kind = (T.moment ops i).kind e.node

variable {T : Tree} {ops : List Op} {info : ShareInfo} {walk : WalkInfo} {w w' : Walk}
  {r : ShareReplica} {job : DirJob} {opened : Option NodeKey} {es : List SnapEntry}

theorem read_known (hT : T.WF) (hv : T.ValidRun ops) {i : Nat} (hi : i ≤ ops.length) {d : NodeKey}
    {e : SnapEntry} (hentry : (T.moment ops i).entry d e.name = some e.node)
    (hkind : e.attr.kind = (T.moment ops i).kind e.node) :
    (T.run ops).born e.node ∧ e.attr.kind = (T.run ops).kind e.node := by
  have hlast := hv.born_kind hi ((hv.wf hT i).born hentry)
  rw [Tree.moment_length] at hlast
  exact ⟨hlast.1, hkind.trans hlast.2.symm⟩

theorem Sound.finished (h : w.Sound T ops info r) {queue : List DirJob} {scans : List Scan}
    (hjob : job ∈ w.jobs) (hjobs : ∀ j ∈ w.jobs, j = job ∨ j ∈ queue ++ scans.map Scan.job)
    (hqueue : ∀ j ∈ queue ++ scans.map Scan.job, j ∈ w.jobs) (hscans : ∀ s ∈ scans, s ∈ w.scans)
    (hes : ∀ e ∈ es, T.Seen ops 0 job.node e.name (some e.node) ∧
      (T.run ops).born e.node ∧ e.attr.kind = (T.run ops).kind e.node)
    (hfree : ∀ x, x ∉ es.map SnapEntry.name → r.entry job.node x = none →
      T.Seen ops 0 job.node x none)
    (hstays : ∀ earlier s later r', job.flush walk [] es = earlier ++ s :: later → earlier ≠ [] →
      r.applySnapshot earlier = some r' → r'.isDir job.node) :
    ∃ r', (w.finished walk job es queue scans).Sound T ops info r' := by
  obtain ⟨hkind, hdir⟩ := h.jobs job hjob
  have hsub : ∀ j, j ∈ (w.finished walk job es queue scans).jobs ↔
      j ∈ queue ++ scans.map Scan.job ∨ j ∈ job.subdirs es := by
    simp only [Walk.jobs, Walk.finished, mem_append]
    tauto
  have hsubdir : ∀ e ∈ es, e.attr.kind = .dir → ∃ j ∈ job.subdirs es, j.node = e.node := by
    intro e he hd
    exact ⟨_, mem_map.mpr ⟨e, mem_filter.mpr ⟨he, decide_eq_true hd⟩, rfl⟩, rfl⟩
  have hgathered : Gathered T ops info
      (fun k => k = job.node ∨ ∃ j ∈ (w.finished walk job es queue scans).jobs, j.node = k) r := by
    refine h.gathered.mono ?_
    rintro k ⟨j, hj, rfl⟩
    rcases hjobs j hj with rfl | hj
    · exact .inl rfl
    · exact .inr ⟨j, (hsub j).mpr (.inl hj), rfl⟩
  obtain ⟨r', hr', hgathered', hroot, hleft⟩ := hgathered.flush walk [] hkind hdir hes
    (.inl rfl) (fun e he hd => .inr <| by
      obtain ⟨j, hj, hnode⟩ := hsubdir e he hd
      exact ⟨j, (hsub j).mpr (.inr hj), hnode⟩) hstays
  have hinfo : r'.root = r.root :=
    congrArg ShareInfo.root (hgathered'.info.trans hgathered.info.symm)
  refine ⟨r', h.now_le, ?_, hgathered'.settle (fun j hj => hj.symm) (fun heq => hroot (heq.trans hinfo)) ?_,
    fun j hj => ?_, fun s hs => h.scans s (hscans s hs)⟩
  · rw [applySnapshot, Walk.finished, foldlM_append]
    rw [show w.sent.foldlM applySnapDir (new info) = some r from h.applied]
    exact hr'
  · intro hd x hnone
    obtain ⟨hx, hnone'⟩ := hleft hd x hnone
    exact hfree x hx hnone'
  rcases (hsub j).mp hj with hj | hj
  · exact h.jobs j (hqueue j hj)
  · obtain ⟨e, he, rfl⟩ := mem_map.mp hj
    obtain ⟨he, hd⟩ := mem_filter.mp he
    have hd := of_decide_eq_true hd
    exact ⟨hd, (hes e he).2.1, (hes e he).2.2.symm.trans hd⟩

/-- What is asked of a scan that ends, with the records sent before it applied. -/
def Checked (T : Tree) (ops : List Op) (info : ShareInfo) (walk : WalkInfo) (w : Walk) (job : DirJob)
    (opened : Option NodeKey) (es : List SnapEntry) : Prop :=
  ∀ r, (ShareReplica.new info).applySnapshot w.sent = some r → Right T ops walk r job opened es

theorem Sound.step (h : w.Sound T ops info r) (hT : T.WF) (hv : T.ValidRun ops) {root : NodeKey}
    (hstep : Step T ops root walk (Checked T ops info walk) w w') : ∃ r', w'.Sound T ops info r' := by
  cases hstep with
  | guest hlt =>
    refine ⟨r, hlt, h.applied, h.gathered, h.jobs, fun s hs => ?_⟩
    obtain ⟨hsince, hfound⟩ := h.scans s hs
    refine ⟨Nat.le_succ_of_le hsince, fun e he => ?_⟩
    obtain ⟨i, hi, hnow, hread⟩ := hfound e he
    exact ⟨i, hi, Nat.le_succ_of_le hnow, hread⟩
  | @openDir job before after k hqueue _ =>
    have hjobs : ∀ j, j ∈ (before ++ after) ++
        (⟨job, k, w.now, []⟩ :: w.scans : List Scan).map Scan.job ↔ j ∈ w.jobs := by
      simp only [Walk.jobs, hqueue, mem_append, mem_cons, map_cons]
      tauto
    refine ⟨r, h.now_le, h.applied, h.gathered.mono ?_, fun j hj => h.jobs j ((hjobs j).mp hj),
      fun s hs => ?_⟩
    · rintro k ⟨j, hj, rfl⟩
      exact ⟨j, (hjobs j).mpr hj, rfl⟩
    · rcases mem_cons.mp hs with rfl | hs
      · exact ⟨Nat.le_refl _, fun e he => absurd he not_mem_nil⟩
      · exact h.scans s hs
  | @openFails job before after hqueue _ hok =>
    have hright := hok r h.applied
    have hseen := hright.listing.resolve_left (by simp)
    refine h.finished ?_ ?_ ?_ (fun s hs => hs) (fun e he => absurd he not_mem_nil)
      hseen.2 hright.stays
    · simp [Walk.jobs, hqueue]
    · intro j hj
      simp only [Walk.jobs, hqueue, mem_append, mem_cons] at hj ⊢
      tauto
    · intro j hj
      simp only [Walk.jobs, hqueue, mem_append, mem_cons] at hj ⊢
      tauto
  | @read scan before after x k hscans hentry =>
    let scan' : Scan := { scan with found := scan.found ++ [⟨x, k, (T.moment ops w.now).statx k⟩] }
    have hjobs : ({ w with scans := before ++ scan' :: after } : Walk).jobs = w.jobs := by
      simp [Walk.jobs, hscans, scan']
    refine ⟨r, h.now_le, h.applied, hjobs ▸ h.gathered, fun j hj => h.jobs j (hjobs ▸ hj), fun s hs => ?_⟩
    have hold : ∀ s ∈ before ++ after, s ∈ w.scans := by
      rw [hscans]
      simp only [mem_append, mem_cons] at hs ⊢
      tauto
    have hcases : s = scan' ∨ s ∈ before ++ after := by
      simp only [mem_append, mem_cons] at hs ⊢
      tauto
    rcases hcases with rfl | hs
    · obtain ⟨hsince, hfound⟩ := h.scans scan (by simp [hscans])
      refine ⟨hsince, fun e he => ?_⟩
      rcases Runs.mem_append_cases he with he | rfl
      · exact hfound e he
      · exact ⟨w.now, hsince, Nat.le_refl _, hentry, rfl⟩
    · exact h.scans s (hold s hs)
  | @finish scan before after hscans hread hok =>
    have hright := hok r h.applied
    obtain ⟨hsince, hfound⟩ := h.scans scan (by simp [hscans])
    have hknown : ∀ e ∈ scan.found,
        (T.run ops).born e.node ∧ e.attr.kind = (T.run ops).kind e.node := by
      intro e he
      obtain ⟨i, -, hi, hentry, hkind⟩ := hfound e he
      exact read_known hT hv (hi.trans h.now_le) hentry hkind
    have hlisting : (∀ e ∈ scan.found, T.Seen ops 0 scan.job.node e.name (some e.node)) ∧
        ∀ x, x ∉ scan.found.map SnapEntry.name → r.entry scan.job.node x = none →
          T.Seen ops 0 scan.job.node x none := by
      rcases hright.listing with hopened | hlisting
      · obtain hdir := some.inj hopened
        refine ⟨fun e he => ?_, fun x hx _ => ?_⟩
        · obtain ⟨i, -, hi, hentry, -⟩ := hfound e he
          exact ⟨i, Nat.zero_le i, hi.trans h.now_le, (hdir ▸ hentry).symm⟩
        -- a name that was not read was free at some moment of the scan
        by_contra hnever
        refine hx (hread x fun i _ hi hnone => hnever ?_)
        exact ⟨i, Nat.zero_le i, hi.trans h.now_le, (hdir ▸ hnone).symm⟩
      · exact hlisting
    refine h.finished ?_ ?_ ?_ ?_
      (fun e he => ⟨hlisting.1 e he, hknown e he⟩) hlisting.2 hright.stays
    · simp [Walk.jobs, hscans]
    · intro j hj
      simp only [Walk.jobs, hscans, map_append, map_cons, mem_append, mem_cons] at hj ⊢
      tauto
    · intro j hj
      simp only [Walk.jobs, hscans, map_append, map_cons, mem_append, mem_cons] at hj ⊢
      tauto
    · intro s hs
      simp only [hscans, mem_append, mem_cons] at hs ⊢
      tauto

theorem Sound.start (hT : T.WF) (hv : T.ValidRun ops) (hlive : T.Live info.root)
    (hdir : T.kind info.root = .dir) : (start T info.root).Sound T ops info (new info) := by
  have hroot := hv.born_kind (Nat.zero_le ops.length) (hT.live_born hlive)
  rw [Tree.moment_length] at hroot
  refine ⟨Nat.zero_le _, rfl, ⟨rfl, .inr ⟨rootJob T info.root, by simp [Walk.jobs, Walk.start], rfl⟩, ?_, ?_,
    new_sound info _, ?_⟩, ?_, by simp [Walk.start]⟩
  · intro k hk
    simp [new, live] at hk
  · intro k hk
    simp [new, live] at hk
  · intro d hd
    simp [new, isDir, dirOf] at hd
  · intro job hjob
    obtain rfl : job = rootJob T info.root := by simpa [Walk.jobs, Walk.start] using hjob
    exact ⟨hdir, hroot.1, hroot.2.trans hdir⟩

/-- Under every name of a directory that the replica has after a walk is what the guest has there at
some moment. -/
theorem done_within (hT : T.WF) (hv : T.ValidRun ops) (hlive : T.Live info.root)
    (hdir : T.kind info.root = .dir)
    (hrun : Relation.ReflTransGen (Step T ops info.root walk (Checked T ops info walk))
      (start T info.root) w) (hdone : w.Done) :
    ∃ r, (new info).applySnapshot w.sent = some r ∧
      Within ((T.run ops).at info.root) (T.Seen ops 0) r ∧
      r.Counts (fun _ => 0) (fun _ => True) [] [] := by
  have hsound : ∃ r, w.Sound T ops info r := by
    clear hdone
    induction hrun with
    | refl => exact ⟨_, .start hT hv hlive hdir⟩
    | tail _ hstep ih =>
      obtain ⟨r, hr⟩ := ih
      exact hr.step hT hv hstep
  obtain ⟨r, h⟩ := hsound
  have hnone : ∀ k, ¬ ∃ job ∈ w.jobs, job.node = k := by
    rintro k ⟨job, hjob, -⟩
    simp [Walk.jobs, hdone.1, hdone.2] at hjob
  refine ⟨r, h.applied, ⟨congrArg ShareInfo.root h.gathered.info,
    h.gathered.rootLive.resolve_right (hnone _), h.gathered.known, h.gathered.dirs, fun d hd x => ?_⟩,
    h.gathered.counts⟩
  exact (h.gathered.seen d hd x).resolve_right fun hwait => hnone d hwait.2

end Walk

end Mist
