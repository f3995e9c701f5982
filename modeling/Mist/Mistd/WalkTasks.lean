import Mathlib.Data.Set.Card
import Mist.Mistd.Scan
import Mist.Runs

/-! The walk of a share over its scan tasks, joined in any order. -/

namespace Mist

open List Mist.Tree

/-- A finished scan has given its permit back before it can be joined. -/
inductive ScanPhase where
  | scanning | released | ready
  deriving DecidableEq

structure ScanTask where
  job : DirJob
  phase : ScanPhase

structure WalkStats where
  dirs : UInt64
  entries : UInt64
  errors : UInt32

def WalkStats.add (stats : WalkStats) (out : ScanOutput) : WalkStats :=
  ⟨stats.dirs + 1, stats.entries + out.entries, stats.errors + out.errors⟩

/-- The `SnapDone` of the wire, with the counts that the replica does not read. -/
structure SnapReport extends SnapDone where
  dirs : UInt64
  entries : UInt64
  errors : UInt32

def WalkStats.done (stats : WalkStats) (info : WalkInfo) : SnapReport :=
  ⟨⟨info.snapId, info.share⟩, stats.dirs, stats.entries, stats.errors⟩

/-- Where the orchestrator is: starting tasks, waiting for one, sending the records of one, or at its
end. -/
inductive Control where
  | fill
  | wait
  | send (records : List SnapDir) (subdirs : List DirJob)
  | returned (done : SnapReport)

structure Orchestrator where
  permits : Nat
  queue : List DirJob
  tasks : List ScanTask
  sent : List SnapDir
  stats : WalkStats
  control : Control

/-- A step of the orchestrator by itself, the join of a task, the scan of a task with the return of
its permit, and the end of a task. -/
inductive WalkAction where
  | go
  | join (i : Nat)
  | scan (i : Nat)
  | complete (i : Nat)

namespace Orchestrator

def start (fs : GuestFs) (info : WalkInfo) (root : NodeKey) (parallelism : Nat) : Orchestrator :=
  let idle : Orchestrator :=
    { permits := Nat.max parallelism 1, queue := [], tasks := [], sent := [], stats := ⟨0, 0, 0⟩
      control := .returned (WalkStats.done ⟨0, 0, 1⟩ info) }
  match fs.statRoot with
  | none => idle
  | some attr => { idle with queue := [⟨[], root, attr, root⟩], control := .fill }

def startTask (s : Orchestrator) : Orchestrator :=
  match s.queue.getLast? with
  | none => { s with control := .wait }
  | some job =>
    if s.permits = 0 then { s with control := .wait }
    else { s with
      permits := s.permits - 1, queue := s.queue.dropLast, tasks := s.tasks ++ [⟨job, .scanning⟩] }

def go (s : Orchestrator) (info : WalkInfo) : Option Orchestrator :=
  match s.control with
  | .fill => some s.startTask
  | .wait =>
    if s.tasks.isEmpty then some { s with control := .returned (s.stats.done info) } else none
  | .send (rec :: records) subdirs =>
    some { s with sent := s.sent ++ [rec], control := .send records subdirs }
  | .send [] subdirs => some { s with queue := s.queue ++ subdirs, control := .fill }
  | .returned _ => none

def joined (s : Orchestrator) (out : ScanOutput) (tasks : List ScanTask) : Orchestrator :=
  { s with tasks, stats := s.stats.add out, control := .send out.records out.subdirs }

def join (s : Orchestrator) (fs : GuestFs) (info : WalkInfo) (i : Nat) : Option Orchestrator :=
  match s.control with
  | .wait => s.tasks[i]?.bind fun t =>
      if t.phase = .ready then some (s.joined (scanDir fs info t.job) (s.tasks.eraseIdx i)) else none
  | .fill | .send .. | .returned _ => none

def step (fs : GuestFs) (info : WalkInfo) (s : Orchestrator) : WalkAction → Option Orchestrator
  | .go => s.go info
  | .join i => s.join fs info i
  | .scan i => s.tasks[i]?.bind fun t =>
      if t.phase = .scanning then
        some { s with permits := s.permits + 1, tasks := s.tasks.set i ⟨t.job, .released⟩ }
      else none
  | .complete i => s.tasks[i]?.bind fun t =>
      if t.phase = .released then some { s with tasks := s.tasks.set i ⟨t.job, .ready⟩ } else none

inductive Move (fs : GuestFs) (info : WalkInfo) (s : Orchestrator) : Orchestrator → Prop
  | start {queue : List DirJob} {job : DirJob} : s.control = .fill → s.queue = queue ++ [job] →
    0 < s.permits → Move fs info s { s with
      permits := s.permits - 1, queue, tasks := s.tasks ++ [⟨job, .scanning⟩] }
  | settle : s.control = .fill → (s.queue = [] ∨ s.permits = 0) →
    Move fs info s { s with control := .wait }
  | finish : s.control = .wait → s.tasks = [] →
    Move fs info s { s with control := .returned (s.stats.done info) }
  | send {rec : SnapDir} {records : List SnapDir} {subdirs : List DirJob} :
    s.control = .send (rec :: records) subdirs →
    Move fs info s { s with sent := s.sent ++ [rec], control := .send records subdirs }
  | found {subdirs : List DirJob} : s.control = .send [] subdirs →
    Move fs info s { s with queue := s.queue ++ subdirs, control := .fill }
  | join {before after : List ScanTask} {job : DirJob} : s.control = .wait →
    s.tasks = before ++ ⟨job, .ready⟩ :: after →
    Move fs info s (s.joined (scanDir fs info job) (before ++ after))
  | scan {before after : List ScanTask} {job : DirJob} : s.tasks = before ++ ⟨job, .scanning⟩ :: after →
    Move fs info s { s with
      permits := s.permits + 1, tasks := before ++ ⟨job, .released⟩ :: after }
  | complete {before after : List ScanTask} {job : DirJob} :
    s.tasks = before ++ ⟨job, .released⟩ :: after →
    Move fs info s { s with tasks := before ++ ⟨job, .ready⟩ :: after }

variable {fs : GuestFs} {info : WalkInfo} {s s' : Orchestrator}

theorem startTask_move (hfill : s.control = .fill) : Move fs info s s.startTask := by
  unfold startTask
  split
  · rename_i hnone
    exact .settle hfill (.inl (getLast?_eq_none_iff.mp hnone))
  rename_i job hjob
  split
  · rename_i hpermits
    exact .settle hfill (.inr hpermits)
  · exact .start hfill (dropLast_append_getLast? job hjob).symm (by omega)

theorem go_move (h : s.go info = some s') : Move fs info s s' := by
  unfold go at h
  split at h
  · rename_i hfill
    cases h
    exact startTask_move hfill
  · rename_i hwait
    obtain ⟨hempty, ⟨⟩⟩ := Option.ite_none_right_eq_some.mp h
    exact .finish hwait (isEmpty_iff.mp hempty)
  · rename_i hsend
    cases h
    exact .send hsend
  · rename_i hsend
    cases h
    exact .found hsend
  · cases h

theorem split_at {l : List ScanTask} {i : Nat} {t : ScanTask} (h : l[i]? = some t) :
    ∃ before after, l = before ++ t :: after ∧ l.eraseIdx i = before ++ after ∧
      ∀ u, l.set i u = before ++ u :: after := by
  obtain ⟨hi, rfl⟩ := List.getElem?_eq_some_iff.mp h
  refine ⟨l.take i, l.drop (i + 1), ?_, eraseIdx_eq_take_drop_succ .., fun u => ?_⟩
  · rw [getElem_cons_drop hi, take_append_drop]
  · rw [set_eq_take_append_cons_drop, if_pos hi]

theorem step_move {a : WalkAction} (h : s.step fs info a = some s') : Move fs info s s' := by
  cases a with
  | go => exact go_move h
  | join i =>
    simp only [step, join] at h
    split at h
    · rename_i hwait
      obtain ⟨t, ht, h⟩ := Option.bind_eq_some_iff.mp h
      obtain ⟨hready, rfl⟩ := Option.ite_some_none_eq_some.mp h
      obtain ⟨before, after, heq, herase, -⟩ := split_at ht
      rw [herase]
      exact .join hwait (hready ▸ heq)
    · cases h
    · cases h
    · cases h
  | scan i =>
    obtain ⟨t, ht, h⟩ := Option.bind_eq_some_iff.mp h
    obtain ⟨hscanning, ⟨⟩⟩ := Option.ite_none_right_eq_some.mp h
    obtain ⟨before, after, heq, -, hset⟩ := split_at ht
    rw [hset]
    exact .scan (hscanning ▸ heq)
  | complete i =>
    obtain ⟨t, ht, h⟩ := Option.bind_eq_some_iff.mp h
    obtain ⟨hreleased, ⟨⟩⟩ := Option.ite_none_right_eq_some.mp h
    obtain ⟨before, after, heq, -, hset⟩ := split_at ht
    rw [hset]
    exact .complete (hreleased ▸ heq)

end Orchestrator

structure Tree.Found (T : Tree) (job : DirJob) : Prop where
  leads : T.Leads T.root job.rel job.node
  live : T.Live job.node
  attr : job.attr = T.statx job.node

/-- A job whose task was joined, with the entries of its directory. -/
structure Taken where
  job : DirJob
  entries : List SnapEntry

/-- The jobs of a walk, the taken ones among them: each is of a directory of the tree, no two of the
same one, and they are the root and what the taken ones list. -/
structure Covers (fs : GuestFs) (info : WalkInfo) (T : Tree) (jobs : List DirJob)
    (taken : List Taken) : Prop where
  found : ∀ j ∈ jobs, T.Found j
  scans : ∀ t ∈ taken, Scans fs info T t.job t.entries
  once : (jobs.map DirJob.node).Nodup
  root : T.root ∈ jobs.map DirJob.node
  parents : ∀ j ∈ jobs, j.node = T.root ∨ ∃ t ∈ taken, ∃ x, T.entry t.job.node x = some j.node
  children : ∀ t ∈ taken, ∀ x k, T.entry t.job.node x = some k → T.kind k = .dir →
    k ∈ jobs.map DirJob.node

section

variable {fs : GuestFs} {info : WalkInfo} {T : Tree} {jobs jobs' : List DirJob} {taken : List Taken}
  {job : DirJob} {es : List SnapEntry}

theorem Tree.walk_concat (T : Tree) (d : NodeKey) (path : List Name) (x : Name) :
    T.walk d (path ++ [x]) = (T.walk d path).bind fun k => T.entry k x := by
  induction path generalizing d with
  | nil => simp [walk]
  | cons y path ih => simp only [cons_append, walk, ih, Option.bind_assoc]

theorem Covers.perm (h : Covers fs info T jobs taken) (hperm : jobs'.Perm jobs) :
    Covers fs info T jobs' taken := by
  have hnodes := hperm.map DirJob.node
  exact ⟨fun j hj => h.found j (hperm.mem_iff.mp hj), h.scans, hnodes.nodup_iff.mpr h.once,
    hnodes.mem_iff.mpr h.root, fun j hj => h.parents j (hperm.mem_iff.mp hj),
    fun t ht x k hx hk => hnodes.mem_iff.mpr (h.children t ht x k hx hk)⟩

theorem DirJob.mem_subdirs {j : DirJob} : j ∈ job.subdirs es ↔
    ∃ e ∈ es, e.attr.kind = .dir ∧ j = ⟨job.rel ++ [e.name], e.node, e.attr, job.node⟩ := by
  simp only [DirJob.subdirs, mem_map, mem_filter, decide_eq_true_eq, and_assoc, @eq_comm _ j]

theorem Tree.Lists.kind {d : NodeKey} (h : T.Lists d es) {e : SnapEntry} (he : e ∈ es) :
    e.attr.kind = T.kind e.node := by
  rw [(h.entries e he).2]
  rfl

theorem Tree.Lists.nodup_subdirs (h : T.Lists job.node es) (hT : T.WF) :
    ((job.subdirs es).map DirJob.node).Nodup := by
  rw [DirJob.subdirs, map_map, Nodup, pairwise_map]
  have hnames : (es.filter fun e => e.attr.kind = .dir).Pairwise fun e e' => e.name ≠ e'.name :=
    (pairwise_map.mp h.once).filter _
  refine hnames.imp_of_mem fun {e e'} he he' hne heq => hne ?_
  obtain ⟨hmem, hdir⟩ := mem_filter.mp he
  obtain ⟨hmem', -⟩ := mem_filter.mp he'
  have hnode : e.node = e'.node := heq
  have hkind : T.kind e.node = .dir := (h.kind hmem).symm.trans (of_decide_eq_true hdir)
  exact (hT.unique (h.entries e hmem).1 (hnode ▸ (h.entries e' hmem').1) hkind).2

theorem Covers.take (h : Covers fs info T jobs taken) (hT : T.WF) (hjob : job ∈ jobs)
    (hnew : ∀ t ∈ taken, t.job.node ≠ job.node) (hscans : Scans fs info T job es) :
    Covers fs info T (job.subdirs es ++ jobs) (taken ++ [⟨job, es⟩]) := by
  have hlists := hscans.lists
  have hfound := h.found job hjob
  refine ⟨fun j hj => ?_, fun t ht => ?_, ?_, ?_, fun j hj => ?_, fun t ht x k hx hk => ?_⟩
  · rcases mem_append.mp hj with hsub | hold
    · obtain ⟨e, he, hdir, rfl⟩ := DirJob.mem_subdirs.mp hsub
      have hentry := (hlists.entries e he).1
      refine ⟨⟨?_, (hlists.kind he).symm.trans hdir⟩, .inr ⟨_, _, hentry⟩, (hlists.entries e he).2⟩
      rw [walk_concat, hfound.leads.1]
      exact hentry
    · exact h.found j hold
  · rcases Runs.mem_append_cases ht with hold | rfl
    · exact h.scans t hold
    · exact hscans
  · rw [map_append]
    refine nodup_append.mpr ⟨hlists.nodup_subdirs hT, h.once, fun k hk k' hk' heq => ?_⟩
    -- a directory has one name, and the directory of that name is taken only now
    subst heq
    obtain ⟨j, hj, rfl⟩ := mem_map.mp hk
    obtain ⟨e, he, hdir, rfl⟩ := DirJob.mem_subdirs.mp hj
    obtain ⟨j', hj', hnode⟩ := mem_map.mp hk'
    have hentry := (hlists.entries e he).1
    rcases h.parents j' hj' with hroot | ⟨t, ht, y, hy⟩
    · exact hT.noRoot (hentry.trans (congrArg some (hnode.symm.trans hroot)))
    · have hkind : T.kind e.node = .dir := (hlists.kind he).symm.trans hdir
      exact hnew t ht (hT.unique (hnode ▸ hy) hentry hkind).1
  · rw [map_append]
    exact mem_append_right _ h.root
  · rcases mem_append.mp hj with hsub | hold
    · obtain ⟨e, he, -, rfl⟩ := DirJob.mem_subdirs.mp hsub
      exact .inr ⟨⟨job, es⟩, mem_concat_self, e.name, (hlists.entries e he).1⟩
    · refine (h.parents j hold).imp id ?_
      rintro ⟨t, ht, hx⟩
      exact ⟨t, mem_append_left _ ht, hx⟩
  · rw [map_append]
    rcases Runs.mem_append_cases ht with hold | rfl
    · exact mem_append_right _ (h.children t hold x k hx hk)
    obtain ⟨e, he, rfl⟩ := hlists.all x k hx
    obtain rfl := Option.some.inj ((hlists.entries e he).1.symm.trans hx)
    exact mem_append_left _ (mem_map.mpr
      ⟨_, DirJob.mem_subdirs.mpr ⟨e, he, (hlists.kind he).trans hk, rfl⟩, rfl⟩)

theorem Covers.all (h : Covers fs info T (taken.map Taken.job) taken) (hT : T.WF) (d : NodeKey) :
    (∃ t ∈ taken, t.job.node = d) ↔ T.Live d ∧ T.kind d = .dir := by
  have hmem : ∀ k, k ∈ (taken.map Taken.job).map DirJob.node ↔ ∃ t ∈ taken, t.job.node = k :=
    fun k => by simp
  constructor
  · rintro ⟨t, ht, rfl⟩
    have hfound := h.found t.job (mem_map_of_mem ht)
    exact ⟨hfound.live, hfound.leads.2⟩
  rintro ⟨hlive, hdir⟩
  have hreach := hT.live_iff_reach.mp hlive
  clear hlive
  induction hreach with
  | refl => exact (hmem _).mp h.root
  | step _ hx ih =>
    obtain ⟨t, ht, rfl⟩ := ih (hT.dirs hx)
    exact (hmem _).mp (h.children t ht _ _ hx hdir)

end

def Tree.dirs (T : Tree) : Set NodeKey := {d | T.Live d ∧ T.kind d = .dir}

def Tree.dentries (T : Tree) : Set (NodeKey × Name) := {p | T.entry p.1 p.2 ≠ none}

theorem Tree.dirs_finite {T : Tree} (hfinite : T.dentries.Finite) : T.dirs.Finite := by
  refine ((hfinite.image fun p => (T.entry p.1 p.2).getD T.root).insert T.root).subset ?_
  rintro d ⟨rfl | ⟨p, x, hx⟩, -⟩
  · exact Set.mem_insert _ _
  refine Set.mem_insert_of_mem _ ⟨(p, x), ?_, ?_⟩
  · rw [dentries, Set.mem_ofPred_eq, hx]
    exact Option.some_ne_none d
  · simp only [hx, Option.getD_some]

section

variable {α : Type} {l : List α} {S : Set α}

theorem length_eq_ncard (hl : l.Nodup) (h : ∀ a, a ∈ l ↔ a ∈ S) : l.length = S.ncard := by
  classical
  have hset : S = (l.toFinset : Set α) := by
    ext a
    simp [h]
  rw [hset, Set.ncard_coe_finset, toFinset_card_of_nodup hl]

theorem length_le_ncard (hl : l.Nodup) (hS : S.Finite) (h : ∀ a ∈ l, a ∈ S) :
    l.length ≤ S.ncard := by
  rw [length_eq_ncard hl fun a => Iff.rfl]
  exact Set.ncard_le_ncard h hS

end

def Taken.dentries (taken : List Taken) : List (NodeKey × Name) :=
  taken.flatMap fun t => t.entries.map fun e => (t.job.node, e.name)

theorem Taken.length_dentries (taken : List Taken) :
    (Taken.dentries taken).length = weigh (fun t => t.entries.length) taken := by
  rw [← weigh_one, Taken.dentries, weigh_flatMap]
  exact weigh_congr fun t _ => by rw [weigh_one, length_map]

section

variable {fs : GuestFs} {info : WalkInfo} {T : Tree} {jobs : List DirJob} {taken : List Taken}

theorem Covers.mem_dentries (h : Covers fs info T jobs taken) {p : NodeKey × Name} :
    p ∈ Taken.dentries taken ↔ p ∈ T.dentries ∧ ∃ t ∈ taken, t.job.node = p.1 := by
  obtain ⟨d, x⟩ := p
  simp only [Taken.dentries, mem_flatMap, mem_map, Prod.mk.injEq]
  constructor
  · rintro ⟨t, ht, e, he, rfl, rfl⟩
    refine ⟨?_, t, ht, rfl⟩
    rw [dentries, Set.mem_ofPred_eq, ((h.scans t ht).lists.entries e he).1]
    exact Option.some_ne_none _
  · rintro ⟨hx, t, ht, rfl⟩
    obtain ⟨k, hk⟩ := Option.ne_none_iff_exists'.mp hx
    obtain ⟨e, he, rfl⟩ := (h.scans t ht).lists.all x k hk
    exact ⟨t, ht, e, he, rfl, rfl⟩

theorem Covers.nodup_dentries (h : Covers fs info T jobs taken)
    (honce : (taken.map fun t => t.job.node).Nodup) : (Taken.dentries taken).Nodup := by
  refine nodup_flatMap.mpr ⟨fun t ht => ?_, ?_⟩
  · have hnames := pairwise_map.mp (h.scans t ht).lists.once
    rw [Nodup, pairwise_map]
    exact hnames.imp fun hne heq => hne (Prod.mk.inj heq).2
  refine (pairwise_map.mp honce).imp fun {t t'} hne p hp hp' => hne ?_
  obtain ⟨e, -, rfl⟩ := mem_map.mp hp
  obtain ⟨e', -, heq⟩ := mem_map.mp hp'
  exact (Prod.mk.inj heq).1.symm

end

/-- The records still to send of the task that was joined last, and the directories it found. -/
def Control.rest : Control → List SnapDir × List DirJob
  | .send records subdirs => (records, subdirs)
  | .fill | .wait | .returned _ => ([], [])

@[simp] theorem Control.rest_send (records : List SnapDir) (subdirs : List DirJob) :
    (Control.send records subdirs).rest = (records, subdirs) := rfl

@[simp] theorem Control.rest_fill : Control.fill.rest = ([], []) := rfl

@[simp] theorem Control.rest_wait : Control.wait.rest = ([], []) := rfl

@[simp] theorem Control.rest_returned (done : SnapReport) :
    (Control.returned done).rest = ([], []) := rfl

/-- The steps a task has behind it, and a weight for what the orchestrator is at. -/
def ScanPhase.spent : ScanPhase → Nat
  | .scanning => 1
  | .released => 2
  | .ready => 3

def Control.spent : Control → Nat
  | .send .. => 0
  | .fill => 1
  | .wait => 2
  | .returned _ => 3

namespace Orchestrator

variable {fs : GuestFs} {info : WalkInfo} {T : Tree} {most : Nat} {s s' : Orchestrator}
  {taken : List Taken}

def jobs (s : Orchestrator) (taken : List Taken) : List DirJob :=
  s.queue ++ s.tasks.map ScanTask.job ++ s.control.rest.2 ++ taken.map Taken.job

def scanning (s : Orchestrator) : Nat := s.tasks.countP fun t => t.phase = .scanning

structure Sound (fs : GuestFs) (info : WalkInfo) (T : Tree) (most : Nat) (s : Orchestrator)
    (taken : List Taken) : Prop where
  covers : Covers fs info T (s.jobs taken) taken
  sent : s.sent ++ s.control.rest.1 = taken.flatMap fun t => t.job.flush info [] t.entries
  dirs : s.stats.dirs = taken.length.toUInt64
  entries : s.stats.entries = (weigh (fun t => t.entries.length) taken).toUInt64
  permits : s.permits + s.scanning = most
  waiting : s.control = .wait → s.queue = [] ∨ s.tasks ≠ []
  returned : ∀ done, s.control = .returned done →
    s.queue = [] ∧ s.tasks = [] ∧ done = s.stats.done info

/-- How far the walk has come; every step makes it larger. -/
def spent (s : Orchestrator) (taken : List Taken) : Nat :=
  weigh (fun t => t.phase.spent) s.tasks + 6 * taken.length + s.sent.length + s.control.spent

theorem toUInt64_add (m n : Nat) : (m + n).toUInt64 = m.toUInt64 + n.toUInt64 := by
  apply UInt64.toNat_inj.mp
  simp [UInt64.toNat_add]

theorem Sound.start (hfs : fs.Serves T) (hT : T.WF) (parallelism : Nat) :
    Sound fs info T (Nat.max parallelism 1) (start fs info T.root parallelism) [] := by
  have hstart : Orchestrator.start fs info T.root parallelism =
      { permits := Nat.max parallelism 1, queue := [⟨[], T.root, T.statx T.root, T.root⟩], tasks := []
        sent := [], stats := ⟨0, 0, 0⟩, control := .fill } := by
    simp only [Orchestrator.start, hfs.statRoot]
  rw [hstart]
  refine ⟨⟨fun j hj => ?_, fun t ht => (nomatch ht), nodup_singleton _, mem_singleton_self _,
    fun j hj => ?_, fun t ht => (nomatch ht)⟩, rfl, rfl, rfl, rfl, nofun, nofun⟩
  · obtain rfl := mem_singleton.mp hj
    exact ⟨⟨rfl, hT.rootDir⟩, .inl rfl, rfl⟩
  · obtain rfl := mem_singleton.mp hj
    exact .inl rfl

theorem Sound.of_perm (h : Sound fs info T most s taken)
    (hjobs : (s'.jobs taken).Perm (s.jobs taken))
    (hsent : s'.sent ++ s'.control.rest.1 = s.sent ++ s.control.rest.1) (hstats : s'.stats = s.stats)
    (hpermits : s'.permits + s'.scanning = s.permits + s.scanning)
    (hwaiting : s'.control = .wait → s'.queue = [] ∨ s'.tasks ≠ [])
    (hreturned : ∀ done, s'.control = .returned done →
      s'.queue = [] ∧ s'.tasks = [] ∧ done = s'.stats.done info) :
    Sound fs info T most s' taken :=
  ⟨h.covers.perm hjobs, hsent.trans h.sent, hstats ▸ h.dirs, hstats ▸ h.entries,
    hpermits.trans h.permits, hwaiting, hreturned⟩

theorem Sound.phase (h : Sound fs info T most s taken) {before after : List ScanTask} {job : DirJob}
    {phase phase' : ScanPhase} (htasks : s.tasks = before ++ ⟨job, phase⟩ :: after) {permits : Nat}
    (hpermits : permits + (if phase' = .scanning then 1 else 0) =
      s.permits + if phase = .scanning then 1 else 0) :
    Sound fs info T most { s with permits, tasks := before ++ ⟨job, phase'⟩ :: after } taken := by
  refine h.of_perm ?_ rfl rfl ?_ ?_ ?_
  · simp [jobs, htasks]
  · simp only [scanning, htasks, countP_append, countP_cons, decide_eq_true_eq]
    omega
  · exact fun hwait => .inr (by simp)
  · intro done hdone
    have := (h.returned done hdone).2.1
    simp [htasks] at this

section

variable (h : Sound fs info T most s taken) (hfs : fs.Serves T) (hT : T.WF) (hopen : T.Openable)
include h hfs hT hopen

theorem Sound.join {before after : List ScanTask} {job : DirJob} (hwait : s.control = .wait)
    (htasks : s.tasks = before ++ ⟨job, .ready⟩ :: after) :
    ∃ es, Sound fs info T most (s.joined (scanDir fs info job) (before ++ after))
      (taken ++ [⟨job, es⟩]) := by
  have hjob : job ∈ s.jobs taken := by simp [jobs, htasks]
  have hfound := h.covers.found job hjob
  obtain ⟨es, hscans⟩ : ∃ es, Scans fs info T job es := hfs.scanDir hopen hfound.live hfound.leads
  have hnew : ∀ t ∈ taken, t.job.node ≠ job.node := by
    intro t ht heq
    have honce := h.covers.once
    simp only [jobs, map_append] at honce
    refine (nodup_append.mp honce).2.2 job.node ?_ job.node ?_ rfl
    · simp [htasks]
    · exact mem_map.mpr ⟨t.job, mem_map_of_mem ht, heq⟩
  have htake := h.covers.take hT hjob hnew hscans
  refine ⟨es, ?_, ?_, ?_, ?_, ?_, nofun, nofun⟩
  · refine htake.perm ?_
    classical
    rw [perm_iff_count]
    simp only [jobs, joined, Control.rest_send, Control.rest_wait, hwait, htasks, hscans.subdirs,
      map_append, map_cons, map_nil, count_append, count_cons,
      count_nil]
    omega
  · have hsent := h.sent
    rw [hwait, Control.rest_wait, append_nil] at hsent
    simp only [joined, Control.rest_send, hscans.records, hsent, flatMap_append,
      flatMap_cons, flatMap_nil, append_nil]
  · simp only [joined, WalkStats.add, h.dirs, length_append, length_singleton, toUInt64_succ]
  · simp only [joined, WalkStats.add, h.entries, hscans.entries, weigh_append, weigh, toUInt64_add,
      Nat.add_zero]
  · have := h.permits
    simp only [scanning, htasks, countP_append, countP_cons] at this
    simp only [joined, scanning, countP_append]
    simpa using this

theorem Sound.move (hmost : 0 < most) (hmove : Move fs info s s') :
    ∃ taken', Sound fs info T most s' taken' ∧ s.spent taken < s'.spent taken' := by
  cases hmove with
  | @start queue job hfill hqueue hpermits =>
    refine ⟨taken, h.of_perm ?_ rfl rfl ?_ (fun hwait => ?_) fun done hdone => ?_, ?_⟩
    · classical
      rw [perm_iff_count]
      simp only [jobs, hqueue, map_append, map_cons, map_nil, count_append]
      omega
    · simp only [scanning, countP_append, countP_singleton, decide_true, if_true]
      omega
    · cases hfill.symm.trans hwait
    · cases hfill.symm.trans hdone
    · simp only [spent, weigh_append, weigh, ScanPhase.spent]
      omega
  | settle hfill hstop =>
    refine ⟨taken, h.of_perm ?_ ?_ rfl rfl (fun _ => ?_) fun _ => Control.noConfusion, ?_⟩
    · simp [jobs, hfill]
    · simp [hfill]
    · refine hstop.imp id fun hnone htasks => ?_
      have := h.permits
      rw [hnone, scanning, htasks] at this
      exact absurd this.symm (Nat.ne_of_gt hmost)
    · simp only [spent, hfill, Control.spent]
      omega
  | finish hwait htasks =>
    have hqueue : s.queue = [] := (h.waiting hwait).resolve_right fun hne => hne htasks
    refine ⟨taken, h.of_perm ?_ ?_ rfl rfl Control.noConfusion fun done hd => ?_, ?_⟩
    · simp [jobs, hwait]
    · simp [hwait]
    · cases hd
      exact ⟨hqueue, htasks, rfl⟩
    · simp only [spent, hwait, Control.spent]
      omega
  | @send rec records subdirs hsend =>
    refine ⟨taken, h.of_perm ?_ ?_ rfl rfl Control.noConfusion fun _ => Control.noConfusion, ?_⟩
    · simp [jobs, hsend]
    · simp [hsend]
    · simp only [spent, hsend, Control.spent, length_append, length_singleton]
      omega
  | @found subdirs hsend =>
    refine ⟨taken, h.of_perm ?_ ?_ rfl rfl Control.noConfusion fun _ => Control.noConfusion, ?_⟩
    · classical
      rw [perm_iff_count]
      intro j
      simp only [jobs, hsend, Control.rest_send, Control.rest_fill, count_append, count_nil]
      omega
    · simp [hsend]
    · simp only [spent, hsend, Control.spent]
      omega
  | join hwait htasks =>
    obtain ⟨es, hjoin⟩ := h.join hfs hT hopen hwait htasks
    refine ⟨_, hjoin, ?_⟩
    simp only [spent, joined, hwait, htasks, Control.spent, ScanPhase.spent, weigh_append, weigh,
      length_append, length_singleton]
    omega
  | scan htasks =>
    refine ⟨taken, h.phase htasks rfl, ?_⟩
    simp only [spent, htasks, weigh_append, weigh, ScanPhase.spent]
    omega
  | complete htasks =>
    refine ⟨taken, h.phase htasks rfl, ?_⟩
    simp only [spent, htasks, weigh_append, weigh, ScanPhase.spent]
    omega

theorem Sound.run (hmost : 0 < most) {actions : List WalkAction}
    (hrun : actions.foldlM (step fs info) s = some s') :
    ∃ taken', Sound fs info T most s' taken' ∧
      actions.length + s.spent taken ≤ s'.spent taken' := by
  induction actions generalizing s taken with
  | nil =>
    obtain rfl : s = s' := by simpa using hrun
    exact ⟨taken, h, by simp⟩
  | cons a actions ih =>
    obtain ⟨u, hu, hrest⟩ := Option.bind_eq_some_iff.mp (by simpa using hrun)
    obtain ⟨taken₁, h₁, hlt⟩ := h.move hfs hT hopen hmost (step_move hu)
    obtain ⟨taken', h', hle⟩ := ih h₁ hrest
    refine ⟨taken', h', ?_⟩
    rw [length_cons]
    omega

end

theorem progress (fs : GuestFs) (info : WalkInfo) (s : Orchestrator) :
    (∃ done, s.control = .returned done) ∨ ∃ a, (s.step fs info a).isSome := by
  cases hc : s.control with
  | returned done => exact .inl ⟨done, rfl⟩
  | fill => exact .inr ⟨.go, by simp [step, go, hc]⟩
  | send records subdirs =>
    cases records with
    | nil => exact .inr ⟨.go, by simp [step, go, hc]⟩
    | cons rec records => exact .inr ⟨.go, by simp [step, go, hc]⟩
  | wait =>
    cases htasks : s.tasks with
    | nil => exact .inr ⟨.go, by simp [step, go, hc, htasks]⟩
    | cons t tasks =>
      cases hphase : t.phase with
      | scanning => exact .inr ⟨.scan 0, by simp [step, htasks, hphase]⟩
      | released => exact .inr ⟨.complete 0, by simp [step, htasks, hphase]⟩
      | ready => exact .inr ⟨.join 0, by simp [step, join, hc, htasks, hphase]⟩

theorem length_flush (job : DirJob) (info : WalkInfo) (pending es : List SnapEntry) :
    (job.flush info pending es).length ≤ es.length + 1 := by
  induction es generalizing pending with
  | nil => exact Nat.le_refl 1
  | cons e es ih =>
    rw [DirJob.flush]
    split
    · have := ih []
      simp only [length_cons]
      omega
    · have := ih (pending ++ [e])
      simp only [length_cons]
      omega

theorem Sound.spent_le (h : Sound fs info T most s taken) (hfinite : T.dentries.Finite) :
    s.spent taken ≤ 7 * T.dirs.ncard + T.dentries.ncard + 3 := by
  have hdirs : (s.jobs taken).length ≤ T.dirs.ncard := by
    rw [← length_map (f := DirJob.node)]
    refine length_le_ncard h.covers.once (T.dirs_finite hfinite) fun k hk => ?_
    obtain ⟨j, hj, rfl⟩ := mem_map.mp hk
    exact ⟨(h.covers.found j hj).live, (h.covers.found j hj).leads.2⟩
  have honce : (taken.map fun t => t.job.node).Nodup := by
    have := h.covers.once
    rw [jobs, map_append, map_map] at this
    exact (nodup_append.mp this).2.1
  have hnames : weigh (fun t => t.entries.length) taken ≤ T.dentries.ncard := by
    rw [← Taken.length_dentries]
    exact length_le_ncard (h.covers.nodup_dentries honce) hfinite
      fun p hp => (h.covers.mem_dentries.mp hp).1
  have hsent : s.sent.length ≤ weigh (fun t => t.entries.length) taken + taken.length := by
    have hflat := congrArg length h.sent
    rw [length_append, ← weigh_one (taken.flatMap _), weigh_flatMap] at hflat
    have hle : weigh (fun t => weigh (fun _ => 1) (t.job.flush info [] t.entries)) taken ≤
        weigh (fun t => t.entries.length + 1) taken :=
      weigh_le fun t _ => by
        rw [weigh_one]
        exact length_flush ..
    rw [weigh_add, weigh_one] at hle
    omega
  have htasks : weigh (fun t => t.phase.spent) s.tasks ≤ 3 * s.tasks.length := by
    rw [← weigh_one s.tasks]
    generalize s.tasks = l
    induction l with
    | nil => exact Nat.le_refl 0
    | cons t l ih =>
      have : t.phase.spent ≤ 3 := by cases t.phase <;> decide
      simp only [weigh]
      omega
  have hcontrol : s.control.spent ≤ 3 := by cases s.control <;> simp [Control.spent]
  simp only [jobs, length_append, length_map] at hdirs
  simp only [spent]
  omega

end Orchestrator

end Mist
