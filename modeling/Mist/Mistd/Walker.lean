import Mist.Guest.History

/-! The snapshot walker.  A directory is listed by its parent's scan and opened later by the path it
was found at. -/

namespace Mist

def Tree.walk (T : Tree) (d : NodeKey) : List Name → Option NodeKey
  | [] => some d
  | x :: path => (T.entry d x).bind fun k => T.walk k path

def Tree.Leads (T : Tree) (root : NodeKey) (path : List Name) (k : NodeKey) : Prop :=
  T.walk root path = some k ∧ T.kind k = .dir

/-- What `open_node_rel` may return for a path: its directory if there is one, and else an error or,
by a symlink on the way, another directory beneath the root. -/
inductive Opens (T : Tree) (root : NodeKey) (path : List Name) : Option NodeKey → Prop
  | names {k : NodeKey} : T.Leads root path k → Opens T root path (some k)
  | symlink {k : NodeKey} : (∀ j, ¬ T.Leads root path j) → T.Reach root k → T.kind k = .dir →
    Opens T root path (some k)
  | failed : (∀ j, ¬ T.Leads root path j) → Opens T root path none

/-- A directory to scan: where it was found, and its key, attributes and parent then. -/
structure DirJob where
  rel : List Name
  node : NodeKey
  attr : Attr
  parent : NodeKey

/-- What every record of a walk carries, and the number of entries at which a record is full. -/
structure WalkInfo where
  snapId : UInt64
  share : ShareId
  perRecord : Nat

namespace DirJob

def record (job : DirJob) (info : WalkInfo) (entries : List SnapEntry) (last : Bool) : SnapDir where
  snapId := info.snapId
  share := info.share
  dir := job.node
  dirAttr := job.attr
  parent := job.parent
  entries
  last

def flush (job : DirJob) (info : WalkInfo) (pending : List SnapEntry) : List SnapEntry → List SnapDir
  | [] => [job.record info pending true]
  | e :: es =>
    if (pending ++ [e]).length ≥ info.perRecord then
      job.record info (pending ++ [e]) false :: flush job info [] es
    else flush job info (pending ++ [e]) es

theorem flush_ne_nil (job : DirJob) (info : WalkInfo) (pending es : List SnapEntry) :
    job.flush info pending es ≠ [] := by
  induction es generalizing pending with
  | nil => exact List.cons_ne_nil _ _
  | cons e es ih =>
    rw [flush]
    split
    · exact List.cons_ne_nil _ _
    · exact ih _

def subdirs (job : DirJob) (entries : List SnapEntry) : List DirJob :=
  (entries.filter fun e => e.attr.kind = .dir).map fun e =>
    ⟨job.rel ++ [e.name], e.node, e.attr, job.node⟩

end DirJob

/-- A scan under way: its job, the directory that was opened and when, and the entries so far. -/
structure Scan where
  job : DirJob
  dir : NodeKey
  since : Nat
  found : List SnapEntry

/-- The walk while `now` operations of the guest have been carried out: the directories to scan, the
scans under way, and the records sent. -/
structure Walk where
  now : Nat
  queue : List DirJob
  scans : List Scan
  sent : List SnapDir

def Tree.statx (T : Tree) (k : NodeKey) : Attr := { T.attr k with contentVersion := 0 }

namespace Walk

def rootJob (T : Tree) (root : NodeKey) : DirJob := ⟨[], root, T.statx root, root⟩

def start (T : Tree) (root : NodeKey) : Walk := ⟨0, [rootJob T root], [], []⟩

/-- The scan of a job ends: its records go out, and the directories among its entries are to scan. -/
def finished (w : Walk) (info : WalkInfo) (job : DirJob) (entries : List SnapEntry)
    (queue : List DirJob) (scans : List Scan) : Walk where
  now := w.now
  queue := queue ++ job.subdirs entries
  scans
  sent := w.sent ++ job.flush info [] entries

/-- One step of the guest or the walk.  A name that was there all the time since the directory was
opened is read before the scan ends; every other name may be.  `ok` restricts the scans that end, by
what was opened and read. -/
inductive Step (T : Tree) (ops : List Op) (root : NodeKey) (info : WalkInfo)
    (ok : Walk → DirJob → Option NodeKey → List SnapEntry → Prop) : Walk → Walk → Prop
  | guest {w : Walk} : w.now < ops.length → Step T ops root info ok w { w with now := w.now + 1 }
  | openDir {w : Walk} {job : DirJob} {before after : List DirJob} {k : NodeKey} :
    w.queue = before ++ job :: after → Opens (T.moment ops w.now) root job.rel (some k) →
    Step T ops root info ok w
      { w with queue := before ++ after, scans := ⟨job, k, w.now, []⟩ :: w.scans }
  | openFails {w : Walk} {job : DirJob} {before after : List DirJob} :
    w.queue = before ++ job :: after → Opens (T.moment ops w.now) root job.rel none →
    ok w job none [] → Step T ops root info ok w (w.finished info job [] (before ++ after) w.scans)
  | read {w : Walk} {scan : Scan} {before after : List Scan} {x : Name} {k : NodeKey} :
    w.scans = before ++ scan :: after → (T.moment ops w.now).entry scan.dir x = some k →
    Step T ops root info ok w { w with
      scans := before ++
        { scan with found := scan.found ++ [⟨x, k, (T.moment ops w.now).statx k⟩] } :: after }
  | finish {w : Walk} {scan : Scan} {before after : List Scan} :
    w.scans = before ++ scan :: after →
    (∀ x, (∀ i, scan.since ≤ i → i ≤ w.now → (T.moment ops i).entry scan.dir x ≠ none) →
      x ∈ scan.found.map SnapEntry.name) →
    ok w scan.job (some scan.dir) scan.found →
    Step T ops root info ok w (w.finished info scan.job scan.found w.queue (before ++ after))

def Done (w : Walk) : Prop := w.queue = [] ∧ w.scans = []

def jobs (w : Walk) : List DirJob := w.queue ++ w.scans.map Scan.job

end Walk

end Mist
