import Mist.Hostd.Sidestore

/-! What the calls of the decorator do to its store. -/

namespace Mist.Sidestore

open Nfs

/-- What a call may make of the store, whatever the inner surface answers.  The keys a sweep drops are
any. -/
inductive Served (d : Decorator) (now : Int64) (s : SideStore) : SurfaceCall → SideStore → Prop
  | idle {call : SurfaceCall} : Served d now s call s
  | create {dir : NodeKey} {name : List UInt8} {kind : CreateKind} {k : UInt8} {mode : UInt16}
    (hkind : Decorator.rowKind kind = some k) (doomed : List RowKey) :
    Served d now s (.op (.create dir name kind mode))
      { doomed.foldl d.drop (d.createRow s (dir, name) k mode now) with dirty := true }
  | remove {dir : NodeKey} {name : List UInt8} {isDir : Bool}
    (hrow : d.refusal s dir name isDir = none) :
    Served d now s (.op (.remove dir name isDir)) { d.drop s (dir, name) with dirty := true }
  | companion {dir : NodeKey} {name : List UInt8} {isDir : Bool} :
    Served d now s (.op (.remove dir name isDir)) (d.dropCompanion s dir name)
  | rename {fromDir toDir : NodeKey} {fromName toName : List UInt8} {row : Row}
    (hrow : s.rows.get (fromDir, fromName) = some row) :
    Served d now s (.op (.rename fromDir fromName toDir toName))
      { d.put (d.drop s (fromDir, fromName)) (toDir, toName) row with dirty := true }
  | setattr {node : NodeKey} {set : NfsSetAttr} {key : RowKey} {row row' : Row} {dirty : Bool}
    {r : Except NfsError Unit} (hrow : Decorator.row s node = .ok (key, row))
    (hset : row.setattr set now = (r, row')) :
    Served d now s (.op (.setattr node set))
      { s with rows := s.rows.insert key row', dirty }
  | write {node : NodeKey} {offset : UInt64} {data : List UInt8} {sync : Bool} {key : RowKey}
    {row row' : Row} (hrow : Decorator.row s node = .ok (key, row))
    (hwrite : row.write offset data now = (.ok (.ok ()), row')) :
    Served d now s (.op (.write node offset data sync))
      { d.evictLocked { s with rows := s.rows.insert key row' } with dirty := true }
  | panic {node : NodeKey} {offset : UInt64} {data : List UInt8} {sync : Bool} {key : RowKey}
    {row row' : Row} {panic : Panic} (hrow : Decorator.row s node = .ok (key, row))
    (hwrite : row.write offset data now = (.error panic, row')) :
    Served d now s (.op (.write node offset data sync)) { s with rows := s.rows.insert key row' }

def Reads {α : Type} (m : Decorated α) : Prop :=
  ∀ s, (m s).Holds (fun _ => True) fun r => r.2 = s ∧ ∃ a, r.1 = .ok a

def Leaves {α : Type} (P : SideStore → Prop) (m : Decorated α) (s : SideStore) : Prop :=
  (m s).Holds (fun _ => True) fun r => P r.2

section

variable {α β : Type} {P : SideStore → Prop} {m : Decorated α} {f : α → Decorated β} {s : SideStore}

theorem Reads.then (h : Reads m) (hf : ∀ a, Leaves P (f a) s) : Leaves P (m >>= f) s := by
  refine (h s).bind fun r hr => ?_
  obtain ⟨r, t⟩ := r
  obtain ⟨rfl, a, rfl⟩ := hr
  exact hf a

theorem Reads.bind (h : Reads m) (hf : ∀ a, Reads (f a)) : Reads (m >>= f) := by
  refine fun s => (h s).bind fun r hr => ?_
  obtain ⟨r, t⟩ := r
  obtain ⟨rfl, a, rfl⟩ := hr
  exact hf a _

theorem Reads.pure (a : α) : Reads (pure a) := fun _ => ⟨rfl, a, rfl⟩

theorem Reads.query (q : SurfaceCall) : Reads (Handler.query q) :=
  fun _ => ⟨trivial, fun a => ⟨rfl, a, rfl⟩⟩

theorem Reads.get : Reads Handler.get := fun s => ⟨rfl, s, rfl⟩

theorem Reads.ite {p : Prop} [Decidable p] {n : Decorated α} (hm : Reads m) (hn : Reads n) :
    Reads (if p then m else n) := by
  split
  · exact hm
  · exact hn

theorem Reads.leaves (h : Reads m) (hs : P s) : Leaves P m s := (h s).mono fun _ hr => hr.1 ▸ hs

theorem Leaves.bind {Q : SideStore → Prop} (h : Leaves Q m s) (hstop : ∀ t, Q t → P t)
    (hf : ∀ a t, Q t → Leaves P (f a) t) : Leaves P (m >>= f) s := by
  refine Asks.Holds.bind h fun r hr => ?_
  obtain ⟨r, t⟩ := r
  cases r with
  | ok a => exact hf a t hr
  | error e => exact hstop t hr

theorem Leaves.get {f : SideStore → Decorated β} (h : Leaves P (f s) s) :
    Leaves P (Handler.get >>= f) s := h

theorem Leaves.ite {p : Prop} [Decidable p] {n : Decorated α} (hm : p → Leaves P m s)
    (hn : ¬ p → Leaves P n s) : Leaves P (if p then m else n) s := by
  split
  · exact hm ‹_›
  · exact hn ‹_›

end

namespace Decorator

variable (d : Decorator) (now : Int64) (s : SideStore) (dir : NodeKey) (name : List UInt8)

theorem reads_owns : Reads (owns dir name) :=
  .ite (.pure _) (.ite ((Reads.query _).bind fun _ => .pure _) (.pure _))

theorem reads_orphan (key : RowKey) (row : Row) : Reads (orphan now s key row) := by
  refine .ite (.pure _) ((Reads.query _).bind fun _ => .ite (.pure _) (.ite ?_ (.pure _)))
  exact (Reads.query _).bind fun _ => .pure _

theorem reads_orphans (rows : Table RowKey Row) : Reads (orphans now s rows) := by
  induction rows with
  | nil => exact .pure _
  | cons p rows ih =>
    exact (reads_orphan now s p.1 p.2).bind fun _ => ih.bind fun _ => .pure _

theorem leaves_gcSweep (hdirty : s = { s with dirty := true }) :
    Leaves (fun t => ∃ doomed : List RowKey, t = { doomed.foldl d.drop s with dirty := true })
      (d.gcSweep now) s :=
  .get ((reads_orphans now s _).then fun doomed =>
    .ite (fun _ => ⟨[], hdirty⟩) fun _ => ⟨doomed, rfl⟩)

theorem served_create (kind : CreateKind) (mode : UInt16) :
    Leaves (Served d now s (.op (.create dir name kind mode))) (d.create now dir name kind mode) s := by
  refine (reads_owns dir name).then fun _ => .ite (fun _ => ?_) fun _ => (Reads.query _).leaves .idle
  unfold createOwned
  cases hkind : rowKind kind with
  | none => exact .idle
  | some k =>
    refine Reads.get.then fun _ => .ite (fun _ => .idle) fun _ => ?_
    refine (leaves_gcSweep d now _ rfl).bind ?_ fun _ t ht => ?_
    · rintro t ⟨doomed, rfl⟩
      exact .create hkind doomed
    · obtain ⟨doomed, rfl⟩ := ht
      exact ((Reads.query _).bind fun _ => Reads.get.bind fun _ => .pure _).leaves
        (.create hkind doomed)

theorem served_remove (isDir : Bool) :
    Leaves (Served d now s (.op (.remove dir name isDir))) (d.remove dir name isDir) s := by
  refine (reads_owns dir name).then fun _ => .ite (fun _ => ?_) fun _ => ?_
  · refine .get ?_
    cases hrow : d.refusal s dir name isDir with
    | some e => exact .idle
    | none => exact ⟨trivial, fun _ => .remove hrow⟩
  · refine (Reads.query _).then fun r => ?_
    cases r with
    | error e => exact .idle
    | ok _ =>
      show Served d now s _ (if isSideName name then s else d.dropCompanion s dir name)
      split
      · exact .idle
      · exact .companion

theorem served_rename (toDir : NodeKey) (toName : List UInt8) :
    Leaves (Served d now s (.op (.rename dir name toDir toName)))
      (d.rename dir name toDir toName) s := by
  refine (reads_owns dir name).then fun _ => (reads_owns toDir toName).then fun _ =>
    .ite (fun _ => (Reads.query _).leaves .idle) fun _ => .ite (fun _ => .idle) fun _ => .get ?_
  cases hrow : s.rows.get (dir, name) with
  | none => exact .idle
  | some row => exact .rename hrow

theorem served_setattr (node : NodeKey) (set : NfsSetAttr) :
    Leaves (Served d now s (.op (.setattr node set))) (d.setattr now node set) s := by
  refine .ite (fun _ => .get ?_) fun _ => (Reads.query _).leaves .idle
  cases hrow : row s node with
  | error e => exact .idle
  | ok found =>
    obtain ⟨key, row⟩ := found
    dsimp only
    rcases hset : row.setattr set now with ⟨r, row'⟩
    cases r with
    | error e => exact .setattr hrow hset
    | ok _ => exact .setattr hrow hset

theorem served_write (node : NodeKey) (offset : UInt64) (data : List UInt8) (sync : Bool) :
    Leaves (Served d now s (.op (.write node offset data sync))) (d.write now node offset data sync)
      s := by
  refine .ite (fun _ => .get ?_) fun _ => (Reads.query _).leaves .idle
  cases hrow : row s node with
  | error e => exact .idle
  | ok found =>
    obtain ⟨key, row⟩ := found
    dsimp only
    rcases hwrite : row.write offset data now with ⟨r, row'⟩
    cases r with
    | error panic => exact .panic hrow hwrite
    | ok r =>
      cases r with
      | error e => exact .idle
      | ok _ => exact .write hrow hwrite

theorem serve_served (call : SurfaceCall) : Leaves (Served d now s call) (d.serve now call) s := by
  cases call with
  | op call =>
    cases call with
    | create dir name kind mode => exact served_create d now s dir name kind mode
    | remove dir name isDir => exact served_remove d now s dir name isDir
    | rename dir name toDir toName => exact served_rename d now s dir name toDir toName
    | setattr node set => exact served_setattr d now s node set
    | write node offset data sync => exact served_write d now s node offset data sync
    | lookup dir name =>
      have howned : Reads (d.lookupOwned dir name) := by
        refine (reads_owns dir name).bind fun _ => .ite (Reads.get.bind fun t => ?_) (.query _)
        cases t.rows.get (dir, name) with
        | none => exact .pure _
        | some row => exact .pure _
      refine Reads.leaves (.ite ((Reads.query _).bind fun r => ?_) howned) .idle
      cases r with
      | ok real => exact .pure _
      | error e => exact howned
    | parent node => exact .idle
    | fsstat => exact (Reads.query _).leaves .idle
    | _ =>
      exact Reads.leaves (.ite (Reads.get.bind fun _ => .pure _) (.query _)) .idle
  | touchDir dir => exact .idle
  | _ => exact (Reads.query _).leaves .idle

end Decorator

end Mist.Sidestore
