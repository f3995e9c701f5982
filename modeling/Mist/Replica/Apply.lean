import Mist.Replica.State

/-! Applying snapshot and journal records to a replica. -/

namespace Mist

namespace DirState

/-- What the entries of one snapshot record did to a table: the dentries it gained, the nodes that
gained a name and those that lost one. -/
structure Filled where
  table : DirState
  delta : Int
  toLink : List NodeKey
  toUnlink : List NodeKey

def fill (t : DirState) : List SnapEntry → Filled
  | [] => ⟨t, 0, [], []⟩
  | e :: es =>
    let u := t.upsert e.name e.node e.attr.kind
    let rest := u.1.fill es
    ⟨rest.table, u.2.dentryDelta + rest.delta,
      if u.2.gainedLink then e.node :: rest.toLink else rest.toLink,
      u.2.displaced.toList ++ rest.toUnlink⟩

end DirState

namespace ShareReplica

def setDir (r : ShareReplica) (key : NodeKey) (t : DirState) : ShareReplica :=
  r.modifyNode key fun n => { n with dir := some t }

def markDirComplete (r : ShareReplica) (key : NodeKey) : ShareReplica :=
  r.modifyNode key fun n => { n with dir := n.dir.map fun t => { t with complete := true } }

def setParent (r : ShareReplica) (key parent : NodeKey) : ShareReplica :=
  r.modifyNode key fun n => { n with parent }

/-- Apply one snapshot record.  `none` is a failed `expect`: the record's directory has no entry
table, which a record that passed validation never shows. -/
def applySnapDir (r : ShareReplica) (d : SnapDir) : Option ShareReplica :=
  let r := r.upsertNode d.dir d.dirAttr d.parent
  let r := d.entries.foldl (fun r e => r.upsertNode e.node e.attr d.dir) r
  (r.dirOf d.dir).map fun t =>
    let f := t.fill d.entries
    let t := if d.last then { f.table with complete := true } else f.table
    let r := (r.setDir d.dir t).entriesAdd f.delta
    let r := f.toLink.foldl linkInc r
    f.toUnlink.foldl linkDec r

def dentrySet (r : ShareReplica) (parent : NodeKey) (name : Name) (node : NodeKey) (kind : Kind) :
    ShareReplica :=
  match r.dirOf parent with
  | none => r
  | some t =>
    let u := t.upsert name node kind
    let r := (r.setDir parent u.1).entriesAdd u.2.dentryDelta
    let r := if u.2.gainedLink then r.linkInc node else r
    u.2.displaced.toList.foldl linkDec r

/-- Re-link a moved node: its count is kept, a clobbered node loses its link. -/
def dentryRelink (r : ShareReplica) (parent : NodeKey) (name : Name) (node : NodeKey) (kind : Kind) :
    ShareReplica :=
  match r.dirOf parent with
  | none => r
  | some t =>
    let u := t.upsert name node kind
    let r := (r.setDir parent u.1).entriesAdd u.2.dentryDelta
    (u.2.displaced.toList.foldl linkDec r).setParent node parent

def dentryRemove (r : ShareReplica) (parent : NodeKey) (name : Name) : ShareReplica :=
  match (r.dirOf parent).bind fun t => t.remove name with
  | none => r
  | some (node, t) => ((r.setDir parent t).entriesAdd (-1)).linkDec node

def dentryTake (r : ShareReplica) (parent : NodeKey) (name : Name) :
    Option ((NodeKey × Kind) × ShareReplica) := do
  let t ← r.dirOf parent
  let (_, kind) ← t.find name
  let (node, t) ← t.remove name
  return ((node, kind), (r.setDir parent t).entriesAdd (-1))

def updateAttr (r : ShareReplica) (key : NodeKey) (a : Attr) : ShareReplica × Bool :=
  let hasSide := (r.noteSide key a).2
  let r := (r.noteSide key a).1
  (r.modifyNode key fun n => { n.setAttr a with hasSide := n.hasSide || hasSide }, r.live key)

def updateContent (r : ShareReplica) (key : NodeKey) (version size : UInt64) (mtime : Ts) :
    ShareReplica × Bool :=
  (r.modifyNode key fun n => { n with size, mtime, contentVersion := version }, r.live key)

def stashPending (r : ShareReplica) (key : NodeKey) (p : Pending) : ShareReplica :=
  let pend := if r.pending.keys.card ≥ maxPending then ∅ else r.pending
  { r with pending := pend.insert key ((pend.lookup key).getD [] ++ [p]) }

def applyPending (r : ShareReplica) (key : NodeKey) : Pending → ShareReplica
  | .attr a => (r.updateAttr key a).1
  | .content version size mtime => (r.updateContent key version size mtime).1

def drainPending (r : ShareReplica) (key : NodeKey) : ShareReplica :=
  match r.pending.lookup key with
  | none => r
  | some items =>
    items.foldl (fun r p => r.applyPending key p) { r with pending := r.pending.erase key }

/-- A created node with its attributes: known from now on, with the records that came early. -/
def createNode (r : ShareReplica) (key : NodeKey) (a : Attr) (parent : NodeKey) : ShareReplica :=
  (r.upsertNode key a parent).drainPending key

def applyRec (r : ShareReplica) : Rec → ShareReplica × ApplyOutcome
  | .created parent name node attr =>
    let kind := (attr.map Attr.kind).getD .reg
    let r := match attr with
      | some a => r.createNode node a parent
      | none => if r.live node then r else r.upsertNode node (placeholderAttr kind) parent
    let r := if kind = .dir then r.markDirComplete node else r
    (r.dentrySet parent name node kind, .applied)
  | .createdBatch parent entries =>
    (entries.foldl (fun r e =>
      let r := r.createNode e.node e.attr parent
      let r := if e.attr.kind = .dir then r.markDirComplete e.node else r
      r.dentrySet parent e.name e.node e.attr.kind) r, .applied)
  | .removed parent name => (r.dentryRemove parent name, .applied)
  | .renamed fromParent fromName toParent toName =>
    match r.dentryTake fromParent fromName with
    | some ((node, kind), r) => (r.dentryRelink toParent toName node kind, .applied)
    | none => (r, .applied)
  | .attrChanged node attr =>
    let (r, known) := r.updateAttr node attr
    (if known then r else r.stashPending node (.attr attr), .applied)
  | .content node version size mtime _ =>
    let (r, known) := r.updateContent node version size mtime
    (if known then r else r.stashPending node (.content version size mtime), .applied)
  | .selfRemoved node =>
    (if r.live node ∧ node ≠ r.root then r.forceRemove node else r, .applied)
  | .overflow => (r, .needResync)
  | .echoMarker _ => (r, .applied)

def finishSnapshot (r : ShareReplica) (_done : SnapDone) : ShareReplica × ReplicaStats :=
  let r := { r with
    entries := (r.shards.total fun n => (n.dir.map DirState.liveLen).getD 0).toUInt64
    state := .live }
  (r, r.stats)

end ShareReplica

end Mist
