import Mist.Compact.Table
import Mist.Replica.Feed

/-! The replica over the compact tables, with every call that may not return. -/

namespace Mist.Compact

/-- One tree node, as `Mist.Node` with its entry table in the compact layout. -/
structure Node where
  size : UInt64
  blocks : UInt64
  contentVersion : UInt64
  mtime : Ts
  ctime : Ts
  parent : NodeKey
  nlink : UInt32
  uid : UInt32
  gid : UInt32
  links : Nat
  mode : UInt16
  kind : Kind
  hasSide : Bool
  dir : Option DirState

namespace Node

def setAttr (n : Node) (a : Attr) : Node :=
  { n with
    size := a.size, blocks := a.blocks, mtime := a.mtime, ctime := a.ctime, nlink := a.nlink,
    uid := a.uid, gid := a.gid, mode := a.mode, kind := a.kind }

def attr (n : Node) : Attr where
  kind := n.kind
  mode := n.mode
  nlink := n.nlink
  uid := n.uid
  gid := n.gid
  size := n.size
  blocks := n.blocks
  mtime := n.mtime
  ctime := n.ctime
  rdev := 0
  contentVersion := n.contentVersion
  symlinkTarget := none

def create (a : Attr) (parent : NodeKey) (hasSide : Bool) : Node :=
  setAttr
    { size := 0, blocks := 0, contentVersion := a.contentVersion, mtime := ⟨0, 0⟩, ctime := ⟨0, 0⟩,
      parent, nlink := 0, uid := 0, gid := 0, links := 0, mode := 0, kind := a.kind, hasSide,
      dir := if a.kind = .dir then some .new else none } a

def refresh (n : Node) (a : Attr) (parent : NodeKey) (hasSide : Bool) : Node :=
  { n.setAttr a with
    parent, hasSide := n.hasSide || hasSide,
    dir := if a.kind = .dir ∧ n.dir = none then some .new else n.dir }

def live (n : Node) : List CEnt := (n.dir.map DirState.live).getD []

def tables (n : Node) : Nat := if n.dir.isSome then 1 else 0

end Node

structure ShareReplica where
  info : ShareInfo
  state : ShareState
  shards : KeyMap NodeKey Node
  pending : KeyMap NodeKey (List Pending)
  symlinks : KeyMap NodeKey (List UInt8)
  rdevs : KeyMap NodeKey UInt64
  nodes : Nat
  dirs : Nat
  entries : Nat

def sub (a b : Nat) : Except Stop Nat := if b ≤ a then .ok (a - b) else .error .underflow

namespace ShareReplica

def new (info : ShareInfo) : ShareReplica where
  info := info
  state := .seeding
  shards := ∅
  pending := ∅
  symlinks := ∅
  rdevs := ∅
  nodes := 0
  dirs := 0
  entries := 0

def live (c : ShareReplica) (key : NodeKey) : Bool := (c.shards.lookup key).isSome

def noteSide (c : ShareReplica) (key : NodeKey) (a : Attr) : ShareReplica × Bool :=
  ({ c with
      symlinks := match a.symlinkTarget with
        | some t => c.symlinks.insert key t
        | none => c.symlinks
      rdevs := if a.rdev ≠ 0 then c.rdevs.insert key a.rdev else c.rdevs },
    a.symlinkTarget.isSome || a.rdev ≠ 0)

def graftSide (c : ShareReplica) (key : NodeKey) (hasSide : Bool) (a : Attr) : Attr :=
  if hasSide then
    { a with
      symlinkTarget := if a.kind = .symlink then c.symlinks.lookup key else a.symlinkTarget
      rdev := if a.kind = .chr ∨ a.kind = .blk then (c.rdevs.lookup key).getD 0 else a.rdev }
  else a

def dropSide (c : ShareReplica) (key : NodeKey) : ShareReplica :=
  { c with symlinks := c.symlinks.erase key, rdevs := c.rdevs.erase key }

def upsertNode (c : ShareReplica) (key : NodeKey) (a : Attr) (parent : NodeKey) : ShareReplica :=
  let hasSide := (c.noteSide key a).2
  let c := (c.noteSide key a).1
  match c.shards.lookup key with
  | some n =>
    { c with
      shards := c.shards.insert key (n.refresh a parent hasSide)
      dirs := if a.kind = .dir ∧ n.dir = none then c.dirs + 1 else c.dirs }
  | none =>
    { c with
      shards := c.shards.insert key (Node.create a parent hasSide)
      dirs := if a.kind = .dir then c.dirs + 1 else c.dirs
      nodes := c.nodes + 1 }

def entriesAdd (c : ShareReplica) (delta : Int) : Except Stop ShareReplica :=
  if 0 ≤ delta then .ok { c with entries := c.entries + delta.toNat }
  else do
    let entries ← sub c.entries (-delta).toNat
    return { c with entries }

def modifyNode (c : ShareReplica) (key : NodeKey) (f : Node → Node) : ShareReplica :=
  match c.shards.lookup key with
  | some n => { c with shards := c.shards.insert key (f n) }
  | none => c

def linkInc (c : ShareReplica) (key : NodeKey) : Except Stop ShareReplica :=
  match c.shards.lookup key with
  | some n =>
    if u32Size ≤ n.links + 1 then .error .limit
    else .ok { c with shards := c.shards.insert key { n with links := n.links + 1 } }
  | none => .ok c

/-- Remove a node entirely; `dec` drops the link of each child. -/
def removeNode (dec : ShareReplica → NodeKey → Except Stop ShareReplica) (c : ShareReplica)
    (key : NodeKey) : Except Stop ShareReplica :=
  match c.shards.lookup key with
  | none => .ok c
  | some n => do
    let nodes ← sub c.nodes 1
    let c := { c with shards := c.shards.erase key, nodes }
    let c := if n.hasSide then c.dropSide key else c
    match n.dir with
    | none => return c
    | some d => do
      let dirs ← sub c.dirs 1
      d.live.foldlM (fun c e => do
        let c ← c.entriesAdd (-1)
        dec c e.node) { c with dirs }

/-- Drop an incoming dentry; a node without a link goes, in a recursion of at most `depth`. -/
def linkDecWithin (depth : Nat) (c : ShareReplica) (key : NodeKey) : Except Stop ShareReplica :=
  match depth with
  | 0 => .error .depth
  | depth + 1 =>
    match c.shards.lookup key with
    | none => .ok c
    | some n =>
      let c := { c with shards := c.shards.insert key { n with links := n.links - 1 } }
      if n.links - 1 = 0 ∧ key ≠ c.info.root then c.removeNode (linkDecWithin depth) key
      else .ok c

def size (c : ShareReplica) : Nat := c.shards.total fun _ => 1

def linkDec (c : ShareReplica) (key : NodeKey) : Except Stop ShareReplica :=
  c.linkDecWithin (c.size + 1) key

def forceRemove (c : ShareReplica) (key : NodeKey) : Except Stop ShareReplica :=
  (c.modifyNode key fun n => { n with links := 0 }).removeNode linkDec key

def getattr (c : ShareReplica) (key : NodeKey) : Except ReplicaError Attr :=
  match c.shards.lookup key with
  | none => .error .noEnt
  | some n => .ok (c.graftSide key n.hasSide n.attr)

def dirOf (c : ShareReplica) (dir : NodeKey) : Option DirState := (c.shards.lookup dir).bind Node.dir

def setDir (c : ShareReplica) (key : NodeKey) (t : DirState) : ShareReplica :=
  c.modifyNode key fun n => { n with dir := some t }

def markDirComplete (c : ShareReplica) (key : NodeKey) : ShareReplica :=
  c.modifyNode key fun n => { n with dir := n.dir.map fun t => { t with complete := true } }

def setParent (c : ShareReplica) (key parent : NodeKey) : ShareReplica :=
  c.modifyNode key fun n => { n with parent }

def updateAttr (c : ShareReplica) (key : NodeKey) (a : Attr) : ShareReplica × Bool :=
  let hasSide := (c.noteSide key a).2
  let c := (c.noteSide key a).1
  (c.modifyNode key fun n => { n.setAttr a with hasSide := n.hasSide || hasSide }, c.live key)

def updateContent (c : ShareReplica) (key : NodeKey) (version size : UInt64) (mtime : Ts) :
    ShareReplica × Bool :=
  (c.modifyNode key fun n => { n with size, mtime, contentVersion := version }, c.live key)

def stashPending (c : ShareReplica) (key : NodeKey) (p : Pending) : ShareReplica :=
  let pend := if c.pending.keys.card ≥ maxPending then ∅ else c.pending
  { c with pending := pend.insert key ((pend.lookup key).getD [] ++ [p]) }

def applyPending (c : ShareReplica) (key : NodeKey) : Pending → ShareReplica
  | .attr a => (c.updateAttr key a).1
  | .content version size mtime => (c.updateContent key version size mtime).1

def drainPending (c : ShareReplica) (key : NodeKey) : ShareReplica :=
  match c.pending.lookup key with
  | none => c
  | some items =>
    items.foldl (fun c p => c.applyPending key p) { c with pending := c.pending.erase key }

-- the process-wide hash of names
variable (hash : List UInt8 → UInt64)

structure Filling where
  replica : ShareReplica
  table : DirState
  toLink : List NodeKey
  toUnlink : List NodeKey

/-- One entry of a snapshot record, under the lock of the directory. -/
def Filling.add (f : Filling) (e : SnapEntry) : Except Stop Filling := do
  let u ← f.table.upsert hash e.name e.node e.attr.kind
  let c ← f.replica.entriesAdd u.2.dentryDelta
  return {
    replica := c, table := u.1
    toLink := f.toLink ++ if u.2.gainedLink then [e.node] else []
    toUnlink := f.toUnlink ++ u.2.displaced.toList }

def applySnapDir (c : ShareReplica) (d : SnapDir) : Except Stop ShareReplica :=
  let c := c.upsertNode d.dir d.dirAttr d.parent
  let c := d.entries.foldl (fun c e => c.upsertNode e.node e.attr d.dir) c
  match c.shards.lookup d.dir with
  | none => .error (.expect "just upserted")
  | some n =>
    match n.dir with
    | none => .error (.expect "dir attr implies DirState")
    | some t => do
      let f ← d.entries.foldlM (Filling.add hash) ⟨c, t, [], []⟩
      let t := if d.last then { f.table with complete := true } else f.table
      let c ← f.toLink.foldlM linkInc (f.replica.setDir d.dir t)
      f.toUnlink.foldlM linkDec c

def dentrySet (c : ShareReplica) (parent : NodeKey) (name : Name) (node : NodeKey) (kind : Kind) :
    Except Stop ShareReplica :=
  match c.dirOf parent with
  | none => .ok c
  | some t => do
    let u ← t.upsert hash name node kind
    let c ← (c.setDir parent u.1).entriesAdd u.2.dentryDelta
    let c ← if u.2.gainedLink then c.linkInc node else .ok c
    u.2.displaced.toList.foldlM linkDec c

def dentryRelink (c : ShareReplica) (parent : NodeKey) (name : Name) (node : NodeKey) (kind : Kind) :
    Except Stop ShareReplica :=
  match c.dirOf parent with
  | none => .ok c
  | some t => do
    let u ← t.upsert hash name node kind
    let c ← (c.setDir parent u.1).entriesAdd u.2.dentryDelta
    let c ← u.2.displaced.toList.foldlM linkDec c
    return c.setParent node parent

def dentryRemove (c : ShareReplica) (parent : NodeKey) (name : Name) : Except Stop ShareReplica :=
  match c.dirOf parent with
  | none => .ok c
  | some t => do
    match ← t.remove hash name.bytes with
    | none => return c
    | some (node, t) =>
      let c ← (c.setDir parent t).entriesAdd (-1)
      c.linkDec node

def dentryTake (c : ShareReplica) (parent : NodeKey) (name : Name) :
    Except Stop (Option ((NodeKey × Kind) × ShareReplica)) :=
  match c.dirOf parent with
  | none => .ok none
  | some t => do
    match ← t.find hash name.bytes with
    | none => return none
    | some (_, kind) =>
      match ← t.remove hash name.bytes with
      | none => return none
      | some (node, t) =>
        let c ← (c.setDir parent t).entriesAdd (-1)
        return some ((node, kind), c)

def created (c : ShareReplica) (parent : NodeKey) (name : Name) (node : NodeKey)
    (attr : Option Attr) : Except Stop ShareReplica :=
  let kind := (attr.map Attr.kind).getD .reg
  let c := match attr with
    | some a => (c.upsertNode node a parent).drainPending node
    | none => if c.live node then c else c.upsertNode node (placeholderAttr kind) parent
  let c := if kind = .dir then c.markDirComplete node else c
  c.dentrySet hash parent name node kind

def applyRec (c : ShareReplica) : Rec → Except Stop (ShareReplica × ApplyOutcome)
  | .created parent name node attr => do
    return (← c.created hash parent name node attr, .applied)
  | .createdBatch parent entries => do
    let c ← entries.foldlM (fun c e => c.created hash parent e.name e.node (some e.attr)) c
    return (c, .applied)
  | .removed parent name => do return (← c.dentryRemove hash parent name, .applied)
  | .renamed fromParent fromName toParent toName => do
    match ← c.dentryTake hash fromParent fromName with
    | some ((node, kind), c) => return (← c.dentryRelink hash toParent toName node kind, .applied)
    | none => return (c, .applied)
  | .attrChanged node attr =>
    let u := c.updateAttr node attr
    .ok (if u.2 then u.1 else u.1.stashPending node (.attr attr), .applied)
  | .content node version size mtime _ =>
    let u := c.updateContent node version size mtime
    .ok (if u.2 then u.1 else u.1.stashPending node (.content version size mtime), .applied)
  | .selfRemoved node => do
    if c.live node ∧ node ≠ c.info.root then return (← c.forceRemove node, .applied)
    else return (c, .applied)
  | .overflow => .ok (c, .needResync)
  | .echoMarker _ => .ok (c, .applied)

def lookup (c : ShareReplica) (dir : NodeKey) (name : List UInt8) :
    Except Stop (Except ReplicaError (NodeKey × Attr)) :=
  match c.shards.lookup dir with
  | none => .ok (.error .noEnt)
  | some n =>
    match n.dir with
    | none => .ok (.error .notDir)
    | some d => do
      match ← d.find hash name with
      | none => return .error .noEnt
      | some (child, _) => return (c.getattr child).map fun a => (child, a)

def pageEntry (d : DirState) (e : CEnt) : Except Stop Mist.CEnt := do
  let name ← d.nameOf e
  match Name.new name with
  | .ok name => return ⟨e.cookie, name, e.node, e.kind⟩
  | .error _ => .error (.expect "names validated on insert")

def readdir (c : ShareReplica) (dir : NodeKey) (cookie max : Nat) :
    Except Stop (Except ReplicaError ReadDirPage) :=
  match c.shards.lookup dir with
  | none => .ok (.error .noEnt)
  | some n =>
    match n.dir with
    | none => .ok (.error .notDir)
    | some d =>
      if d.complete then do
        let _capacity ← d.liveLen
        let range ← d.rangeAfter cookie
        let entries ← (range.take max).mapM (pageEntry d)
        return .ok ⟨entries, range.length ≤ max, d.dirgen⟩
      else .ok (.error .incomplete)

inductive Call where
  | feed (f : Feed)
  | lookup (dir : NodeKey) (name : List UInt8)
  | readdir (dir : NodeKey) (cookie max : Nat)

/-- A record that passed validation, for the share. -/
def Call.valid (share : ShareId) : Call → Bool
  | .feed f => f.valid share
  | .lookup .. => true
  | .readdir .. => true

def call (c : ShareReplica) : Call → Except Stop ShareReplica
  | .feed (.snap d) => c.applySnapDir hash d
  | .feed (.record rec) => do return (← c.applyRec hash rec).1
  | .lookup dir name => do
    let _answer ← c.lookup hash dir name
    return c
  | .readdir dir cookie max => do
    let _answer ← c.readdir dir cookie max
    return c

def run (c : ShareReplica) (calls : List Call) : Except Stop ShareReplica := calls.foldlM (call hash) c

end ShareReplica

end Mist.Compact
