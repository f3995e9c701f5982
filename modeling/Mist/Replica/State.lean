import Mist.RefCount
import Mist.Runs
import Mist.Replica.Dir

/-! The replica of one share: its nodes, the side tables, the stash of records about unknown nodes.
-/

namespace Mist

def maxPending : Nat := 65536

inductive ApplyOutcome where
  | applied | needResync
  deriving DecidableEq

/-- A journal record stashed because its node was unknown. -/
inductive Pending where
  | attr (a : Attr)
  | content (version size : UInt64) (mtime : Ts)
  deriving DecidableEq

def placeholderAttr (kind : Kind) : Attr where
  kind := kind
  mode := if kind = .dir then 0o755 else 0o644
  nlink := 1
  uid := 0
  gid := 0
  size := 0
  blocks := 0
  mtime := ⟨0, 0⟩
  ctime := ⟨0, 0⟩
  rdev := 0
  contentVersion := 0
  symlinkTarget := none

inductive ShareState where
  | seeding | live | degraded | offline
  deriving DecidableEq

/-- One tree node.  `links` counts the dentries that point at it. -/
structure Node where
  size : UInt64
  blocks : UInt64
  contentVersion : UInt64
  mtime : Ts
  ctime : Ts
  parent : NodeKey
  nlink : UInt32
  uid : UInt32
  gid : UInt32
  links : Nat
  mode : UInt16
  kind : Kind
  hasSide : Bool
  dir : Option DirState
  deriving DecidableEq

namespace Node

/-- Overwrite the attributes; the content version stays, it belongs to `Content` records. -/
def setAttr (n : Node) (a : Attr) : Node :=
  { n with
    size := a.size, blocks := a.blocks, mtime := a.mtime, ctime := a.ctime, nlink := a.nlink,
    uid := a.uid, gid := a.gid, mode := a.mode, kind := a.kind }

def attr (n : Node) : Attr where
  kind := n.kind
  mode := n.mode
  nlink := n.nlink
  uid := n.uid
  gid := n.gid
  size := n.size
  blocks := n.blocks
  mtime := n.mtime
  ctime := n.ctime
  rdev := 0
  contentVersion := n.contentVersion
  symlinkTarget := none

def create (a : Attr) (parent : NodeKey) (hasSide : Bool) : Node :=
  setAttr
    { size := 0, blocks := 0, contentVersion := a.contentVersion, mtime := ⟨0, 0⟩, ctime := ⟨0, 0⟩,
      parent, nlink := 0, uid := 0, gid := 0, links := 0, mode := 0, kind := a.kind, hasSide,
      dir := if a.kind = .dir then some .new else none } a

/-- What a later upsert makes of a node; a node that turns out to be a directory gets a table. -/
def refresh (n : Node) (a : Attr) (parent : NodeKey) (hasSide : Bool) : Node :=
  { n.setAttr a with
    parent, hasSide := n.hasSide || hasSide,
    dir := if a.kind = .dir ∧ n.dir = none then some .new else n.dir }

def targets (n : Node) : List NodeKey := (n.dir.map DirState.children).getD []

def counting : Counting NodeKey Node where
  refs := targets
  count := links
  setCount c n := { n with links := c }
  refs_setCount _ _ := rfl
  count_setCount _ _ := rfl
  setCount_setCount _ _ _ := rfl
  setCount_count _ := rfl

@[simp] theorem counting_refs (n : Node) : counting.refs n = n.targets := rfl

@[simp] theorem counting_count (n : Node) : counting.count n = n.links := rfl

end Node

structure ShareReplica where
  info : ShareInfo
  state : ShareState
  shards : KeyMap NodeKey Node
  pending : KeyMap NodeKey (List Pending)
  symlinks : KeyMap NodeKey (List UInt8)
  rdevs : KeyMap NodeKey UInt64
  nodes : UInt64
  dirs : UInt64
  entries : UInt64

structure ReplicaStats where
  nodes : UInt64
  dirs : UInt64
  entries : UInt64

structure ReadDirPage where
  entries : List CEnt
  eof : Bool
  dirgen : Nat
  deriving DecidableEq

inductive ReplicaError where
  | noEnt | notDir | notSymlink | incomplete | badPath
  deriving DecidableEq

namespace ShareReplica

def new (info : ShareInfo) : ShareReplica where
  info := info
  state := .seeding
  shards := ∅
  pending := ∅
  symlinks := ∅
  rdevs := ∅
  nodes := 0
  dirs := 0
  entries := 0

def root (r : ShareReplica) : NodeKey := r.info.root

def stats (r : ShareReplica) : ReplicaStats := ⟨r.nodes, r.dirs, r.entries⟩

/-- Whether the replica has the node: the program's `exists`. -/
def live (r : ShareReplica) (key : NodeKey) : Bool := (r.shards.lookup key).isSome

def noteSide (r : ShareReplica) (key : NodeKey) (a : Attr) : ShareReplica × Bool :=
  ({ r with
      symlinks := match a.symlinkTarget with
        | some t => r.symlinks.insert key t
        | none => r.symlinks
      rdevs := if a.rdev ≠ 0 then r.rdevs.insert key a.rdev else r.rdevs },
    a.symlinkTarget.isSome || a.rdev ≠ 0)

def graftSide (r : ShareReplica) (key : NodeKey) (hasSide : Bool) (a : Attr) : Attr :=
  if hasSide then
    { a with
      symlinkTarget := if a.kind = .symlink then r.symlinks.lookup key else a.symlinkTarget
      rdev := if a.kind = .chr ∨ a.kind = .blk then (r.rdevs.lookup key).getD 0 else a.rdev }
  else a

def upsertNode (r : ShareReplica) (key : NodeKey) (a : Attr) (parent : NodeKey) : ShareReplica :=
  let hasSide := (r.noteSide key a).2
  let r := (r.noteSide key a).1
  match r.shards.lookup key with
  | some n =>
    { r with
      shards := r.shards.insert key (n.refresh a parent hasSide)
      dirs := if a.kind = .dir ∧ n.dir = none then r.dirs + 1 else r.dirs }
  | none =>
    { r with
      shards := r.shards.insert key (Node.create a parent hasSide)
      dirs := if a.kind = .dir then r.dirs + 1 else r.dirs
      nodes := r.nodes + 1 }

def entriesAdd (r : ShareReplica) (delta : Int) : ShareReplica :=
  if 0 ≤ delta then { r with entries := r.entries + delta.toNat.toUInt64 }
  else { r with entries := r.entries - (-delta).toNat.toUInt64 }

def modifyNode (r : ShareReplica) (key : NodeKey) (f : Node → Node) : ShareReplica :=
  match r.shards.lookup key with
  | some n => { r with shards := r.shards.insert key (f n) }
  | none => r

def linkInc (r : ShareReplica) (key : NodeKey) : ShareReplica :=
  r.modifyNode key fun n => { n with links := n.links + 1 }

/-- The bookkeeping for a node that went: the counters and the side tables. -/
def forget (r : ShareReplica) (gone : NodeKey × Node) : ShareReplica :=
  let r := { r with nodes := r.nodes - 1 }
  let r := if gone.2.hasSide then
      { r with symlinks := r.symlinks.erase gone.1, rdevs := r.rdevs.erase gone.1 }
    else r
  match gone.2.dir with
  | some t => { r with dirs := r.dirs - 1, entries := r.entries - t.liveLen.toUInt64 }
  | none => r

/-- Install what a collection left, and account for what went. -/
def settle (r : ShareReplica) (c : KeyMap NodeKey Node × List (NodeKey × Node)) : ShareReplica :=
  c.2.foldl forget { r with shards := c.1 }

/-- Drop an incoming dentry; the node goes at zero, and with a directory the links of its children.
The recursion of `link_dec` and `remove_node` is the worklist of the collection, in the same order:
the children of a removed node come before what is still to do. -/
def linkDec (r : ShareReplica) (key : NodeKey) : ShareReplica :=
  r.settle (Node.counting.collect r.root r.shards [key])

/-- Remove a node whatever its count, then drop the links of its children. -/
def removeNode (r : ShareReplica) (key : NodeKey) : ShareReplica :=
  match r.shards.lookup key with
  | none => r
  | some n =>
    (r.forget (key, n)).settle (Node.counting.collect r.root (r.shards.erase key) n.targets)

def forceRemove (r : ShareReplica) (key : NodeKey) : ShareReplica :=
  (r.modifyNode key fun n => { n with links := 0 }).removeNode key

def getattr (r : ShareReplica) (key : NodeKey) : Except ReplicaError Attr :=
  match r.shards.lookup key with
  | none => .error .noEnt
  | some n => .ok (r.graftSide key n.hasSide n.attr)

def dirOf (r : ShareReplica) (dir : NodeKey) : Option DirState :=
  (r.shards.lookup dir).bind Node.dir

def lookup (r : ShareReplica) (dir : NodeKey) (name : Name) :
    Except ReplicaError (NodeKey × Attr) := do
  match r.shards.lookup dir with
  | none => .error .noEnt
  | some n =>
    match n.dir with
    | none => .error .notDir
    | some d =>
      match d.find name with
      | none => .error .noEnt
      | some (child, _) => return (child, ← r.getattr child)

/-- Page a directory starting after `cookie`, zero for the beginning. -/
def readdir (r : ShareReplica) (dir : NodeKey) (cookie max : Nat) : Except ReplicaError ReadDirPage :=
  match r.shards.lookup dir with
  | none => .error .noEnt
  | some n =>
    match n.dir with
    | none => .error .notDir
    | some d =>
      if d.complete then
        .ok ⟨(d.rangeAfter cookie).take max, (d.rangeAfter cookie).length ≤ max, d.dirgen⟩
      else .error .incomplete

def linkCount (r : ShareReplica) (key : NodeKey) : Nat :=
  ((r.shards.lookup key).map Node.links).getD 0

def parentOf (r : ShareReplica) (key : NodeKey) : Option NodeKey :=
  (r.shards.lookup key).map Node.parent

/-- Nudge a directory's mtime and ctime forward by a nanosecond. -/
def bumpDirAttr (r : ShareReplica) (dir : NodeKey) : ShareReplica :=
  r.modifyNode dir fun n =>
    if n.kind = .dir then
      let t : Ts := if n.mtime.nsec ≥ 999999999 then ⟨n.mtime.sec + 1, 0⟩
        else ⟨n.mtime.sec, n.mtime.nsec + 1⟩
      { n with mtime := t, ctime := t }
    else n

end ShareReplica

end Mist
