import Mist.KeyMap
import Mist.Proto

/-! The guest daemon's event engine: what one parsed fanotify event becomes in the journal. -/

namespace Mist

def FAN_MODIFY : UInt64 := 0x2
def FAN_ATTRIB : UInt64 := 0x4
def FAN_CLOSE_WRITE : UInt64 := 0x8
def FAN_MOVED_FROM : UInt64 := 0x40
def FAN_MOVED_TO : UInt64 := 0x80
def FAN_CREATE : UInt64 := 0x100
def FAN_DELETE : UInt64 := 0x200
def FAN_DELETE_SELF : UInt64 := 0x400
def FAN_Q_OVERFLOW : UInt64 := 0x4000
def FAN_RENAME : UInt64 := 0x10000000
def FAN_ONDIR : UInt64 := 0x40000000

/-- One info record: the node of its handle, if the handle is of the known kind, and a name. -/
structure FidName where
  node : Option NodeKey
  name : Option (List UInt8)

/-- One event: its mask, the process that caused it, and its info records. -/
structure ParsedEvent where
  mask : UInt64
  pid : Int32
  fid : Option FidName := none
  dfidName : Option FidName := none
  old : Option FidName := none
  new : Option FidName := none

namespace ParsedEvent

def has (ev : ParsedEvent) (bits : UInt64) : Bool := ev.mask &&& bits ≠ 0

end ParsedEvent

/-- What the filesystem of a share answers at one moment: `stat_entry`, `stat_node`, and whether a
node's path is at or below the share's mount path. -/
structure ShareNow where
  subtree : Bool
  statEntry : NodeKey → Name → Option (NodeKey × Attr)
  statNode : NodeKey → Option Attr
  belowMount : NodeKey → Bool

/-- Content version counters, the nodes already reported as being written in this drain, and the
cache of the subtree test. -/
structure VersionState where
  versions : KeyMap NodeKey UInt64
  modifySeen : KeyMap NodeKey Unit
  contain : KeyMap NodeKey Bool

namespace VersionState

def new : VersionState := ⟨∅, ∅, ∅⟩

def bump (vs : VersionState) (node : NodeKey) : UInt64 × VersionState :=
  let versions := if vs.versions.keys.card > 1000000 then ∅ else vs.versions
  let v := (versions.lookup node).getD 0 + 1
  (v, { vs with versions := versions.insert node v })

def contains (vs : VersionState) (share : ShareNow) (dir : NodeKey) : Bool × VersionState :=
  if share.subtree then
    match vs.contain.lookup dir with
    | some v => (v, vs)
    | none =>
      let contain := if vs.contain.keys.card > 65536 then ∅ else vs.contain
      let v := share.belowMount dir
      (v, { vs with contain := contain.insert dir v })
  else (true, vs)

end VersionState

def nameOf (fid : FidName) : Option Name := fid.name.bind fun n => (Name.new n).toOption

/-- The record of a new entry, by statting it under its parent; an entry that is not there any more
gives none. -/
def createdRec (share : ShareNow) (parent : NodeKey) (nm : Name) : List Rec :=
  match share.statEntry parent nm with
  | some (node, attr) => [.created parent nm node (some attr)]
  | none => []

def contentRec (share : ShareNow) (node : NodeKey) (vs : VersionState) (inProgress : Bool) :
    List Rec × VersionState :=
  let (version, vs) := vs.bump node
  match share.statNode node with
  | some attr => ([.content node version attr.size attr.mtime inProgress], vs)
  | none => ([.content node version 0 ⟨0, 0⟩ inProgress], vs)

def attrRec (share : ShareNow) (node : NodeKey) : List Rec :=
  match share.statNode node with
  | some attr => [.attrChanged node attr]
  | none => []

/-- A rename, by whether its two directories are inside the share. -/
def synthesizeRename (ev : ParsedEvent) (share : ShareNow) (vs : VersionState) :
    List Rec × VersionState :=
  match ev.old.bind FidName.node, ev.old.bind nameOf, ev.new.bind FidName.node,
      ev.new.bind nameOf with
  | some fp, some fn, some tp, some tn =>
    let (fromIn, vs) := vs.contains share fp
    let (toIn, vs) := vs.contains share tp
    match fromIn, toIn with
    | true, true => ([.renamed fp fn tp tn], vs)
    | true, false => ([.removed fp fn], vs)
    | false, true => (createdRec share tp tn, vs)
    | false, false => ([], vs)
  | _, _, _, _ => ([], vs)

def synthesizeObject (ev : ParsedEvent) (share : ShareNow) (vs : VersionState) :
    List Rec × VersionState :=
  match ev.fid.bind FidName.node with
  | none => ([], vs)
  | some node =>
    let (inside, vs) := vs.contains share node
    if !inside then ([], vs)
    else if ev.has FAN_DELETE_SELF then ([.selfRemoved node], vs)
    else if ev.has FAN_CLOSE_WRITE then contentRec share node vs false
    else if ev.has FAN_ATTRIB then (attrRec share node, vs)
    else if ev.has FAN_MODIFY then
      if (vs.modifySeen.lookup node).isNone then
        contentRec share node { vs with modifySeen := vs.modifySeen.insert node () } true
      else ([], vs)
    else ([], vs)

def synthesize (ev : ParsedEvent) (share : ShareNow) (vs : VersionState) : List Rec × VersionState :=
  if ev.has FAN_RENAME then synthesizeRename ev share vs
  else
    match ev.dfidName.bind FidName.node, ev.dfidName.bind nameOf with
    | some parent, some nm =>
      let (inside, vs) := vs.contains share parent
      if !inside then ([], vs)
      else if ev.has FAN_CREATE then (createdRec share parent nm, vs)
      else if ev.has (FAN_DELETE ||| FAN_MOVED_FROM) then ([.removed parent nm], vs)
      else if ev.has FAN_MOVED_TO then (createdRec share parent nm, vs)
      else synthesizeObject ev share vs
    | _, _ => synthesizeObject ev share vs

theorem contains_whole {share : ShareNow} (hwhole : share.subtree = false) (vs : VersionState)
    (dir : NodeKey) : vs.contains share dir = (true, vs) := by
  simp [VersionState.contains, hwhole]

theorem nameOf_name (x : Name) (node : Option NodeKey) : nameOf ⟨node, some x.bytes⟩ = some x := by
  have hnew : Name.new x.bytes = .ok x := by
    unfold Name.new
    split
    · rfl
    · rename_i h
      rw [x.valid] at h
      cases h
  simp [nameOf, hnew, Except.toOption]

end Mist
