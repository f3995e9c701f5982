import Mathlib.Data.List.Perm.Basic
import Mist.Nfs.Surface
import Mist.Nfs.Table

/-! The side-store: Apple metadata kept on the host.  Every other operation goes on to the inner
surface. -/

namespace Mist

open Nfs

/-- A call of any operation of the surface, those included that no server program asks for. -/
inductive SurfaceCall where
  | shareId
  | root
  | writable
  | writesAreStable
  | touchDir (dir : NodeKey)
  | op (call : Nfs.Call)
  deriving DecidableEq

abbrev SurfaceCall.Answer : SurfaceCall → Type
  | shareId => UInt16
  | root => NodeKey
  | writable => Bool
  | writesAreStable => Bool
  | touchDir _ => Unit
  | op call => call.Answer

namespace Sidestore

def SIDE_INO_BIT : UInt64 := 0x8000000000000000

def SIDE_GEN : UInt32 := 0xffffffff

def MAX_ROW : Nat := 1048576

/-- The bytes of all rows above which the oldest rows go. -/
def MAX_TOTAL : Nat := 67108864

/-- How long an AppleDouble row outlives its anchor. -/
def LINGER_SECS : Int64 := 60

/-- `.DS_Store`. -/
def dsStore : List UInt8 := [46, 68, 83, 95, 83, 116, 111, 114, 101]

/-- `._`. -/
def appleDouble : List UInt8 := [46, 95]

/-- `.fseventsd`. -/
def fseventsd : List UInt8 := [46, 102, 115, 101, 118, 101, 110, 116, 115, 100]

/-- `.Spotlight-V100`. -/
def spotlight : List UInt8 := [46, 83, 112, 111, 116, 108, 105, 103, 104, 116, 45, 86, 49, 48, 48]

/-- `.Trashes`. -/
def trashes : List UInt8 := [46, 84, 114, 97, 115, 104, 101, 115]

/-- `.TemporaryItems`. -/
def temporaryItems : List UInt8 :=
  [46, 84, 101, 109, 112, 111, 114, 97, 114, 121, 73, 116, 101, 109, 115]

/-- `.metadata_never_index`. -/
def neverIndex : List UInt8 :=
  [46, 109, 101, 116, 97, 100, 97, 116, 97, 95, 110, 101, 118, 101, 114, 95, 105, 110, 100, 101, 120]

/-- `.hidden`. -/
def hidden : List UInt8 := [46, 104, 105, 100, 100, 101, 110]

def isSideName (name : List UInt8) : Bool :=
  name == dsStore || appleDouble.isPrefixOf name || name == fseventsd || name == spotlight ||
    name == trashes || name == temporaryItems || name == neverIndex || name == hidden

def isSideNode (node : NodeKey) : Bool := node.ino &&& SIDE_INO_BIT != 0

structure Row where
  kind : UInt8
  mode : UInt16
  mtimeSec : Int64
  version : UInt64
  data : List UInt8
  deriving DecidableEq

abbrev RowKey := NodeKey × List UInt8

/-- The rows, the nodes they are found by, and whether the file on disk is behind. -/
structure SideStore where
  rows : Table RowKey Row
  byNode : Table NodeKey RowKey
  dirty : Bool
  deriving DecidableEq

/-- What a decorator is made with.  `digest` is the hash of the parent and the name, cut to eight
bytes, and `order` is the order in which the map of rows is iterated. -/
structure Decorator where
  uid : UInt32
  gid : UInt32
  digest : NodeKey → List UInt8 → UInt64
  order : Table RowKey Row → Table RowKey Row
  order_perm : ∀ rows, (order rows).Perm rows

/-- The one way an operation of the store can fail to answer: a slice whose end is before its
start. -/
inductive Panic where
  | sliceIndex
  deriving DecidableEq

/-- An operation of the decorator: it asks the inner surface and keeps the store. -/
abbrev Decorated (α : Type) := Handler SurfaceCall SurfaceCall.Answer Panic SideStore α

abbrev inner (call : Nfs.Call) : Decorated call.Answer := Handler.query (SurfaceCall.op call)

def Row.isDir (row : Row) : Bool := row.kind == 1

def Row.attr (row : Row) (uid gid : UInt32) : Attr where
  kind := if row.isDir then .dir else .reg
  mode := row.mode
  nlink := 1
  uid := uid
  gid := gid
  size := .ofNat row.data.length
  blocks := .ofNat ((row.data.length + 511) / 512)
  mtime := ⟨row.mtimeSec, 0⟩
  ctime := ⟨row.mtimeSec, 0⟩
  rdev := 0
  contentVersion := row.version
  symlinkTarget := none

def resize (data : List UInt8) (n : Nat) : List UInt8 :=
  data.take n ++ List.replicate (n - data.length) 0

/-- The change of a row by SETATTR.  A size above the cap is refused when the mode is already
set. -/
def Row.setattr (row : Row) (set : NfsSetAttr) (now : Int64) : Except NfsError Unit × Row :=
  let row := { row with mode := set.mode.getD row.mode }
  if set.size.any fun sz => sz.toNat > MAX_ROW then (.error .noSpace, row)
  else
    let data := set.size.elim row.data fun sz => resize row.data sz.toNat
    let mtimeSec := set.mtime.elim (if set.size.isSome then now else row.mtimeSec) Ts.sec
    (.ok (), { row with data := data, mtimeSec := mtimeSec, version := row.version + 1 })

/-- The change of a row by WRITE.  The end of the range wraps; a range that does is refused only
when its end is above the cap. -/
def Row.write (row : Row) (offset : UInt64) (data : List UInt8) (now : Int64) :
    Except Panic (Except NfsError Unit) × Row :=
  let stop := offset + .ofNat data.length
  if stop.toNat > MAX_ROW then (.ok (.error .noSpace), row)
  else
    let old := if row.data.length < stop.toNat then resize row.data stop.toNat else row.data
    if stop < offset then (.error .sliceIndex, { row with data := old })
    else
      (.ok (.ok ()), { row with
        data := old.take offset.toNat ++ data ++ old.drop stop.toNat
        mtimeSec := now
        version := row.version + 1 })

def Row.range (row : Row) (offset : UInt64) (count : UInt32) : ReadResult :=
  let s := min offset.toNat row.data.length
  let e := min row.data.length (s + count.toNat)
  ⟨(row.data.take e).drop s, decide (e ≥ row.data.length)⟩

def oldest : Table RowKey Row → Option (RowKey × Row)
  | [] => none
  | p :: rest =>
    match oldest rest with
    | none => some p
    | some q => if p.2.mtimeSec ≤ q.2.mtimeSec then some p else some q

def totalBytes : Table RowKey Row → Nat
  | [] => 0
  | p :: rest => p.2.data.length + totalBytes rest

namespace Decorator

variable (d : Decorator)

def synthKey (parent : NodeKey) (name : List UInt8) : NodeKey :=
  ⟨SIDE_INO_BIT ||| (d.digest parent name >>> 1), SIDE_GEN⟩

def put (s : SideStore) (key : RowKey) (row : Row) : SideStore :=
  { s with rows := s.rows.insert key row, byNode := s.byNode.insert (d.synthKey key.1 key.2) key }

def drop (s : SideStore) (key : RowKey) : SideStore :=
  { s with rows := s.rows.remove key, byNode := s.byNode.remove (d.synthKey key.1 key.2) }

def ensureRow (s : SideStore) (parent : NodeKey) (name : List UInt8) (kind : UInt8) (mode : UInt16)
    (now : Int64) : SideStore :=
  if (s.rows.get (parent, name)).isSome then s
  else d.put s (parent, name) ⟨kind, mode, now, 1, []⟩

def load (disk : List (RowKey × Row)) : SideStore :=
  disk.foldl (fun s p => d.put s p.1 p.2) ⟨[], [], false⟩

def new (disk : List (RowKey × Row)) (root : NodeKey) (now : Int64) : SideStore :=
  d.ensureRow (d.load disk) root neverIndex 0 0x124 now

def row (s : SideStore) (node : NodeKey) : Except NfsError (RowKey × Row) :=
  match s.byNode.get node with
  | none => .error .stale
  | some key =>
    match s.rows.get key with
    | none => .error .stale
    | some row => .ok (key, row)

def rowAttr (s : SideStore) (node : NodeKey) : Except NfsError Attr :=
  (row s node).map fun found => found.2.attr d.uid d.gid

/-- Does the side-store own the name: the directory is synthesized, or the name is Apple's and no
real entry has it. -/
def owns (dir : NodeKey) (name : List UInt8) : Decorated Bool :=
  if isSideNode dir then pure true
  else if isSideName name then do
    let real ← inner (.lookup dir name)
    return real.toOption.isNone
  else pure false

/-- Is the row an orphan: its directory is gone, or it is an AppleDouble row whose anchor is gone
for longer than the linger window. -/
def orphan (now : Int64) (s : SideStore) (key : RowKey) (row : Row) : Decorated Bool :=
  if isSideNode key.1 then pure (s.byNode.get key.1).isNone
  else do
    let parent ← inner (.getattr key.1)
    if parent = .error .noEnt ∨ parent = .error .stale then return true
    else if appleDouble.isPrefixOf key.2 ∧ key.2.length > 2 then do
      let anchor ← inner (.lookup key.1 (key.2.drop 2))
      return decide (anchor = .error .noEnt ∧ now - row.mtimeSec > LINGER_SECS)
    else return false

def orphans (now : Int64) (s : SideStore) : Table RowKey Row → Decorated (List RowKey)
  | [] => pure []
  | (key, row) :: rest => do
    let gone ← orphan now s key row
    let more ← orphans now s rest
    return if gone then key :: more else more

def gcSweep (now : Int64) : Decorated Unit := do
  let s ← Handler.get
  let doomed ← orphans now s (d.order s.rows)
  if doomed.isEmpty then return ()
  else Handler.modify fun s => { doomed.foldl d.drop s with dirty := true }

/-- Take the oldest row until the rows fit; `n` bounds the number of rows. -/
def evictLoop : Nat → Nat → SideStore → SideStore
  | 0, _, s => s
  | n + 1, total, s =>
    if total > MAX_TOTAL then
      match oldest (d.order s.rows) with
      | none => s
      | some (key, row) => evictLoop n (total - row.data.length) (d.drop s key)
    else s

def evictLocked (s : SideStore) : SideStore := d.evictLoop s.rows.length (totalBytes s.rows) s

def getattr (node : NodeKey) : Decorated (Except NfsError Attr) :=
  if isSideNode node then do return d.rowAttr (← Handler.get) node
  else inner (.getattr node)

def lookupRow (dir : NodeKey) (name : List UInt8) :
    Decorated (Except NfsError (NodeKey × Attr)) := do
  match (← Handler.get).rows.get (dir, name) with
  | none => return .error .noEnt
  | some row => return .ok (d.synthKey dir name, row.attr d.uid d.gid)

/-- The rest of a lookup once no real entry has answered. -/
def lookupOwned (dir : NodeKey) (name : List UInt8) :
    Decorated (Except NfsError (NodeKey × Attr)) := do
  if ← owns dir name then d.lookupRow dir name
  else inner (.lookup dir name)

def lookup (dir : NodeKey) (name : List UInt8) : Decorated (Except NfsError (NodeKey × Attr)) :=
  if !isSideNode dir && isSideName name then do
    match ← inner (.lookup dir name) with
    | .ok real => return .ok real
    | .error _ => d.lookupOwned dir name
  else d.lookupOwned dir name

/-- A page of a synthesized directory from its rows in name order, of which `i` are behind. -/
def pageOf (cookie : UInt64) (maxEntries : Nat) (wantAttrs : Bool) :
    Nat → List DirEntry → List (RowKey × Row) → DirPage
  | _, entries, [] => ⟨entries, true, 1⟩
  | i, entries, (key, row) :: rest =>
    let c : UInt64 := .ofNat i + 3
    if c ≤ cookie then pageOf cookie maxEntries wantAttrs (i + 1) entries rest
    else if entries.length ≥ maxEntries then ⟨entries, false, 1⟩
    else
      let attr := if wantAttrs then some (row.attr d.uid d.gid) else none
      pageOf cookie maxEntries wantAttrs (i + 1)
        (entries ++ [⟨key.2, d.synthKey key.1 key.2, c, attr⟩]) rest

def readdir (dir : NodeKey) (cookie : UInt64) (maxEntries : Nat) (wantAttrs : Bool) :
    Decorated (Except NfsError DirPage) :=
  if isSideNode dir then do
    let rows := (d.order (← Handler.get).rows).filter fun p => p.1.1 = dir
    return .ok (d.pageOf cookie maxEntries wantAttrs 0 []
      (rows.mergeSort fun a b => decide (a.1.2 ≤ b.1.2)))
  else inner (.readdir dir cookie maxEntries wantAttrs)

def readlink (node : NodeKey) : Decorated (Except NfsError (List UInt8)) :=
  if isSideNode node then pure (.error .notSymlink) else inner (.readlink node)

def read (node : NodeKey) (offset : UInt64) (count : UInt32) :
    Decorated (Except NfsError ReadResult) :=
  if isSideNode node then do
    return (row (← Handler.get) node).map fun found => found.2.range offset count
  else inner (.read node offset count)

def rowKind : CreateKind → Option UInt8
  | .file _ => some 0
  | .dir => some 1
  | _ => none

def exclusive : CreateKind → Bool
  | .file exclusive => exclusive
  | _ => false

def createRow (s : SideStore) (key : RowKey) (kind : UInt8) (mode : UInt16) (now : Int64) :
    SideStore :=
  let row := (s.rows.get key).getD ⟨kind, mode, now, 0, []⟩
  { d.put s key { row with kind := kind, mtimeSec := now, version := row.version + 1 } with
    dirty := true }

def createOwned (now : Int64) (dir : NodeKey) (name : List UInt8) (kind : CreateKind)
    (mode : UInt16) : Decorated (Except NfsError (NodeKey × Attr)) :=
  match rowKind kind with
  | none => pure (.error .access)
  | some k => do
    if exclusive kind ∧ ((← Handler.get).rows.get (dir, name)).isSome then return .error .exist
    else do
      Handler.modify fun s => d.createRow s (dir, name) k mode now
      d.gcSweep now
      Handler.query (SurfaceCall.touchDir dir)
      return (d.rowAttr (← Handler.get) (d.synthKey dir name)).map fun attr =>
        (d.synthKey dir name, attr)

def create (now : Int64) (dir : NodeKey) (name : List UInt8) (kind : CreateKind) (mode : UInt16) :
    Decorated (Except NfsError (NodeKey × Attr)) := do
  if ← owns dir name then d.createOwned now dir name kind mode
  else inner (.create dir name kind mode)

def refusal (s : SideStore) (dir : NodeKey) (name : List UInt8) (isDir : Bool) : Option NfsError :=
  match s.rows.get (dir, name) with
  | none => some .noEnt
  | some row =>
    if isDir && !row.isDir then some .notDir
    else if isDir && s.rows.any fun p => p.1.1 = d.synthKey dir name then some .notEmpty
    else none

def removeOwned (dir : NodeKey) (name : List UInt8) (isDir : Bool) :
    Decorated (Except NfsError Unit) := do
  match d.refusal (← Handler.get) dir name isDir with
  | some e => return .error e
  | none => do
    Handler.modify fun s => { d.drop s (dir, name) with dirty := true }
    Handler.query (SurfaceCall.touchDir dir)
    return .ok ()

/-- Drop the AppleDouble companion of a real file the Mac removed. -/
def dropCompanion (s : SideStore) (dir : NodeKey) (name : List UInt8) : SideStore :=
  if (s.rows.get (dir, appleDouble ++ name)).isSome then
    { d.drop s (dir, appleDouble ++ name) with dirty := true }
  else s

def removeReal (dir : NodeKey) (name : List UInt8) (isDir : Bool) :
    Decorated (Except NfsError Unit) := do
  match ← inner (.remove dir name isDir) with
  | .error e => return .error e
  | .ok () => do
    Handler.modify fun s => if isSideName name then s else d.dropCompanion s dir name
    return .ok ()

def remove (dir : NodeKey) (name : List UInt8) (isDir : Bool) :
    Decorated (Except NfsError Unit) := do
  if ← owns dir name then d.removeOwned dir name isDir
  else d.removeReal dir name isDir

def renameRow (fromKey toKey : RowKey) : Decorated (Except NfsError Unit) := do
  match (← Handler.get).rows.get fromKey with
  | none => return .error .noEnt
  | some row => do
    Handler.modify fun s => { d.put (d.drop s fromKey) toKey row with dirty := true }
    return .ok ()

def rename (fromDir : NodeKey) (fromName : List UInt8) (toDir : NodeKey) (toName : List UInt8) :
    Decorated (Except NfsError Unit) := do
  let fromSide ← owns fromDir fromName
  let toOwned ← owns toDir toName
  let toSide := toOwned || isSideName toName
  if !fromSide && !toSide then inner (.rename fromDir fromName toDir toName)
  else if fromSide != toSide then return .error .access
  else d.renameRow (fromDir, fromName) (toDir, toName)

def setattrRow (now : Int64) (node : NodeKey) (set : NfsSetAttr) :
    Decorated (Except NfsError Attr) := do
  match row (← Handler.get) node with
  | .error e => return .error e
  | .ok (key, row) =>
    match row.setattr set now with
    | (.error e, row) => do
      Handler.modify fun s => { s with rows := s.rows.insert key row }
      return .error e
    | (.ok (), row) => do
      Handler.modify fun s => { s with rows := s.rows.insert key row, dirty := true }
      return d.rowAttr (← Handler.get) node

def setattr (now : Int64) (node : NodeKey) (set : NfsSetAttr) : Decorated (Except NfsError Attr) :=
  if isSideNode node then d.setattrRow now node set else inner (.setattr node set)

def writeRow (now : Int64) (node : NodeKey) (offset : UInt64) (data : List UInt8) :
    Decorated (Except NfsError Attr) := do
  match row (← Handler.get) node with
  | .error e => return .error e
  | .ok (key, row) =>
    match row.write offset data now with
    | (.error panic, row) => do
      Handler.modify fun s => { s with rows := s.rows.insert key row }
      Handler.stop panic
    | (.ok (.error e), _) => return .error e
    | (.ok (.ok ()), row) => do
      Handler.modify fun s =>
        { d.evictLocked { s with rows := s.rows.insert key row } with dirty := true }
      return d.rowAttr (← Handler.get) node

def write (now : Int64) (node : NodeKey) (offset : UInt64) (data : List UInt8) (sync : Bool) :
    Decorated (Except NfsError Attr) :=
  if isSideNode node then d.writeRow now node offset data else inner (.write node offset data sync)

def readSendable (node : NodeKey) (offset : UInt64) (count : UInt32) :
    Decorated (Option SendableRead) :=
  if isSideNode node then pure none else inner (.readSendable node offset count)

def readInto (node : NodeKey) (offset : UInt64) (count : UInt32) :
    Decorated (Option (Except NfsError ReadResult)) :=
  if isSideNode node then pure none else inner (.readInto node offset count)

def commit (node : NodeKey) (off len : UInt64) : Decorated (Except NfsError Attr) :=
  if isSideNode node then do return d.rowAttr (← Handler.get) node
  else inner (.commit node off len)

/-- A call of the decorator.  `parent` and `touchDir` are not forwarded: they are left at the
interface's default bodies. -/
def serve (now : Int64) : (call : SurfaceCall) → Decorated call.Answer
  | .shareId => Handler.query SurfaceCall.shareId
  | .root => Handler.query SurfaceCall.root
  | .writable => Handler.query SurfaceCall.writable
  | .writesAreStable => Handler.query SurfaceCall.writesAreStable
  | .touchDir _ => pure ()
  | .op (.getattr node) => d.getattr node
  | .op (.lookup dir name) => d.lookup dir name
  | .op (.readdir dir cookie maxEntries wantAttrs) => d.readdir dir cookie maxEntries wantAttrs
  | .op (.readlink node) => readlink node
  | .op (.parent _) => pure (.error .noEnt)
  | .op (.read node offset count) => read node offset count
  | .op (.readSendable node offset count) => readSendable node offset count
  | .op (.readInto node offset count) => readInto node offset count
  | .op .fsstat => inner .fsstat
  | .op (.create dir name kind mode) => d.create now dir name kind mode
  | .op (.remove dir name isDir) => d.remove dir name isDir
  | .op (.rename fromDir fromName toDir toName) => d.rename fromDir fromName toDir toName
  | .op (.setattr node set) => d.setattr now node set
  | .op (.write node offset data sync) => d.write now node offset data sync
  | .op (.commit node off len) => d.commit node off len

end Decorator

end Sidestore

end Mist
