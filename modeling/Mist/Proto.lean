import Mathlib.Data.List.Basic

/-! The wire types of `mist-proto` that cross the host and guest boundary. -/

namespace Mist

def u64Max : UInt64 := 0xffffffffffffffff

structure ShareId where
  id : UInt16
  deriving DecidableEq

/-- Canonical file identity: the guest's inode number and its generation. -/
structure NodeKey where
  ino : UInt64
  generation : UInt32
  deriving DecidableEq

structure Ts where
  sec : Int64
  nsec : UInt32
  deriving DecidableEq

inductive Kind where
  | reg | dir | symlink | fifo | sock | chr | blk
  deriving DecidableEq

structure Attr where
  kind : Kind
  mode : UInt16
  nlink : UInt32
  uid : UInt32
  gid : UInt32
  size : UInt64
  blocks : UInt64
  mtime : Ts
  ctime : Ts
  rdev : UInt64
  contentVersion : UInt64
  symlinkTarget : Option (List UInt8)
  deriving DecidableEq

structure ValidateError where
  reason : String
  deriving DecidableEq

def maxName : Nat := 255

def Name.check (b : List UInt8) : Except ValidateError Unit :=
  if b.isEmpty || b.length > maxName then
    .error ⟨"name length"⟩
  else if b.contains 47 || b.contains 0 then
    .error ⟨"name contains '/' or NUL"⟩
  else if b = [46] || b = [46, 46] then
    .error ⟨"name is '.' or '..'"⟩
  else
    .ok ()

/-- A path component that passed `Name.check`. -/
structure Name where
  bytes : List UInt8
  valid : Name.check bytes = .ok ()
  deriving DecidableEq

/-- `Name::new`: the bytes as a name, or the reason they are none. -/
def Name.new (b : List UInt8) : Except ValidateError Name :=
  match h : Name.check b with
  | .ok () => .ok ⟨b, h⟩
  | .error e => .error e

def Name.letter (c : Char) : Name :=
  match Name.new [c.toNat.toUInt8] with
  | .ok x => x
  | .error _ => ⟨[97], rfl⟩

structure ShareInfo where
  id : ShareId
  root : NodeKey
  deriving DecidableEq

structure SnapEntry where
  name : Name
  node : NodeKey
  attr : Attr
  deriving DecidableEq

/-- One directory's snapshot contents; `last` is set on the final record of a large directory. -/
structure SnapDir where
  snapId : UInt64
  share : ShareId
  dir : NodeKey
  dirAttr : Attr
  parent : NodeKey
  entries : List SnapEntry
  last : Bool

structure SnapDone where
  snapId : UInt64
  share : ShareId

inductive Rec where
  | created (parent : NodeKey) (name : Name) (node : NodeKey) (attr : Option Attr)
  | createdBatch (parent : NodeKey) (entries : List SnapEntry)
  | removed (parent : NodeKey) (name : Name)
  | renamed (fromParent : NodeKey) (fromName : Name) (toParent : NodeKey) (toName : Name)
  | attrChanged (node : NodeKey) (attr : Attr)
  | content (node : NodeKey) (version size : UInt64) (mtime : Ts) (inProgress : Bool)
  | selfRemoved (node : NodeKey)
  | overflow
  | echoMarker (tag : UInt64)
  deriving DecidableEq

structure JournalBatch where
  share : ShareId
  firstSeq : UInt64
  records : List Rec
  deriving DecidableEq

def maxSymlink : Nat := 4096

def maxSnapEntries : Nat := 2048

def Attr.validate (a : Attr) : Except ValidateError Unit :=
  match a.symlinkTarget with
  | none => .ok ()
  | some t =>
    if a.kind ≠ .symlink then
      .error ⟨"symlink_target on non-symlink"⟩
    else if t.isEmpty || t.length > maxSymlink then
      .error ⟨"symlink target length"⟩
    else
      .ok ()

def SnapEntry.validateAll (entries : List SnapEntry) : Except ValidateError Unit :=
  entries.forM fun e => e.attr.validate

def SnapDir.validate (d : SnapDir) : Except ValidateError Unit :=
  if d.entries.length > maxSnapEntries then
    .error ⟨"snapdir too large"⟩
  else
    match d.dirAttr.validate with
    | .error e => .error e
    | .ok () =>
      if d.dirAttr.kind ≠ .dir then
        .error ⟨"snapdir attr not a dir"⟩
      else
        SnapEntry.validateAll d.entries

def Rec.validate : Rec → Except ValidateError Unit
  | .created _ _ _ (some attr) => attr.validate
  | .createdBatch _ entries =>
    if entries.length > maxSnapEntries then
      .error ⟨"created batch too large"⟩
    else
      SnapEntry.validateAll entries
  | .attrChanged _ attr => attr.validate
  | _ => .ok ()

end Mist
