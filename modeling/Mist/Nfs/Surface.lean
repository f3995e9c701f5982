import Mist.Asks
import Mist.Hostd.Mutations
import Mist.Nfs.Handle

/-! The seam between the NFS servers and the core: the operations of a `MountSurface`, with what
they answer. -/

namespace Mist.Nfs

structure DirEntry where
  name : List UInt8
  node : NodeKey
  cookie : UInt64
  attr : Option Attr

structure DirPage where
  entries : List DirEntry
  eof : Bool
  cookieverf : UInt64

structure ReadResult where
  data : List UInt8
  eof : Bool
  deriving DecidableEq

structure FsStat where
  totalBytes : UInt64
  freeBytes : UInt64
  availBytes : UInt64
  totalFiles : UInt64
  freeFiles : UInt64

/-- A part of a local file that goes out as it is; files are told apart by a number. -/
structure SendableRead where
  file : Nat
  off : UInt64
  len : UInt32
  eof : Bool

inductive Call where
  | getattr (node : NodeKey)
  | lookup (dir : NodeKey) (name : List UInt8)
  | readdir (dir : NodeKey) (cookie : UInt64) (maxEntries : Nat) (wantAttrs : Bool)
  | readlink (node : NodeKey)
  | parent (node : NodeKey)
  | read (node : NodeKey) (offset : UInt64) (count : UInt32)
  | readSendable (node : NodeKey) (offset : UInt64) (count : UInt32)
  | readInto (node : NodeKey) (offset : UInt64) (count : UInt32)
  | fsstat
  | create (dir : NodeKey) (name : List UInt8) (kind : CreateKind) (mode : UInt16)
  | remove (dir : NodeKey) (name : List UInt8) (isDir : Bool)
  | rename (fromDir : NodeKey) (fromName : List UInt8) (toDir : NodeKey) (toName : List UInt8)
  | setattr (node : NodeKey) (set : NfsSetAttr)
  | write (node : NodeKey) (offset : UInt64) (data : List UInt8) (sync : Bool)
  | commit (node : NodeKey) (off len : UInt64)
  deriving DecidableEq

namespace Call

/-- What an operation answers.  `readInto` gives the bytes it appended to the reply. -/
abbrev Answer : Call → Type
  | getattr _ => Except NfsError Attr
  | lookup _ _ => Except NfsError (NodeKey × Attr)
  | readdir _ _ _ _ => Except NfsError DirPage
  | readlink _ => Except NfsError (List UInt8)
  | parent _ => Except NfsError NodeKey
  | read _ _ _ => Except NfsError ReadResult
  | readSendable _ _ _ => Option SendableRead
  | readInto _ _ _ => Option (Except NfsError ReadResult)
  | fsstat => FsStat
  | create _ _ _ _ => Except NfsError (NodeKey × Attr)
  | remove _ _ _ => Except NfsError Unit
  | rename _ _ _ _ => Except NfsError Unit
  | setattr _ _ => Except NfsError Attr
  | write _ _ _ _ => Except NfsError Attr
  | commit _ _ _ => Except NfsError Attr

def nodes : Call → List NodeKey
  | getattr node | readlink node | parent node => [node]
  | lookup dir _ | readdir dir _ _ _ | create dir _ _ _ | remove dir _ _ => [dir]
  | read node _ _ | readSendable node _ _ | readInto node _ _ => [node]
  | fsstat => []
  | rename fromDir _ toDir _ => [fromDir, toDir]
  | setattr node _ | write node _ _ _ | commit node _ _ => [node]

end Call

abbrev Served := Asks Call Call.Answer

namespace MountSurface

abbrev getattr (node : NodeKey) : Served (Except NfsError Attr) := Asks.query (Call.getattr node)

abbrev lookup (dir : NodeKey) (name : List UInt8) : Served (Except NfsError (NodeKey × Attr)) :=
  Asks.query (Call.lookup dir name)

abbrev readdir (dir : NodeKey) (cookie : UInt64) (maxEntries : Nat) (wantAttrs : Bool) :
    Served (Except NfsError DirPage) :=
  Asks.query (Call.readdir dir cookie maxEntries wantAttrs)

abbrev readlink (node : NodeKey) : Served (Except NfsError (List UInt8)) :=
  Asks.query (Call.readlink node)

abbrev parent (node : NodeKey) : Served (Except NfsError NodeKey) := Asks.query (Call.parent node)

abbrev read (node : NodeKey) (offset : UInt64) (count : UInt32) :
    Served (Except NfsError ReadResult) :=
  Asks.query (Call.read node offset count)

abbrev readSendable (node : NodeKey) (offset : UInt64) (count : UInt32) :
    Served (Option SendableRead) :=
  Asks.query (Call.readSendable node offset count)

abbrev readInto (node : NodeKey) (offset : UInt64) (count : UInt32) :
    Served (Option (Except NfsError ReadResult)) :=
  Asks.query (Call.readInto node offset count)

abbrev fsstat : Served FsStat := Asks.query Call.fsstat

abbrev create (dir : NodeKey) (name : List UInt8) (kind : CreateKind) (mode : UInt16) :
    Served (Except NfsError (NodeKey × Attr)) :=
  Asks.query (Call.create dir name kind mode)

abbrev remove (dir : NodeKey) (name : List UInt8) (isDir : Bool) : Served (Except NfsError Unit) :=
  Asks.query (Call.remove dir name isDir)

abbrev rename (fromDir : NodeKey) (fromName : List UInt8) (toDir : NodeKey) (toName : List UInt8) :
    Served (Except NfsError Unit) :=
  Asks.query (Call.rename fromDir fromName toDir toName)

abbrev setattr (node : NodeKey) (set : NfsSetAttr) : Served (Except NfsError Attr) :=
  Asks.query (Call.setattr node set)

abbrev write (node : NodeKey) (offset : UInt64) (data : List UInt8) (sync : Bool) :
    Served (Except NfsError Attr) :=
  Asks.query (Call.write node offset data sync)

abbrev commit (node : NodeKey) (off len : UInt64) : Served (Except NfsError Attr) :=
  Asks.query (Call.commit node off len)

end MountSurface

/-- What a server knows of the surface without asking, and the codec of its handles. -/
structure Export where
  codec : HandleCodec
  shareId : UInt16
  root : NodeKey
  writable : Bool
  writesAreStable : Bool

end Mist.Nfs
