import Mist.Nfs.Readdir
import Mist.Nfs.Surface

/-! The procedures of NFSv3.  Arguments are read one after the other; a part that cannot be read is
passed over with a default. -/

namespace Mist.Nfs

def PROC_NULL : UInt32 := 0
def PROC_GETATTR : UInt32 := 1
def PROC_SETATTR : UInt32 := 2
def PROC_LOOKUP : UInt32 := 3
def PROC_ACCESS : UInt32 := 4
def PROC_READLINK : UInt32 := 5
def PROC_READ : UInt32 := 6
def PROC_WRITE : UInt32 := 7
def PROC_CREATE : UInt32 := 8
def PROC_MKDIR : UInt32 := 9
def PROC_SYMLINK : UInt32 := 10
def PROC_MKNOD : UInt32 := 11
def PROC_REMOVE : UInt32 := 12
def PROC_RMDIR : UInt32 := 13
def PROC_RENAME : UInt32 := 14
def PROC_LINK : UInt32 := 15
def PROC_READDIR : UInt32 := 16
def PROC_READDIRPLUS : UInt32 := 17
def PROC_FSSTAT : UInt32 := 18
def PROC_FSINFO : UInt32 := 19
def PROC_PATHCONF : UInt32 := 20
def PROC_COMMIT : UInt32 := 21

def NFS3ERR_NAMETOOLONG : UInt32 := 63
def NFS3ERR_STALE : UInt32 := 70
def NFS3ERR_NOTSUPP : UInt32 := 10004

/-- `MIST-wv1`. -/
def WRITE_VERF : List UInt8 := [77, 73, 83, 84, 45, 119, 118, 49]

def MAX_READ : UInt32 := 1048576
def MAX_WRITE : UInt32 := 1048576

def FSF_LINK : UInt32 := 0x1
def FSF_SYMLINK : UInt32 := 0x2
def FSF_HOMOGENEOUS : UInt32 := 0x8
def FSF_CANSETTIME : UInt32 := 0x10

def ftype3 : Kind → UInt32
  | .reg => 1
  | .dir => 2
  | .blk => 3
  | .chr => 4
  | .symlink => 5
  | .sock => 6
  | .fifo => 7

def time3 (t : Ts) : List XdrItem := [.u32 t.sec.toUInt64.toUInt32, .u32 t.nsec]

/-- The access time is served as the time of modification. -/
def fattr3 (share : UInt16) (node : NodeKey) (a : Attr) : List XdrItem :=
  [.u32 (ftype3 a.kind), .u32 a.mode.toUInt32, .u32 a.nlink, .u32 a.uid, .u32 a.gid, .u64 a.size,
    .u64 (a.blocks * 512), .u32 (a.rdev >>> 32).toUInt32, .u32 a.rdev.toUInt32,
    .u64 share.toUInt64, .u64 node.ino] ++
    time3 a.mtime ++ time3 a.mtime ++ time3 a.ctime

def postOpAttr (share : UInt16) (node : NodeKey) : Option Attr → List XdrItem
  | some a => .bool true :: fattr3 share node a
  | none => [.bool false]

def postOpFh (ex : Export) (node : NodeKey) : List XdrItem :=
  [.bool true, .opaqueData (ex.codec.encode ex.shareId node)]

/-- The attributes before the operation are always left out. -/
def wccData (share : UInt16) (node : NodeKey) (post : Option Attr) : List XdrItem :=
  .bool false :: postOpAttr share node post

def readFh (codec : HandleCodec) (r : XdrReader) : Option (UInt16 × NodeKey) × XdrReader :=
  let (fh, r) := r.attemptOpaque 64
  (fh.bind codec.decode, r)

def u32Or (default : UInt32) (r : XdrReader) : UInt32 × XdrReader :=
  let (v, r) := XdrReader.attempt XdrReader.u32 r
  (v.getD default, r)

def u64Or (default : UInt64) (r : XdrReader) : UInt64 × XdrReader :=
  let (v, r) := XdrReader.attempt XdrReader.u64 r
  (v.getD default, r)

def readName (r : XdrReader) : Option (List UInt8) × XdrReader :=
  let (n, r) := r.attemptOpaque 4096
  (n.filter fun n => n.length ≤ 255, r)

def optionalArg {α : Type} (f : XdrReader → Option (α × XdrReader)) (r : XdrReader) :
    Option α × XdrReader :=
  let (set, r) := XdrReader.attempt XdrReader.bool r
  if set.getD false then XdrReader.attempt f r else (none, r)

def parseSattr3 (r : XdrReader) : NfsSetAttr × XdrReader :=
  let (mode, r) := optionalArg XdrReader.u32 r
  let (uid, r) := optionalArg XdrReader.u32 r
  let (gid, r) := optionalArg XdrReader.u32 r
  let (size, r) := optionalArg XdrReader.u64 r
  let (atimeHow, r) := u32Or 0 r
  let r := if atimeHow = 2 then (XdrReader.attempt (·.fixed 8) r).2 else r
  let (mtimeHow, r) := u32Or 0 r
  if mtimeHow = 2 then
    let (sec, r) := u32Or 0 r
    let (nsec, r) := u32Or 0 r
    (⟨mode.map UInt32.toUInt16, uid, gid, size, some ⟨.ofNat sec.toNat, nsec⟩⟩, r)
  else (⟨mode.map UInt32.toUInt16, uid, gid, size, none⟩, r)

def SetAttr.default : NfsSetAttr := ⟨none, none, none, none, none⟩

/-- The rights a request may have: the owner's bits of the mode, and with a writable surface the
right to change. -/
def accessBits (a : Attr) (requested : UInt32) (writable : Bool) : UInt32 :=
  let g : UInt32 := 0
  let g := if a.mode &&& 0x100 ≠ 0 then
      let g := g ||| 0x1
      if a.kind = .dir then g ||| 0x2 else g
    else g
  let g := if a.mode &&& 0x40 ≠ 0 && a.kind ≠ .dir then g ||| 0x20 else g
  let g := if a.kind = .dir then g ||| 0x2 else g
  let g := if writable then g ||| 0x4 ||| 0x8 ||| 0x10 else g
  g &&& requested

-- the reply's header is written already
variable (ex : Export) (args : XdrReader) (w : XdrWriter)

def getattr? (node : NodeKey) : Served (Option Attr) := do
  let a ← MountSurface.getattr node
  return a.toOption

def stale : XdrWriter := w.items [.u32 NFS3ERR_STALE]

def procGetattr : Served XdrWriter :=
  match (readFh ex.codec args).1 with
  | none => return stale w
  | some (_, node) => do
    match ← MountSurface.getattr node with
    | .ok a => return w.items (.u32 NFS3_OK :: fattr3 ex.shareId node a)
    | .error e => return w.items [.u32 (nfsstatOf e)]

def procLookup : Served XdrWriter :=
  match readFh ex.codec args with
  | (none, _) => return stale w
  | (some (_, dir), args) => do
    match (readName args).1 with
    | none =>
      let a ← getattr? dir
      return w.items (.u32 NFS3ERR_NAMETOOLONG :: postOpAttr ex.shareId dir a)
    | some name =>
      let dirAttr ← getattr? dir
      match ← MountSurface.lookup dir name with
      | .ok (node, a) =>
        return w.items (.u32 NFS3_OK :: .opaqueData (ex.codec.encode ex.shareId node) ::
          postOpAttr ex.shareId node (some a) ++ postOpAttr ex.shareId dir dirAttr)
      | .error e => return w.items (.u32 (nfsstatOf e) :: postOpAttr ex.shareId dir dirAttr)

def procAccess : Served XdrWriter :=
  match readFh ex.codec args with
  | (none, _) => return stale w
  | (some (_, node), args) => do
    let requested := (u32Or 0 args).1
    match ← MountSurface.getattr node with
    | .ok a =>
      return w.items (.u32 NFS3_OK :: postOpAttr ex.shareId node (some a) ++
        [.u32 (accessBits a requested ex.writable)])
    | .error e => return w.items [.u32 (nfsstatOf e), .bool false]

def procReadlink : Served XdrWriter :=
  match (readFh ex.codec args).1 with
  | none => return stale w
  | some (_, node) => do
    let attr ← getattr? node
    match ← MountSurface.readlink node with
    | .ok target =>
      return w.items (.u32 NFS3_OK :: postOpAttr ex.shareId node attr ++ [.opaqueData target])
    | .error e => return w.items (.u32 (nfsstatOf e) :: postOpAttr ex.shareId node attr)

def procRead : Served XdrWriter :=
  match readFh ex.codec args with
  | (none, _) => return stale w
  | (some (_, node), args) => do
    let (offset, args) := u64Or 0 args
    let count := min (u32Or 0 args).1 MAX_READ
    let preAttr ← getattr? node
    match ← MountSurface.read node offset count with
    | .ok res =>
      return w.items (.u32 NFS3_OK :: postOpAttr ex.shareId node preAttr ++
        [.u32 (.ofNat res.data.length), .bool res.eof, .opaqueData res.data])
    | .error e => return w.items (.u32 (nfsstatOf e) :: postOpAttr ex.shareId node preAttr)

/-- The entries of a page until one would pass the client's limit; then the list ends early. -/
def writeEntries (plus : Bool) (perEntry budget : Nat) (eof : Bool) :
    List DirEntry → XdrWriter → XdrWriter
  | [], w => w.items [.bool false, .bool eof]
  | e :: es, w =>
    if w.pos + perEntry + e.name.length > budget then w.items [.bool false, .bool false]
    else
      let w := w.items [.bool true, .u64 e.node.ino, .opaqueData e.name, .u64 e.cookie]
      let w := if plus then w.items (postOpAttr ex.shareId e.node e.attr ++ postOpFh ex e.node) else w
      writeEntries plus perEntry budget eof es w

def procReaddir (plus : Bool) : Served XdrWriter :=
  match readFh ex.codec args with
  | (none, _) => return stale w
  | (some (_, dir), args) => do
    let (cookie, args) := u64Or 0 args
    let args := (XdrReader.attempt (·.fixed 8) args).2
    let maxcount := if plus then (u32Or 32768 (u32Or 8192 args).2).1 else (u32Or 8192 args).1
    let dirAttr ← getattr? dir
    let perEntry := if plus then 160 else 40
    let maxEntries := min (max ((maxcount.toNat - 128) / perEntry) 1) 4096
    match ← MountSurface.readdir dir cookie maxEntries plus with
    | .error e => return w.items (.u32 (nfsstatOf e) :: postOpAttr ex.shareId dir dirAttr)
    | .ok page =>
      let w := w.items (.u32 NFS3_OK :: postOpAttr ex.shareId dir dirAttr ++
        [.fixed (be64 page.cookieverf)])
      return writeEntries ex plus perEntry maxcount.toNat page.eof page.entries w

def procFsstat : Served XdrWriter := do
  let st ← MountSurface.fsstat
  return w.items [.u32 NFS3_OK, .bool false, .u64 st.totalBytes, .u64 st.freeBytes,
    .u64 st.availBytes, .u64 st.totalFiles, .u64 st.freeFiles, .u64 st.freeFiles, .u32 0]

def procFsinfo : Served XdrWriter :=
  return w.items ([.u32 NFS3_OK, .bool false, .u32 MAX_READ, .u32 MAX_READ, .u32 4096,
    .u32 MAX_WRITE, .u32 MAX_WRITE, .u32 4096, .u32 MAX_READ, .u64 u64Max] ++ time3 ⟨0, 1⟩ ++
    [.u32 (FSF_LINK ||| FSF_SYMLINK ||| FSF_HOMOGENEOUS ||| FSF_CANSETTIME)])

def procPathconf : Served XdrWriter :=
  return w.items [.u32 NFS3_OK, .bool false, .u32 32000, .u32 255, .bool true, .bool false,
    .bool false, .bool true]

def procSetattr : Served XdrWriter :=
  match readFh ex.codec args with
  | (none, _) => return stale w
  | (some (_, node), args) => do
    let set := (parseSattr3 args).1
    match ← MountSurface.setattr node set with
    | .ok a => return w.items (.u32 NFS3_OK :: wccData ex.shareId node (some a))
    | .error e =>
      let a ← getattr? node
      return w.items (.u32 (nfsstatOf e) :: wccData ex.shareId node a)

def procWrite : Served XdrWriter :=
  match readFh ex.codec args with
  | (none, _) => return stale w
  | (some (_, node), args) => do
    let (offset, args) := u64Or 0 args
    let (_, args) := u32Or 0 args
    let (stable, args) := u32Or 0 args
    let data := (args.attemptOpaque MAX_READ.toNat).1.getD []
    let sync := stable ≠ 0
    let pre ← getattr? node
    match ← MountSurface.write node offset data sync with
    | .ok a =>
      return w.items (.u32 NFS3_OK :: wccData ex.shareId node (some a) ++
        [.u32 (.ofNat data.length), .u32 (if sync || ex.writesAreStable then 2 else 0),
          .fixed WRITE_VERF])
    | .error e => return w.items (.u32 (nfsstatOf e) :: wccData ex.shareId node pre)

def createReply (dir : NodeKey) (name : List UInt8) (kind : CreateKind) (mode : UInt16) :
    Served XdrWriter := do
  match ← MountSurface.create dir name kind mode with
  | .ok (node, attr) =>
    let a ← getattr? dir
    return w.items (.u32 NFS3_OK :: postOpFh ex node ++ postOpAttr ex.shareId node (some attr) ++
      wccData ex.shareId dir a)
  | .error e =>
    let a ← getattr? dir
    return w.items (.u32 (nfsstatOf e) :: wccData ex.shareId dir a)

/-- A procedure on a name in a directory; without a name only the directory's attributes are asked. -/
def onName (body : NodeKey → List UInt8 → XdrReader → Served XdrWriter) : Served XdrWriter :=
  match readFh ex.codec args with
  | (none, _) => return stale w
  | (some (_, dir), args) => do
    match readName args with
    | (none, _) =>
      let a ← getattr? dir
      return w.items (.u32 NFS3ERR_NAMETOOLONG :: wccData ex.shareId dir a)
    | (some name, args) => body dir name args

def procCreate : Served XdrWriter :=
  onName ex args w fun dir name args =>
    let (how, args) := u32Or 0 args
    let set := if how = 2 then SetAttr.default else (parseSattr3 args).1
    createReply ex w dir name (.file (how ≠ 0)) (set.mode.getD 0x1a4)

def procMkdir : Served XdrWriter :=
  onName ex args w fun dir name args =>
    createReply ex w dir name .dir ((parseSattr3 args).1.mode.getD 0x1ed)

def procSymlink : Served XdrWriter :=
  onName ex args w fun dir name args =>
    let target := ((parseSattr3 args).2.attemptOpaque 4096).1.getD []
    createReply ex w dir name (.symlink target) 0x1ff

def procRemove (isDir : Bool) : Served XdrWriter :=
  onName ex args w fun dir name _ => do
    let removed ← MountSurface.remove dir name isDir
    let a ← getattr? dir
    match removed with
    | .ok () => return w.items (.u32 NFS3_OK :: wccData ex.shareId dir a)
    | .error e => return w.items (.u32 (nfsstatOf e) :: wccData ex.shareId dir a)

/-- Both handles are read before the names are looked at. -/
def procRename : Served XdrWriter :=
  match readFh ex.codec args with
  | (none, _) => return stale w
  | (some (_, fromDir), args) =>
    let (fromName, args) := readName args
    match readFh ex.codec args with
    | (none, _) => return stale w
    | (some (_, toDir), args) => do
      let (toName, _) := readName args
      match fromName, toName with
      | some fromName, some toName =>
        let renamed ← MountSurface.rename fromDir fromName toDir toName
        let status := match renamed with
          | .ok () => NFS3_OK
          | .error e => nfsstatOf e
        let fromAttr ← getattr? fromDir
        let toAttr ← getattr? toDir
        return w.items (.u32 status :: wccData ex.shareId fromDir fromAttr ++
          wccData ex.shareId toDir toAttr)
      | _, _ =>
        let fromAttr ← getattr? fromDir
        let toAttr ← getattr? toDir
        return w.items (.u32 NFS3ERR_NAMETOOLONG :: wccData ex.shareId fromDir fromAttr ++
          wccData ex.shareId toDir toAttr)

def procCommit : Served XdrWriter :=
  match readFh ex.codec args with
  | (none, _) => return stale w
  | (some (_, node), args) => do
    let (offset, args) := u64Or 0 args
    let count := (u32Or 0 args).1
    match ← MountSurface.commit node offset count.toUInt64 with
    | .ok a => return w.items (.u32 NFS3_OK :: wccData ex.shareId node (some a) ++ [.fixed WRITE_VERF])
    | .error e =>
      let a ← getattr? node
      return w.items (.u32 (nfsstatOf e) :: wccData ex.shareId node a)

/-- What a reply says of a node whose handle may not have been readable. -/
def maybeWcc (node : Option (UInt16 × NodeKey)) : Served (List XdrItem) :=
  match node with
  | some (_, d) => do
    let a ← getattr? d
    return wccData ex.shareId d a
  | none => return [.bool false, .bool false]

def procMknod : Served XdrWriter := do
  let wcc ← maybeWcc ex (readFh ex.codec args).1
  return w.items (.u32 NFS3ERR_NOTSUPP :: wcc)

def procLink : Served XdrWriter := do
  let (file, args) := readFh ex.codec args
  let dir := (readFh ex.codec args).1
  let attr ← match file with
    | some (_, n) => do
      let a ← getattr? n
      pure (postOpAttr ex.shareId n a)
    | none => pure [.bool false]
  let wcc ← maybeWcc ex dir
  return w.items (.u32 NFS3ERR_NOTSUPP :: attr ++ wcc)

def dispatchInner (proc : UInt32) : Served XdrWriter :=
  if proc = PROC_NULL then return w
  else if proc = PROC_GETATTR then procGetattr ex args w
  else if proc = PROC_LOOKUP then procLookup ex args w
  else if proc = PROC_ACCESS then procAccess ex args w
  else if proc = PROC_READLINK then procReadlink ex args w
  else if proc = PROC_READ then procRead ex args w
  else if proc = PROC_READDIR then procReaddir ex args w false
  else if proc = PROC_READDIRPLUS then procReaddir ex args w true
  else if proc = PROC_FSSTAT then procFsstat w
  else if proc = PROC_FSINFO then procFsinfo w
  else if proc = PROC_PATHCONF then procPathconf w
  else if proc = PROC_SETATTR then procSetattr ex args w
  else if proc = PROC_WRITE then procWrite ex args w
  else if proc = PROC_CREATE then procCreate ex args w
  else if proc = PROC_MKDIR then procMkdir ex args w
  else if proc = PROC_SYMLINK then procSymlink ex args w
  else if proc = PROC_REMOVE then procRemove ex args w false
  else if proc = PROC_RMDIR then procRemove ex args w true
  else if proc = PROC_RENAME then procRename ex args w
  else if proc = PROC_COMMIT then procCommit ex args w
  else if proc = PROC_MKNOD then procMknod ex args w
  else if proc = PROC_LINK then procLink ex args w
  else return w.items [.u32 NFS3ERR_NOTSUPP]

/-- A reply in memory, or its head with a file that follows. -/
inductive Reply where
  | whole (w : XdrWriter)
  | headAndFile (head : XdrWriter) (body : SendableRead) (pad : Nat)

/-- Dispatch one call.  A READ that one local file serves goes out from the file. -/
def dispatch (proc : UInt32) : Served Reply := do
  let whole : Served Reply := do
    let w ← dispatchInner ex args w proc
    return .whole w
  if proc = PROC_READ then
    match readFh ex.codec args with
    | (some (_, node), peek) =>
      let (offset, peek) := u64Or 0 peek
      let count := min (u32Or 0 peek).1 MAX_READ
      match ← MountSurface.readSendable node offset count with
      | some body =>
        let preAttr ← getattr? node
        return .headAndFile (w.items (.u32 NFS3_OK :: postOpAttr ex.shareId node preAttr ++
          [.u32 body.len, .bool body.eof, .u32 body.len])) body ((4 - body.len.toNat % 4) % 4)
      | none => whole
    | (none, _) => whole
  else whole

end Mist.Nfs
