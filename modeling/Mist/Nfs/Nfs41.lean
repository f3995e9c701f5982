import Mist.Nfs.Attrs
import Mist.Nfs.Nfs3
import Mist.Nfs.Table

/-! The operations of NFSv4.1: one operation of a compound, from its arguments to its result. -/

namespace Mist.Nfs

def OP_ACCESS : UInt32 := 3
def OP_CLOSE : UInt32 := 4
def OP_COMMIT : UInt32 := 5
def OP_CREATE : UInt32 := 6
def OP_DELEGRETURN : UInt32 := 8
def OP_GETATTR : UInt32 := 9
def OP_GETFH : UInt32 := 10
def OP_LINK : UInt32 := 11
def OP_LOCK : UInt32 := 12
def OP_LOCKT : UInt32 := 13
def OP_LOCKU : UInt32 := 14
def OP_LOOKUP : UInt32 := 15
def OP_LOOKUPP : UInt32 := 16
def OP_NVERIFY : UInt32 := 17
def OP_OPEN : UInt32 := 18
def OP_OPEN_DOWNGRADE : UInt32 := 21
def OP_PUTFH : UInt32 := 22
def OP_PUTPUBFH : UInt32 := 23
def OP_PUTROOTFH : UInt32 := 24
def OP_READ : UInt32 := 25
def OP_READDIR : UInt32 := 26
def OP_READLINK : UInt32 := 27
def OP_REMOVE : UInt32 := 28
def OP_RENAME : UInt32 := 29
def OP_RESTOREFH : UInt32 := 31
def OP_SAVEFH : UInt32 := 32
def OP_SETATTR : UInt32 := 34
def OP_VERIFY : UInt32 := 37
def OP_WRITE : UInt32 := 38
def OP_BIND_CONN_TO_SESSION : UInt32 := 41
def OP_EXCHANGE_ID : UInt32 := 42
def OP_CREATE_SESSION : UInt32 := 43
def OP_DESTROY_SESSION : UInt32 := 44
def OP_FREE_STATEID : UInt32 := 45
def OP_SECINFO_NO_NAME : UInt32 := 52
def OP_TEST_STATEID : UInt32 := 55
def OP_DESTROY_CLIENTID : UInt32 := 57
def OP_RECLAIM_COMPLETE : UInt32 := 58
def OP_ILLEGAL : UInt32 := 10044

def ERR_EXIST : UInt32 := 17
def ERR_ISDIR : UInt32 := 21
def ERR_ROFS : UInt32 := 30
def ERR_NAMETOOLONG : UInt32 := 63
def ERR_BADHANDLE : UInt32 := 10001
def ERR_NOTSUPP : UInt32 := 10004
def ERR_BADTYPE : UInt32 := 10007
def ERR_NOFILEHANDLE : UInt32 := 10020
def ERR_STALE_CLIENTID : UInt32 := 10022
def ERR_STALE_STATEID : UInt32 := 10023
def ERR_BAD_STATEID : UInt32 := 10025
def ERR_RESTOREFH : UInt32 := 10030
def ERR_NO_GRACE : UInt32 := 10033
def ERR_OP_ILLEGAL : UInt32 := 10044

def BACK_SLOTS : UInt32 := 16
def MAX_RECORD : UInt32 := 2097152
def DELEG_CAP : Nat := 16384

abbrev Other := List UInt8

structure Client where
  clientid : UInt64
  owner : List UInt8
  verifier : List UInt8
  confirmed : Bool
  sequenceId : UInt32

structure OpenState where
  node : NodeKey
  seqid : UInt32
  shareAccess : UInt32
  owner : List UInt8

structure Delegation where
  stateidOther : Other
  recalling : Bool
  deriving DecidableEq

/-- What a server instance keeps besides its sessions; `rand` is where session ids come from, and a
backchannel is known by its connection. -/
structure State where
  clients : Table UInt64 Client
  opens : Table Other OpenState
  locks : Table Other NodeKey
  delegations : Table NodeKey Delegation
  nextClientid : UInt64
  nextOther : UInt64
  bootVerifier : List UInt8
  rand : Nat → UInt64
  drawn : Nat
  bound : List (Nat × List UInt8)
  backchannels : Table (List UInt8) Nat

/-- Per-compound evaluation state. -/
structure Ctx where
  cfh : Option (UInt16 × NodeKey)
  sfh : Option (UInt16 × NodeKey)
  currentStateid : Option (Other × UInt32)

def Ctx.start : Ctx := ⟨none, none, none⟩

structure OpState where
  reader : XdrReader
  ctx : Ctx
  sessions : List UInt8 → Option Session
  state : State
  tail : Option SendableRead

/-- An operation in progress; it may stop with a status. -/
abbrev Op4 := Handler Call Call.Answer UInt32 OpState

namespace Op4

def arg {α : Type} (f : XdrReader → Option (α × XdrReader)) : Op4 α := fun s =>
  match f s.reader with
  | some (a, r) => .done (.ok a, { s with reader := r })
  | none => .done (.error ERR_BADXDR, s)

def u32 : Op4 UInt32 := arg XdrReader.u32
def u64 : Op4 UInt64 := arg XdrReader.u64
def bool : Op4 Bool := arg XdrReader.bool
def fixed (n : Nat) : Op4 (List UInt8) := arg fun r => r.fixed n
def opaqueData (max : Nat) : Op4 (List UInt8) := arg fun r => r.opaqueData max
def bitmap : Op4 Bitmap := arg Bitmap.decode
def settable (now : Ts) : Op4 (NfsSetAttr × Bitmap) := arg (decodeSettable now)

def call {α : Type} (m : Served α) : Op4 α := fun s => do
  let a ← m
  return (.ok a, s)

def callOk {α : Type} (m : Served (Except NfsError α)) : Op4 α := do
  match ← call m with
  | .ok a => return a
  | .error e => Handler.stop (nfsstatOf e)

def ctx : Op4 Ctx := do
  let s ← Handler.get
  return s.ctx

def state : Op4 State := do
  let s ← Handler.get
  return s.state

def setCtx (f : Ctx → Ctx) : Op4 Unit := Handler.modify fun s => { s with ctx := f s.ctx }

def setState (f : State → State) : Op4 Unit := Handler.modify fun s => { s with state := f s.state }

def needCfh : Op4 (UInt16 × NodeKey) := do
  match (← ctx).cfh with
  | some fh => return fh
  | none => Handler.stop ERR_NOFILEHANDLE

def stateid : Op4 (UInt32 × Other) := do
  let seq ← u32
  let other ← fixed 12
  return (seq, other)

def skipWords : Nat → Op4 Unit
  | 0 => return ()
  | n + 1 => do
    let _ ← u32
    skipWords n

end Op4

open Op4

def sessionOf (clientid : UInt64) (sid : List UInt8) : Bool := sid.take 8 = be64 clientid

def dropSessions (clientid : UInt64) (sessions : List UInt8 → Option Session) :
    List UInt8 → Option Session :=
  fun sid => if sessionOf clientid sid then none else sessions sid

/-- `State::exchange_id`: find or create the client of an owner; one that rebooted loses its state. -/
def OpState.exchangeId (s : OpState) (owner verifier : List UInt8) : (UInt64 × UInt32) × OpState :=
  let fresh (s : OpState) : (UInt64 × UInt32) × OpState :=
    let clientid := s.state.nextClientid
    ((clientid, 1), { s with state := { s.state with
      nextClientid := clientid + 1
      clients := s.state.clients.insert clientid ⟨clientid, owner, verifier, false, 1⟩ } })
  match (s.state.clients.find? fun p => p.2.owner = owner).map Prod.snd with
  | some c =>
    if c.verifier = verifier then ((c.clientid, c.sequenceId), s)
    else fresh { s with
      sessions := dropSessions c.clientid s.sessions
      state := { s.state with
        clients := s.state.clients.remove c.clientid, opens := [], delegations := [] } }
  | none => fresh s

def exchange (owner verifier : List UInt8) : Op4 (List XdrItem) := do
  let s ← Handler.get
  let ((clientid, seqid), s) := s.exchangeId owner verifier
  Handler.modify fun _ => s
  return [.u64 clientid, .u32 seqid, .u32 0x00020000, .u32 0, .u64 0x4D495354,
    .opaqueData [109, 105, 115, 116, 45, 104, 111, 115, 116, 100],
    .opaqueData [109, 105, 115, 116], .u32 0]

def evalExchangeId : Op4 (List XdrItem) := do
  let verifier ← fixed 8
  let owner ← opaqueData 1024
  let _ ← u32
  let spHow ← u32
  if spHow ≠ 0 then Handler.stop ERR_NOTSUPP
  else
    let nImpl ← u32
    if nImpl > 0 then
      let _ ← opaqueData 1024
      let _ ← opaqueData 1024
      let _ ← u64
      let _ ← u32
    exchange owner verifier

def chanAttrs : Op4 UInt32 := do
  let _ ← u32
  let maxReq ← u32
  let _ ← u32
  let _ ← u32
  let _ ← u32
  let _ ← u32
  let nRdma ← u32
  skipWords nRdma.toNat
  return maxReq

def writeChanAttrs (maxReq slots : UInt32) : List XdrItem :=
  [.u32 0, .u32 maxReq, .u32 maxReq, .u32 65536, .u32 (.ofNat MAX_OPS), .u32 slots, .u32 0]

def secParms : Nat → Op4 Unit
  | 0 => return ()
  | n + 1 => do
    let flavor ← u32
    if flavor = 0 then secParms n
    else if flavor = 1 then
      let _ ← u32
      let _ ← opaqueData 256
      let _ ← u32
      let _ ← u32
      let gids ← u32
      skipWords gids.toNat
      secParms n
    else Handler.stop ERR_NOTSUPP

def OpState.createSession (s : OpState) (clientid : UInt64) (cbProgram : UInt32) :
    Option (List UInt8 × OpState) :=
  (s.state.clients.get clientid).map fun c =>
    let id := be64 clientid ++ be64 (s.state.rand s.state.drawn)
    (id, { s with
      sessions := fun sid =>
        if sid = id then some ⟨List.replicate FORE_SLOTS.toNat .default, cbProgram⟩ else s.sessions sid
      state := { s.state with
        clients := s.state.clients.insert clientid { c with confirmed := true }
        drawn := s.state.drawn + 1 } })

def evalCreateSession : Op4 (List XdrItem) := do
  let clientid ← u64
  let csaSeq ← u32
  let flags ← u32
  let fore ← chanAttrs
  let _ ← chanAttrs
  let cbProgram ← u32
  let nSec ← u32
  secParms nSec.toNat
  let s ← Handler.get
  match s.createSession clientid cbProgram with
  | none => Handler.stop ERR_STALE_CLIENTID
  | some (id, s) =>
    Handler.modify fun _ => s
    return [.fixed id, .u32 csaSeq, .u32 (flags &&& 0x1)] ++
      writeChanAttrs (min fore MAX_RECORD) FORE_SLOTS ++ writeChanAttrs MAX_RECORD BACK_SLOTS

def evalDestroySession : Op4 (List XdrItem) := do
  let sid ← fixed 16
  let s ← Handler.get
  if (s.sessions sid).isSome then
    Handler.modify fun s => { s with
      sessions := fun id => if id = sid then none else s.sessions id
      state := { s.state with backchannels := s.state.backchannels.remove sid } }
    return []
  else Handler.stop ERR_BADSESSION

def evalDestroyClientid : Op4 (List XdrItem) := do
  let clientid ← u64
  let s ← Handler.get
  if (s.state.clients.get clientid).isSome then
    Handler.modify fun s => { s with
      sessions := dropSessions clientid s.sessions
      state := { s.state with
        clients := s.state.clients.remove clientid, opens := [], locks := [], delegations := [] } }
    return []
  else Handler.stop ERR_STALE_CLIENTID

def evalBindConnToSession : Op4 (List XdrItem) := do
  let sid ← fixed 16
  let dir ← u32
  let _ ← bool
  let s ← Handler.get
  if (s.sessions sid).isNone then Handler.stop ERR_BADSESSION
  else return [.fixed sid, .u32 (min (max dir 1) 3), .bool false]

def evalReclaimComplete : Op4 (List XdrItem) := do
  let _ ← bool
  return []

/-- `State::new_other`: a fresh `other` of a kind (1 an open, 2 a delegation, 3 a lock). -/
def State.newOther (st : State) (kind : UInt8) : Other × State :=
  (be64 st.nextOther ++ [kind] ++ st.bootVerifier.take 3, { st with nextOther := st.nextOther + 1 })

def anonymous : Other := List.replicate 12 0
def bypass : Other := List.replicate 12 255

def State.stateidIsStale (st : State) (other : Other) : Bool :=
  other ≠ anonymous && other ≠ bypass && (other.drop 9).take 3 ≠ st.bootVerifier.take 3

def State.stateidOk (st : State) (seq : UInt32) (other : Other) : Bool :=
  if other = anonymous then seq = 0 || seq = 1
  else other = bypass || (st.opens.get other).isSome || (st.locks.get other).isSome ||
    st.delegations.any fun d => d.2.stateidOther = other

def Ctx.resolveStateid (c : Ctx) (seq : UInt32) (other : Other) : Other :=
  if other = anonymous && seq = 1 then (c.currentStateid.map Prod.fst).getD other else other

def checkStateid (seq : UInt32) (other : Other) : Op4 Unit := do
  let st ← state
  if st.stateidOk seq other then return ()
  else if st.stateidIsStale other then Handler.stop ERR_STALE_STATEID
  else Handler.stop ERR_BAD_STATEID

def evalClose : Op4 (List XdrItem) := do
  let _ ← u32
  let (seq, other) ← stateid
  let other := (← ctx).resolveStateid seq other
  let st ← state
  if (st.opens.get other).isSome then
    setState fun st => { st with opens := st.opens.remove other }
    return [.u32 (seq + 1), .fixed other]
  else Handler.stop ERR_BAD_STATEID

def evalOpenDowngrade : Op4 (List XdrItem) := do
  let (seq, other) ← stateid
  let _ ← u32
  let access ← u32
  let _ ← u32
  let other := (← ctx).resolveStateid seq other
  let st ← state
  match st.opens.get other with
  | some os =>
    let os := { os with shareAccess := access &&& 3, seqid := os.seqid + 1 }
    setState fun st => { st with opens := st.opens.insert other os }
    return [.u32 os.seqid, .fixed other]
  | none => Handler.stop ERR_BAD_STATEID

def evalDelegreturn : Op4 (List XdrItem) := do
  let (_, other) ← stateid
  let st ← state
  match st.delegations.find? fun d => d.2.stateidOther = other with
  | some (node, _) =>
    setState fun st => { st with delegations := st.delegations.remove node }
    return []
  | none => Handler.stop (if st.stateidIsStale other then ERR_STALE_STATEID else ERR_BAD_STATEID)

def stateids : Nat → Op4 (List Other)
  | 0 => return []
  | n + 1 => do
    let (_, other) ← stateid
    let rest ← stateids n
    return other :: rest

def evalTestStateid : Op4 (List XdrItem) := do
  let n ← u32
  if n.toNat > 64 then Handler.stop ERR_BADXDR
  else
    let ids ← stateids n.toNat
    let st ← state
    return .u32 (.ofNat ids.length) :: ids.map fun other => .u32 (
      if (st.opens.get other).isSome || st.delegations.any (fun d => d.2.stateidOther = other) then
        NFS4_OK
      else if st.stateidIsStale other then ERR_STALE_STATEID else ERR_BAD_STATEID)

def evalFreeStateid : Op4 (List XdrItem) := do
  let (_, other) ← stateid
  setState fun st => { st with opens := st.opens.remove other, locks := st.locks.remove other }
  return []

def lockOther (newOwner : Bool) : Op4 Other := do
  if newOwner then
    let _ ← u32
    let (oseq, oother) ← stateid
    let _ ← u32
    let _ ← u64
    let _ ← opaqueData 1024
    let oother := (← ctx).resolveStateid oseq oother
    match (← state).opens.get oother with
    | none => Handler.stop ERR_BAD_STATEID
    | some o =>
      let (other, st) := (← state).newOther 3
      setState fun _ => { st with locks := st.locks.insert other o.node }
      return other
  else
    let (_, lother) ← stateid
    let _ ← u32
    match (← state).locks.get lother with
    | none => Handler.stop ERR_BAD_STATEID
    | some _ => return lother

/-- Byte-range locks are always granted. -/
def evalLock : Op4 (List XdrItem) := do
  let _ ← u32
  let _ ← bool
  let _ ← u64
  let _ ← u64
  let newOwner ← bool
  let other ← lockOther newOwner
  setCtx fun c => { c with currentStateid := some (other, 1) }
  return [.u32 1, .fixed other]

def evalLockt : Op4 (List XdrItem) := do
  let _ ← u32
  let _ ← u64
  let _ ← u64
  let _ ← u64
  let _ ← opaqueData 1024
  return []

def evalLocku : Op4 (List XdrItem) := do
  let _ ← u32
  let _ ← u32
  let (seq, other) ← stateid
  let _ ← u64
  let _ ← u64
  let other := (← ctx).resolveStateid seq other
  if ((← state).locks.get other).isNone then Handler.stop ERR_BAD_STATEID
  else return [.u32 (seq + 1), .fixed other]

section

variable (ex : Export)

def evalSecinfoNoName : Op4 (List XdrItem) := do
  let _ ← u32
  let _ ← needCfh
  setCtx fun c => { c with cfh := none }
  return [.u32 2, .u32 1, .u32 0]

def evalPutrootfh : Op4 (List XdrItem) := do
  setCtx fun c => { c with cfh := some (ex.shareId, ex.root) }
  return []

/-- The share in the handle becomes that of the current file handle. -/
def evalPutfh : Op4 (List XdrItem) := do
  let fh ← opaqueData 128
  match ex.codec.decode fh with
  | some fh =>
    setCtx fun c => { c with cfh := some fh }
    return []
  | none => Handler.stop ERR_BADHANDLE

def evalGetfh : Op4 (List XdrItem) := do
  let (share, node) ← needCfh
  return [.opaqueData (ex.codec.encode share node)]

def evalSavefh : Op4 (List XdrItem) := do
  let fh ← needCfh
  setCtx fun c => { c with sfh := some fh }
  return []

def evalRestorefh : Op4 (List XdrItem) := do
  match (← ctx).sfh with
  | some fh =>
    setCtx fun c => { c with cfh := some fh }
    return []
  | none => Handler.stop ERR_RESTOREFH

def checkName (name : List UInt8) : Op4 Unit :=
  if name.length > 255 then Handler.stop ERR_NAMETOOLONG else return ()

def evalLookup : Op4 (List XdrItem) := do
  let name ← opaqueData 4096
  let (share, dir) ← needCfh
  checkName name
  let (node, _) ← callOk (MountSurface.lookup dir name)
  setCtx fun c => { c with cfh := some (share, node) }
  return []

def evalLookupp : Op4 (List XdrItem) := do
  let (share, node) ← needCfh
  let parent ← callOk (MountSurface.parent node)
  setCtx fun c => { c with cfh := some (share, parent) }
  return []

def evalGetattr : Op4 (List XdrItem) := do
  let req ← bitmap
  let (share, node) ← needCfh
  let attr ← callOk (MountSurface.getattr node)
  let fs ← call MountSurface.fsstat
  return encodeFattr4 req attr node.ino share (some (ex.codec.encode share node)) fs

def evalAccess : Op4 (List XdrItem) := do
  let want ← u32
  let (_, node) ← needCfh
  let attr ← callOk (MountSurface.getattr node)
  let granted : UInt32 := 0x01 ||| 0x02
  let granted := if ex.writable then granted ||| 0x04 ||| 0x08 ||| 0x10 else granted
  let granted := if attr.kind ≠ .dir then (granted &&& ~~~0x02) ||| 0x20 else granted
  return [.u32 (granted &&& want ||| (granted &&& 0x3f)), .u32 (granted &&& want)]

def evalReadlink : Op4 (List XdrItem) := do
  let (_, node) ← needCfh
  let target ← callOk (MountSurface.readlink node)
  return [.opaqueData target]

/-- The entries that fit the client's limit, each in its own bytes, and whether they all did. -/
def fitEntries (share : UInt16) (req : Bitmap) (fs : FsStat) :
    Nat → List DirEntry → List XdrItem × Bool
  | _, [] => ([], true)
  | budget, e :: es =>
    let attr := e.attr.getD ⟨.reg, 0, 1, 0, 0, 0, 0, ⟨0, 0⟩, ⟨0, 0⟩, 0, 0, none⟩
    let items := XdrItem.u64 (max e.cookie 3) :: XdrItem.opaqueData e.name ::
      encodeFattr4 req attr e.node.ino share (some (ex.codec.encode share e.node)) fs
    let bytes := items.flatMap XdrItem.bytes
    if bytes.length + 8 > budget then ([], false)
    else
      let (rest, all) := fitEntries share req fs (budget - (bytes.length + 4)) es
      (.bool true :: .fixed bytes :: rest, all)

def evalReaddir : Op4 (List XdrItem) := do
  let cookie ← u64
  let _ ← fixed 8
  let _ ← u32
  let maxcount ← u32
  let req ← bitmap
  let (share, dir) ← needCfh
  let page ← callOk (MountSurface.readdir dir cookie 4096 true)
  let fs ← call MountSurface.fsstat
  let (entries, all) := fitEntries ex share req fs (min maxcount.toNat (MAX_RECORD.toNat - 512))
    page.entries
  return .fixed (be64 page.cookieverf) :: entries ++ [.bool false, .bool (page.eof && all)]

/-- The file a READ may be sent from, if it is the last operation and that is allowed. -/
def sendable (isLast allowSendfile : Bool) (node : NodeKey) (offset : UInt64) (count : UInt32) :
    Op4 (Option SendableRead) :=
  if isLast && allowSendfile then call (MountSurface.readSendable node offset count) else return none

/-- A read goes out from a local file, into the reply, or by a copy. -/
def evalRead (isLast allowSendfile : Bool) : Op4 (List XdrItem) := do
  let (seq, other) ← stateid
  let offset ← u64
  let count ← u32
  let count := min count MAX_READ
  let (_, node) ← needCfh
  checkStateid seq other
  match ← sendable isLast allowSendfile node offset count with
  | some body =>
    Handler.modify fun s => { s with tail := some body }
    return [.bool body.eof, .u32 body.len]
  | none =>
    match ← call (MountSurface.readInto node offset count) with
    | some (.ok res) => return [.bool res.eof, .opaqueData res.data]
    | some (.error e) => Handler.stop (nfsstatOf e)
    | none =>
      let res ← callOk (MountSurface.read node offset count)
      return [.bool res.eof, .opaqueData res.data]

def evalWrite : Op4 (List XdrItem) := do
  let (seq, other) ← stateid
  let offset ← u64
  let stable ← u32
  let data ← opaqueData (MAX_WRITE.toNat + 16)
  let (_, node) ← needCfh
  if !ex.writable then Handler.stop ERR_ROFS
  else
    checkStateid seq other
    let _ ← callOk (MountSurface.write node offset data (stable ≠ 0))
    let verifier := (← state).bootVerifier
    return [.u32 (.ofNat data.length), .u32 (if stable ≠ 0 || ex.writesAreStable then 2 else 0),
      .fixed verifier]

def evalCommit : Op4 (List XdrItem) := do
  let offset ← u64
  let count ← u32
  let (_, node) ← needCfh
  let _ ← callOk (MountSurface.commit node offset count.toUInt64)
  let verifier := (← state).bootVerifier
  return [.fixed verifier]

def dirChange (dir : NodeKey) : Op4 UInt64 := do
  match ← call (MountSurface.getattr dir) with
  | .ok a => return changeOf a
  | .error _ => return 0

def changeInfo (before after : UInt64) : List XdrItem := [.bool true, .u64 before, .u64 after]

/-- The object of a CREATE; regular files come by OPEN. -/
def createKind (objtype : UInt32) : Op4 CreateKind := do
  if objtype = 2 then return .dir
  else if objtype = 5 then
    let target ← opaqueData 4096
    return .symlink target
  else if objtype = 3 || objtype = 4 then
    let major ← u32
    let minor ← u32
    return .device (objtype = 3) major minor
  else if objtype = 6 then return .socket
  else if objtype = 7 then return .fifo
  else Handler.stop ERR_BADTYPE

def modeBitmap (set : Bool) : List XdrItem :=
  (if set then Bitmap.default.set A_MODE else Bitmap.default).encode

def evalCreate (now : Ts) : Op4 (List XdrItem) := do
  let objtype ← u32
  let kind ← createKind objtype
  let name ← opaqueData 4096
  let (sa, _) ← settable now
  let (share, dir) ← needCfh
  checkName name
  let before ← dirChange dir
  let (node, _) ← callOk (MountSurface.create dir name kind (sa.mode.getD 0x1ed))
  setCtx fun c => { c with cfh := some (share, node) }
  let after ← dirChange dir
  return changeInfo before after ++ modeBitmap sa.mode.isSome

def evalRemove : Op4 (List XdrItem) := do
  let name ← opaqueData 4096
  let (_, dir) ← needCfh
  checkName name
  let isDir := match ← call (MountSurface.lookup dir name) with
    | .ok (_, a) => decide (a.kind = .dir)
    | .error _ => false
  let before ← dirChange dir
  callOk (MountSurface.remove dir name isDir)
  let after ← dirChange dir
  return changeInfo before after

def evalRename : Op4 (List XdrItem) := do
  let old ← opaqueData 4096
  let new ← opaqueData 4096
  match (← ctx).sfh with
  | none => Handler.stop ERR_NOFILEHANDLE
  | some (_, srcDir) =>
    let (_, dstDir) ← needCfh
    checkName old
    checkName new
    let sb ← dirChange srcDir
    let db ← dirChange dstDir
    callOk (MountSurface.rename srcDir old dstDir new)
    let sa ← dirChange srcDir
    let da ← dirChange dstDir
    return changeInfo sb sa ++ changeInfo db da

def evalLink : Op4 (List XdrItem) := do
  let _ ← opaqueData 4096
  Handler.stop ERR_NOTSUPP

def evalSetattr (now : Ts) : Op4 (List XdrItem) := do
  let (seq, other) ← stateid
  let (sa, bm) ← settable now
  let (_, node) ← needCfh
  if !ex.writable then Handler.stop ERR_ROFS
  else if sa.size.isSome && !(← state).stateidOk seq other then Handler.stop ERR_BAD_STATEID
  else
    let _ ← callOk (MountSurface.setattr node sa)
    return bm.encode

def evalVerify : Op4 (List XdrItem) := do
  let _ ← bitmap
  let _ ← opaqueData 65536
  Handler.stop ERR_NOTSUPP

structure HowCreate where
  createattrs : Option NfsSetAttr
  exclusive : Bool
  guarded : Bool

def howCreate (now : Ts) (opentype : UInt32) : Op4 HowCreate := do
  if opentype = 1 then
    let how ← u32
    if how = 0 || how = 1 then
      let (sa, _) ← settable now
      return ⟨some sa, false, how = 1⟩
    else if how = 2 then
      let _ ← fixed 8
      return ⟨none, true, false⟩
    else if how = 3 then
      let _ ← fixed 8
      let (sa, _) ← settable now
      return ⟨some sa, true, false⟩
    else Handler.stop ERR_BADXDR
  else return ⟨none, false, false⟩

/-- The node an OPEN is for, the directory's change before and after, and whether it was created. -/
structure Opened where
  node : NodeKey
  before : UInt64
  after : UInt64
  created : Bool

def openByName (opentype : UInt32) (how : HowCreate) (dir : NodeKey) : Op4 Opened := do
  let name ← opaqueData 4096
  checkName name
  let before ← dirChange dir
  match ← call (MountSurface.lookup dir name) with
  | .ok (node, attr) =>
    if attr.kind = .dir then Handler.stop ERR_ISDIR
    else if opentype = 1 && how.guarded then Handler.stop ERR_EXIST
    else
      match how.createattrs.filter fun s => s.size = some 0 with
      | some sa =>
        if !ex.writable then Handler.stop ERR_ROFS
        else
          let _ ← callOk (MountSurface.setattr node sa)
          let after ← dirChange dir
          return ⟨node, before, after, false⟩
      | none =>
        let after ← dirChange dir
        return ⟨node, before, after, false⟩
  | .error e =>
    if e = .noEnt && opentype = 1 then
      if !ex.writable then Handler.stop ERR_ROFS
      else
        let mode := ((how.createattrs.bind NfsSetAttr.mode).getD 0x1a4)
        let (node, _) ← callOk (MountSurface.create dir name (.file how.exclusive) mode)
        let after ← dirChange dir
        return ⟨node, before, after, true⟩
    else Handler.stop (nfsstatOf e)

/-- The claim of an OPEN: by name, of the current file handle, under a delegation, or a reclaim. -/
def openClaim (opentype : UInt32) (how : HowCreate) (claim : UInt32) (dirfh : NodeKey) :
    Op4 Opened := do
  if claim = 0 then openByName ex opentype how dirfh
  else if claim = 4 then return ⟨dirfh, 0, 0, false⟩
  else if claim = 2 then
    let _ ← stateid
    let name ← opaqueData 4096
    let (node, _) ← callOk (MountSurface.lookup dirfh name)
    return ⟨node, 0, 0, false⟩
  else if claim = 5 then
    let _ ← stateid
    return ⟨dirfh, 0, 0, false⟩
  else if claim = 1 then
    let _ ← u32
    return ⟨dirfh, 0, 0, false⟩
  else if claim = 6 then Handler.stop ERR_NO_GRACE
  else Handler.stop ERR_BADXDR

/-- Register an open: a second one of the same owner on the same file keeps its stateid. -/
def State.registerOpen (st : State) (node : NodeKey) (owner : List UInt8) (shareAccess : UInt32) :
    (Other × UInt32) × State :=
  match st.opens.find? fun p => p.2.node = node && p.2.owner = owner with
  | some (other, os) =>
    let os := { os with
      seqid := os.seqid + 1, shareAccess := os.shareAccess ||| (shareAccess &&& 3) }
    ((other, os.seqid), { st with opens := st.opens.insert other os })
  | none =>
    let (other, st) := st.newOther 1
    ((other, 1), { st with opens := st.opens.insert other ⟨node, 1, shareAccess &&& 3, owner⟩ })

/-- Grant a read delegation on a read-only open of an existing file, one on a node, up to a cap. -/
def State.maybeGrantDelegation (st : State) (node : NodeKey) (shareAccess : UInt32)
    (created : Bool) : Option Other × State :=
  if created || shareAccess &&& 2 ≠ 0 then (none, st)
  else if st.delegations.length ≥ DELEG_CAP || (st.delegations.get node).isSome then (none, st)
  else
    let (other, st) := st.newOther 2
    (some other, { st with delegations := st.delegations.insert node ⟨other, false⟩ })

def evalOpen (now : Ts) : Op4 (List XdrItem) := do
  let _ ← u32
  let shareAccess ← u32
  let _ ← u32
  let _ ← u64
  let owner ← opaqueData 1024
  let opentype ← u32
  let how ← howCreate now opentype
  let claim ← u32
  let (share, dirfh) ← needCfh
  let o ← openClaim ex opentype how claim dirfh
  let ((other, seq), st) := (← state).registerOpen o.node owner shareAccess
  setState fun _ => st
  setCtx fun c => { c with cfh := some (share, o.node), currentStateid := some (other, seq) }
  let (deleg, st) := (← state).maybeGrantDelegation o.node shareAccess o.created
  setState fun _ => st
  return [.u32 seq, .fixed other] ++ changeInfo o.before o.after ++ [.u32 0x4] ++
    modeBitmap o.created ++
    match deleg with
    | some other =>
      [.u32 1, .u32 1, .fixed other, .bool false, .u32 0, .u32 0, .u32 0,
        .opaqueData [69, 86, 69, 82, 89, 79, 78, 69, 64]]
    | none => [.u32 0]

/-- `eval_op`: the result behind the operation's code and status. -/
def evalOp (now : Ts) (isLast allowSendfile : Bool) (op : UInt32) : Op4 (List XdrItem) :=
  if op = OP_EXCHANGE_ID then evalExchangeId
  else if op = OP_CREATE_SESSION then evalCreateSession
  else if op = OP_DESTROY_SESSION then evalDestroySession
  else if op = OP_DESTROY_CLIENTID then evalDestroyClientid
  else if op = OP_BIND_CONN_TO_SESSION then evalBindConnToSession
  else if op = OP_RECLAIM_COMPLETE then evalReclaimComplete
  else if op = OP_SECINFO_NO_NAME then evalSecinfoNoName
  else if op = OP_PUTROOTFH || op = OP_PUTPUBFH then evalPutrootfh ex
  else if op = OP_PUTFH then evalPutfh ex
  else if op = OP_GETFH then evalGetfh ex
  else if op = OP_SAVEFH then evalSavefh
  else if op = OP_RESTOREFH then evalRestorefh
  else if op = OP_LOOKUP then evalLookup
  else if op = OP_LOOKUPP then evalLookupp
  else if op = OP_GETATTR then evalGetattr ex
  else if op = OP_ACCESS then evalAccess ex
  else if op = OP_READLINK then evalReadlink
  else if op = OP_READDIR then evalReaddir ex
  else if op = OP_OPEN then evalOpen ex now
  else if op = OP_CLOSE then evalClose
  else if op = OP_OPEN_DOWNGRADE then evalOpenDowngrade
  else if op = OP_READ then evalRead isLast allowSendfile
  else if op = OP_WRITE then evalWrite ex
  else if op = OP_COMMIT then evalCommit
  else if op = OP_CREATE then evalCreate now
  else if op = OP_REMOVE then evalRemove
  else if op = OP_RENAME then evalRename
  else if op = OP_LINK then evalLink
  else if op = OP_SETATTR then evalSetattr ex now
  else if op = OP_DELEGRETURN then evalDelegreturn
  else if op = OP_TEST_STATEID then evalTestStateid
  else if op = OP_FREE_STATEID then evalFreeStateid
  else if op = OP_LOCK then evalLock
  else if op = OP_LOCKT then evalLockt
  else if op = OP_LOCKU then evalLocku
  else if op = OP_NVERIFY || op = OP_VERIFY then evalVerify
  else if op = OP_ILLEGAL then Handler.stop ERR_OP_ILLEGAL
  else Handler.stop ERR_NOTSUPP

/-- A connection carries the backchannel of a session from the first SEQUENCE on it. -/
def State.carry (st : State) (conn : Nat) (sid : List UInt8) : State :=
  if (conn, sid) ∈ st.bound then st
  else { st with bound := st.bound ++ [(conn, sid)], backchannels := st.backchannels.insert sid conn }

/-- The state of a server with its surface; `asked` are the operations of the surface it called. -/
structure Live41 (ς : Type) where
  state : State
  surface : ς
  asked : List Call

def opEnd {ς : Type} (op : UInt32) (s : Nfs41 (Live41 ς))
    (e : Asks.End Call (Except UInt32 (List XdrItem) × OpState) ς) :
    OpEnd (Live41 ς) Ctx SendableRead :=
  let o := e.result.2
  let server : Nfs41 (Live41 ς) := ⟨o.sessions, ⟨o.state, e.state, s.rest.asked ++ e.asked⟩⟩
  match e.result.1 with
  | .ok items => ⟨NFS4_OK, .u32 op :: .u32 NFS4_OK :: items, o.reader, o.ctx, server, o.tail⟩
  | .error status => ⟨status, [.u32 op, .u32 status], o.reader, o.ctx, server, o.tail⟩

def runOp {ς : Type} (answer : (q : Call) → ς → q.Answer × ς) (now : Ts) (op : UInt32)
    (isLast allowSendfile : Bool) (r : XdrReader) (c : Ctx) (s : Nfs41 (Live41 ς)) :
    Asks.End Call (Except UInt32 (List XdrItem) × OpState) ς :=
  (evalOp ex now isLast allowSendfile op ⟨r, c, s.sessions, s.rest.state, none⟩).run answer
    s.rest.surface

end

end Mist.Nfs
