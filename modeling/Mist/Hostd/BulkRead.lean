import Mist.Proto
import Mathlib.Logic.Function.Basic

/-! Reads through to the guest.  The guest answers a read with a header on the RPC lane and streams
the bytes as chunks on one of the bulk lanes. -/

namespace Mist.BulkRead

def READ_CHUNK : Nat := 262144

def EISDIR : Int32 := 21

structure RpcErr where
  errno : Int32
  msg : String
  deriving DecidableEq

inductive RpcResp where
  | readStart (len : Nat) (eof : Bool)
  | err (e : RpcErr)

/-- The content of a regular file; its size is a `u64`. -/
structure File where
  bytes : List UInt8
  sized : bytes.length ≤ u64Max.toNat
  deriving DecidableEq

inductive Inode where
  | regular (file : File)
  | other

abbrev Guest := NodeKey → Except Int32 Inode

def fileAt (guest : Guest) (node : NodeKey) : Option File :=
  match guest node with
  | .ok (.regular file) => some file
  | _ => none

structure ReadPlan where
  header : RpcResp
  /-- Offset and length, when there are bytes to stream. -/
  stream : Option (Nat × Nat)

def readPlan (found : Except Int32 Inode) (off len : Nat) : ReadPlan :=
  match found with
  | .error errno => ⟨.err ⟨errno, "read"⟩, none⟩
  | .ok .other => ⟨.err ⟨EISDIR, "read"⟩, none⟩
  | .ok (.regular file) =>
    let size := file.bytes.length
    let fin := min size (min (off + len) u64Max.toNat)
    let n := fin - off
    ⟨.readStart n (decide (size ≤ fin)), if 0 < n then some (off, n) else none⟩

/-- One `pread`, which may stop after any number `k` of bytes. -/
def preadChunk (file : File) (off want k : Nat) : List UInt8 :=
  (file.bytes.drop off).take (min (min want READ_CHUNK) k)

/-- What travels on a bulk lane: records of the event stream, and chunks of reads. -/
inductive BulkMsg where
  | event
  | raw (seq : Nat) (more : Bool) (bytes : List UInt8)

def bulkSender (bulks : List Nat) (hint : Nat) : Option Nat := bulks[hint % bulks.length]?

def attachLane (bulks : List Nat) (i tx : Nat) : List Nat :=
  (bulks ++ List.replicate (i + 1 - bulks.length) tx).set i tx

inductive Task where
  | requested
  | planned (off n : Nat)
  | streaming (off n sent : Nat)
  | done
  deriving DecidableEq

inductive SessionError where
  | other (msg : String)

inductive Host where
  | header
  | body (total : Nat) (eof : Bool) (buf : List UInt8)
  | returned (result : Except SessionError (List UInt8 × Bool))

/-- A read.  `seen`, `plan` and `out` only record what happened: the contents the file had since the
read was issued, the latest first, the guest's plan, and the bytes streamed so far. -/
structure Read where
  node : NodeKey
  off : Nat
  len : Nat
  seen : List File
  plan : Option ReadPlan
  out : List UInt8
  task : Task
  bulk : Option Nat
  header : Option RpcResp
  sink : Bool
  chan : List (List UInt8)
  host : Host

namespace Read

/-- A read that is issued: both entries of `Pending` are made before the request is sent. -/
def issued (guest : Guest) (node : NodeKey) (off len : Nat) : Read where
  node := node
  off := off
  len := len
  seen := (fileAt guest node).toList
  plan := none
  out := []
  task := .requested
  bulk := none
  header := none
  sink := true
  chan := []
  host := .header

def returned (r : Read) : Bool :=
  match r.host with
  | .returned _ => true
  | _ => false

/-- The guest has the request: it sends the header and goes on to the stream, if there is one. -/
def planned (r : Read) (p : ReadPlan) : Read :=
  { r with
    plan := some p
    task := match p.stream with
      | some (off, n) => .planned off n
      | none => .done }

def start (r : Read) (tx : Nat) : Option Read :=
  match r.task with
  | .planned off n => some { r with bulk := some tx, task := .streaming off n 0 }
  | _ => none

/-- One turn of the loop of `stream_read`, and what follows the loop. -/
def stream (r : Read) (file : File) (seq k : Nat) : Option (BulkMsg × Read) :=
  match r.task with
  | .streaming off n sent =>
    let chunk := preadChunk file (off + sent) (min (n - sent) READ_CHUNK) k
    if chunk = [] then some (.raw seq false [], { r with task := .done })
    else
      let sent' := sent + chunk.length
      some (.raw seq (decide (sent' < n)) chunk,
        { r with
          out := r.out ++ chunk
          task := if sent' < n then .streaming off n sent' else .done })
  | _ => none

def deliverChunk (r : Read) (bytes : List UInt8) (more : Bool) : Read :=
  if r.sink then
    { r with
      chan := if bytes = [] then r.chan else r.chan ++ [bytes]
      sink := more }
  else r

def takeHeader (r : Read) : Option Read :=
  match r.host, r.header with
  | .header, some (.readStart total eof) =>
    some { r with host := if 0 < total then .body total eof [] else .returned (.ok ([], eof)) }
  | .header, some (.err e) =>
    some { r with
      sink := false
      host := .returned (.error (.other
        ("read failed: errno " ++ toString e.errno ++ " (" ++ e.msg ++ ")"))) }
  | _, _ => none

/-- One turn of the receiving loop; without a chunk it waits as long as the sink is there. -/
def recv (r : Read) : Option Read :=
  match r.host with
  | .body total eof buf =>
    match r.chan with
    | chunk :: rest =>
      let buf' := buf ++ chunk
      some { r with
        chan := rest
        host := if total ≤ buf'.length then .returned (.ok (buf', eof)) else .body total eof buf' }
    | [] => if r.sink then none else some { r with host := .returned (.ok (buf, eof)) }
  | _ => none

def notice (r : Read) (node : NodeKey) (file : File) : Read :=
  if r.node = node ∧ r.returned = false then { r with seen := file :: r.seen } else r

end Read

inductive Call where
  | other
  | read (r : Read)

def Call.notice (node : NodeKey) (file : File) : Call → Call
  | .other => .other
  | .read r => .read (r.notice node file)

/-- `bulks` are the guest's senders by lane index, `lanes` what each of them has under way, `resps`
the headers under way on the RPC lane. -/
structure State where
  guest : Guest
  calls : List Call
  resps : List (Nat × RpcResp)
  bulks : List Nat
  lanes : List (List BulkMsg)

def State.init (guest : Guest) : State := ⟨guest, [.other], [], [], []⟩

inductive Action where
  | call
  | issue (node : NodeKey) (off len : Nat)
  | attach (i : Nat)
  | event (tx : Nat)
  | write (node : NodeKey) (file : File)
  | plan (seq : Nat)
  | start (seq : Nat)
  | stream (seq k : Nat)
  | resp
  | bulk (tx : Nat)
  | header (seq : Nat)
  | recv (seq : Nat)

/-- The steps of the reads themselves, as opposed to what happens around them. -/
def Action.internal : Action → Bool
  | .call | .issue .. | .attach _ | .event _ | .write .. => false
  | .plan _ | .start _ | .stream .. | .resp | .bulk _ | .header _ | .recv _ => true

namespace State

variable (s : State)

def getRead (seq : Nat) : Option Read :=
  match s.calls[seq]? with
  | some (.read r) => some r
  | _ => none

def setRead (seq : Nat) (r : Read) : State := { s with calls := s.calls.set seq (.read r) }

def send (tx : Nat) (msg : BulkMsg) : State := { s with lanes := s.lanes.modify tx (· ++ [msg]) }

def onResp (seq : Nat) (h : RpcResp) : State :=
  match s.getRead seq with
  | some r => s.setRead seq { r with header := some h }
  | none => s

def onBulk : BulkMsg → State
  | .event => s
  | .raw seq more bytes =>
    match s.getRead seq with
    | some r => s.setRead seq (r.deliverChunk bytes more)
    | none => s

def step : Action → Option State
  | .call => some { s with calls := s.calls ++ [.other] }
  | .issue node off len =>
    some { s with calls := s.calls ++ [.read (.issued s.guest node off len)] }
  | .attach i =>
    some { s with
      bulks := attachLane s.bulks i s.lanes.length
      lanes := s.lanes ++ [[]] }
  | .event tx => some (s.send tx .event)
  | .write node file => do
    let _ ← fileAt s.guest node
    some { s with
      guest := Function.update s.guest node (.ok (.regular file))
      calls := s.calls.map (Call.notice node file) }
  | .plan seq => do
    let r ← s.getRead seq
    if r.task = .requested then
      let p := readPlan (s.guest r.node) r.off r.len
      some { s.setRead seq (r.planned p) with resps := s.resps ++ [(seq, p.header)] }
    else none
  | .start seq => do
    let r ← s.getRead seq
    let tx ← bulkSender s.bulks seq
    let r' ← r.start tx
    some (s.setRead seq r')
  | .stream seq k => do
    let r ← s.getRead seq
    let tx ← r.bulk
    let file ← fileAt s.guest r.node
    let turn ← r.stream file seq (k + 1)
    some ((s.setRead seq turn.2).send tx turn.1)
  | .resp =>
    match s.resps with
    | (seq, h) :: rest => some (({ s with resps := rest } : State).onResp seq h)
    | [] => none
  | .bulk tx => do
    let queue ← s.lanes[tx]?
    match queue with
    | msg :: rest => some (({ s with lanes := s.lanes.set tx rest } : State).onBulk msg)
    | [] => none
  | .header seq => do
    let r ← s.getRead seq
    let r' ← r.takeHeader
    some (s.setRead seq r')
  | .recv seq => do
    let r ← s.getRead seq
    let r' ← r.recv
    some (s.setRead seq r')

end State

end Mist.BulkRead
