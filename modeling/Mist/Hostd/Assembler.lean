import Mist.Replica.Apply

/-! The assembler of a session, for one share: a snapshot goes to a staging replica, and the batches
that arrive meanwhile are replayed on it. -/

namespace Mist

/-- `ShareId(u16::MAX)`: the batch is for all shares. -/
def allShares : ShareId := ⟨0xffff⟩

/-- `SEQ_ADOPT`: the first live batch sets the sequence. -/
def seqAdopt : UInt64 := u64Max

def JournalBatch.fin (b : JournalBatch) : UInt64 := b.firstSeq + b.records.length.toUInt64

abbrev MacDirty := List ((ShareId × NodeKey) × Nat)

def macDirtyWindow : Nat := 5000

def noteMacDirty (m : MacDirty) (now : Nat) (share : ShareId) (node : NodeKey) : MacDirty :=
  let m := if 4096 < m.length then m.filter fun e => now - e.2 < macDirtyWindow else m
  ((share, node), now) :: m.filter fun e => e.1 ≠ (share, node)

def isMacDirty (m : MacDirty) (now : Nat) (share : ShareId) (node : NodeKey) : Bool :=
  (m.lookup (share, node)).any fun t => now - t < macDirtyWindow

def Rec.isAttr : Rec → Bool
  | .content _ _ _ _ _ => true
  | .attrChanged _ _ => true
  | _ => false

namespace ShareReplica

/-- The node a record changes, looked up before the record is applied. -/
def conflictedNode (r : ShareReplica) : Rec → Option NodeKey
  | .content node _ _ _ _ => some node
  | .attrChanged node _ => some node
  | .removed parent name => (r.lookup parent name).toOption.map Prod.fst
  | _ => none

/-- The directories a record gives a new mtime, unless it is an echo. -/
def parents (dirty : NodeKey → Bool) (echo : Bool) : Rec → List NodeKey
  | .created parent _ node _ => if dirty node then [] else [parent]
  | .createdBatch parent entries =>
    if entries.head?.all fun e => !dirty e.node then [parent] else []
  | .removed parent _ => if echo then [] else [parent]
  | .renamed fromParent _ toParent _ =>
    if dirty fromParent || dirty toParent then [] else [fromParent, toParent]
  | _ => []

/-- One record of a live batch; the flag asks for a resync. -/
def onRec (r : ShareReplica) (dirty : NodeKey → Bool) (rec : Rec) : ShareReplica × Bool :=
  let echo := (r.conflictedNode rec).any dirty
  if echo && rec.isAttr then (r, false)
  else ((parents dirty echo rec).foldl bumpDirAttr (r.applyRec rec).1,
    (r.applyRec rec).2 = .needResync)

def onRecs (r : ShareReplica) (dirty : NodeKey → Bool) : List Rec → ShareReplica × Bool
  | [] => (r, false)
  | rec :: recs =>
    let rest := (r.onRec dirty rec).1.onRecs dirty recs
    (rest.1, (r.onRec dirty rec).2 || rest.2)

def replayBuffer (r : ShareReplica) (batches : List JournalBatch) : ShareReplica :=
  batches.foldl (fun r b => b.records.foldl (fun r rec => (r.applyRec rec).1) r) r

end ShareReplica

/-- A snapshot under way, with the batches that came in since it was asked for. -/
structure Staging where
  snapId : UInt64
  replica : ShareReplica
  journalBuf : List JournalBatch

def nextSeq (batches : List JournalBatch) : UInt64 :=
  batches.foldl (fun next b => if next = seqAdopt then b.fin else max next b.fin) seqAdopt

/-- One share of a session.  `requested` are the resyncs asked for, by snapshot id. -/
structure Assembler where
  info : ShareInfo
  now : Nat
  macDirty : MacDirty
  staging : Option Staging
  seq : Option UInt64
  replica : ShareReplica
  requested : List UInt64

namespace Assembler

def begin (s : Assembler) (snapId : UInt64) : Assembler :=
  { s with seq := none, staging := some ⟨snapId, .new s.info, []⟩ }

def requestResync (s : Assembler) (snapId : UInt64) : Assembler :=
  { s.begin snapId with requested := s.requested ++ [snapId] }

def onSnapDir (s : Assembler) (d : SnapDir) : Assembler :=
  match s.staging with
  | some st =>
    if st.snapId = d.snapId then
      match st.replica.applySnapDir d with
      | some replica => { s with staging := some { st with replica } }
      | none => s
    else s
  | none => s

def finishSeed (s : Assembler) (done : SnapDone) : Assembler :=
  match s.staging with
  | some st =>
    if st.snapId = done.snapId then
      let r := (st.replica.finishSnapshot done).1.replayBuffer st.journalBuf
      { s with
        staging := none
        replica := { r with state := .live }
        seq := some (nextSeq st.journalBuf) }
    else s
  | none => s

def applyBatch (s : Assembler) (b : JournalBatch) (snapId : UInt64) : Assembler :=
  let res := s.replica.onRecs (isMacDirty s.macDirty s.now s.info.id) b.records
  let s := { s with replica := res.1, seq := some b.fin }
  if res.2 then s.requestResync snapId else s

/-- A journal batch arrives; `snapId` is drawn in case a resync is asked for. -/
def onJournal (s : Assembler) (b : JournalBatch) (snapId : UInt64) : Assembler :=
  if b.share = allShares then s.requestResync snapId
  else if b.share ≠ s.info.id then s
  else
    match s.staging with
    | some st => { s with staging := some { st with journalBuf := st.journalBuf ++ [b] } }
    | none =>
      if s.replica.state ≠ .live then s
      else
        match s.seq with
        | none => s
        | some expected =>
          if expected ≠ seqAdopt ∧ b.firstSeq ≠ expected then s.requestResync snapId
          else s.applyBatch b snapId

end Assembler

end Mist
