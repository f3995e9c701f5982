import Mathlib.Data.List.Basic
import Mist.Runs
import Mist.Proto

/-! Write-behind of one node: the UNSTABLE writes with their background tasks, and the calls that
drain them. -/

namespace Mist

open Option

inductive NfsError where
  | noEnt | notDir | isDir | notSymlink | stale | access | io | jukebox | nameTooLong | notEmpty
  | exist | noSpace | rofs
  deriving DecidableEq

structure NodeWrites where
  inflight : Nat
  pendingRanges : List (UInt64 × UInt64 × Nat)
  nextBatchId : Nat
  err : Option NfsError
  dirty : Bool
  lastActive : Option Nat
  chainTail : Option Nat

def NodeWrites.empty : NodeWrites where
  inflight := 0
  pendingRanges := []
  nextBatchId := 0
  err := none
  dirty := false
  lastActive := none
  chainTail := none

/-- Where an UNSTABLE write is: up to `waiting` its call has got so far, after that its task. -/
inductive WritePhase where
  | received
  /-- The call has the node's queue. -/
  | got
  | active
  | counted
  | marked
  | numbered
  | ranged
  /-- The task is spawned, behind the previous batch of the queue. -/
  | waiting
  /-- The write-through is done, well or not. -/
  | written
  | recorded
  | unranged
  | finished
  deriving DecidableEq

def WritePhase.rank : WritePhase → Nat
  | .received => 0
  | .got => 1
  | .active => 2
  | .counted => 3
  | .marked => 4
  | .numbered => 5
  | .ranged => 6
  | .waiting => 7
  | .written => 8
  | .recorded => 9
  | .unranged => 10
  | .finished => 11

theorem WritePhase.rank_injective : Function.Injective WritePhase.rank := by
  intro p p' h
  cases p <;> cases p' <;> first | rfl | cases h

inductive Outcome where
  | pending
  | applied
  | failed (e : NfsError)
  deriving DecidableEq

def Outcome.isFailed : Outcome → Bool
  | .failed _ => true
  | _ => false

def Outcome.of : Option NfsError → Outcome
  | none => .applied
  | some e => .failed e

/-- An UNSTABLE write.  `synced` is the guest's: an fdatasync was issued after it was applied. -/
structure WriteCall where
  off : UInt64
  len : UInt64
  phase : WritePhase
  queue : Nat
  batch : Nat
  prev : Option Nat
  outcome : Outcome
  acked : Bool
  synced : Bool

/-- A call that drains the queue.  A COMMIT of length zero is of the whole file. -/
inductive Request where
  | read
  | setattr (size : Option UInt64)
  | commit (off len : UInt64)
  deriving DecidableEq

inductive CallPhase where
  | received
  /-- In the drain loop of a queue. -/
  | draining (queue : Nat)
  /-- Out of the loop, before it takes the error. -/
  | clear (queue : Nat)
  | drained
  /-- Before the guest has its `CommitRange`. -/
  | syncing
  | answered
  | failed (e : NfsError)
  | returned (res : Option NfsError)
  deriving DecidableEq

def CallPhase.isReturned : CallPhase → Bool
  | .returned _ => true
  | _ => false

/-- A call, with the writes that were acknowledged before it was received. -/
structure Call where
  req : Request
  phase : CallPhase
  covers : List Nat

/-- Write-behind of one node.  `queues` are all queues there ever were, for a call keeps the queue it
has when the map's `entry` is dropped. -/
structure WriteBehind where
  now : Nat
  queues : List NodeWrites
  entry : Option Nat
  writes : List WriteCall
  calls : List Call
  cleanups : List Nat

/-- `res` is how an RPC or the replica answers. -/
inductive Action where
  | tick (ms : Nat)
  | recvWrite (off len : UInt64)
  | write (i : Nat) (res : Option NfsError)
  | ack (i : Nat)
  | presync (i : Nat)
  | recv (req : Request)
  | call (c : Nat) (res : Option NfsError)
  | cleanup (k : Nat)
  | reap

/-- The actions that leave the queues and how far each write is. -/
def Action.isQuiet : Action → Bool
  | .tick _ | .ack _ | .presync _ | .recv _ | .call _ _ => true
  | _ => false

/-- The two tasks that may drop the map's entry. -/
def Action.isDrop : Action → Bool
  | .cleanup _ | .reap => true
  | _ => false

def Action.failedWrite : Action → Option NfsError
  | .write _ res => res
  | _ => none

def Action.failedCall : Action → Option NfsError
  | .call _ res => res
  | _ => none

/-- How long an idle queue is kept, in milliseconds. -/
def writeIdleReap : Nat := 20000

/-- How long after a COMMIT its clean-up runs, in milliseconds. -/
def cleanupDelay : Nat := 10000

def NodeWrites.idle (nw : NodeWrites) (now : Nat) : Bool :=
  nw.inflight = 0 && nw.lastActive.all fun t => writeIdleReap ≤ now - t

def saturatingAdd (a b : UInt64) : UInt64 := if a + b < a then u64Max else a + b

theorem saturatingAdd_toNat (a b : UInt64) :
    (saturatingAdd a b).toNat = min (a.toNat + b.toNat) 18446744073709551615 := by
  have hb := b.toNat_lt
  have hsum : (a + b).toNat = (a.toNat + b.toNat) % 18446744073709551616 := UInt64.toNat_add a b
  have hmax : u64Max.toNat = 18446744073709551615 := rfl
  simp only [saturatingAdd, UInt64.lt_iff_toNat_lt]
  split
  · omega
  · omega

/-- Whether a batch range keeps a drain of `[off, fin)` waiting; the sum wraps. -/
def blocks (off fin : UInt64) (range : UInt64 × UInt64 × Nat) : Bool :=
  range.1 < fin && off < range.1 + range.2.1

def Request.range : Request → UInt64 × UInt64
  | .read => (0, u64Max)
  | .setattr _ => (0, u64Max)
  | .commit off len =>
    (off, saturatingAdd off (if len = 0 then u64Max else len))

def Request.full : Request → Bool
  | .commit _ len => len = 0
  | _ => false

def WriteCall.advance (w : WriteCall) (nw : NodeWrites) (i now : Nat) (res : Option NfsError) :
    Option (WriteCall × NodeWrites) :=
  match w.phase with
  | .received => none
  | .got => some ({ w with phase := .active }, { nw with lastActive := some now })
  | .active => some ({ w with phase := .counted }, { nw with inflight := nw.inflight + 1 })
  | .counted => some ({ w with phase := .marked }, { nw with dirty := true })
  | .marked =>
    some ({ w with phase := .numbered, batch := nw.nextBatchId },
      { nw with nextBatchId := nw.nextBatchId + 1 })
  | .numbered =>
    some ({ w with phase := .ranged },
      { nw with pendingRanges := nw.pendingRanges ++ [(w.off, w.len, w.batch)] })
  | .ranged =>
    some ({ w with phase := .waiting, prev := nw.chainTail }, { nw with chainTail := some i })
  | .waiting => some ({ w with phase := .written, outcome := .of res }, nw)
  | .written =>
    some ({ w with phase := .recorded },
      match w.outcome with
      | .failed e => { nw with err := nw.err.or (some e) }
      | _ => nw)
  | .recorded =>
    some ({ w with phase := .unranged },
      { nw with pendingRanges := nw.pendingRanges.filter fun r => r.2.2 ≠ w.batch })
  | .unranged => some ({ w with phase := .finished }, { nw with inflight := nw.inflight - 1 })
  | .finished => none

namespace WriteBehind

def start : WriteBehind where
  now := 0
  queues := []
  entry := none
  writes := []
  calls := []
  cleanups := []

def nodeWrites (s : WriteBehind) : Nat × List NodeWrites :=
  match s.entry with
  | some q => (q, s.queues)
  | none => (s.queues.length, s.queues ++ [.empty])

def current (s : WriteBehind) : Option (Nat × NodeWrites) :=
  s.entry.bind fun q => s.queues[q]?.map fun nw => (q, nw)

/-- Whether the previous batch, if there is one, has let the next one go. -/
def signalled (s : WriteBehind) (prev : Option Nat) : Bool :=
  prev.all fun p => s.writes[p]?.all fun w => WritePhase.written.rank ≤ w.phase.rank

def stepWrite (s : WriteBehind) (i : Nat) (res : Option NfsError) : Option WriteBehind :=
  match s.writes[i]? with
  | none => none
  | some w =>
    if w.phase = .received then
      some { s with
        queues := s.nodeWrites.2
        entry := some s.nodeWrites.1
        writes := s.writes.set i { w with phase := .got, queue := s.nodeWrites.1 } }
    else if w.phase = .waiting ∧ ¬ s.signalled w.prev then none
    else
      match s.queues[w.queue]? with
      | none => none
      | some nw =>
        (w.advance nw i s.now res).map fun p =>
          { s with writes := s.writes.set i p.1, queues := s.queues.set w.queue p.2 }

def fdatasync (s : WriteBehind) : WriteBehind :=
  { s with writes := s.writes.map fun w => { w with synced := w.synced || w.outcome = .applied } }

def setQueue (s : WriteBehind) (q : Nat) (nw : NodeWrites) : WriteBehind :=
  { s with queues := s.queues.set q nw }

/-- One step of a draining call: the phase it goes to, and the state but for that. -/
def callNext (s : WriteBehind) (call : Call) (res : Option NfsError) :
    Option (CallPhase × WriteBehind) :=
  match call.phase with
  | .received =>
    if call.req = .setattr none then some (.drained, s)
    else
      match s.current with
      | some (q, nw) => if 0 < nw.inflight then some (.draining q, s) else some (.drained, s)
      | none => some (.drained, s)
  | .draining q =>
    match s.queues[q]? with
    | none => none
    | some nw =>
      if nw.pendingRanges.any (blocks call.req.range.1 call.req.range.2) then none
      else some (.clear q, s)
  | .clear q =>
    match s.queues[q]? with
    | none => none
    | some nw =>
      match nw.err with
      | some e => some (.returned (some e), s.setQueue q { nw with err := none })
      | none => some (.drained, s)
  | .drained =>
    match call.req with
    | .commit _ len =>
      if len = 0 then
        match s.current with
        | some (q, nw) =>
          if nw.dirty then some (.syncing, s.setQueue q { nw with dirty := false })
          else some (.returned res, s)
        | none => some (.returned res, s)
      else some (.syncing, s)
    | _ => some (.returned res, s)
  | .syncing =>
    match res with
    | some e => some (.failed e, s)
    | none => some (.answered, if call.req.full then s.fdatasync else s)
  | .failed e =>
    match s.current with
    | some (q, nw) => some (.returned (some e), s.setQueue q { nw with dirty := true })
    | none => some (.returned (some e), s)
  | .answered => some (.returned none, { s with cleanups := s.cleanups ++ [s.now + cleanupDelay] })
  | .returned _ => none

def stepCall (s : WriteBehind) (c : Nat) (res : Option NfsError) : Option WriteBehind :=
  match s.calls[c]? with
  | none => none
  | some call =>
    (s.callNext call res).map fun p => { p.2 with calls := p.2.calls.set c { call with phase := p.1 } }

def stepping (s : WriteBehind) : Action → Option (Nat × Call)
  | .call c _ => s.calls[c]?.map fun call => (c, call)
  | _ => none

def drops (s : WriteBehind) : Action → Bool
  | .cleanup _ => s.current.any fun p => p.2.inflight = 0
  | .reap => s.current.any fun p => p.2.idle s.now
  | _ => false

def dropEntry (s : WriteBehind) (a : Action) : WriteBehind :=
  if s.drops a then { s with entry := none } else s

def step (s : WriteBehind) : Action → Option WriteBehind
  | .tick ms => some { s with now := s.now + ms }
  | .recvWrite off len =>
    if len = 0 then none
    else some { s with
      writes := s.writes ++ [{ off, len, phase := .received, queue := 0, batch := 0, prev := none,
                               outcome := .pending, acked := false, synced := false }] }
  | .write i res => s.stepWrite i res
  | .ack i =>
    match s.writes[i]? with
    | none => none
    | some w =>
      if WritePhase.waiting.rank ≤ w.phase.rank then
        some { s with writes := s.writes.set i { w with acked := true } }
      else none
  | .presync i =>
    match s.writes[i]? with
    | none => none
    | some w => if w.phase = .finished ∧ w.outcome = .applied then some s.fdatasync else none
  | .recv req =>
    let covers := (List.range s.writes.length).filter fun i => s.writes[i]?.any WriteCall.acked
    some { s with calls := s.calls ++ [{ req, phase := .received, covers }] }
  | .call c res => s.stepCall c res
  | .cleanup k =>
    match s.cleanups[k]? with
    | none => none
    | some due =>
      if due ≤ s.now then
        some { s.dropEntry (.cleanup k) with cleanups := s.cleanups.eraseIdx k }
      else none
  | .reap => some (s.dropEntry .reap)

theorem stepping_call {s : WriteBehind} {c : Nat} {call : Call} (res : Option NfsError)
    (h : s.calls[c]? = some call) : (c, call) ∈ s.stepping (.call c res) := by
  simp [stepping, h]

section

variable {s s' : WriteBehind} {i : Nat} {res : Option NfsError}

theorem step_recvWrite {off len : UInt64} (h : s.step (.recvWrite off len) = some s') :
    len ≠ 0 ∧ s' = { s with
      writes := s.writes ++ [⟨off, len, .received, 0, 0, none, .pending, false, false⟩] } := by
  simp only [step] at h
  split at h <;> cases h
  exact ⟨‹_›, rfl⟩

theorem step_ack (h : s.step (.ack i) = some s') : ∃ w, s.writes[i]? = some w ∧
    WritePhase.waiting.rank ≤ w.phase.rank ∧
    s' = { s with writes := s.writes.set i { w with acked := true } } := by
  simp only [step] at h
  split at h
  · cases h
  · rename_i w hw
    split at h <;> cases h
    exact ⟨w, hw, ‹_›, rfl⟩

theorem step_presync (h : s.step (.presync i) = some s') : s' = s.fdatasync := by
  simp only [step] at h
  split at h
  · cases h
  · split at h <;> cases h
    rfl

theorem step_drop {a : Action} (ha : a.isDrop) (h : s.step a = some s') :
    ∃ cleanups, s' = { s.dropEntry a with cleanups } := by
  cases a with
  | cleanup k =>
    simp only [step] at h
    split at h
    · cases h
    · split at h <;> cases h
      exact ⟨_, rfl⟩
  | reap =>
    cases h
    exact ⟨_, rfl⟩
  | _ => cases ha

theorem stepWrite_cases (h : s.stepWrite i res = some s') : ∃ w, s.writes[i]? = some w ∧
    ((w.phase = .received ∧ s' = { s with
        queues := s.nodeWrites.2
        entry := some s.nodeWrites.1
        writes := s.writes.set i { w with phase := .got, queue := s.nodeWrites.1 } }) ∨
      ∃ nw w' nw', s.queues[w.queue]? = some nw ∧ w.advance nw i s.now res = some (w', nw') ∧
        (w.phase = .waiting → s.signalled w.prev) ∧
        s' = { s with writes := s.writes.set i w', queues := s.queues.set w.queue nw' }) := by
  unfold stepWrite at h
  split at h
  · cases h
  rename_i w hw
  refine ⟨w, hw, ?_⟩
  split at h
  · rename_i hphase
    exact .inl ⟨hphase, (some.inj h).symm⟩
  split at h
  · cases h
  · rename_i hwait
    split at h
    · cases h
    rename_i nw hnw
    obtain ⟨⟨w', nw'⟩, hadv, rfl⟩ := map_eq_some_iff.mp h
    refine .inr ⟨nw, w', nw', hnw, hadv, fun hphase => ?_, rfl⟩
    by_contra hsig
    exact hwait ⟨hphase, hsig⟩

/-- What one step of a call does: the phase it goes to, and the state but for that. -/
inductive CallStep (s : WriteBehind) (call : Call) (res : Option NfsError) :
    CallPhase → WriteBehind → Prop
  | attrOnly : call.phase = .received → call.req = .setattr none → CallStep s call res .drained s
  | look {q : Nat} {nw : NodeWrites} : call.phase = .received → s.current = some (q, nw) →
    0 < nw.inflight → CallStep s call res (.draining q) s
  | idle : call.phase = .received → (∀ q nw, s.current = some (q, nw) → nw.inflight = 0) →
    CallStep s call res .drained s
  | pass {q : Nat} {nw : NodeWrites} : call.phase = .draining q → s.queues[q]? = some nw →
    ¬ nw.pendingRanges.any (blocks call.req.range.1 call.req.range.2) →
    CallStep s call res (.clear q) s
  | take {q : Nat} {nw : NodeWrites} {e : NfsError} : call.phase = .clear q →
    s.queues[q]? = some nw → nw.err = some e →
    CallStep s call res (.returned (some e)) (s.setQueue q { nw with err := none })
  | noError {q : Nat} {nw : NodeWrites} : call.phase = .clear q → s.queues[q]? = some nw →
    nw.err = none → CallStep s call res .drained s
  | other : call.phase = .drained → (∀ off len, call.req ≠ .commit off len) →
    CallStep s call res (.returned res) s
  | swap {q : Nat} {nw : NodeWrites} : call.phase = .drained → call.req.full →
    s.current = some (q, nw) → nw.dirty →
    CallStep s call res .syncing (s.setQueue q { nw with dirty := false })
  | clean : call.phase = .drained → call.req.full →
    (∀ q nw, s.current = some (q, nw) → nw.dirty = false) → CallStep s call res (.returned res) s
  | ranged : call.phase = .drained → ¬ call.req.full → CallStep s call res .syncing s
  | sync : call.phase = .syncing → res = none →
    CallStep s call res .answered (if call.req.full then s.fdatasync else s)
  | refused {e : NfsError} : call.phase = .syncing → res = some e → CallStep s call res (.failed e) s
  | redirty {q : Nat} {nw : NodeWrites} {e : NfsError} : call.phase = .failed e →
    s.current = some (q, nw) →
    CallStep s call res (.returned (some e)) (s.setQueue q { nw with dirty := true })
  | dropped {e : NfsError} : call.phase = .failed e → s.current = none →
    CallStep s call res (.returned (some e)) s
  | answer : call.phase = .answered →
    CallStep s call res (.returned none) { s with cleanups := s.cleanups ++ [s.now + cleanupDelay] }

theorem callNext_cases {call : Call} {phase : CallPhase} {t : WriteBehind}
    (h : s.callNext call res = some (phase, t)) : CallStep s call res phase t := by
  unfold callNext at h
  split at h
  · rename_i hphase
    split_ifs at h with hreq
    · cases h
      exact .attrOnly hphase hreq
    split at h
    · rename_i q nw hcur
      split at h
      · rename_i hpos
        cases h
        exact .look hphase hcur hpos
      cases h
      refine .idle hphase fun q' nw' hcur' => ?_
      rw [hcur, some.injEq, Prod.mk.injEq] at hcur'
      rw [← hcur'.2]
      omega
    · rename_i hcur
      cases h
      exact .idle hphase (by simp [hcur])
  · rename_i q hphase
    split at h
    · cases h
    rename_i nw hnw
    split at h
    · cases h
    · rename_i hany
      cases h
      exact .pass hphase hnw hany
  · rename_i q hphase
    split at h
    · cases h
    rename_i nw hnw
    split at h
    · rename_i e he
      cases h
      exact .take hphase hnw he
    · rename_i he
      cases h
      exact .noError hphase hnw he
  · rename_i hphase
    split at h
    · rename_i off len hreq
      split_ifs at h with hlen
      · have hfull : call.req.full := by simp [hreq, Request.full, hlen]
        split at h
        · rename_i q nw hcur
          split at h
          · rename_i hdirty
            cases h
            exact .swap hphase hfull hcur hdirty
          rename_i hdirty
          cases h
          refine .clean hphase hfull fun q' nw' hcur' => ?_
          rw [hcur, some.injEq, Prod.mk.injEq] at hcur'
          rw [← hcur'.2]
          simpa using hdirty
        · rename_i hcur
          cases h
          exact .clean hphase hfull (by simp [hcur])
      · cases h
        exact .ranged hphase (by simp [hreq, Request.full, hlen])
    · rename_i hreq
      cases h
      exact .other hphase hreq
  · rename_i hphase
    split at h
    · cases h
      exact .refused hphase rfl
    · cases h
      exact .sync hphase rfl
  · rename_i e hphase
    split at h
    · rename_i q nw hcur
      cases h
      exact .redirty hphase hcur
    · rename_i hcur
      cases h
      exact .dropped hphase hcur
  · rename_i hphase
    cases h
    exact .answer hphase
  · cases h

theorem stepCall_cases {c : Nat} (h : s.stepCall c res = some s') :
    ∃ call phase t, s.calls[c]? = some call ∧ CallStep s call res phase t ∧
      s' = { t with calls := t.calls.set c { call with phase } } := by
  unfold stepCall at h
  split at h
  · cases h
  · rename_i call hcall
    obtain ⟨⟨phase, t⟩, hnext, rfl⟩ := map_eq_some_iff.mp h
    exact ⟨call, phase, t, hcall, callNext_cases hnext, rfl⟩

end

end WriteBehind

section

variable {w w' : WriteCall} {nw nw' : NodeWrites} {i now : Nat} {res : Option NfsError}

theorem WriteCall.advance_frame (h : w.advance nw i now res = some (w', nw')) :
    w'.queue = w.queue ∧ w'.acked = w.acked ∧ w'.synced = w.synced ∧
      w'.phase.rank = w.phase.rank + 1 ∧ 1 ≤ w.phase.rank := by
  unfold WriteCall.advance at h
  cases hphase : w.phase <;> simp only [hphase, reduceCtorEq, some.injEq, Prod.mk.injEq] at h <;>
    obtain ⟨rfl, -⟩ := h <;> simp [WritePhase.rank]

end

end Mist
