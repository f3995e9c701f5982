import Mist.Nfs.Xdr

/-! COMPOUND requests of the NFSv4.1 server and the reply cache of a session's slots. -/

namespace Mist.Nfs

open List XdrWriter

def FORE_SLOTS : UInt32 := 64

def MAX_OPS : Nat := 64

def OP_SEQUENCE : UInt32 := 53

def NFS4_OK : UInt32 := 0
def ERR_MINOR_VERS_MISMATCH : UInt32 := 10021
def ERR_BADXDR : UInt32 := 10036
def ERR_BADSESSION : UInt32 := 10052
def ERR_BADSLOT : UInt32 := 10053
def ERR_SEQ_MISORDERED : UInt32 := 10063
def ERR_SEQUENCE_POS : UInt32 := 10064
def ERR_REQ_TOO_BIG : UInt32 := 10065
def ERR_RETRY_UNCACHED_REP : UInt32 := 10068

structure Slot where
  seqid : UInt32
  reply : Option (List UInt8)
  hadUncached : Bool
  deriving DecidableEq

def Slot.default : Slot := ⟨0, none, false⟩

inductive SlotVerdict where
  | fresh
  | replay (cached : List UInt8)
  | refuse (status : UInt32)
  deriving DecidableEq

def Slot.check (s : Slot) (seqid : UInt32) : SlotVerdict :=
  if seqid = s.seqid then
    match s.reply with
    | some cached => .replay cached
    | none => .refuse (if s.hadUncached then ERR_RETRY_UNCACHED_REP else ERR_SEQ_MISORDERED)
  else if seqid ≠ s.seqid + 1 then .refuse ERR_SEQ_MISORDERED
  else .fresh

def Slot.finished (seqid : UInt32) (cachethis : Bool) (nres : UInt32) (body : List UInt8) : Slot :=
  if cachethis then ⟨seqid, some ((XdrWriter.new.u32 nres).fixed body).buf, false⟩
  else ⟨seqid, none, true⟩

structure Session where
  slots : List Slot
  cbProgram : UInt32

/-- The server's state: its sessions, and what else its operations work on. -/
structure Nfs41 (σ : Type) where
  sessions : List UInt8 → Option Session
  rest : σ

variable {σ γ τ : Type}

def Nfs41.slot (s : Nfs41 σ) (sid : List UInt8) (slot : UInt32) : Option Slot :=
  (s.sessions sid).bind fun sess => sess.slots[slot.toNat]?

def Nfs41.setSlot (s : Nfs41 σ) (sid : List UInt8) (slot : UInt32) (v : Slot) : Nfs41 σ :=
  { s with
    sessions := fun id =>
      if id = sid then (s.sessions id).map fun sess =>
        { sess with slots := sess.slots.set slot.toNat v }
      else s.sessions id }

/-- The end of one operation: its status, its result as it was written, the context and the server
after it, and the file a READ leaves to be sent after the reply. -/
structure OpEnd (σ γ τ : Type) where
  status : UInt32
  items : List XdrItem
  reader : XdrReader
  ctx : γ
  server : Nfs41 σ
  tail : Option τ

/-- `eval_op` with the context it works on.  A payload is sent from the file only where that is
allowed. -/
structure Evaluator (σ γ τ : Type) where
  /-- The context of a compound before its first operation. -/
  start : γ
  /-- A connection carries the session's backchannel from its first SEQUENCE on. -/
  bind : List UInt8 → Nfs41 σ → Nfs41 σ
  /-- The context of a session. -/
  enter : List UInt8 → γ → γ
  eval : UInt32 → (isLast allowSendfile : Bool) → XdrReader → γ → Nfs41 σ → OpEnd σ γ τ
  noTail : ∀ op isLast r c s, (eval op isLast false r c s).tail = none

structure SequenceArgs where
  sid : List UInt8
  seqid : UInt32
  slot : UInt32
  highest : UInt32
  cachethis : Bool
  deriving DecidableEq

def SequenceArgs.read (r : XdrReader) : Option (SequenceArgs × XdrReader) := do
  let (sid, r) ← r.fixed 16
  let (seqid, r) ← r.u32
  let (slot, r) ← r.u32
  let (highest, r) ← r.u32
  let (cachethis, r) ← r.bool
  return (⟨sid, seqid, slot, highest, cachethis⟩, r)

inductive SeqOutcome where
  | ok (args : SequenceArgs) (r : XdrReader)
  | replay (cached : List UInt8)
  | err (status : UInt32)
  deriving DecidableEq

/-- `op_sequence`: what becomes of a SEQUENCE operation. -/
def opSequence (s : Nfs41 σ) (r : XdrReader) : SeqOutcome :=
  match SequenceArgs.read r with
  | none => .err ERR_BADXDR
  | some (args, r) =>
    match s.sessions args.sid with
    | none => .err ERR_BADSESSION
    | some sess =>
      if FORE_SLOTS ≤ args.slot then .err ERR_BADSLOT
      else
        match sess.slots[args.slot.toNat]? with
        | none => .err ERR_BADSLOT
        | some slot =>
          match slot.check args.seqid with
          | .fresh => .ok args r
          | .replay cached => .replay cached
          | .refuse status => .err status

def SequenceArgs.result (args : SequenceArgs) : List XdrItem :=
  [.u32 OP_SEQUENCE, .u32 NFS4_OK, .fixed args.sid, .u32 args.seqid, .u32 args.slot,
    .u32 (FORE_SLOTS - 1), .u32 (FORE_SLOTS - 1), .u32 0]

structure Loop (σ γ τ : Type) where
  reader : XdrReader
  w : XdrWriter
  ctx : γ
  server : Nfs41 σ
  status : UInt32
  nres : UInt32
  cacheSlot : Option SequenceArgs
  allowSendfile : Bool
  tail : Option τ

inductive Flow (σ γ τ : Type) where
  | next (l : Loop σ γ τ)
  | done (l : Loop σ γ τ)
  | replay (cached : List UInt8)

def Loop.refuse (l : Loop σ γ τ) (status : UInt32) : Loop σ γ τ :=
  { l with w := (l.w.u32 OP_SEQUENCE).u32 status, nres := l.nres + 1, status }

def Loop.evalOp (E : Evaluator σ γ τ) (l : Loop σ γ τ) (op : UInt32) (isLast : Bool) : Flow σ γ τ :=
  let o := E.eval op isLast l.allowSendfile l.reader l.ctx l.server
  let l := { l with
    reader := o.reader
    w := l.w.items o.items
    ctx := o.ctx
    server := o.server
    nres := l.nres + 1
    tail := o.tail.or l.tail }
  if o.status = NFS4_OK then .next l else .done { l with status := o.status }

def Loop.step (E : Evaluator σ γ τ) (nops i : Nat) (l : Loop σ γ τ) : Flow σ γ τ :=
  match l.reader.u32 with
  | none => .done { l with status := ERR_BADXDR }
  | some (op, r) =>
    let l := { l with reader := r }
    if op = OP_SEQUENCE then
      if i ≠ 0 then .done (l.refuse ERR_SEQUENCE_POS)
      else
        match opSequence l.server r with
        | .ok args r =>
          .next { l with
            reader := r
            w := l.w.items args.result
            ctx := E.enter args.sid l.ctx
            server := E.bind args.sid l.server
            nres := l.nres + 1
            cacheSlot := some args
            allowSendfile := !args.cachethis }
        | .replay cached => .replay cached
        | .err status => .done (l.refuse status)
    else l.evalOp E op (i + 1 = nops)

def Loop.run (E : Evaluator σ γ τ) (nops : Nat) : Nat → Loop σ γ τ → Loop σ γ τ ⊕ List UInt8
  | 0, l => .inl l
  | n + 1, l =>
    match l.step E nops (nops - (n + 1)) with
    | .next l => l.run E nops n
    | .done l => .inl l
    | .replay cached => .inr cached

def compoundHeader (r : XdrReader) : Option (List UInt8 × UInt32 × Nat × XdrReader) := do
  let (tag, r) ← r.opaqueData 1024
  let (minor, r) ← r.u32
  let (nops, r) ← r.u32
  return (tag, minor, nops.toNat, r)

/-- The reply, the file that goes out after it, what was left in a slot, and the server. -/
structure CompoundEnd (σ τ : Type) where
  w : XdrWriter
  tail : Option τ
  left : Option (List UInt8 × UInt32 × Slot)
  server : Nfs41 σ

def CompoundEnd.empty (w : XdrWriter) (status : UInt32) (tag : List UInt8) (s : Nfs41 σ) :
    CompoundEnd σ τ :=
  ⟨((w.u32 status).opaqueData tag).u32 0, none, none, s⟩

/-- `compound`: one COMPOUND, with its reply written to `w`. -/
def compound (E : Evaluator σ γ τ) (args : XdrReader) (w : XdrWriter) (s : Nfs41 σ) :
    CompoundEnd σ τ :=
  match compoundHeader args with
  | none => .empty w ERR_BADXDR [] s
  | some (tag, minor, nops, r) =>
    if minor ≠ 1 then .empty w ERR_MINOR_VERS_MISMATCH tag s
    else if MAX_OPS < nops then .empty w ERR_REQ_TOO_BIG tag s
    else
      let restart := w.pos
      let statusPos := w.pos
      let w := (w.u32 NFS4_OK).opaqueData tag
      let numresPos := w.pos
      let w := w.u32 0
      let bodyPos := w.pos
      match Loop.run E nops nops ⟨r, w, E.start, s, NFS4_OK, 0, none, true, none⟩ with
      | .inr cached =>
        ⟨(((w.truncate restart).u32 NFS4_OK).opaqueData tag).fixed cached, none, none, s⟩
      | .inl l =>
        let w := (l.w.patchU32 statusPos l.status).patchU32 numresPos l.nres
        match l.cacheSlot with
        | none => ⟨w, l.tail, none, l.server⟩
        | some args =>
          let slot := Slot.finished args.seqid args.cachethis l.nres (w.since bodyPos)
          ⟨w, l.tail, some (args.sid, args.slot, slot), l.server.setSlot args.sid args.slot slot⟩

/-- The COMPOUND result in a reply that began with `w`. -/
def CompoundEnd.result (e : CompoundEnd σ τ) (w : XdrWriter) : List UInt8 × Option τ :=
  (e.w.since w.pos, e.tail)

/-- `n` operations of a compound whose reply is cached all decode, stand in their place and succeed. -/
def AllOk (E : Evaluator σ γ τ) : Nat → XdrReader → γ → Nfs41 σ → Prop
  | 0, _, _, _ => True
  | n + 1, r, c, s =>
    match r.u32 with
    | none => False
    | some (op, r) =>
      let o := E.eval op (n = 0) false r c s
      op ≠ OP_SEQUENCE ∧ o.status = NFS4_OK ∧ AllOk E n o.reader o.ctx o.server

/-- The loop behind a SEQUENCE that asked for caching: results in whole words after `w`, and nothing
left to be sent from a file. -/
structure Loop.Cached (a : SequenceArgs) (w : XdrWriter) (l : Loop σ γ τ) : Prop where
  cacheSlot : l.cacheSlot = some a
  allowSendfile : l.allowSendfile = false
  tail : l.tail = none
  body : ∃ body, l.w.buf = w.buf ++ body ∧ body.length % 4 = 0

namespace Loop

variable {E : Evaluator σ γ τ} {a : SequenceArgs} {w : XdrWriter} {l l' : Loop σ γ τ} {nops n : Nat}

variable (h : Cached a w l)
include h

theorem Cached.items (is : List XdrItem) :
    ∃ body, (l.w.items is).buf = w.buf ++ body ∧ body.length % 4 = 0 := by
  obtain ⟨body, hbody, hlen⟩ := h.body
  refine ⟨body ++ is.flatMap XdrItem.bytes, by simp [XdrWriter.items, hbody], ?_⟩
  have := length_items ⟨body⟩ is
  simp only [XdrWriter.items] at this
  rw [this, hlen]

theorem Cached.refuse (status : UInt32) : Cached a w (l.refuse status) := by
  refine { h with body := ?_ }
  obtain ⟨body, hbody, hlen⟩ := h.items [.u32 OP_SEQUENCE, .u32 status]
  refine ⟨body, ?_, hlen⟩
  rw [← hbody]
  simp [Loop.refuse, XdrWriter.u32, XdrWriter.items, XdrItem.bytes]

theorem Cached.run (hn : n < nops) (hstatus : l.status = NFS4_OK) :
    ∃ l', l.run E nops n = .inl l' ∧ Cached a w l' ∧
      (l'.status = NFS4_OK ↔ AllOk E n l.reader l.ctx l.server) := by
  induction n generalizing l with
  | zero => exact ⟨l, rfl, h, by simpa [AllOk] using hstatus⟩
  | succ n ih =>
    have hi : nops - (n + 1) ≠ 0 := by omega
    have hlast : decide (nops - (n + 1) + 1 = nops) = decide (n = 0) :=
      decide_eq_decide.mpr ⟨by omega, by omega⟩
    simp only [Loop.run, Loop.step, AllOk]
    cases hop : l.reader.u32 with
    | none =>
      refine ⟨_, rfl, { h with }, ?_⟩
      simp [ERR_BADXDR, NFS4_OK]
    | some p =>
      obtain ⟨op, r⟩ := p
      have hr : Cached a w { l with reader := r } := { h with }
      by_cases hseq : op = OP_SEQUENCE
      · simp only [hseq, if_true, hi, ne_eq, not_false_eq_true]
        refine ⟨_, rfl, hr.refuse _, ?_⟩
        simp [Loop.refuse, ERR_SEQUENCE_POS, NFS4_OK]
      simp only [hseq, if_false, Loop.evalOp, h.allowSendfile, hlast]
      have htail := E.noTail op (n = 0) r l.ctx l.server
      have hbody := h.items (E.eval op (n = 0) false r l.ctx l.server).items
      by_cases hok : (E.eval op (n = 0) false r l.ctx l.server).status = NFS4_OK
      · simp only [hok, if_true, ne_eq, hseq, not_false_eq_true, true_and]
        exact ih ⟨h.cacheSlot, rfl, by simp [htail, h.tail], hbody⟩ (by omega) hstatus
      · simp only [hok, if_false, false_and, and_false]
        refine ⟨_, rfl, ⟨h.cacheSlot, rfl, by simp [htail, h.tail], hbody⟩, ?_⟩
        simp [hok]

end Loop

def bodyStart (w : XdrWriter) (tag : List UInt8) : XdrWriter :=
  ((w.u32 NFS4_OK).opaqueData tag).u32 0

def resultBytes (status : UInt32) (tag : List UInt8) (nres : UInt32) (body : List UInt8) :
    List UInt8 :=
  be32 status ++ (be32 (.ofNat tag.length) ++ tag ++ xdrPad tag.length) ++ be32 nres ++ body

theorem patched {w v : XdrWriter} {tag body : List UInt8} (h : v.buf = (bodyStart w tag).buf ++ body)
    (status nres : UInt32) :
    ((v.patchU32 w.pos status).patchU32 ((w.u32 NFS4_OK).opaqueData tag).pos nres).buf =
      w.buf ++ resultBytes status tag nres body := by
  have hstatus : v.buf = w.buf ++ be32 NFS4_OK ++
      ((be32 (.ofNat tag.length) ++ tag ++ xdrPad tag.length) ++ be32 0 ++ body) := by
    simp [h, bodyStart, u32, opaqueData]
  rw [pos, patchU32_of_split hstatus]
  have hlen : ((w.u32 NFS4_OK).opaqueData tag).pos = (w.buf ++ be32 status ++
      (be32 (.ofNat tag.length) ++ tag ++ xdrPad tag.length)).length := by
    simp [pos, u32, opaqueData]
  have hnumres : w.buf ++ be32 status ++
      ((be32 (.ofNat tag.length) ++ tag ++ xdrPad tag.length) ++ be32 0 ++ body) =
      w.buf ++ be32 status ++ (be32 (.ofNat tag.length) ++ tag ++ xdrPad tag.length) ++ be32 0 ++
        body := by simp
  rw [hlen, patchU32_of_split hnumres]
  simp [resultBytes]

theorem since_bodyStart {w v : XdrWriter} {tag body : List UInt8} {status nres : UInt32}
    (h : v.buf = w.buf ++ resultBytes status tag nres body) :
    v.since (bodyStart w tag).pos = body := by
  have hlen : (bodyStart w tag).pos = (w.buf ++ (be32 status ++
      (be32 (.ofNat tag.length) ++ tag ++ xdrPad tag.length) ++ be32 nres)).length := by
    simp [bodyStart, pos, u32, opaqueData]
  rw [since, h, resultBytes, ← append_assoc w.buf, hlen, drop_left]

theorem opSequence_ok {s : Nfs41 σ} {r r' : XdrReader} {a : SequenceArgs}
    (h : opSequence s r = .ok a r') :
    SequenceArgs.read r = some (a, r') ∧ a.slot < FORE_SLOTS ∧
      ∃ slot, s.slot a.sid a.slot = some slot ∧ slot.check a.seqid = .fresh := by
  unfold opSequence at h
  split at h
  · cases h
  rename_i args r₁ hread
  split at h
  · cases h
  rename_i sess hsess
  split at h
  · cases h
  rename_i hslot
  split at h
  · cases h
  rename_i slot hget
  split at h
  · rename_i hfresh
    cases h
    exact ⟨hread, UInt32.not_le.mp hslot, slot, by simp [Nfs41.slot, hsess, hget], hfresh⟩
  · cases h
  · cases h

theorem opSequence_replay {s : Nfs41 σ} {r r' : XdrReader} {a : SequenceArgs} {slot : Slot}
    {cached : List UInt8} (hread : SequenceArgs.read r = some (a, r')) (hlt : a.slot < FORE_SLOTS)
    (hslot : s.slot a.sid a.slot = some slot) (hcheck : slot.check a.seqid = .replay cached) :
    opSequence s r = .replay cached := by
  obtain ⟨sess, hsess, hget⟩ := Option.bind_eq_some_iff.mp hslot
  simp only [opSequence, hread, hsess, UInt32.not_le.mpr hlt, if_false, hget, hcheck]

section

variable {E : Evaluator σ γ τ} {args r r₁ r₂ : XdrReader} {w : XdrWriter} {s s₁ s₂ : Nfs41 σ}
  {tag : List UInt8} {nops : Nat} {a : SequenceArgs}

section

variable (hhead : compoundHeader args = some (tag, 1, nops + 1, r))
include hhead

/-- The first time: the results are written and cached, and the status says whether the operations
succeeded. -/
theorem compound_cached
    (hops : nops + 1 ≤ MAX_OPS) (hop : r.u32 = some (OP_SEQUENCE, r₁))
    (hseq : opSequence s r₁ = .ok a r₂) (hcache : a.cachethis = true) (w : XdrWriter) :
    ∃ status nres body, body.length % 4 = 0 ∧
      (status = NFS4_OK ↔ AllOk E nops r₂ (E.enter a.sid E.start) (E.bind a.sid s)) ∧
      (compound E args w s).w = ⟨w.buf ++ resultBytes status tag nres body⟩ ∧
      (compound E args w s).tail = none ∧
      (compound E args w s).left = some (a.sid, a.slot, Slot.finished a.seqid true nres body) := by
  have hstart : Loop.Cached a (bodyStart w tag) (⟨r₂, (bodyStart w tag).items a.result,
      E.enter a.sid E.start, E.bind a.sid s, NFS4_OK, 0 + 1, some a, false, none⟩ : Loop σ γ τ) := by
    refine ⟨rfl, rfl, rfl, a.result.flatMap XdrItem.bytes, rfl, ?_⟩
    have hlen := length_items ⟨[]⟩ a.result
    rw [items, nil_append] at hlen
    exact hlen
  obtain ⟨l, hrun, hl, hstatus⟩ := hstart.run (E := E) (Nat.lt_succ_self nops) rfl
  obtain ⟨body, hbody, hlen⟩ := hl.body
  have hpatched := patched hbody l.status l.nres
  refine ⟨l.status, l.nres, body, hlen, hstatus, ?_⟩
  have hfirst : Loop.run E (nops + 1) (nops + 1)
      ⟨r, bodyStart w tag, E.start, s, NFS4_OK, 0, none, true, none⟩ = .inl l := by
    simp only [Loop.run, Loop.step, hop, Nat.sub_self, ne_eq, not_true_eq_false, if_true, if_false,
      hseq, hcache, Bool.not_true]
    exact hrun
  simp only [compound, hhead, ne_eq, not_true_eq_false, if_false, Nat.not_lt.mpr hops]
  rw [show ((w.u32 NFS4_OK).opaqueData tag).u32 0 = bodyStart w tag from rfl, hfirst]
  simp only [hl.cacheSlot, hl.tail, hcache]
  rw [since_bodyStart hpatched]
  exact ⟨congrArg mk hpatched, trivial, rfl⟩

theorem compound_replayed
    (hops : nops + 1 ≤ MAX_OPS) (hop : r.u32 = some (OP_SEQUENCE, r₁))
    (hseq : opSequence s₁ r₁ = .ok a r₂) {nres : UInt32} {body : List UInt8}
    (hbody : body.length % 4 = 0)
    (hslot : s₂.slot a.sid a.slot = some (Slot.finished a.seqid true nres body)) (w : XdrWriter) :
    (compound E args w s₂).w = ⟨w.buf ++ resultBytes NFS4_OK tag nres body⟩ ∧
      (compound E args w s₂).tail = none := by
  obtain ⟨hread, hlt, -⟩ := opSequence_ok hseq
  have hreplay : opSequence s₂ r₁ = .replay ((new.u32 nres).fixed body).buf :=
    opSequence_replay hread hlt hslot (by simp [Slot.check, Slot.finished])
  have hcached : ((new.u32 nres).fixed body).buf = be32 nres ++ body := by
    simp [new, u32, fixed, xdrPad_of_aligned hbody]
  have hpad : xdrPad (be32 nres ++ body).length = [] :=
    xdrPad_of_aligned (by simp only [length_append, length_be32]; omega)
  have hfirst : Loop.run E (nops + 1) (nops + 1)
      ⟨r, bodyStart w tag, E.start, s₂, NFS4_OK, 0, none, true, none⟩ =
        .inr (be32 nres ++ body) := by
    simp only [Loop.run, Loop.step, hop, Nat.sub_self, ne_eq, not_true_eq_false, if_true, if_false,
      hreplay, hcached]
  simp only [compound, hhead, ne_eq, not_true_eq_false, if_false, Nat.not_lt.mpr hops]
  rw [show ((w.u32 NFS4_OK).opaqueData tag).u32 0 = bodyStart w tag from rfl, hfirst]
  have htruncate : (bodyStart w tag).truncate w.pos = w := by
    simp [bodyStart, truncate, pos, u32, opaqueData]
  dsimp only
  rw [htruncate, fixed, hpad]
  simp [u32, opaqueData, resultBytes]

end

/-- The COMPOUND result of a request sent again is the first one exactly if every operation after
the SEQUENCE succeeded. -/
theorem replay_identical_iff (E : Evaluator σ γ τ) (args : XdrReader) (w₁ w₂ : XdrWriter)
    (s₁ s₂ : Nfs41 σ) (tag : List UInt8) (nops : Nat) (r r₁ r₂ : XdrReader) (a : SequenceArgs)
    (hhead : compoundHeader args = some (tag, 1, nops + 1, r)) (hops : nops + 1 ≤ MAX_OPS)
    (hop : r.u32 = some (OP_SEQUENCE, r₁)) (hseq : opSequence s₁ r₁ = .ok a r₂)
    (hcache : a.cachethis = true) (slot : Slot)
    (hleft : (compound E args w₁ s₁).left = some (a.sid, a.slot, slot))
    (hslot : s₂.slot a.sid a.slot = some slot) :
    (compound E args w₂ s₂).result w₂ = (compound E args w₁ s₁).result w₁ ↔
      AllOk E nops r₂ (E.enter a.sid E.start) (E.bind a.sid s₁) := by
  obtain ⟨status, nres, body, hbody, hstatus, hw, htail, hstored⟩ :=
    compound_cached (E := E) hhead hops hop hseq hcache w₁
  obtain rfl : Slot.finished a.seqid true nres body = slot := by
    rw [hstored] at hleft
    simpa using hleft
  obtain ⟨hw', htail'⟩ := compound_replayed (E := E) hhead hops hop hseq hbody hslot w₂
  rw [← hstatus]
  simp only [CompoundEnd.result, hw, hw', htail, htail', since, pos,
    drop_left, Prod.mk.injEq, and_true, resultBytes, append_assoc]
  constructor
  · intro h
    exact (be32_injective (append_inj h (by simp)).1).symm
  · intro h
    rw [h]

end

def oneSession : Nfs41 Unit where
  sessions sid := if sid = List.replicate 16 0 then some ⟨List.replicate 64 .default, 0⟩ else none
  rest := ()

def rootOnly : Evaluator Unit Unit Unit where
  start := ()
  bind _ s := s
  enter _ c := c
  eval op _ _ r c s :=
    let status : UInt32 := if op = 24 then NFS4_OK else 2
    ⟨status, [.u32 op, .u32 status], r, c, s, none⟩
  noTail _ _ _ _ _ := rfl

def sequenceAnd (op : UInt32) : XdrReader :=
  ⟨be32 0 ++ be32 1 ++ be32 2 ++ be32 OP_SEQUENCE ++ List.replicate 16 0 ++ be32 1 ++ be32 0 ++
    be32 63 ++ be32 1 ++ be32 op⟩

/-- The first reply to SEQUENCE and LOOKUP has status NFS4ERR_NOENT, the second NFS4_OK. -/
theorem failed_compound_replayed_ok :
    let first := compound rootOnly (sequenceAnd 15) .new oneSession
    let again := compound rootOnly (sequenceAnd 15) .new first.server
    (first.left.map fun v => (v.1, v.2.1, v.2.2.seqid, v.2.2.reply.isSome)) =
        some (replicate 16 0, 0, 1, true) ∧
      again.result .new ≠ first.result .new ∧
      XdrReader.u32 ⟨(first.result .new).1⟩ = some (2, ⟨first.w.buf.drop 4⟩) ∧
      XdrReader.u32 ⟨(again.result .new).1⟩ = some (NFS4_OK, ⟨again.w.buf.drop 4⟩) := by
  decide +kernel

theorem replay_identical_putrootfh :
    let first := compound rootOnly (sequenceAnd 24) .new oneSession
    (compound rootOnly (sequenceAnd 24) .new first.server).result .new = first.result .new := by
  have hop : XdrReader.u32 ⟨be32 24⟩ = some (24, ⟨[]⟩) := by decide +kernel
  have hok : AllOk rootOnly 1 ⟨be32 24⟩ () oneSession := by
    exact ⟨by decide, rfl, trivial⟩
  exact (replay_identical_iff rootOnly (sequenceAnd 24) .new .new oneSession _ [] 1
    ⟨be32 OP_SEQUENCE ++ replicate 16 0 ++ be32 1 ++ be32 0 ++ be32 63 ++ be32 1 ++ be32 24⟩
    ⟨replicate 16 0 ++ be32 1 ++ be32 0 ++ be32 63 ++ be32 1 ++ be32 24⟩ ⟨be32 24⟩
    ⟨replicate 16 0, 1, 0, 63, true⟩ (by decide +kernel) (by decide) (by decide +kernel)
    (by decide +kernel) rfl
    (((compound rootOnly (sequenceAnd 24) .new oneSession).left.map fun v => v.2.2).getD .default)
    (by decide +kernel) (by decide +kernel)).mpr hok

end Mist.Nfs
