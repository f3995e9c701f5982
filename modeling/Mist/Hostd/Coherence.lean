import Mist.Hostd.ReadPaths

/-! Reads through the cache while the guest writes. -/

namespace Mist.Coherence

open Nfs

structure Stat where
  size : UInt64
  mtime : Ts
  version : UInt64
  deriving DecidableEq

def Stat.fingerprint (a : Stat) : UInt64 :=
  contentFingerprint { placeholderAttr .reg with
    size := a.size
    mtime := a.mtime
    contentVersion := a.version }

structure Moment where
  bytes : List UInt8
  mtime : Ts
  version : UInt64

def Moment.stat (m : Moment) : Stat := ⟨.ofNat m.bytes.length, m.mtime, m.version⟩

/-- Attributes the guest took.  The content the file had then is only recorded. -/
structure Taken where
  stat : Stat
  bytes : List UInt8

def Moment.taken (m : Moment) : Taken := ⟨m.stat, m.bytes⟩

/-- The part of a read of `[.., fin)` that the chunk at `pos` gives. -/
def pieceAt (size fin pos : UInt64) : Window :=
  let chunkOff := pos / CAS_CHUNK * CAS_CHUNK
  let chunkLen := minU64 CAS_CHUNK (size - chunkOff)
  let inner := pos - chunkOff
  ⟨chunkOff, chunkLen, inner, minU64 (fin - pos) (chunkLen - inner), fin⟩

inductive Phase where
  | looking
  | missed
  | fetching (got : List UInt8)
  | done
  deriving DecidableEq

/-- A read, or a prefetch of the chunk at `pos`: the attributes it goes by, what it has, and whether
all of that came from the cache. -/
structure Task where
  taken : Taken
  ahead : Bool
  offset : UInt64
  count : UInt32
  pos : UInt64
  data : List UInt8
  cached : Bool
  phase : Phase

namespace Task

variable (t : Task)

def fin : UInt64 := minU64 t.taken.stat.size (t.offset + t.count.toUInt64)

def piece : Window := pieceAt t.taken.stat.size t.fin t.pos

def read (taken : Taken) (offset : UInt64) (count : UInt32) : Task :=
  let fin := minU64 taken.stat.size (offset + count.toUInt64)
  ⟨taken, false, offset, count, offset, [], true, if offset < fin then .looking else .done⟩

/-- The prefetch a task starts: of the chunk after its own. -/
def next : Option Task :=
  let off := t.piece.chunkOff + CAS_CHUNK
  if t.taken.stat.size ≤ off then none else some ⟨t.taken, true, off, 0, off, [], true, .looking⟩

def advance (buf : List UInt8) : Task :=
  let pos := t.pos + .ofNat buf.length
  { t with
    data := t.data ++ buf
    pos := pos
    phase := if pos < t.fin then .looking else .done }

/-- The read has got a piece from the guest; a short one ends it. -/
def fetched (data : List UInt8) : Task :=
  let buf := t.piece.slice data
  let t' := { t.advance buf with cached := false }
  if buf.length < t.piece.want.toNat then { t' with phase := .done } else t'

end Task

structure Session where
  blake3 : List UInt8 → Cas.Hash
  share : UInt16
  node : NodeKey
  now : UInt64

/-- A reseed: the attributes the walk found, and the records since. -/
structure Staging where
  snap : Option Taken
  buf : List Taken

/-- `counter` is the guest's write counter of the file and `owed` says that a write still has no
record.  `history` and `taken` only record the moments of the file and the attributes taken. -/
structure State where
  file : Moment
  counter : UInt64
  owed : Bool
  journal : List Taken
  shown : Taken
  staging : Option Staging
  cache : Cache
  tasks : List Task
  history : List Moment
  taken : List Taken

def State.start (bytes : List UInt8) (mtime : Ts) : State where
  file := ⟨bytes, mtime, 0⟩
  counter := 0
  owed := false
  journal := []
  shown := Moment.taken ⟨bytes, mtime, 0⟩
  staging := none
  cache := ⟨⟨[], ∅⟩, fun _ => none, [], []⟩
  tasks := []
  history := [⟨bytes, mtime, 0⟩]
  taken := [Moment.taken ⟨bytes, mtime, 0⟩]

inductive Action where
  | write (bytes : List UInt8) (mtime : Ts)
  | record
  | restart
  | deliver
  | begin
  | walk
  | swap
  | read (offset : UInt64) (count : UInt32)
  | look (i : Nat)
  | probe (i : Nat)
  | recheck (i : Nat)
  | pread (i k : Nat)
  | land (i : Nat)
  | evict (hash : Cas.Hash)
  | store (data : List UInt8)

def fitsOff (bytes : List UInt8) : Prop := bytes.length < 9223372036854775808
  deriving Decidable

namespace State

variable (s : State)

def become (m : Moment) : State := { s with file := m, history := m :: s.history }

def take (version : UInt64) : State :=
  let m := { s.file with version := version }
  { s.become m with taken := m.taken :: s.taken }

def taking (version : UInt64) : Taken := Moment.taken { s.file with version := version }

def setTask (i : Nat) (t : Task) : State := { s with tasks := s.tasks.set i t }

end State

namespace Session

variable (c : Session)

def key (a : Stat) : Cas.ManifestKey := ⟨c.share, c.node, a.fingerprint⟩

def lookup (s : State) (t : Task) (again : Bool) : Option (List UInt8) × Cache :=
  let w := t.piece
  if again then s.cache.recheck c.blake3 (c.key t.taken.stat) w.chunkOff w.inner w.want
  else s.cache.hit (c.key t.taken.stat) w.chunkOff w.inner w.want

def hasChunk (s : State) (t : Task) : Bool :=
  ((s.cache.db.manifests.get (c.key t.taken.stat)).getD []).any fun chunk =>
    chunk.off = t.piece.chunkOff

def step (s : State) : Action → Option State
  | .write bytes mtime =>
    if fitsOff bytes then
      some { s.become { s.file with bytes := bytes, mtime := mtime } with owed := true }
    else none
  | .record =>
    if s.owed then
      let version := s.counter + 1
      some { s.take version with
        counter := version
        owed := false
        journal := s.journal ++ [s.taking version] }
    else none
  | .restart => some { s with counter := 0 }
  | .deliver =>
    match s.journal with
    | t :: rest =>
      match s.staging with
      | none => some { s with journal := rest, shown := t }
      | some st => some { s with journal := rest, staging := some { st with buf := st.buf ++ [t] } }
    | [] => none
  | .begin => some { s with staging := some ⟨none, []⟩ }
  | .walk =>
    match s.staging with
    | some ⟨none, buf⟩ => some { s.take 0 with staging := some ⟨some (s.taking 0), buf⟩ }
    | _ => none
  | .swap =>
    match s.staging with
    | some ⟨some snap, buf⟩ => some { s with shown := buf.getLastD snap, staging := none }
    | _ => none
  | .read offset count =>
    if s.shown.stat.size ≤ offset then none
    else some { s with tasks := s.tasks ++ [.read s.shown offset count] }
  | .look i => do
    let t ← s.tasks[i]?
    if t.phase = .looking ∧ t.ahead = false then
      let found := c.lookup s t false
      some ({ s with cache := found.2 }.setTask i
        (found.1.elim { t with phase := .missed } t.advance))
    else none
  | .probe i => do
    let t ← s.tasks[i]?
    if t.phase = .looking ∧ t.ahead = true then
      some (s.setTask i { t with phase := if c.hasChunk s t then .done else .fetching [] })
    else none
  | .recheck i => do
    let t ← s.tasks[i]?
    if t.phase = .missed then
      let found := c.lookup s t true
      some ({ s with cache := found.2 }.setTask i
        (found.1.elim { t with phase := .fetching [] } t.advance))
    else none
  | .pread i k => do
    let t ← s.tasks[i]?
    match t.phase with
    | .fetching got =>
      let at_ := t.piece.chunkOff.toNat + got.length
      let more := (s.file.bytes.drop at_).take (min (t.piece.chunkLen.toNat - got.length) (k + 1))
      some (s.setTask i { t with phase := .fetching (got ++ more) })
    | _ => none
  | .land i => do
    let t ← s.tasks[i]?
    match t.phase with
    | .fetching got =>
      let full := got.length = t.piece.chunkLen.toNat
      let after := if t.ahead then { t with phase := .done } else t.fetched got
      let spawned := if full ∧ t.ahead = false then t.next.toList else []
      some { s with
        cache := if full then
            s.cache.ingestChunk c.blake3 (c.key t.taken.stat) t.piece.chunkOff got c.now
          else s.cache
        tasks := s.tasks.set i after ++ spawned }
    | _ => none
  | .evict hash =>
    some { s with cache := { s.cache with
      db := s.cache.db.removeRows [hash]
      files := Function.update s.cache.files hash none } }
  | .store data =>
    let hash := c.blake3 data
    some { s with cache := { s.cache with
      files := if (s.cache.files hash).isSome then s.cache.files
        else Function.update s.cache.files hash (some data) } }

end Session

/-- Attributes tell contents apart: the file had the content it has now whenever the same attributes
were taken before. -/
def State.Telling (s : State) (version : UInt64) : Prop :=
  ∀ u ∈ s.taken, u.stat = (s.taking version).stat → u.bytes = s.file.bytes

/-- Attributes that are taken tell contents apart, and a fetch finds the content the file had when
the attributes it goes by were taken. -/
def Settled (s : State) : Action → Prop
  | .record => s.Telling (s.counter + 1)
  | .walk => s.Telling 0
  | .pread i _ => ∀ t, s.tasks[i]? = some t → s.file.bytes = t.taken.bytes
  | _ => True

def Within (A : Set Stat) (s : State) : Action → Prop
  | .record => (s.taking (s.counter + 1)).stat ∈ A
  | .walk => (s.taking 0).stat ∈ A
  | _ => True

end Mist.Coherence
