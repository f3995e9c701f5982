import Mist.Cas.Store
import Mist.Runs

/-! Publication of stashed writes. -/

namespace Mist.Cas

open Nfs Option Manifests

/-- The version under which chunks wait while the fingerprint is still moving. -/
def WIP_FP : UInt64 := 0xffffffffffffffff

/-- What a task captured when it was made: the covered chunks, and the fingerprint of the
attributes. -/
structure StashTask where
  tail : List (UInt64 × List UInt8)
  fin : UInt64

inductive StashPhase where
  | captured
  | ingested
  | done

structure Stashes where
  blake3 : List UInt8 → Hash
  share : UInt16
  node : NodeKey
  tasks : List StashTask

structure Publishing where
  manifests : Manifests
  phases : List StashPhase

namespace Stashes

variable (c : Stashes)

def key (version : UInt64) : ManifestKey := ⟨c.share, c.node, version⟩

def chunks (t : StashTask) : List ChunkRef := chunkList c.blake3 t.tail

inductive Action where
  | ingest (i : Nat)
  | rebind (i : Nat)
  | fail (i : Nat)

/-- A task's next phase: without chunks it goes to the rebind at once. -/
def next (t : StashTask) : StashPhase → Option Bool
  | .captured => some (!t.tail.isEmpty)
  | .ingested => some false
  | .done => none

/-- A step of one task: the transaction of `ingest_chunks` or of `rebind_manifest`, or one of them
failing, which nothing looks at. -/
def step (s : Publishing) : Action → Option Publishing
  | .ingest i => do
    let t ← c.tasks[i]?
    let phase ← s.phases[i]?
    if next t phase = some true then
      some ⟨Manifests.putManifest s.manifests (c.key WIP_FP) (c.chunks t), s.phases.set i .ingested⟩
    else none
  | .rebind i => do
    let t ← c.tasks[i]?
    let phase ← s.phases[i]?
    if next t phase = some false then
      some ⟨Manifests.rebindManifest s.manifests (c.key WIP_FP) (c.key t.fin), s.phases.set i .done⟩
    else none
  | .fail i => do
    let t ← c.tasks[i]?
    let phase ← s.phases[i]?
    let ingests ← next t phase
    some { s with phases := s.phases.set i (if ingests then .ingested else .done) }

variable {c} {s s' : Publishing}

@[simp] theorem key_inj {a b : UInt64} : c.key a = c.key b ↔ a = b :=
  ⟨congrArg ManifestKey.contentVersion, congrArg c.key⟩

def start (c : Stashes) (manifests : Manifests) : Publishing :=
  ⟨manifests, List.replicate c.tasks.length .captured⟩

end Stashes

end Mist.Cas
