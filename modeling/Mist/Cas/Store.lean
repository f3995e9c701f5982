import Mist.Weigh
import Mist.Nfs.Table
import Mist.Proto

/-! The content-addressed store: its two tables and the transactions on them. -/

namespace Mist.Cas

open Nfs List

abbrev Hash := List UInt8

structure ManifestKey where
  share : UInt16
  node : NodeKey
  contentVersion : UInt64
  deriving DecidableEq

/-- One chunk of a file: `len` bytes at `off`, stored as blob `hash`. -/
structure ChunkRef where
  off : UInt64
  len : UInt32
  hash : Hash
  deriving DecidableEq

structure ChunkRow where
  len : UInt32
  lastAccess : UInt64
  deriving DecidableEq

abbrev Manifests := Table ManifestKey (List ChunkRef)

abbrev Chunks := KeyMap Hash ChunkRow

structure Db where
  manifests : Manifests
  chunks : Chunks

namespace Manifests

def ofNode (key k : ManifestKey) : Bool := k.share = key.share && k.node = key.node

def dropStale (t : Manifests) (key : ManifestKey) : Manifests :=
  t.filter fun p => !(ofNode key p.1 && p.1.contentVersion != key.contentVersion)

def putManifest (t : Manifests) (key : ManifestKey) (chunks : List ChunkRef) : Manifests :=
  (dropStale t key).insert key chunks

def setChunk (chunk : ChunkRef) : List ChunkRef → List ChunkRef
  | [] => [chunk]
  | c :: rest =>
    if c.off = chunk.off then chunk :: rest
    else if chunk.off < c.off then chunk :: c :: rest
    else c :: setChunk chunk rest

def mergeChunk (t : Manifests) (key : ManifestKey) (chunk : ChunkRef) : Manifests :=
  putManifest t key (setChunk chunk ((t.get key).getD []))

def rebindManifest (t : Manifests) (source target : ManifestKey) : Manifests :=
  match t.get source with
  | none => t
  | some chunks => putManifest (t.remove source) target chunks

def dropNode (t : Manifests) (share : UInt16) (node : NodeKey) : Manifests :=
  t.filter fun p => !(p.1.share = share && p.1.node = node)

def dropShare (t : Manifests) (share : UInt16) : Manifests := t.filter fun p => p.1.share ≠ share

theorem mem_of_setChunk {chunk d : ChunkRef} {m : List ChunkRef} (h : d ∈ setChunk chunk m) :
    d = chunk ∨ d ∈ m := by
  induction m with
  | nil => exact .inl (mem_singleton.mp h)
  | cons e m ih =>
    simp only [setChunk] at h
    split at h
    · exact (mem_cons.mp h).imp_right (mem_cons_of_mem e)
    split at h
    · exact mem_cons.mp h
    · rcases mem_cons.mp h with rfl | h
      · exact .inr mem_cons_self
      · exact (ih h).imp_right (mem_cons_of_mem e)

theorem find?_setChunk (chunk : ChunkRef) (m : List ChunkRef) (off : UInt64) :
    ((setChunk chunk m).find? fun c => c.off = off) =
      if chunk.off = off then some chunk else m.find? fun c => c.off = off := by
  induction m with
  | nil =>
    by_cases h : chunk.off = off
    · simp [setChunk, h]
    · simp [setChunk, h]
  | cons e m ih =>
    simp only [setChunk]
    split
    · rename_i heq
      by_cases h : chunk.off = off
      · simp [h]
      · simp [h, heq]
    · rename_i hne
      split
      · by_cases h : chunk.off = off <;> simp [h]
      by_cases he : e.off = off
      · have h : chunk.off ≠ off := fun h => hne (he.trans h.symm)
        simp [he, h]
      · simp only [find?_cons, he, decide_false, ih]

theorem get_dropStale (t : Manifests) (key j : ManifestKey) :
    (dropStale t key).get j =
      if ofNode key j && j.contentVersion != key.contentVersion then none else t.get j := by
  refine (Table.get_filter t
    (fun k => !(ofNode key k && k.contentVersion != key.contentVersion)) j).trans ?_
  cases ofNode key j && j.contentVersion != key.contentVersion <;> rfl

theorem get_putManifest (t : Manifests) (key j : ManifestKey) (chunks : List ChunkRef) :
    (putManifest t key chunks).get j =
      if j = key then some chunks else if ofNode key j then none else t.get j := by
  rw [putManifest, Table.get_insert]
  split
  · rfl
  rename_i hne
  rw [get_dropStale]
  cases hnode : ofNode key j with
  | false => simp
  | true =>
    have hversion : j.contentVersion ≠ key.contentVersion := by
      intro heq
      simp only [ofNode, Bool.and_eq_true, decide_eq_true_eq] at hnode
      apply hne
      cases j
      cases key
      simp_all
    simp [hversion]

theorem rebindManifest_none {t : Manifests} {source : ManifestKey} (h : t.get source = none)
    (target : ManifestKey) : rebindManifest t source target = t := by
  rw [rebindManifest, h]

end Manifests

structure Block where
  hash : Hash
  size : Nat

def blockOf (blake3 : List UInt8 → Hash) (data : List UInt8) : Block := ⟨blake3 data, data.length⟩

/-- What an ingest found to be new: the bytes and the blocks that had no row. -/
structure Fresh where
  bytes : Nat
  blocks : List Hash
  deriving DecidableEq

def addRow (now : UInt64) (p : Chunks × Fresh) (b : Block) : Chunks × Fresh :=
  (p.1.insert b.hash ⟨.ofNat b.size, now⟩,
    if (p.1.lookup b.hash).isNone then ⟨p.2.bytes + b.size, b.hash :: p.2.blocks⟩ else p.2)

def addRows (now : UInt64) (chunks : Chunks) (blocks : List Block) : Chunks × Fresh :=
  blocks.foldl (addRow now) (chunks, ⟨0, []⟩)

def chunkOf (blake3 : List UInt8 → Hash) (piece : UInt64 × List UInt8) : ChunkRef :=
  ⟨piece.1, .ofNat piece.2.length, blake3 piece.2⟩

def chunkList (blake3 : List UInt8 → Hash) (pieces : List (UInt64 × List UInt8)) : List ChunkRef :=
  (pieces.map (chunkOf blake3)).mergeSort fun a b => decide (a.off ≤ b.off)

theorem mergeSort_ordered {α : Type} (f : α → UInt64) (l : List α) :
    (l.mergeSort fun a b => decide (f a ≤ f b)).Pairwise fun a b => f a ≤ f b := by
  refine (List.pairwise_mergeSort (fun a b c hab hbc => ?_) (fun a b => ?_) l).imp of_decide_eq_true
  · exact decide_eq_true (UInt64.le_trans (of_decide_eq_true hab) (of_decide_eq_true hbc))
  · rw [Bool.or_eq_true, decide_eq_true_eq, decide_eq_true_eq]
    exact UInt64.le_total _ _

namespace Db

variable (blake3 : List UInt8 → Hash)

def ingestChunk (db : Db) (key : ManifestKey) (off : UInt64) (data : List UInt8) (now : UInt64) :
    Db × Fresh :=
  let rows := addRows now db.chunks [blockOf blake3 data]
  (⟨Manifests.mergeChunk db.manifests key (chunkOf blake3 (off, data)), rows.1⟩, rows.2)

/-- The transaction of `ingest_chunks`: the manifest becomes exactly these chunks. -/
def ingestChunks (db : Db) (key : ManifestKey) (pieces : List (UInt64 × List UInt8))
    (now : UInt64) : Db × Fresh :=
  let rows := addRows now db.chunks (pieces.map fun p => blockOf blake3 p.2)
  (⟨Manifests.putManifest db.manifests key (chunkList blake3 pieces), rows.1⟩, rows.2)

def putBlob (db : Db) (data : List UInt8) (now : UInt64) : Db × Fresh :=
  let rows := addRows now db.chunks [blockOf blake3 data]
  ({ db with chunks := rows.1 }, rows.2)

def removeRows (db : Db) (victims : List Hash) : Db :=
  { db with chunks := db.chunks.eraseAll victims }

def touch (db : Db) (h : Hash) (now : UInt64) : Db :=
  match db.chunks.lookup h with
  | none => db
  | some row => { db with chunks := db.chunks.insert h { row with lastAccess := now } }

end Db

end Mist.Cas
