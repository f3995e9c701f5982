import Mist.Cas.Store
import Mist.Hostd.BulkRead
import Mist.Nfs.Readdir
import Mist.Nfs.Surface

/-! The reads of a share. -/

namespace Mist

open Nfs UInt64

/-- The granularity of the cache: guest fetches are aligned to it. -/
def CAS_CHUNK : UInt64 := 4194304

def contentFingerprint (a : Attr) : UInt64 :=
  [a.mtime.sec.toUInt64, a.mtime.nsec.toUInt64, a.size, a.contentVersion].foldl
    (fun h v => (h ^^^ v) * 0x100000001b3) 0xcbf29ce484222325

def minU64 (a b : UInt64) : UInt64 := if a ≤ b then a else b

def maxU64 (a b : UInt64) : UInt64 := if a ≤ b then b else a

theorem minU64_toNat (a b : UInt64) : (minU64 a b).toNat = min a.toNat b.toNat := by
  simp only [minU64]
  split_ifs with h
  · rw [le_iff_toNat_le] at h
    omega
  · rw [le_iff_toNat_le] at h
    omega

theorem maxU64_toNat (a b : UInt64) : (maxU64 a b).toNat = max a.toNat b.toNat := by
  simp only [maxU64]
  split_ifs with h
  · rw [le_iff_toNat_le] at h
    omega
  · rw [le_iff_toNat_le] at h
    omega

/-- The bytes of a local file from an offset on, as many as there are of `len`. -/
def readAt (file : List UInt8) (off : UInt64) (len : Nat) : List UInt8 :=
  (file.drop off.toNat).take len

/-- The store, its blob files by hash and the handles it keeps open, oldest first, and the manifests
the surface remembers.  A handle has the content its file had when it was opened. -/
structure Cache where
  db : Cas.Db
  files : Cas.Hash → Option (List UInt8)
  fds : List (Cas.Hash × List UInt8)
  manifests : Table Cas.ManifestKey (List Cas.ChunkRef)

namespace Cache

variable (c : Cache)

def manifest (key : Cas.ManifestKey) : Option (List Cas.ChunkRef) × Cache :=
  match c.manifests.get key with
  | some m => (some m, c)
  | none =>
    match c.db.manifests.get key with
    | some m =>
      let kept := if 256 ≤ c.manifests.length then [] else c.manifests
      (some m, { c with manifests := Table.insert kept key m })
    | none => (none, c)

/-- The open file of a blob and the absolute offset; the length is not looked at. -/
def blobFileRange (hash : Cas.Hash) (off _len : UInt32) :
    Option (List UInt8 × UInt64) × Cache :=
  match c.fds.find? fun p => p.1 = hash with
  | some p => (some (p.2, off.toUInt64), c)
  | none =>
    match c.files hash with
    | some file =>
      let kept := if 32 ≤ c.fds.length then c.fds.tail else c.fds
      (some (file, off.toUInt64), { c with fds := kept ++ [(hash, file)] })
    | none => (none, c)

/-- A blob that is too short or has the wrong bytes goes. -/
def dropCorrupt (hash : Cas.Hash) : Cache :=
  { c with
    db := c.db.removeRows [hash]
    files := Function.update c.files hash none }

def getBlobRange (blake3 : List UInt8 → Cas.Hash) (hash : Cas.Hash) (off len : UInt32)
    (verify : Bool) : Option (List UInt8) × Cache :=
  match c.files hash with
  | none => (none, c)
  | some file =>
    let buf := readAt file off.toUInt64 len.toNat
    if verify then
      if blake3 file ≠ hash ∨ file.length < off.toNat + len.toNat then (none, c.dropCorrupt hash)
      else (some buf, c)
    else if buf.length = len.toNat then (some buf, c)
    else (none, c.dropCorrupt hash)

/-- Store a chunk of a file: its blob, unless there is one, and its entry in the manifest. -/
def ingestChunk (blake3 : List UInt8 → Cas.Hash) (key : Cas.ManifestKey) (off : UInt64)
    (data : List UInt8) (now : UInt64) : Cache :=
  let hash := blake3 data
  { c with
    db := (c.db.ingestChunk blake3 key off data now).1
    files := if (c.files hash).isSome then c.files
      else Function.update c.files hash (some data) }

/-- The hit path of `chunk_read`: the chunk's blob holds the whole range. -/
def hit (key : Cas.ManifestKey) (chunkOff inner want : UInt64) : Option (List UInt8) × Cache :=
  match c.manifest key with
  | (none, c) => (none, c)
  | (some m, c) =>
    match m.find? fun chunk => chunk.off = chunkOff with
    | none => (none, c)
    | some chunk =>
      match c.blobFileRange chunk.hash inner.toUInt32 want.toUInt32 with
      | (none, c) => (none, c)
      | (some (file, absOff), c) =>
        let buf := readAt file absOff want.toNat
        if buf.length = want.toNat then (some buf, c) else (none, c)

/-- The second look of `chunk_read`, with the fetch guard held: at the store itself. -/
def recheck (blake3 : List UInt8 → Cas.Hash) (key : Cas.ManifestKey)
    (chunkOff inner want : UInt64) : Option (List UInt8) × Cache :=
  match c.db.manifests.get key with
  | none => (none, c)
  | some m =>
    match m.find? fun chunk => chunk.off = chunkOff with
    | none => (none, c)
    | some chunk => c.getBlobRange blake3 chunk.hash inner.toUInt32 want.toUInt32 false

end Cache

/-- Write-behind batches of a node: how many are in flight, and what waiting for them leads to. -/
structure WriteQueue where
  inflight : Nat
  landed : BulkRead.Guest
  err : Option NfsError

structure Prefetch where
  key : Cas.ManifestKey
  node : NodeKey
  chunkOff : UInt64
  fileSize : UInt64

structure ShareSurface where
  blake3 : List UInt8 → Cas.Hash
  now : UInt64
  sendfile : Bool
  shareId : UInt16
  replica : ShareReplica
  writes : NodeKey → Option WriteQueue
  macDirty : NodeKey → Bool
  cache : Option Cache
  connected : Bool
  guest : BulkRead.Guest
  prefetches : List Prefetch

namespace ShareSurface

variable (s : ShareSurface)

def key (node : NodeKey) (attr : Attr) : Cas.ManifestKey :=
  ⟨s.shareId, node, contentFingerprint attr⟩

def inflight (node : NodeKey) : Nat := ((s.writes node).map WriteQueue.inflight).getD 0

def guestRead (node : NodeKey) (offset count : UInt64) : Except NfsError (List UInt8 × Bool) :=
  if s.connected then
    match BulkRead.fileAt s.guest node with
    | none => .error .io
    | some file =>
      let len := count.toUInt32.toNat
      .ok (readAt file.bytes offset len, decide (file.bytes.length ≤ offset.toNat + len))
  else .error .jukebox

def drainWrites (node : NodeKey) : Option NfsError × ShareSurface :=
  match s.writes node with
  | none => (none, s)
  | some q =>
    if 0 < q.inflight then
      (q.err, { s with
        guest := q.landed
        writes := Function.update s.writes node (some { q with inflight := 0, err := none }) })
    else (none, s)

/-- Serve `want` bytes at `inner` of the chunk at `chunkOff`; a chunk that is not there is fetched
whole, stored if it is complete, and the next one is fetched ahead. -/
def chunkRead (c : Cache) (key : Cas.ManifestKey) (node : NodeKey)
    (chunkOff chunkLen inner want fileSize : UInt64) :
    Except NfsError (List UInt8) × Cache × List Prefetch :=
  match c.hit key chunkOff inner want with
  | (some buf, c) => (.ok buf, c, [])
  | (none, c) =>
    match c.recheck s.blake3 key chunkOff inner want with
    | (some buf, c) => (.ok buf, c, [])
    | (none, c) =>
      match s.guestRead node chunkOff chunkLen with
      | .error e => (.error e, c, [])
      | .ok (data, _) =>
        let piece := readAt data inner want.toNat
        if data.length = chunkLen.toNat then
          let next := chunkOff + CAS_CHUNK
          (.ok piece, c.ingestChunk s.blake3 key chunkOff data s.now,
            if fileSize ≤ next then [] else [⟨key, node, next, fileSize⟩])
        else (.ok piece, c, [])

/-- The loop over the chunks of a read; `fuel` bounds the bytes that are left. -/
def chunkLoop (key : Cas.ManifestKey) (node : NodeKey) (size fin : UInt64) :
    Nat → Cache → List Prefetch → UInt64 → List UInt8 →
    Except NfsError ReadResult × Cache × List Prefetch
  | 0, c, ahead, pos, data => (.ok ⟨data, decide (size ≤ pos)⟩, c, ahead)
  | fuel + 1, c, ahead, pos, data =>
    if pos < fin then
      let chunkOff := pos / CAS_CHUNK * CAS_CHUNK
      let chunkLen := minU64 CAS_CHUNK (size - chunkOff)
      let inner := pos - chunkOff
      let want := minU64 (fin - pos) (chunkLen - inner)
      match s.chunkRead c key node chunkOff chunkLen inner want size with
      | (.error e, c, more) => (.error e, c, ahead ++ more)
      | (.ok piece, c, more) =>
        let pos := pos + .ofNat piece.length
        if piece.length < want.toNat then
          (.ok ⟨data ++ piece, decide (size ≤ pos)⟩, c, ahead ++ more)
        else chunkLoop key node size fin fuel c (ahead ++ more) pos (data ++ piece)
    else (.ok ⟨data, decide (size ≤ pos)⟩, c, ahead)

def cachedRead (c : Cache) (node : NodeKey) (offset : UInt64) (count : UInt32) :
    Except NfsError ReadResult × Cache × List Prefetch :=
  match s.replica.getattr node with
  | .error e => (.error (mapErr e), c, [])
  | .ok attr =>
    let size := attr.size
    if size ≤ offset then (.ok ⟨[], true⟩, c, [])
    else
      let key := s.key node attr
      let fin := minU64 size (offset + count.toUInt64)
      if offset / CAS_CHUNK = (fin - 1) / CAS_CHUNK then
        let chunkOff := offset / CAS_CHUNK * CAS_CHUNK
        let chunkLen := minU64 CAS_CHUNK (size - chunkOff)
        match s.chunkRead c key node chunkOff chunkLen (offset - chunkOff) (fin - offset) size with
        | (.error e, c, ahead) => (.error e, c, ahead)
        | (.ok piece, c, ahead) =>
          (.ok ⟨piece, decide (size ≤ offset + .ofNat piece.length)⟩, c, ahead)
      else s.chunkLoop key node size fin (fin.toNat - offset.toNat) c [] offset []

def plainRead (node : NodeKey) (offset : UInt64) (count : UInt32) : Except NfsError ReadResult :=
  (s.guestRead node offset count.toUInt64).map fun p => ⟨p.1, p.2⟩

def readDrained (node : NodeKey) (offset : UInt64) (count : UInt32) :
    Except NfsError ReadResult × ShareSurface :=
  match s.cache with
  | none => (s.plainRead node offset count, s)
  | some c =>
    if s.macDirty node then (s.plainRead node offset count, s)
    else
      match s.cachedRead c node offset count with
      | (r, c, ahead) => (r, { s with cache := some c, prefetches := s.prefetches ++ ahead })

def read (node : NodeKey) (offset : UInt64) (count : UInt32) :
    Except NfsError ReadResult × ShareSurface :=
  match s.drainWrites node with
  | (some e, s) => (.error e, s)
  | (none, s) => s.readDrained node offset count

/-- What the short cuts find: the size, the end of the range, the open blob file and the place of
the range in it. -/
structure Located where
  size : UInt64
  fin : UInt64
  file : List UInt8
  absOff : UInt64
  len : UInt64

/-- The checks the short cuts share: a cache, no batches in flight, a range that is not empty and
lies in one chunk, and a blob for it. -/
def locate (node : NodeKey) (offset : UInt64) (count : UInt32) : Option Located × ShareSurface :=
  match s.cache with
  | none => (none, s)
  | some c =>
    if 0 < s.inflight node then (none, s)
    else
      match s.replica.getattr node with
      | .error _ => (none, s)
      | .ok attr =>
        let size := attr.size
        if size ≤ offset ∨ count = 0 then (none, s)
        else
          let fin := minU64 size (offset + count.toUInt64)
          if offset / CAS_CHUNK ≠ (fin - 1) / CAS_CHUNK then (none, s)
          else
            let chunkOff := offset / CAS_CHUNK * CAS_CHUNK
            match c.manifest (s.key node attr) with
            | (none, c) => (none, { s with cache := some c })
            | (some m, c) =>
              match m.find? fun chunk => chunk.off = chunkOff with
              | none => (none, { s with cache := some c })
              | some chunk =>
                let inner := (offset - chunkOff).toUInt32
                let len := fin - offset
                match c.blobFileRange chunk.hash inner len.toUInt32 with
                | (none, c) => (none, { s with cache := some c })
                | (some (file, absOff), c) =>
                  (some ⟨size, fin, file, absOff, len⟩, { s with cache := some c })

structure Sendable where
  file : List UInt8
  off : UInt64
  len : UInt32
  eof : Bool
  deriving DecidableEq

def Sendable.data (body : Sendable) : List UInt8 := readAt body.file body.off body.len.toNat

def readSendable (node : NodeKey) (offset : UInt64) (count : UInt32) :
    Option Sendable × ShareSurface :=
  if s.sendfile then
    match s.locate node offset count with
    | (none, s) => (none, s)
    | (some l, s) => (some ⟨l.file, l.absOff, l.len.toUInt32, decide (l.size ≤ l.fin)⟩, s)
  else (none, s)

/-- The range is read behind `out`; without a full range `out` stays as it is. -/
def readInto (node : NodeKey) (offset : UInt64) (count : UInt32) (out : List UInt8) :
    Option (Except NfsError Bool) × List UInt8 × ShareSurface :=
  if s.cache.isNone ∨ s.macDirty node then (none, out, s)
  else
    match s.locate node offset count with
    | (none, s) => (none, out, s)
    | (some l, s) =>
      let buf := readAt l.file l.absOff l.len.toNat
      if buf.length = l.len.toNat then (some (.ok (decide (l.size ≤ l.fin))), out ++ buf, s)
      else (none, out, s)

end ShareSurface

end Mist
