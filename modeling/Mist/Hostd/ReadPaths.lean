import Mist.Hostd.Reads

/-! The short cuts of a read against `read` itself. -/

namespace Mist

open Nfs

namespace Cache

variable (c : Cache) (key : Cas.ManifestKey)

/-- The manifest of a key: a remembered one, or that of the store. -/
def manifestOf : Option (List Cas.ChunkRef) := (c.manifests.get key).or (c.db.manifests.get key)

def openFile (hash : Cas.Hash) : Option (List UInt8) :=
  ((c.fds.find? fun p => p.1 = hash).map Prod.snd).or (c.files hash)

def blobOf (chunkOff : UInt64) : Option (List UInt8) := do
  let m ← c.manifestOf key
  let chunk ← m.find? fun chunk => chunk.off = chunkOff
  c.openFile chunk.hash

/-- The bytes of a range of a chunk by the store's own manifest and files, if all are there. -/
def stored (chunkOff inner want : UInt64) : Option (List UInt8) := do
  let m ← c.db.manifests.get key
  let chunk ← m.find? fun chunk => chunk.off = chunkOff
  let file ← c.files chunk.hash
  let buf := readAt file inner want.toNat
  if buf.length = want.toNat then some buf else none

/-- A lookup changes only what is remembered. -/
structure Warmed (c c' : Cache) : Prop where
  db : c'.db = c.db
  files : c'.files = c.files

theorem manifest_fst : (c.manifest key).1 = c.manifestOf key := by
  simp only [manifest, manifestOf]
  cases c.manifests.get key with
  | some m => rfl
  | none => cases c.db.manifests.get key <;> rfl

theorem manifest_warmed : Warmed c (c.manifest key).2 ∧ (c.manifest key).2.fds = c.fds := by
  simp only [manifest]
  cases c.manifests.get key with
  | some m => exact ⟨⟨rfl, rfl⟩, rfl⟩
  | none => cases c.db.manifests.get key <;> exact ⟨⟨rfl, rfl⟩, rfl⟩

theorem openFile_manifest (hash : Cas.Hash) : (c.manifest key).2.openFile hash = c.openFile hash := by
  obtain ⟨⟨-, hfiles⟩, hfds⟩ := c.manifest_warmed key
  rw [openFile, openFile, hfiles, hfds]

theorem blobFileRange_fst (hash : Cas.Hash) (off len : UInt32) :
    (c.blobFileRange hash off len).1 = (c.openFile hash).map fun file => (file, off.toUInt64) := by
  simp only [blobFileRange, openFile]
  cases c.fds.find? fun p => p.1 = hash with
  | some p => rfl
  | none => cases c.files hash <;> rfl

theorem blobFileRange_warmed (hash : Cas.Hash) (off len : UInt32) :
    Warmed c (c.blobFileRange hash off len).2 := by
  simp only [blobFileRange]
  cases c.fds.find? fun p => p.1 = hash with
  | some p => exact ⟨rfl, rfl⟩
  | none => cases c.files hash <;> exact ⟨rfl, rfl⟩

variable {c key}

theorem Warmed.trans {c' c'' : Cache} (h : Warmed c c') (h' : Warmed c' c'') : Warmed c c'' :=
  ⟨h'.db.trans h.db, h'.files.trans h.files⟩

theorem hit_fst (c : Cache) (key : Cas.ManifestKey) (chunkOff inner want : UInt64) :
    (c.hit key chunkOff inner want).1 = (c.blobOf key chunkOff).bind fun file =>
      let buf := readAt file inner.toUInt32.toUInt64 want.toNat
      if buf.length = want.toNat then some buf else none := by
  rcases hman : c.manifest key with ⟨m, c₁⟩
  have hm : c.manifestOf key = m := by rw [← manifest_fst, hman]
  have hopen : ∀ hash, c.openFile hash = c₁.openFile hash := fun hash => by
    rw [← c.openFile_manifest key, hman]
  simp only [hit, hman, blobOf, hm]
  cases m with
  | none => rfl
  | some m =>
    simp only [Option.bind_eq_bind, Option.bind_some]
    cases m.find? fun chunk => chunk.off = chunkOff with
    | none => rfl
    | some chunk =>
      rcases hblob : c₁.blobFileRange chunk.hash inner.toUInt32 want.toUInt32 with ⟨b, c₂⟩
      obtain rfl : (c₁.openFile chunk.hash).map (fun file => (file, inner.toUInt32.toUInt64)) = b := by
        rw [← c₁.blobFileRange_fst chunk.hash inner.toUInt32 want.toUInt32, hblob]
      simp only [hblob, Option.bind_some, hopen]
      cases c₁.openFile chunk.hash with
      | none => rfl
      | some file =>
        simp only [Option.map_some, Option.bind_some]
        split <;> rfl

theorem hit_warmed (c : Cache) (key : Cas.ManifestKey) (chunkOff inner want : UInt64) :
    Warmed c (c.hit key chunkOff inner want).2 := by
  rcases hman : c.manifest key with ⟨m, c₁⟩
  have hwarm : Warmed c c₁ := by
    have h := (c.manifest_warmed key).1
    rwa [hman] at h
  simp only [hit, hman]
  cases m with
  | none => exact hwarm
  | some m =>
    simp only
    cases m.find? fun chunk => chunk.off = chunkOff with
    | none => exact hwarm
    | some chunk =>
      have hnext := c₁.blobFileRange_warmed chunk.hash inner.toUInt32 want.toUInt32
      rcases hblob : c₁.blobFileRange chunk.hash inner.toUInt32 want.toUInt32 with ⟨b, c₂⟩
      rw [hblob] at hnext
      simp only [hblob]
      cases b with
      | none => exact hwarm.trans hnext
      | some b =>
        simp only
        split <;> exact hwarm.trans hnext

theorem recheck_fst (c : Cache) (key : Cas.ManifestKey) (chunkOff : UInt64) {inner want : UInt64}
    (blake3 : List UInt8 → Cas.Hash)
    (hinner : inner.toUInt32.toUInt64 = inner) (hwant : want.toUInt32.toNat = want.toNat) :
    (c.recheck blake3 key chunkOff inner want).1 = c.stored key chunkOff inner want := by
  simp only [recheck, stored]
  cases c.db.manifests.get key with
  | none => rfl
  | some m =>
    simp only [Option.bind_eq_bind, Option.bind_some]
    cases m.find? fun chunk => chunk.off = chunkOff with
    | none => rfl
    | some chunk =>
      simp only [getBlobRange, Option.bind_some, hinner, hwant]
      cases c.files chunk.hash with
      | none => rfl
      | some file =>
        simp only [Bool.false_eq_true, if_false, Option.bind_some]
        split <;> rfl

theorem stored_length {chunkOff inner want : UInt64} {buf : List UInt8}
    (h : c.stored key chunkOff inner want = some buf) : buf.length = want.toNat := by
  obtain ⟨m, -, h⟩ := Option.bind_eq_some_iff.mp h
  obtain ⟨chunk, -, h⟩ := Option.bind_eq_some_iff.mp h
  obtain ⟨file, -, h⟩ := Option.bind_eq_some_iff.mp h
  simp only at h
  obtain ⟨hfull, h⟩ := Option.ite_none_right_eq_some.mp h
  rw [← Option.some.inj h]
  exact hfull

theorem Warmed.stored_eq {c' : Cache} (h : Warmed c c') (chunkOff inner want : UInt64) :
    c'.stored key chunkOff inner want = c.stored key chunkOff inner want := by
  simp only [stored, h.db, h.files]

end Cache

/-- A range within one chunk: the chunk, the place and length in it, and the end. -/
structure Window where
  chunkOff : UInt64
  chunkLen : UInt64
  inner : UInt64
  want : UInt64
  fin : UInt64

def Window.slice (w : Window) (chunk : List UInt8) : List UInt8 := readAt chunk w.inner w.want.toNat

/-- The range of a read, if it is not empty and lies in one chunk. -/
def window (size offset : UInt64) (count : UInt32) : Option Window :=
  let fin := minU64 size (offset + count.toUInt64)
  let chunkOff := offset / CAS_CHUNK * CAS_CHUNK
  if size ≤ offset ∨ count = 0 ∨ offset / CAS_CHUNK ≠ (fin - 1) / CAS_CHUNK then none
  else some ⟨chunkOff, minU64 CAS_CHUNK (size - chunkOff), offset - chunkOff, fin - offset, fin⟩

structure Window.Of (w : Window) (size offset : UInt64) (count : UInt32) : Prop where
  below : ¬ size ≤ offset
  count_ne : count ≠ 0
  fin : w.fin = minU64 size (offset + count.toUInt64)
  one : offset / CAS_CHUNK = (w.fin - 1) / CAS_CHUNK
  chunkOff : w.chunkOff = offset / CAS_CHUNK * CAS_CHUNK
  chunkLen : w.chunkLen = minU64 CAS_CHUNK (size - w.chunkOff)
  inner : w.inner = offset - w.chunkOff
  want : w.want = w.fin - offset

theorem window_eq_some {size offset : UInt64} {count : UInt32} {w : Window} :
    window size offset count = some w ↔ w.Of size offset count := by
  constructor
  · intro h
    obtain ⟨hnot, ⟨⟩⟩ := Option.ite_none_left_eq_some.mp h
    simp only [not_or, ne_eq, not_not] at hnot
    exact ⟨hnot.1, hnot.2.1, rfl, hnot.2.2, rfl, rfl, rfl, rfl⟩
  · rintro ⟨hbelow, hcount, hfin, hone, hoff, hlen, hinner, hwant⟩
    simp only [window]
    rw [← hfin, ← hoff, ← hinner, ← hwant, ← hlen, if_neg]
    simp [hbelow, hcount, hone]

namespace Window.Of

variable {w : Window} {size offset : UInt64} {count : UInt32}

variable (h : w.Of size offset count)
include h

theorem inner_lt : w.inner.toNat < 4194304 := by
  have hchunk : (offset / CAS_CHUNK * CAS_CHUNK).toNat = offset.toNat / 4194304 * 4194304 := by
    have := offset.toNat_lt
    simp only [CAS_CHUNK, UInt64.toNat_mul, UInt64.toNat_div, UInt64.reduceToNat]
    omega
  rw [h.inner, h.chunkOff, UInt64.toNat_sub_of_le _ _ (by rw [UInt64.le_iff_toNat_le, hchunk]; omega),
    hchunk]
  omega

theorem inner_small : w.inner.toUInt32.toUInt64 = w.inner := by
  have := h.inner_lt
  apply UInt64.toNat_inj.mp
  simp only [UInt32.toNat_toUInt64, UInt64.toNat_toUInt32]
  omega

theorem end_eq : offset + w.want = w.fin := by
  rw [h.want, UInt64.add_comm, UInt64.sub_add_cancel]

theorem want_small : w.want.toUInt32.toNat = w.want.toNat := by
  have hbelow := h.below
  have hsize := size.toNat_lt
  have hcount := count.toNat_lt
  rw [UInt64.toNat_toUInt32, Nat.mod_eq_of_lt]
  rw [h.want, h.fin, UInt64.toNat_sub]
  rw [UInt64.le_iff_toNat_le] at hbelow
  simp only [minU64]
  split_ifs with hle
  · rw [UInt64.le_iff_toNat_le, UInt64.toNat_add, UInt32.toNat_toUInt64] at hle
    omega
  · rw [UInt64.toNat_add, UInt32.toNat_toUInt64]
    omega

end Window.Of

namespace ShareSurface

variable {s : ShareSurface} {node : NodeKey} {offset : UInt64} {count : UInt32}

theorem locate_fst : (s.locate node offset count).1 = s.cache.bind fun c =>
    if 0 < s.inflight node then none
    else (s.replica.getattr node).toOption.bind fun attr =>
      (window attr.size offset count).bind fun w =>
        (c.blobOf (s.key node attr) w.chunkOff).map fun file =>
          ⟨attr.size, w.fin, file, w.inner.toUInt32.toUInt64, w.want⟩ := by
  simp only [locate]
  cases s.cache with
  | none => rfl
  | some c =>
    simp only [Option.bind_some]
    split
    · rfl
    cases s.replica.getattr node with
    | error e => rfl
    | ok attr =>
      simp only [Except.toOption, Option.bind_some, window]
      by_cases hedge : attr.size ≤ offset ∨ count = 0
      · rw [if_pos hedge, if_pos (hedge.imp_right .inl)]
        rfl
      rw [if_neg hedge]
      by_cases hone :
          offset / CAS_CHUNK ≠ (minU64 attr.size (offset + count.toUInt64) - 1) / CAS_CHUNK
      · rw [if_pos hone, if_pos (.inr (.inr hone))]
        rfl
      rw [if_neg hone, if_neg (by rw [← or_assoc]; exact not_or.mpr ⟨hedge, hone⟩)]
      simp only [Option.bind_some, Cache.blobOf]
      rcases hman : c.manifest (s.key node attr) with ⟨m, c₁⟩
      obtain rfl : c.manifestOf (s.key node attr) = m := by rw [← Cache.manifest_fst, hman]
      have hopen : ∀ hash, c.openFile hash = c₁.openFile hash := fun hash => by
        rw [← c.openFile_manifest (s.key node attr), hman]
      cases c.manifestOf (s.key node attr) with
      | none => rfl
      | some m =>
        simp only [Option.bind_eq_bind, Option.bind_some]
        cases m.find? fun chunk => chunk.off = offset / CAS_CHUNK * CAS_CHUNK with
        | none => rfl
        | some chunk =>
          simp only [Option.bind_some, hopen]
          rcases hblob : c₁.blobFileRange chunk.hash (offset - offset / CAS_CHUNK * CAS_CHUNK).toUInt32
            (minU64 attr.size (offset + count.toUInt64) - offset).toUInt32 with ⟨b, c₂⟩
          obtain rfl : (c₁.openFile chunk.hash).map (fun file =>
              (file, (offset - offset / CAS_CHUNK * CAS_CHUNK).toUInt32.toUInt64)) = b := by
            rw [← c₁.blobFileRange_fst chunk.hash _
              (minU64 attr.size (offset + count.toUInt64) - offset).toUInt32, hblob]
          cases c₁.openFile chunk.hash with
          | none => rfl
          | some file => rfl

theorem read_drained (hidle : s.inflight node = 0) :
    s.read node offset count = s.readDrained node offset count := by
  have hdrain : s.drainWrites node = (none, s) := by
    simp only [drainWrites]
    cases hq : s.writes node with
    | none => rfl
    | some q =>
      have hzero : q.inflight = 0 := by simpa [inflight, hq] using hidle
      simp [hzero]
  rw [read, hdrain]

variable {c : Cache} {attr : Attr} {w : Window} {blob : List UInt8} {key : Cas.ManifestKey}
  {size : UInt64}

theorem read_dirty (hcache : s.cache = some c) (hidle : s.inflight node = 0)
    (hdirty : s.macDirty node = true) :
    (s.read node offset count).1 = s.plainRead node offset count := by
  rw [read_drained hidle]
  simp [readDrained, hcache, hdirty]

theorem read_window (hcache : s.cache = some c) (hidle : s.inflight node = 0)
    (hclean : s.macDirty node = false) (hattr : s.replica.getattr node = .ok attr)
    (hw : w.Of attr.size offset count) :
    (s.read node offset count).1 =
      ((s.chunkRead c (s.key node attr) node w.chunkOff w.chunkLen w.inner w.want attr.size).1).map
        fun piece => ⟨piece, decide (attr.size ≤ offset + .ofNat piece.length)⟩ := by
  rw [read_drained hidle]
  simp only [readDrained, hcache, hclean, Bool.false_eq_true, if_false, cachedRead, hattr,
    if_neg hw.below]
  rw [← hw.fin, ← hw.chunkOff, ← hw.inner, ← hw.want, ← hw.chunkLen, if_pos hw.one]
  rcases s.chunkRead c (s.key node attr) node w.chunkOff w.chunkLen w.inner w.want attr.size with
    ⟨_ | _, _, _⟩ <;> rfl

theorem chunkRead_hit (hw : w.Of size offset count) (hblob : c.blobOf key w.chunkOff = some blob)
    (hfull : (w.slice blob).length = w.want.toNat) :
    (s.chunkRead c key node w.chunkOff w.chunkLen w.inner w.want size).1 = .ok (w.slice blob) := by
  have hhit := c.hit_fst key w.chunkOff w.inner w.want
  rw [hblob, Option.bind_some, hw.inner_small] at hhit
  simp only [Window.slice] at hfull ⊢
  rw [if_pos hfull] at hhit
  rcases hc : c.hit key w.chunkOff w.inner w.want with ⟨b, c₁⟩
  rw [hc] at hhit
  obtain rfl : b = some (readAt blob w.inner w.want.toNat) := hhit
  simp [chunkRead, hc]

theorem chunkRead_miss (s : ShareSurface) (node : NodeKey) (hw : w.Of size offset count)
    (hblob : c.blobOf key w.chunkOff = some blob) (hshort : (w.slice blob).length ≠ w.want.toNat) :
    (∀ buf, c.stored key w.chunkOff w.inner w.want = some buf →
      (s.chunkRead c key node w.chunkOff w.chunkLen w.inner w.want size).1 = .ok buf) ∧
    (c.stored key w.chunkOff w.inner w.want = none →
      (s.chunkRead c key node w.chunkOff w.chunkLen w.inner w.want size).1 =
        (s.guestRead node w.chunkOff w.chunkLen).map fun p => w.slice p.1) := by
  have hhit := c.hit_fst key w.chunkOff w.inner w.want
  rw [hblob, Option.bind_some, hw.inner_small] at hhit
  simp only [Window.slice] at hshort
  rw [if_neg hshort] at hhit
  have hwarm := c.hit_warmed key w.chunkOff w.inner w.want
  rcases hc : c.hit key w.chunkOff w.inner w.want with ⟨b, c₁⟩
  rw [hc] at hhit hwarm
  obtain rfl : b = none := hhit
  have hcheck := c₁.recheck_fst key w.chunkOff s.blake3 hw.inner_small hw.want_small
  rw [hwarm.stored_eq] at hcheck
  rcases hr : c₁.recheck s.blake3 key w.chunkOff w.inner w.want with ⟨b, c₂⟩
  rw [hr] at hcheck
  obtain rfl : b = c.stored key w.chunkOff w.inner w.want := hcheck
  constructor
  · intro buf hbuf
    rw [hbuf] at hr
    simp [chunkRead, hc, hr]
  intro hnone
  rw [hnone] at hr
  simp only [chunkRead, hc, hr]
  rcases s.guestRead node w.chunkOff w.chunkLen with e | ⟨data, eof⟩
  · rfl
  · simp only [Except.map, Window.slice]
    split <;> rfl

variable (s node offset count)

def IntoAgrees : Prop :=
  ∀ out r, (s.readInto node offset count out).1 = some r →
    ∃ data eof, r = .ok eof ∧ (s.readInto node offset count out).2.1 = out ++ data ∧
      (s.read node offset count).1 = .ok ⟨data, eof⟩

def SendableAgrees : Prop :=
  ∀ body, (s.readSendable node offset count).1 = some body →
    (s.read node offset count).1 = .ok ⟨body.data, body.eof⟩

/-- What `read_sendable` does not look at, for a blob it would send: that the Mac did not write the
node, or wrote what the blob has, and that the blob file has the whole range, or a miss would give no
more than it has. -/
def BlobRight (attr : Attr) (w : Window) (c : Cache) (blob : List UInt8) : Prop :=
  if s.macDirty node then
    s.plainRead node offset count = .ok ⟨w.slice blob, decide (attr.size ≤ w.fin)⟩
  else
    (w.slice blob).length = w.want.toNat ∨
      (c.stored (s.key node attr) w.chunkOff w.inner w.want = none ∧
        (∃ data eof, s.guestRead node w.chunkOff w.chunkLen = .ok (data, eof) ∧
          w.slice data = w.slice blob) ∧
        (attr.size ≤ offset + .ofNat (w.slice blob).length ↔ attr.size ≤ w.fin))

/-- The condition on the state: it is about nodes with a blob in the cache that `sendfile` would
send. -/
def SendsRight : Prop :=
  s.sendfile = true → s.inflight node = 0 → ∀ c attr w blob, s.cache = some c →
    s.replica.getattr node = .ok attr → window attr.size offset count = some w →
    c.blobOf (s.key node attr) w.chunkOff = some blob → s.BlobRight node offset count attr w c blob

variable {s node offset count}

/-- What the short cuts answer from. -/
structure Finds (s : ShareSurface) (node : NodeKey) (offset : UInt64) (count : UInt32) (c : Cache)
    (attr : Attr) (w : Window) (blob : List UInt8) : Prop where
  cache : s.cache = some c
  idle : s.inflight node = 0
  shown : s.replica.getattr node = .ok attr
  range : w.Of attr.size offset count
  found : c.blobOf (s.key node attr) w.chunkOff = some blob

theorem locate_eq_some {l : Located} : (s.locate node offset count).1 = some l ↔
    ∃ c attr w blob, s.Finds node offset count c attr w blob ∧
      l = ⟨attr.size, w.fin, blob, w.inner, w.want⟩ := by
  rw [locate_fst]
  constructor
  · intro h
    obtain ⟨c, hcache, h⟩ := Option.bind_eq_some_iff.mp h
    split at h
    · cases h
    obtain ⟨attr, hattr, h⟩ := Option.bind_eq_some_iff.mp h
    obtain ⟨w, hw, h⟩ := Option.bind_eq_some_iff.mp h
    obtain ⟨blob, hblob, rfl⟩ := Option.map_eq_some_iff.mp h
    rw [window_eq_some] at hw
    refine ⟨c, attr, w, blob, ⟨hcache, by omega, ?_, hw, hblob⟩, by rw [hw.inner_small]⟩
    cases hget : s.replica.getattr node with
    | error e => rw [hget] at hattr; cases hattr
    | ok a =>
      rw [hget] at hattr
      exact congrArg Except.ok (Option.some.inj hattr)
  · rintro ⟨c, attr, w, blob, ⟨hcache, hidle, hattr, hw, hblob⟩, rfl⟩
    simp only [hcache, hidle, hattr, Except.toOption, window_eq_some.mpr hw, hblob, hw.inner_small,
      Option.bind_some, Option.map_some, Nat.lt_irrefl, if_false]

variable {c : Cache} {attr : Attr} {w : Window} {blob : List UInt8}

theorem Finds.read_full (h : s.Finds node offset count c attr w blob)
    (hclean : s.macDirty node = false) (hfull : (w.slice blob).length = w.want.toNat) :
    (s.read node offset count).1 = .ok ⟨w.slice blob, decide (attr.size ≤ w.fin)⟩ := by
  rw [read_window h.cache h.idle hclean h.shown h.range, chunkRead_hit h.range h.found hfull]
  simp only [Except.map, hfull, UInt64.ofNat_toNat, h.range.end_eq]

theorem into_agrees : s.IntoAgrees node offset count := by
  intro out r hr
  simp only [readInto] at hr ⊢
  split at hr
  · cases hr
  rename_i hchecks
  rw [if_neg hchecks]
  obtain ⟨-, hclean⟩ := not_or.mp hchecks
  rcases hl : s.locate node offset count with ⟨l, s₁⟩
  rw [hl] at hr
  cases l with
  | none => cases hr
  | some l =>
    obtain ⟨c, attr, w, blob, hfinds, rfl⟩ := locate_eq_some.mp (congrArg Prod.fst hl)
    simp only at hr ⊢
    split at hr
    · rename_i hfull
      cases hr
      refine ⟨w.slice blob, _, rfl, ?_, hfinds.read_full (by simpa using hclean) hfull⟩
      rw [if_pos hfull]
      rfl
    · cases hr

theorem Finds.sendable (h : s.Finds node offset count c attr w blob) (hsend : s.sendfile = true) :
    ∃ body, (s.readSendable node offset count).1 = some body ∧ body.data = w.slice blob ∧
      body.eof = decide (attr.size ≤ w.fin) := by
  have hl := locate_eq_some.mpr ⟨c, attr, w, blob, h, rfl⟩
  rcases hloc : s.locate node offset count with ⟨l, s₁⟩
  rw [hloc] at hl
  obtain rfl : l = some _ := hl
  refine ⟨⟨blob, w.inner, w.want.toUInt32, decide (attr.size ≤ w.fin)⟩, ?_, ?_, rfl⟩
  · simp only [readSendable, hsend, hloc, if_true]
  · simp only [Sendable.data, h.range.want_small, Window.slice]

theorem Finds.agrees_iff (h : s.Finds node offset count c attr w blob) :
    (s.read node offset count).1 = .ok ⟨w.slice blob, decide (attr.size ≤ w.fin)⟩ ↔
      s.BlobRight node offset count attr w c blob := by
  simp only [BlobRight]
  cases hmac : s.macDirty node with
  | true =>
    rw [read_dirty h.cache h.idle hmac]
    simp
  | false =>
    by_cases hfull : (w.slice blob).length = w.want.toNat
    · simp [h.read_full hmac hfull, hfull]
    obtain ⟨hstored, hfetch⟩ := s.chunkRead_miss node h.range h.found hfull
    rw [read_window h.cache h.idle hmac h.shown h.range]
    cases hbuf : c.stored (s.key node attr) w.chunkOff w.inner w.want with
    | some buf =>
      rw [hstored buf hbuf]
      refine iff_of_false (fun heq => hfull ?_) ?_
      · have hsame : buf = w.slice blob := congrArg ReadResult.data (Except.ok.inj heq)
        rw [← hsame, Cache.stored_length hbuf]
      · simp [hfull]
    | none =>
      rw [hfetch hbuf]
      rcases hread : s.guestRead node w.chunkOff w.chunkLen with e | ⟨data, eof⟩
      · simp [Except.map, hfull]
      simp only [Except.map, Except.ok.injEq, ReadResult.mk.injEq, decide_eq_decide, hfull,
        false_or, true_and, Prod.mk.injEq]
      constructor
      · rintro ⟨hsame, heof⟩
        exact ⟨⟨data, eof, ⟨rfl, rfl⟩, hsame⟩, hsame ▸ heof⟩
      · rintro ⟨⟨data', eof', ⟨rfl, rfl⟩, hsame⟩, heof⟩
        exact ⟨hsame, hsame ▸ heof⟩

/-- An answer of `read_into` is that of `read`; one of `read_sendable` exactly if the blob it sends
has the whole range, as the guest has it. -/
theorem read_paths_agree (s : ShareSurface) (node : NodeKey) (offset : UInt64) (count : UInt32) :
    (s.IntoAgrees node offset count ∧ s.SendableAgrees node offset count) ↔
      s.SendsRight node offset count := by
  constructor
  · rintro ⟨-, hagrees⟩ hsend hidle c attr w blob hcache hattr hw hblob
    have hfinds : s.Finds node offset count c attr w blob :=
      ⟨hcache, hidle, hattr, window_eq_some.mp hw, hblob⟩
    obtain ⟨body, hbody, hdata, heof⟩ := hfinds.sendable hsend
    have hread := hagrees body hbody
    rw [hdata, heof] at hread
    exact hfinds.agrees_iff.mp hread
  · intro hright
    refine ⟨into_agrees, fun body hbody => ?_⟩
    obtain ⟨hsend, l, hl⟩ : s.sendfile = true ∧ ∃ l, (s.locate node offset count).1 = some l := by
      simp only [readSendable] at hbody
      split at hbody
      · rename_i hsend
        refine ⟨hsend, ?_⟩
        rcases hloc : s.locate node offset count with ⟨_ | l, s₁⟩
        · rw [hloc] at hbody
          cases hbody
        · exact ⟨l, rfl⟩
      · cases hbody
    obtain ⟨c, attr, w, blob, hfinds, -⟩ := locate_eq_some.mp hl
    obtain ⟨body', hbody', hdata, heof⟩ := hfinds.sendable hsend
    obtain rfl := Option.mem_unique hbody hbody'
    rw [hdata, heof]
    exact hfinds.agrees_iff.mpr (hright hsend hfinds.idle c attr w blob hfinds.cache hfinds.shown
      (window_eq_some.mpr hfinds.range) hfinds.found)

def justWritten : ShareSurface :=
  let node : NodeKey := ⟨2, 1⟩
  let replica := (ShareReplica.new ⟨⟨1⟩, ⟨1, 1⟩⟩).upsertNode node
    { placeholderAttr .reg with size := 3 } ⟨1, 1⟩
  let key : Cas.ManifestKey := ⟨1, node, contentFingerprint { placeholderAttr .reg with size := 3 }⟩
  { blake3 := id
    now := 0
    sendfile := true
    shareId := 1
    replica := replica
    writes := fun _ => none
    macDirty := fun k => k = node
    cache := some
      { db := ⟨[(key, [⟨0, 3, [1, 1, 1]⟩])], ∅⟩
        files := fun h => if h = [1, 1, 1] then some [1, 1, 1] else none
        fds := []
        manifests := [] }
    connected := true
    guest := fun k => if k = node then .ok (.regular ⟨[2, 2, 2], by decide⟩) else .error 2
    prefetches := [] }

/-- `read_sendable` sends the old bytes of a file the Mac has just written. -/
theorem sendable_stale :
    ¬ (justWritten.IntoAgrees ⟨2, 1⟩ 0 3 ∧ justWritten.SendableAgrees ⟨2, 1⟩ 0 3) := by
  rintro ⟨-, h⟩
  have hsent : (justWritten.readSendable ⟨2, 1⟩ 0 3).1 = some ⟨[1, 1, 1], 0, 3, true⟩ := by
    decide +kernel
  have hread : (justWritten.read ⟨2, 1⟩ 0 3).1 = .ok ⟨[2, 2, 2], true⟩ := by decide +kernel
  have hsame := (h _ hsent).symm.trans hread
  exact absurd hsame (by decide)

end ShareSurface

end Mist
