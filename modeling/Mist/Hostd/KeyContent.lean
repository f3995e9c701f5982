import Mist.Hostd.Coherence
import Mist.Hostd.Streamed
import Mathlib.Data.Set.Function

/-! Keys and contents: whatever the cache has under a key is what the file was when attributes with
that fingerprint were taken. -/

namespace Mist.Coherence

open Coherence.Task Cas.Manifests Function Nfs List Option Runs UInt64

theorem chunkOff_toNat (size fin pos : UInt64) :
    (pieceAt size fin pos).chunkOff.toNat = pos.toNat / 4194304 * 4194304 := by
  have := pos.toNat_lt
  simp only [pieceAt, CAS_CHUNK, UInt64.toNat_mul, UInt64.toNat_div, UInt64.reduceToNat]
  omega

theorem inner_toNat (size fin pos : UInt64) :
    (pieceAt size fin pos).inner.toNat = pos.toNat % 4194304 := by
  have hoff := chunkOff_toNat size fin pos
  simp only [pieceAt] at hoff ⊢
  rw [UInt64.toNat_sub_of_le _ _ (by rw [UInt64.le_iff_toNat_le, hoff]; omega), hoff]
  omega

theorem chunkLen_toNat (size fin pos : UInt64) (h : pos.toNat ≤ size.toNat) :
    (pieceAt size fin pos).chunkLen.toNat =
      min 4194304 (size.toNat - pos.toNat / 4194304 * 4194304) := by
  have hoff := chunkOff_toNat size fin pos
  simp only [pieceAt] at hoff ⊢
  rw [minU64_toNat, UInt64.toNat_sub_of_le _ _ (by rw [UInt64.le_iff_toNat_le, hoff]; omega), hoff]
  simp [CAS_CHUNK]

theorem want_le {size fin pos : UInt64} (h : pos.toNat < fin.toNat)
    (hfin : fin.toNat ≤ size.toNat) :
    (pieceAt size fin pos).want.toNat ≤ fin.toNat - pos.toNat ∧
      (pieceAt size fin pos).want.toNat ≤ 4194304 := by
  have hlen := chunkLen_toNat size fin pos (by omega)
  have hinner := inner_toNat size fin pos
  have hwant : (pieceAt size fin pos).want =
      minU64 (fin - pos) ((pieceAt size fin pos).chunkLen - (pieceAt size fin pos).inner) := rfl
  rw [hwant, minU64_toNat, UInt64.toNat_sub_of_le _ _ (UInt64.le_iff_toNat_le.mpr (by omega)),
    UInt64.toNat_sub_of_le _ _ (UInt64.le_iff_toNat_le.mpr (by omega)), hlen]
  constructor <;> omega

theorem take_chunk {bytes : List UInt8} {o l i w : Nat}
    (h : ((((bytes.drop o).take l).drop i).take w).length = w) :
    (((bytes.drop o).take l).drop i).take w = (bytes.drop (o + i)).take w := by
  rw [drop_take, drop_drop, take_take] at h ⊢
  rw [length_take] at h
  congr 1
  omega

def Taken.chunk (u : Taken) (off : UInt64) : List UInt8 :=
  (u.bytes.drop off.toNat).take (minU64 CAS_CHUNK (u.stat.size - off)).toNat

section

variable (c : Session) (taken : List Taken)

/-- A chunk under a fingerprint is that of attributes with it. -/
def Stands (version : UInt64) (chunk : Cas.ChunkRef) : Prop :=
  ∃ u ∈ taken, u.stat.fingerprint = version ∧ chunk.hash = c.blake3 (u.chunk chunk.off)

def Listed (t : Table Cas.ManifestKey (List Cas.ChunkRef)) : Prop :=
  ∀ version m, t.get ⟨c.share, c.node, version⟩ = some m → ∀ chunk ∈ m, Stands c taken version chunk

/-- Files and handles have the bytes they are named by, manifests list what stands for contents. -/
structure Kept (cache : Cache) : Prop where
  files : ∀ hash file, cache.files hash = some file → c.blake3 file = hash
  fds : ∀ p ∈ cache.fds, c.blake3 p.2 = p.1
  listed : Listed c taken cache.manifests
  stored : Listed c taken cache.db.manifests

variable {c taken} {cache : Cache}

theorem Stands.mono {taken' : List Taken} {version : UInt64} {chunk : Cas.ChunkRef}
    (h : Stands c taken version chunk) (hsub : taken ⊆ taken') : Stands c taken' version chunk := by
  obtain ⟨u, hu, hrest⟩ := h
  exact ⟨u, hsub hu, hrest⟩

theorem Kept.mono {taken' : List Taken} (h : Kept c taken cache) (hsub : taken ⊆ taken') :
    Kept c taken' cache :=
  ⟨h.files, h.fds, fun v m hm chunk hc => (h.listed v m hm chunk hc).mono hsub,
    fun v m hm chunk hc => (h.stored v m hm chunk hc).mono hsub⟩

theorem Listed.insert {t : Table Cas.ManifestKey (List Cas.ChunkRef)} (h : Listed c taken t)
    {version : UInt64} {m : List Cas.ChunkRef} (hm : ∀ chunk ∈ m, Stands c taken version chunk) :
    Listed c taken (t.insert ⟨c.share, c.node, version⟩ m) := by
  intro v m' hget
  rw [Table.get_insert] at hget
  split_ifs at hget with hkey
  · cases hget
    obtain rfl : v = version := congrArg Cas.ManifestKey.contentVersion hkey
    exact hm
  · exact h v m' hget

theorem Listed.empty : Listed c taken [] := nofun

section

variable (h : Kept c taken cache)
include h

theorem Kept.manifest (version : UInt64) :
    Kept c taken (cache.manifest ⟨c.share, c.node, version⟩).2 := by
  simp only [Cache.manifest]
  split
  · exact h
  split
  · rename_i m hm
    refine { h with listed := Listed.insert ?_ (h.stored version m hm) }
    split
    · exact .empty
    · exact h.listed
  · exact h

theorem Kept.openFile {hash : Cas.Hash} {file : List UInt8}
    (hfile : cache.openFile hash = some file) : c.blake3 file = hash := by
  simp only [Cache.openFile, or_eq_some_iff, map_eq_some_iff] at hfile
  rcases hfile with ⟨p, hp, rfl⟩ | ⟨-, hfile⟩
  · have hname : p.1 = hash := by simpa using find?_some hp
    rw [h.fds p (mem_of_find?_eq_some hp), hname]
  · exact h.files hash file hfile

theorem Kept.blobFileRange (hash : Cas.Hash) (off len : UInt32) :
    Kept c taken (cache.blobFileRange hash off len).2 := by
  simp only [Cache.blobFileRange]
  split
  · exact h
  split
  · rename_i file hfile
    refine { h with fds := fun p hp => ?_ }
    rcases mem_append_cases hp with hp | rfl
    · refine h.fds p ?_
      split at hp
      · exact mem_of_mem_tail hp
      · exact hp
    · exact h.files hash file hfile
  · exact h

theorem Kept.removeFile (hash : Cas.Hash) :
    Kept c taken { cache with
      db := cache.db.removeRows [hash]
      files := Function.update cache.files hash none } := by
  refine { h with files := fun j file hfile => ?_ }
  simp only at hfile
  by_cases hj : j = hash
  · subst hj
    simp at hfile
  · rw [update_of_ne hj] at hfile
    exact h.files j file hfile

theorem Kept.addFile (data : List UInt8) :
    Kept c taken { cache with
      files := if (cache.files (c.blake3 data)).isSome then cache.files
        else Function.update cache.files (c.blake3 data) (some data) } := by
  refine { h with files := fun j file hfile => ?_ }
  simp only at hfile
  split at hfile
  · exact h.files j file hfile
  by_cases hj : j = c.blake3 data
  · subst hj
    obtain rfl : data = file := by simpa using hfile
    rfl
  · rw [update_of_ne hj] at hfile
    exact h.files j file hfile

theorem Kept.hit (version chunkOff inner want : UInt64) :
    Kept c taken (cache.hit ⟨c.share, c.node, version⟩ chunkOff inner want).2 := by
  have hman := h.manifest version
  rcases hm : cache.manifest ⟨c.share, c.node, version⟩ with ⟨m, c₁⟩
  rw [hm] at hman
  simp only [Cache.hit, hm]
  cases m with
  | none => exact hman
  | some m =>
    simp only
    cases m.find? fun chunk => chunk.off = chunkOff with
    | none => exact hman
    | some chunk =>
      have hblob := hman.blobFileRange chunk.hash inner.toUInt32 want.toUInt32
      rcases hb : c₁.blobFileRange chunk.hash inner.toUInt32 want.toUInt32 with ⟨b, c₂⟩
      rw [hb] at hblob
      simp only [hb]
      cases b with
      | none => exact hblob
      | some b =>
        simp only
        split <;> exact hblob

theorem Kept.recheck (key : Cas.ManifestKey) (chunkOff inner want : UInt64) :
    Kept c taken (cache.recheck c.blake3 key chunkOff inner want).2 := by
  simp only [Cache.recheck]
  split
  · exact h
  split
  · exact h
  · simp only [Cache.getBlobRange]
    split
    · exact h
    simp only [Bool.false_eq_true, if_false]
    split
    · exact h
    · exact h.removeFile _

theorem Kept.ingest {u : Taken} (hu : u ∈ taken) {off : UInt64}
    {data : List UInt8} (hdata : data = u.chunk off) (now : UInt64) :
    Kept c taken (cache.ingestChunk c.blake3 (c.key u.stat) off data now) := by
  have hfile := h.addFile data
  refine ⟨hfile.files, h.fds, h.listed, fun v m hget chunk hc => ?_⟩
  have hnew : Stands c taken u.stat.fingerprint (Cas.chunkOf c.blake3 (off, data)) :=
    ⟨u, hu, rfl, by rw [Cas.chunkOf, hdata]⟩
  have hget' : Table.get (mergeChunk cache.db.manifests (c.key u.stat)
      (Cas.chunkOf c.blake3 (off, data))) ⟨c.share, c.node, v⟩ = some m := hget
  rw [mergeChunk, get_putManifest] at hget'
  split at hget'
  · rename_i hkey
    cases hget'
    obtain rfl : v = u.stat.fingerprint := congrArg Cas.ManifestKey.contentVersion hkey
    rcases mem_of_setChunk hc with rfl | hc
    · exact hnew
    cases hold : Table.get cache.db.manifests (c.key u.stat) with
    | none => rw [hold] at hc; cases hc
    | some old =>
      rw [hold] at hc
      exact h.stored _ old hold chunk hc
  · obtain ⟨_, hget'⟩ := ite_none_left_eq_some.mp hget'
    exact h.stored v m hget' chunk hc

end

end

section

variable (c : Session) (A : Set Stat)

structure Task.Good (taken : List Taken) (t : Task) : Prop where
  known : t.taken ∈ taken
  fetch : ∀ got, t.phase = .fetching got →
    got = (t.taken.bytes.drop t.piece.chunkOff.toNat).take got.length
  read : t.ahead = false → t.cached = true →
    t.data = (t.taken.bytes.drop t.offset.toNat).take t.data.length ∧
      t.pos.toNat = t.offset.toNat + t.data.length ∧ t.pos.toNat ≤ t.fin.toNat ∧
      (t.phase ≠ .done → t.pos.toNat < t.fin.toNat) ∧ (t.phase = .done → t.pos.toNat = t.fin.toNat)

structure Good (s : State) : Prop where
  fits : fitsOff s.file.bytes
  had : ∀ u ∈ s.taken, fitsOff u.bytes ∧ ∃ m ∈ s.history, m.taken = u
  within : ∀ u ∈ s.taken, u.stat ∈ A
  telling : ∀ u ∈ s.taken, ∀ v ∈ s.taken, u.stat = v.stat → u.bytes = v.bytes
  shown : s.shown ∈ s.taken
  journal : s.journal ⊆ s.taken
  staged : ∀ st, s.staging = some st → (∀ u ∈ st.snap, u ∈ s.taken) ∧ st.buf ⊆ s.taken
  cache : Kept c s.taken s.cache
  tasks : ∀ t ∈ s.tasks, t.Good s.taken

variable {c A} {s s' : State} {t : Task} {taken : List Taken} {u : Taken} {buf : List UInt8}

theorem Task.Good.mono {taken' : List Taken} (h : t.Good taken) (hsub : taken ⊆ taken') :
    t.Good taken' := ⟨hsub h.known, h.fetch, h.read⟩

theorem size_toNat (hfits : fitsOff u.bytes) {m : Moment} (hm : m.taken = u) :
    u.stat.size.toNat = u.bytes.length := by
  subst hm
  have hlt : m.bytes.length < 9223372036854775808 := hfits
  exact toNat_ofNat_of_lt' (by simp only [size]; omega)

theorem Good.size (h : Good c A s) (hu : u ∈ s.taken) : u.stat.size.toNat = u.bytes.length := by
  obtain ⟨hfits, m, -, hm⟩ := h.had u hu
  exact size_toNat hfits hm

structure Task.Sized (t : Task) : Prop where
  off : t.piece.chunkOff.toNat + t.piece.inner.toNat = t.pos.toNat
  inner : t.piece.inner.toUInt32.toUInt64 = t.piece.inner
  want : t.piece.want.toUInt32.toNat = t.piece.want.toNat
  short : t.pos.toNat + t.piece.want.toNat ≤ t.fin.toNat

theorem Task.fin_le (t : Task) : t.fin.toNat ≤ t.taken.stat.size.toNat := by
  rw [fin, minU64_toNat]
  omega

theorem Task.sized (hlt : t.pos.toNat < t.fin.toNat) : t.Sized := by
  have hfin := t.fin_le
  have hoff : t.piece.chunkOff.toNat = t.pos.toNat / 4194304 * 4194304 := chunkOff_toNat ..
  have hinner : t.piece.inner.toNat = t.pos.toNat % 4194304 := inner_toNat ..
  have hwant : t.piece.want.toNat ≤ t.fin.toNat - t.pos.toNat ∧ t.piece.want.toNat ≤ 4194304 :=
    want_le hlt hfin
  refine ⟨by omega, ?_, ?_, by omega⟩
  · apply UInt64.toNat_inj.mp
    rw [UInt32.toNat_toUInt64, UInt64.toNat_toUInt32]
    omega
  · rw [toNat_toUInt32]
    omega

theorem Task.Sized.slice (h : t.Sized)
    (hbuf : buf = readAt (t.taken.chunk t.piece.chunkOff) t.piece.inner t.piece.want.toNat)
    (hfull : buf.length = t.piece.want.toNat) :
    buf = (t.taken.bytes.drop t.pos.toNat).take buf.length := by
  subst hbuf
  rw [hfull]
  have := take_chunk hfull
  rw [h.off] at this
  exact this

theorem Task.Good.advance (h : t.Good taken) (hphase : t.phase ≠ .done)
    (hbuf : t.ahead = false → t.cached = true → t.Sized →
      buf = (t.taken.bytes.drop t.pos.toNat).take buf.length ∧ buf.length = t.piece.want.toNat) :
    (t.advance buf).Good taken := by
  refine ⟨h.known, fun got hgot => ?_, fun hread hcached => ?_⟩
  · simp only [Task.advance] at hgot
    split at hgot <;> cases hgot
  obtain ⟨hdata, hpos, hle, hbusy, -⟩ := h.read hread hcached
  have hsized := sized (hbusy hphase)
  obtain ⟨hrange, hlen⟩ := hbuf hread hcached hsized
  have hshort := hsized.short
  have hfin := t.fin.toNat_lt
  have hnext : (t.pos + .ofNat buf.length).toNat = t.pos.toNat + buf.length := by
    rw [UInt64.toNat_add, UInt64.toNat_ofNat_of_lt' (by simp only [UInt64.size]; omega)]
    omega
  have hfin' : (t.advance buf).fin = t.fin := rfl
  rw [hfin']
  refine ⟨?_, ?_, ?_, ?_, ?_⟩
  · simp only [Task.advance, length_append]
    rw [take_add, ← hdata, drop_drop, ← hpos, ← hrange]
  · simp only [Task.advance, hnext, length_append]
    omega
  · simp only [Task.advance, hnext]
    omega
  · intro hne
    simp only [Task.advance, lt_iff_toNat_lt, hnext] at hne ⊢
    split at hne
    · assumption
    · exact absurd rfl hne
  · intro hdone
    simp only [Task.advance, lt_iff_toNat_lt, hnext] at hdone ⊢
    split at hdone
    · cases hdone
    · omega

section

variable (h : Good c A s) (hfp : Set.InjOn Stat.fingerprint A)
  (hblake : Function.Injective c.blake3)
include h

theorem Good.lookup_kept (t : Task) (again : Bool) : Kept c s.taken (c.lookup s t again).2 := by
  cases again with
  | false =>
    exact h.cache.hit ..
  | true =>
    exact h.cache.recheck ..

theorem Good.work {cache : Cache} {tasks : List Task} (hcache : Kept c s.taken cache)
    (htasks : ∀ t ∈ tasks, t.Good s.taken) : Good c A { s with cache := cache, tasks := tasks } :=
  { h with cache := hcache, tasks := htasks }

theorem Good.set_tasks {t' : Task} (ht : t'.Good s.taken) (i : Nat) :
    ∀ u ∈ s.tasks.set i t', u.Good s.taken := forall_set h.tasks ht

theorem Good.take {version : UInt64} (htelling : s.Telling version)
    (hwithin : (s.taking version).stat ∈ A) : Good c A (s.take version) := by
  have hsub : s.taken ⊆ s.taking version :: s.taken := fun u hu => .tail _ hu
  refine ⟨h.fits, fun u hu => ?_, fun u hu => ?_, fun u hu v hv heq => ?_, hsub h.shown,
    fun u hu => hsub (h.journal hu), fun st hst => ?_, h.cache.mono hsub,
    fun t ht => (h.tasks t ht).mono hsub⟩
  · rcases mem_cons.mp hu with rfl | hu
    · exact ⟨h.fits, _, .head _, rfl⟩
    · obtain ⟨hfits, m, hm, hmu⟩ := h.had u hu
      exact ⟨hfits, m, .tail _ hm, hmu⟩
  · rcases mem_cons.mp hu with rfl | hu
    · exact hwithin
    · exact h.within u hu
  · rcases mem_cons.mp hu with rfl | hu <;> rcases mem_cons.mp hv with rfl | hv
    · rfl
    · exact (htelling v hv heq.symm).symm
    · exact htelling u hu heq
    · exact h.telling u hu v hv heq
  · obtain ⟨hsnap, hbuf⟩ := h.staged st hst
    exact ⟨fun u hu => hsub (hsnap u hu), fun u hu => hsub (hbuf hu)⟩

include hfp hblake

theorem Good.blob (hu : u ∈ s.taken) {chunk : Cas.ChunkRef}
    (hchunk : Stands c s.taken u.stat.fingerprint chunk) {file : List UInt8}
    (hfile : c.blake3 file = chunk.hash) : file = u.chunk chunk.off := by
  obtain ⟨v, hv, hversion, hhash⟩ := hchunk
  have hstat : v.stat = u.stat := hfp (h.within v hv) (h.within u hu) hversion
  have hsame : v.chunk chunk.off = u.chunk chunk.off := by
    rw [Taken.chunk, Taken.chunk, hstat, h.telling v hv u hu hstat]
  exact hblake (hfile.trans (hhash.trans (congrArg c.blake3 hsame)))

theorem Good.found (hknown : t.taken ∈ s.taken) (hsized : t.Sized)
    {again : Bool} (hfound : (c.lookup s t again).1 = some buf) :
    buf = readAt (t.taken.chunk t.piece.chunkOff) t.piece.inner t.piece.want.toNat ∧
      buf.length = t.piece.want.toNat := by
  have hblob : ∀ (chunk : Cas.ChunkRef) (file : List UInt8), chunk.off = t.piece.chunkOff →
      Stands c s.taken t.taken.stat.fingerprint chunk → c.blake3 file = chunk.hash →
      file = t.taken.chunk t.piece.chunkOff := by
    intro chunk file hoff hstands hfile
    rw [← hoff]
    exact h.blob hfp hblake hknown hstands hfile
  cases again with
  | false =>
    simp only [Session.lookup, Bool.false_eq_true, if_false] at hfound
    rw [Cache.hit_fst, hsized.inner] at hfound
    obtain ⟨file, hfile, hbuf⟩ := bind_eq_some_iff.mp hfound
    obtain ⟨m, hm, hfile⟩ := bind_eq_some_iff.mp hfile
    obtain ⟨chunk, hchunk, hfile⟩ := bind_eq_some_iff.mp hfile
    have hoff : chunk.off = t.piece.chunkOff := by simpa using find?_some hchunk
    have hmem := mem_of_find?_eq_some hchunk
    have hstands : Stands c s.taken t.taken.stat.fingerprint chunk := by
      simp only [Cache.manifestOf, or_eq_some_iff] at hm
      rcases hm with hm | ⟨-, hm⟩
      · exact h.cache.listed _ m hm chunk hmem
      · exact h.cache.stored _ m hm chunk hmem
    obtain rfl := hblob chunk file hoff hstands (h.cache.openFile hfile)
    simp only at hbuf
    obtain ⟨_, rfl⟩ := ite_some_none_eq_some.mp hbuf
    exact ⟨rfl, by assumption⟩
  | true =>
    simp only [Session.lookup, if_true] at hfound
    rw [Cache.recheck_fst _ _ _ _ hsized.inner hsized.want] at hfound
    have hlen := Cache.stored_length hfound
    obtain ⟨m, hm, hfile⟩ := bind_eq_some_iff.mp hfound
    obtain ⟨chunk, hchunk, hfile⟩ := bind_eq_some_iff.mp hfile
    obtain ⟨file, hfile, hbuf⟩ := bind_eq_some_iff.mp hfile
    have hoff : chunk.off = t.piece.chunkOff := by simpa using find?_some hchunk
    have hstands := h.cache.stored _ m hm chunk (mem_of_find?_eq_some hchunk)
    obtain rfl := hblob chunk file hoff hstands (h.cache.files _ _ hfile)
    simp only at hbuf
    obtain ⟨_, rfl⟩ := ite_some_none_eq_some.mp hbuf
    exact ⟨rfl, hlen⟩

theorem Good.look {i : Nat} (ht : s.tasks[i]? = some t) {again : Bool}
    (hphase : t.phase ≠ .done) {phase : Phase} (hnext : phase = .missed ∨ phase = .fetching []) :
    Good c A ({ s with cache := (c.lookup s t again).2 }.setTask i
      ((c.lookup s t again).1.elim { t with phase := phase } t.advance)) := by
  have hgood := h.tasks t (mem_of_getElem? ht)
  refine h.work (h.lookup_kept t again) (h.set_tasks ?_ i)
  cases hfound : (c.lookup s t again).1 with
  | none =>
    refine ⟨hgood.known, fun got hgot => ?_, fun hread hcached => ?_⟩
    · rcases hnext with rfl | rfl
      · cases hgot
      · obtain rfl : [] = got := by simpa using hgot
        rfl
    · obtain ⟨hdata, hpos, hle, hbusy, -⟩ := hgood.read hread hcached
      refine ⟨hdata, hpos, hle, fun _ => hbusy hphase, fun hdone => ?_⟩
      rcases hnext with rfl | rfl <;> cases hdone
  | some buf =>
    refine hgood.advance hphase fun _ _ hsized => ?_
    obtain ⟨hbuf, hlen⟩ := h.found hfp hblake hgood.known hsized hfound
    exact ⟨hsized.slice hbuf hlen, hlen⟩

end

theorem Task.Good.chunk (h : t.Good taken) {got : List UInt8} (hphase : t.phase = .fetching got)
    (hfull : got.length = t.piece.chunkLen.toNat) : got = t.taken.chunk t.piece.chunkOff := by
  have hgot := h.fetch got hphase
  rw [hfull] at hgot
  exact hgot

theorem Task.Good.fetched (h : t.Good taken) (got : List UInt8) : (t.fetched got).Good taken := by
  simp only [Task.fetched]
  split
  · exact ⟨h.known, nofun, nofun⟩
  · refine ⟨h.known, fun got' hgot => ?_, nofun⟩
    simp only [Task.advance] at hgot
    split at hgot <;> cases hgot

theorem Task.next_good (h : t.taken ∈ taken) {u : Task} (hu : u ∈ t.next) : u.Good taken := by
  obtain ⟨_, ⟨⟩⟩ := ite_none_left_eq_some.mp hu
  exact ⟨h, nofun, nofun⟩

theorem Good.land (h : Good c A s) {i : Nat} (ht : s.tasks[i]? = some t) {got : List UInt8}
    (hphase : t.phase = .fetching got) :
    Good c A { s with
      cache := if got.length = t.piece.chunkLen.toNat then
          s.cache.ingestChunk c.blake3 (c.key t.taken.stat) t.piece.chunkOff got c.now
        else s.cache
      tasks := s.tasks.set i (if t.ahead then { t with phase := .done } else t.fetched got) ++
        if got.length = t.piece.chunkLen.toNat ∧ t.ahead = false then t.next.toList else [] } := by
  have hgood := h.tasks t (mem_of_getElem? ht)
  refine h.work ?_ fun u hu => ?_
  · split_ifs with hfull
    · exact h.cache.ingest hgood.known (hgood.chunk hphase hfull) c.now
    · exact h.cache
  · rcases mem_append.mp hu with hu | hu
    · refine h.set_tasks ?_ i u hu
      split_ifs with hahead
      · exact ⟨hgood.known, nofun, fun hread => (nomatch hahead.symm.trans hread)⟩
      · exact hgood.fetched got
    · split at hu
      · exact next_good hgood.known (by simpa using hu)
      · cases hu

theorem Good.read_good (h : Good c A s) {offset : UInt64} (hbelow : offset < s.shown.stat.size)
    (count : UInt32) : (read s.shown offset count).Good s.taken := by
  obtain ⟨hfits, -⟩ := h.had _ h.shown
  have hfits : s.shown.bytes.length < 9223372036854775808 := hfits
  have hsize := h.size h.shown
  have hcount := count.toNat_lt
  rw [lt_iff_toNat_lt] at hbelow
  have hfin : (read s.shown offset count).fin.toNat =
      min s.shown.stat.size.toNat (offset.toNat + count.toNat) := by
    rw [fin, minU64_toNat]
    simp only [Task.read, UInt64.toNat_add, UInt32.toNat_toUInt64]
    omega
  have hphase : (read s.shown offset count).phase =
      if offset < (read s.shown offset count).fin then .looking else .done := rfl
  have hpos : (read s.shown offset count).pos = offset := rfl
  refine ⟨h.shown, fun got hgot => ?_, fun _ _ => ⟨rfl, rfl, ?_, fun hne => ?_, fun hdone => ?_⟩⟩
  · rw [hphase] at hgot
    split at hgot <;> cases hgot
  · rw [hpos, hfin]
    omega
  · rw [hphase] at hne
    split_ifs at hne with hlt
    · exact lt_iff_toNat_lt.mp hlt
    · exact absurd rfl hne
  · rw [hphase] at hdone
    split at hdone
    · cases hdone
    rename_i hge
    rw [lt_iff_toNat_lt, hfin] at hge
    rw [hpos, hfin]
    omega

theorem Good.step (hfp : Set.InjOn Stat.fingerprint A) (hblake : Function.Injective c.blake3)
    {a : Action} (h : Good c A s) (hok : Settled s a ∧ Within A s a) (hstep : c.step s a = some s') :
    Good c A s' := by
  cases a with
  | write bytes mtime =>
    obtain ⟨hfits, rfl⟩ := ite_some_none_eq_some.mp hstep
    refine { h with fits := hfits, had := fun u hu => ?_ }
    obtain ⟨hfits, m, hm, hmu⟩ := h.had u hu
    exact ⟨hfits, m, .tail _ hm, hmu⟩
  | record =>
    simp only [Session.step] at hstep
    obtain ⟨_, rfl⟩ := ite_some_none_eq_some.mp hstep
    have hnew := h.take hok.1 hok.2
    refine { hnew with journal := fun u hu => ?_ }
    rcases mem_append_cases hu with hu | rfl
    · exact hnew.journal hu
    · exact .head _
  | restart =>
    cases hstep
    exact { h with }
  | deliver =>
    simp only [Session.step] at hstep
    split at hstep
    · rename_i u rest hjournal
      have hu : u ∈ s.taken := h.journal (hjournal ▸ (.head _))
      have hrest : rest ⊆ s.taken := fun v hv => h.journal (hjournal ▸ mem_cons_of_mem _ hv)
      split at hstep
      · cases hstep
        exact { h with shown := hu, journal := hrest }
      rename_i st hst
      cases hstep
      refine { h with journal := hrest, staged := fun st' hst' => ?_ }
      cases hst'
      obtain ⟨hsnap, hbuf⟩ := h.staged st hst
      exact ⟨hsnap, append_subset.mpr ⟨hbuf, by simpa using hu⟩⟩
    · cases hstep
  | begin =>
    cases hstep
    refine { h with staged := fun st hst => ?_ }
    cases hst
    exact ⟨nofun, nil_subset _⟩
  | walk =>
    simp only [Session.step] at hstep
    split at hstep
    · rename_i buf hst
      cases hstep
      have hnew := h.take hok.1 hok.2
      refine { hnew with staged := fun st' hst' => ?_ }
      cases hst'
      refine ⟨fun u hu => ?_, (hnew.staged _ hst).2⟩
      cases hu
      exact .head _
    · cases hstep
  | swap =>
    simp only [Session.step] at hstep
    split at hstep
    · rename_i snap buf hst
      cases hstep
      obtain ⟨hsnap, hbuf⟩ := h.staged _ hst
      refine { h with shown := ?_, staged := nofun }
      rcases mem_cons.mp (getLastD_mem_cons (l := buf) (a := snap)) with heq | hmem
      · rw [heq]
        exact hsnap snap rfl
      · exact hbuf hmem
    · cases hstep
  | read offset count =>
    obtain ⟨hbelow, ⟨⟩⟩ := ite_none_left_eq_some.mp hstep
    exact h.work h.cache (forall_concat h.tasks (h.read_good (by simpa using hbelow) count))
  | look i =>
    obtain ⟨t, ht, hs⟩ := bind_eq_some_iff.mp hstep
    obtain ⟨hphase, rfl⟩ := ite_some_none_eq_some.mp hs
    exact h.look hfp hblake ht (by rw [hphase.1]; exact nofun) (.inl rfl)
  | probe i =>
    obtain ⟨t, ht, hs⟩ := bind_eq_some_iff.mp hstep
    obtain ⟨hphase, rfl⟩ := ite_some_none_eq_some.mp hs
    have hgood := h.tasks t (mem_of_getElem? ht)
    refine h.work h.cache (h.set_tasks ?_ i)
    refine ⟨hgood.known, fun got hgot => ?_, fun hread => ?_⟩
    · simp only at hgot
      split at hgot
      · cases hgot
      · obtain rfl : [] = got := by simpa using hgot
        rfl
    · exact nomatch hphase.2.symm.trans hread
  | recheck i =>
    obtain ⟨t, ht, hs⟩ := bind_eq_some_iff.mp hstep
    obtain ⟨hphase, rfl⟩ := ite_some_none_eq_some.mp hs
    exact h.look hfp hblake ht (by rw [hphase]; exact nofun) (.inr rfl)
  | pread i k =>
    obtain ⟨t, ht, hs⟩ := bind_eq_some_iff.mp hstep
    split at hs
    · rename_i got hphase
      cases hs
      have hgood := h.tasks t (mem_of_getElem? ht)
      have hsame := hok.1 t ht
      refine h.work h.cache (h.set_tasks ?_ i)
      refine ⟨hgood.known, fun got' hgot => ?_, fun hread hcached => ?_⟩
      · obtain rfl := Phase.fetching.inj hgot
        rw [hsame, length_append]
        exact BulkRead.take_extend prefix_rfl (hgood.fetch got hphase) _
      · obtain ⟨hdata, hpos, hle, hbusy, -⟩ := hgood.read hread hcached
        exact ⟨hdata, hpos, hle, fun _ => hbusy (by rw [hphase]; exact nofun), nofun⟩
    · cases hs
  | land i =>
    obtain ⟨t, ht, hs⟩ := bind_eq_some_iff.mp hstep
    split at hs
    · rename_i got hphase
      cases hs
      exact h.land ht hphase
    · cases hs
  | evict hash =>
    cases hstep
    exact h.work (h.cache.removeFile hash) h.tasks
  | store data =>
    cases hstep
    exact h.work (h.cache.addFile data) h.tasks

theorem Good.start {bytes : List UInt8} {mtime : Ts} (hfits : fitsOff bytes)
    (hwithin : (Moment.stat ⟨bytes, mtime, 0⟩) ∈ A) : Good c A (.start bytes mtime) := by
  have hmem : ∀ u ∈ (State.start bytes mtime).taken, u = Moment.taken ⟨bytes, mtime, 0⟩ :=
    fun u hu => mem_singleton.mp hu
  refine ⟨hfits, fun u hu => ?_, fun u hu => ?_, fun u hu v hv _ => ?_, mem_singleton_self _,
    nil_subset _, nofun, ⟨nofun, nofun, .empty, .empty⟩, nofun⟩
  · obtain rfl := hmem u hu
    exact ⟨hfits, _, mem_singleton_self _, rfl⟩
  · obtain rfl := hmem u hu
    exact hwithin
  · rw [hmem u hu, hmem v hv]

theorem Good.answer (h : Good c A s) (ht : t ∈ s.tasks) (hread : t.ahead = false)
    (hcached : t.cached = true) (hdone : t.phase = .done) :
    t.data = (t.taken.bytes.drop t.offset.toNat).take t.count.toNat := by
  have hgood := h.tasks t ht
  obtain ⟨hfits, -⟩ := h.had _ hgood.known
  have hsize := h.size hgood.known
  have hcount := t.count.toNat_lt
  obtain ⟨hdata, hpos, -, -, hend⟩ := hgood.read hread hcached
  have hfin := hend hdone
  rw [fin, minU64_toNat, UInt64.toNat_add, UInt32.toNat_toUInt64] at hfin
  have hlen := congrArg length hdata
  rw [hdata, take_eq_take_iff, length_drop]
  omega

end

/-- As long as attributes tell contents apart and fetches find what their attributes stand for, a
read answered from the cache has bytes the file had under the attributes shown. -/
theorem cache_coherent (c : Session) {A : Set Stat} (hfp : Set.InjOn Stat.fingerprint A)
    (hblake : Function.Injective c.blake3) {bytes : List UInt8} {mtime : Ts}
    (hfits : fitsOff bytes) (hwithin : (Moment.stat ⟨bytes, mtime, 0⟩) ∈ A) {s : State}
    (h : Runs.Reaches c.step (fun s a => Settled s a ∧ Within A s a) (.start bytes mtime) s)
    {t : Task} (ht : t ∈ s.tasks) (hread : t.ahead = false) (hcached : t.cached = true)
    (hdone : t.phase = .done) :
    ∃ m ∈ s.history, m.stat = t.taken.stat ∧
      t.data = (m.bytes.drop t.offset.toNat).take t.count.toNat := by
  have hgood : Good c A s :=
    h.inv (.start hfits hwithin) fun _ _ _ hs hok hstep => hs.step hfp hblake hok hstep
  obtain ⟨-, m, hm, htaken⟩ := hgood.had _ (hgood.tasks t ht).known
  refine ⟨m, hm, congrArg Taken.stat htaken, ?_⟩
  have hbytes : m.bytes = t.taken.bytes := congrArg Taken.bytes htaken
  rw [hbytes]
  exact hgood.answer ht hread hcached hdone

instance (s : State) (version : UInt64) : Decidable (s.Telling version) :=
  inferInstanceAs (Decidable (∀ u ∈ s.taken, _ → _))

instance (s : State) (a : Action) : Decidable (Settled s a) :=
  match a with
  | .record => inferInstanceAs (Decidable (s.Telling (s.counter + 1)))
  | .walk => inferInstanceAs (Decidable (s.Telling 0))
  | .pread i _ => inferInstanceAs (Decidable (∀ t ∈ s.tasks[i]?, _ = _))
  | .write .. | .restart | .deliver | .begin | .swap | .read .. | .look _ | .probe _ | .recheck _
  | .land _ | .evict _ | .store _ => .isTrue trivial

def smallFile : Moment := ⟨[1, 2, 3, 4], ⟨7, 0⟩, 0⟩

instance (s : State) (a : Action) : Decidable (Within {smallFile.stat} s a) :=
  match a with
  | .record => inferInstanceAs (Decidable ((s.taking (s.counter + 1)).stat = smallFile.stat))
  | .walk => inferInstanceAs (Decidable ((s.taking 0).stat = smallFile.stat))
  | .write .. | .restart | .deliver | .begin | .swap | .read .. | .look _ | .probe _ | .recheck _
  | .pread .. | .land _ | .evict _ | .store _ => .isTrue trivial

def plainSession : Session := ⟨id, 1, ⟨2, 1⟩, 0⟩

theorem smallFile_fingerprint : Set.InjOn Stat.fingerprint {smallFile.stat} :=
  Set.injOn_singleton _ _

theorem cache_coherent_warm :
    ∃ s t, Runs.Reaches plainSession.step (fun s a => Settled s a ∧ Within {smallFile.stat} s a)
        (.start smallFile.bytes smallFile.mtime) s ∧
      t ∈ s.tasks ∧ t.data = [2, 3] ∧ ∃ m ∈ s.history, m.stat = t.taken.stat ∧
        t.data = (m.bytes.drop t.offset.toNat).take t.count.toNat := by
  obtain ⟨s, hs, hread⟩ : ∃ s, Reaches plainSession.step
      (fun s a => Settled s a ∧ Within {smallFile.stat} s a)
      (.start smallFile.bytes smallFile.mtime) s ∧ (s.tasks[1]?.any fun (t : Task) => decide
        (t.data = [2, 3] ∧ t.ahead = false ∧ t.cached = true ∧ t.phase = .done)) = true :=
    Reaches.exists_of_guarded
      [.read 0 4, .look 0, .recheck 0, .pread 0 1, .pread 0 9, .land 0, .read 1 2, .look 1]
      (by decide +kernel)
  obtain ⟨t, ht, ht'⟩ := (Option.any_eq_true ..).mp hread
  obtain ⟨hdata, hahead, hcached, hdone⟩ := of_decide_eq_true ht'
  have hmem := mem_of_getElem? ht
  exact ⟨s, t, hs, hmem, hdata, cache_coherent plainSession smallFile_fingerprint
    injective_id (by decide) rfl hs hmem hahead hcached hdone⟩

/-- The guest writes between the look at the attributes and the fetch: the new bytes are stored
under the old attributes. -/
theorem cache_ahead_of_attributes :
    ∃ s t, Runs.Reaches plainSession.step (fun s a => Within {smallFile.stat} s a)
        (.start smallFile.bytes smallFile.mtime) s ∧
      t ∈ s.tasks ∧ t.ahead = false ∧ t.cached = true ∧ t.phase = .done ∧
      ¬ ∃ m ∈ s.history, m.stat = t.taken.stat ∧
        t.data = (m.bytes.drop t.offset.toNat).take t.count.toNat := by
  obtain ⟨s, hs, hread⟩ : ∃ s, Reaches plainSession.step
      (fun s a => Within {smallFile.stat} s a)
      (.start smallFile.bytes smallFile.mtime) s ∧ (s.tasks[1]?.any fun (t : Task) => decide
        (t.ahead = false ∧ t.cached = true ∧ t.phase = .done ∧
          ¬ ∃ m ∈ s.history, m.stat = t.taken.stat ∧
            t.data = (m.bytes.drop t.offset.toNat).take t.count.toNat)) = true :=
    Reaches.exists_of_guarded
      [.read 0 4, .look 0, .recheck 0, .write [9, 9, 9, 9] ⟨8, 0⟩, .pread 0 9, .land 0, .read 0 4,
        .look 1]
      (by decide +kernel)
  obtain ⟨t, ht, ht'⟩ := (Option.any_eq_true ..).mp hread
  obtain ⟨hahead, hcached, hdone, hnone⟩ := of_decide_eq_true ht'
  exact ⟨s, t, hs, mem_of_getElem? ht, hahead, hcached, hdone, hnone⟩

end Mist.Coherence
