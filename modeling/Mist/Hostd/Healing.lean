import Mist.Hostd.Reads

/-! What the store reads back after a block was stored or the blobs were scrubbed. -/

namespace Mist

open List Option Function UInt32

/-- The bytes that reads with 32-bit offsets and lengths can get at. -/
def readableEnd : Nat := 8589934590

/-- A readable byte of the content is that of the block. -/
def AgreesWith (data content : List UInt8) : Prop :=
  ∀ p < readableEnd, ∀ b ∈ content[p]?, data[p]? = some b

def SameAs (data content : List UInt8) : Prop := ∀ p < readableEnd, content[p]? = data[p]?

namespace Cache

def evict (c : Cache) (victims : List Cas.Hash) : Cache :=
  { c with
    db := c.db.removeRows victims
    files := fun h => if victims.any (fun v => v = h) then none else c.files h }

def putBlob (c : Cache) (blake3 : List UInt8 → Cas.Hash) (data : List UInt8) (now : UInt64) : Cache :=
  let hash := blake3 data
  { c with
    db := (c.db.putBlob blake3 data now).1
    files := if (c.files hash).isSome then c.files
      else Function.update c.files hash (some data) }

def scrubBlob (blake3 : List UInt8 → Cas.Hash) (c : Cache) (hash : Cas.Hash) : Cache :=
  match c.files hash with
  | some file => if blake3 file = hash then c else c.dropCorrupt hash
  | none => c.dropCorrupt hash

def scrub (c : Cache) (blake3 : List UInt8 → Cas.Hash) (hashes : List Cas.Hash) : Cache :=
  hashes.foldl (scrubBlob blake3) c

inductive Read where
  | getBlob
  | getBlobRange (off len : UInt32) (verify : Bool)
  | blobFileRange (off len : UInt32)

/-- What a read path returns, and the store after it.  Of `blob_file_range` these are the bytes that
its file has in the range. -/
def read (c : Cache) (blake3 : List UInt8 → Cas.Hash) (hash : Cas.Hash) :
    Read → Option (List UInt8) × Cache
  | .getBlob =>
    match c.db.chunks.lookup hash with
    | some row => c.getBlobRange blake3 hash 0 row.len false
    | none => (none, c)
  | .getBlobRange off len verify => c.getBlobRange blake3 hash off len verify
  | .blobFileRange off len =>
    ((c.blobFileRange hash off len).1.map fun p => readAt p.1 p.2 len.toNat,
      (c.blobFileRange hash off len).2)

def Read.expected (data : List UInt8) : Read → List UInt8
  | .getBlob => data
  | .getBlobRange off len _ => readAt data off.toUInt64 len.toNat
  | .blobFileRange off len => readAt data off.toUInt64 len.toNat

/-- Whatever was read of the blob before, a read returns bytes of the block or a miss. -/
def Serves (c : Cache) (blake3 : List UInt8 → Cas.Hash) (hash : Cas.Hash) (data : List UInt8) : Prop :=
  ∀ (before : List Read) (r : Read),
    ((before.foldl (fun c r => (c.read blake3 hash r).2) c).read blake3 hash r).1 = none ∨
    ((before.foldl (fun c r => (c.read blake3 hash r).2) c).read blake3 hash r).1 =
      some (r.expected data)

def handle (c : Cache) (hash : Cas.Hash) : Option (List UInt8) :=
  (c.fds.find? fun p => p.1 = hash).map Prod.snd

/-- The blob's file, its row and its handle have nothing but bytes of the block. -/
structure Ready (c : Cache) (hash : Cas.Hash) (data : List UInt8) : Prop where
  file : ∀ f ∈ c.files hash, AgreesWith data f
  row : ∀ f ∈ c.files hash, ∀ row ∈ c.db.chunks.lookup hash, row.len.toNat ≤ f.length →
    row.len.toNat = data.length
  handle : ∀ f ∈ c.handle hash, SameAs data f
  opened : c.handle hash = none → ∀ f ∈ c.files hash, SameAs data f

section

variable {c : Cache} {blake3 : List UInt8 → Cas.Hash} {hash : Cas.Hash} {data f : List UInt8}
  {off len : UInt32}

theorem getElem?_readAt (f : List UInt8) (off : UInt64) (len i : Nat) :
    (readAt f off len)[i]? = if i < len then f[off.toNat + i]? else none := by
  rw [readAt]
  split_ifs with h
  · rw [getElem?_take_of_lt h, getElem?_drop]
  · exact getElem?_eq_none (by rw [length_take]; omega)

theorem readable (off len : UInt32) {i : Nat} (h : i < len.toNat) :
    off.toUInt64.toNat + i < readableEnd := by
  have hoff := off.toNat_lt
  have hlen := len.toNat_lt
  rw [toNat_toUInt64, readableEnd]
  omega

theorem readAt_same (h : SameAs data f) :
    readAt f off.toUInt64 len.toNat = readAt data off.toUInt64 len.toNat := by
  refine ext_getElem? fun i => ?_
  rw [getElem?_readAt, getElem?_readAt]
  split_ifs with hi
  · exact h _ (readable off len hi)
  · rfl

theorem readAt_agrees (h : AgreesWith data f)
    (hfull : (readAt f off.toUInt64 len.toNat).length = len.toNat) :
    readAt f off.toUInt64 len.toNat = readAt data off.toUInt64 len.toNat := by
  refine ext_getElem? fun i => ?_
  rw [getElem?_readAt, getElem?_readAt]
  split_ifs with hi
  · have hlt : off.toUInt64.toNat + i < f.length := by
      rw [readAt, length_take, length_drop] at hfull
      omega
    have hbyte := getElem?_eq_getElem hlt
    rw [hbyte]
    exact (h _ (readable off len hi) _ hbyte).symm
  · rfl

theorem exists_range {p : Nat} (hp : p < readableEnd) : ∃ off len : UInt32,
    off.toUInt64.toNat + len.toNat = p + 1 ∧ 0 < len.toNat := by
  rw [readableEnd] at hp
  by_cases hlow : p < 4294967296
  · refine ⟨.ofNat p, 1, ?_, by decide⟩
    rw [toNat_toUInt64, toNat_ofNat_of_lt' hlow]
    rfl
  refine ⟨.ofNat 4294967295, .ofNat (p - 4294967294), ?_, ?_⟩
  · rw [toNat_toUInt64, toNat_ofNat_of_lt' (by decide), toNat_ofNat_of_lt' (by rw [size]; omega)]
    omega
  · rw [toNat_ofNat_of_lt' (by rw [size]; omega)]
    omega

theorem getElem?_readAt_last {p : Nat} (hp : off.toUInt64.toNat + len.toNat = p + 1)
    (hlen : 0 < len.toNat) (f : List UInt8) :
    (readAt f off.toUInt64 len.toNat)[len.toNat - 1]? = f[p]? := by
  rw [getElem?_readAt, if_pos (by omega)]
  congr 1
  omega

theorem readAt_all (data : List UInt8) : readAt data (0 : UInt32).toUInt64 data.length = data := by
  show (data.drop 0).take data.length = data
  rw [drop_zero, take_length]

theorem dropCorrupt_ready (h : c.Ready hash data) : (c.dropCorrupt hash).Ready hash data := by
  have hnone : (c.dropCorrupt hash).files hash = none := update_self ..
  refine ⟨fun f hf => ?_, fun f hf => ?_, h.handle, fun _ f hf => ?_⟩
  all_goals
    rw [hnone] at hf
    cases hf

theorem getBlobRange_ready (h : c.Ready hash data) (blake3 : List UInt8 → Cas.Hash)
    (off len : UInt32) (verify : Bool) :
    ((c.getBlobRange blake3 hash off len verify).1 = none ∨
      (c.getBlobRange blake3 hash off len verify).1 = some (readAt data off.toUInt64 len.toNat)) ∧
    (c.getBlobRange blake3 hash off len verify).2.Ready hash data := by
  unfold getBlobRange
  split
  · exact ⟨.inl rfl, h⟩
  rename_i f hf
  dsimp only
  split
  · split_ifs with hgood
    · exact ⟨.inl rfl, dropCorrupt_ready h⟩
    · refine ⟨.inr (congrArg some (readAt_agrees (h.file f hf) ?_)), h⟩
      rw [readAt, length_take, length_drop, toNat_toUInt64]
      omega
  · split_ifs with hfull
    · exact ⟨.inr (congrArg some (readAt_agrees (h.file f hf) hfull)), h⟩
    · exact ⟨.inl rfl, dropCorrupt_ready h⟩

theorem handle_push {fds : List (Cas.Hash × List UInt8)}
    (h : (fds.find? fun p => p.1 = hash) = none) (f : List UInt8) :
    (((if 32 ≤ fds.length then fds.tail else fds) ++ [(hash, f)]).find? fun p => p.1 = hash) =
      some (hash, f) := by
  have hkept : ∀ p ∈ (if 32 ≤ fds.length then fds.tail else fds), ¬ (decide (p.1 = hash) = true) := by
    intro p hp
    refine find?_eq_none.mp h p ?_
    split at hp
    · exact mem_of_mem_tail hp
    · exact hp
  rw [find?_append, find?_eq_none.mpr hkept, none_or, find?_cons_of_pos]
  exact decide_eq_true rfl

theorem blobFileRange_ready (h : c.Ready hash data) (off len : UInt32) :
    ((c.blobFileRange hash off len).1 = none ∨ ∃ f, (c.blobFileRange hash off len).1 =
      some (f, off.toUInt64) ∧ SameAs data f) ∧
    (c.blobFileRange hash off len).2.Ready hash data := by
  unfold blobFileRange
  split
  · rename_i p hp
    exact ⟨.inr ⟨p.2, rfl, h.handle p.2 (by rw [Cache.handle, hp]; rfl)⟩, h⟩
  rename_i hnone
  have hclosed : c.handle hash = none := by rw [Cache.handle, hnone]; rfl
  split
  · rename_i f hf
    have hsame := h.opened hclosed f hf
    have hpush : Cache.handle { c with
        fds := (if 32 ≤ c.fds.length then c.fds.tail else c.fds) ++ [(hash, f)] } hash =
        some f := by
      rw [Cache.handle, handle_push hnone f]
      rfl
    refine ⟨.inr ⟨f, rfl, hsame⟩, h.file, h.row, fun g hg => ?_, fun hg => ?_⟩
    · obtain rfl := mem_unique hpush hg
      exact hsame
    · cases hpush.symm.trans hg
  · exact ⟨.inl rfl, h⟩

theorem read_ready (h : c.Ready hash data) (r : Read) :
    ((c.read blake3 hash r).1 = none ∨ (c.read blake3 hash r).1 = some (r.expected data)) ∧
    (c.read blake3 hash r).2.Ready hash data := by
  cases r with
  | getBlob =>
    simp only [read]
    split
    · rename_i row hrow
      obtain ⟨hanswer, hready⟩ := getBlobRange_ready h blake3 0 row.len false
      refine ⟨hanswer.imp_right fun hsome => ?_, hready⟩
      -- The answer is the file's first `row.len` bytes, so the file has that many.
      obtain ⟨f, hf, hfull⟩ : ∃ f ∈ c.files hash, row.len.toNat ≤ f.length := by
        unfold getBlobRange at hsome
        split at hsome
        · cases hsome
        rename_i f hf
        simp only [Bool.false_eq_true, if_false] at hsome
        split at hsome
        · rename_i hlen
          refine ⟨f, hf, ?_⟩
          rw [readAt, length_take, length_drop] at hlen
          omega
        · cases hsome
      rw [hsome, h.row f hf row hrow hfull, readAt_all]
      rfl
    · exact ⟨.inl rfl, h⟩
  | getBlobRange off len verify => exact getBlobRange_ready h blake3 off len verify
  | blobFileRange off len =>
    obtain ⟨hanswer, hready⟩ := blobFileRange_ready h off len
    refine ⟨hanswer.imp (fun hnone => ?_) fun ⟨f, hsome, hsame⟩ => ?_, hready⟩
    · simp only [read, hnone, map_none]
    · simp only [read, hsome, map_some, readAt_same hsame]
      rfl

theorem Ready.serves (h : c.Ready hash data) : c.Serves blake3 hash data := by
  intro before
  induction before generalizing c with
  | nil => exact fun r => (read_ready h r).1
  | cons r₀ before ih => exact ih (read_ready h r₀).2

section

variable (h : c.Serves blake3 hash data)
include h

theorem Serves.read (r : Read) (answer : List UInt8)
    (ha : (c.read blake3 hash r).1 = some answer) : answer = r.expected data := by
  rcases h [] r with hnone | hsome
  · cases ha.symm.trans hnone
  · exact mem_unique ha hsome

theorem Serves.sameAs
    (hopen : ∀ off len : UInt32, (c.blobFileRange hash off len).1 = some (f, off.toUInt64)) :
    SameAs data f := by
  intro p hp
  obtain ⟨off, len, hrange, hlen⟩ := exists_range hp
  have hread := h.read (.blobFileRange off len) (readAt f off.toUInt64 len.toNat)
    (by simp only [Cache.read, hopen, map_some])
  rw [← getElem?_readAt_last hrange hlen f, hread]
  exact getElem?_readAt_last hrange hlen data

theorem Serves.ready : c.Ready hash data := by
  refine ⟨fun f hf p hp b hb => ?_, fun f hf row hrow hle => ?_, fun f hf => ?_,
    fun hclosed f hf => ?_⟩
  · obtain ⟨off, len, hrange, hlen⟩ := exists_range hp
    obtain ⟨hlt, -⟩ := List.getElem?_eq_some_iff.mp hb
    have hfull : (readAt f off.toUInt64 len.toNat).length = len.toNat := by
      rw [readAt, length_take, length_drop]
      omega
    have hread := h.read (.getBlobRange off len false) (readAt f off.toUInt64 len.toNat)
      (by
        simp only [Cache.read, Cache.getBlobRange, mem_def.mp hf, Bool.false_eq_true, if_false]
        rw [if_pos hfull])
    rw [← getElem?_readAt_last hrange hlen data, ← hb, ← getElem?_readAt_last hrange hlen f, hread]
    rfl
  · have hfull : (readAt f (0 : UInt32).toUInt64 row.len.toNat).length = row.len.toNat := by
      show ((f.drop 0).take row.len.toNat).length = row.len.toNat
      rw [drop_zero, length_take]
      omega
    have hread := h.read .getBlob (readAt f (0 : UInt32).toUInt64 row.len.toNat)
      (by
        simp only [Cache.read, mem_def.mp hrow, Cache.getBlobRange, mem_def.mp hf,
          Bool.false_eq_true, if_false]
        rw [if_pos hfull])
    rw [← hfull, hread]
    rfl
  · refine h.sameAs fun off len => ?_
    obtain ⟨p, hp, rfl⟩ := map_eq_some_iff.mp hf
    simp only [blobFileRange, hp]
  · refine h.sameAs fun off len => ?_
    have hnone : (c.fds.find? fun p => p.1 = hash) = none := map_eq_none_iff.mp hclosed
    simp only [blobFileRange, hnone, mem_def.mp hf]

end

/-- Nothing but bytes of the block was there for its hash before it is stored: in the file, and then
in the handle, or in the file too if it is yet to be opened.  A block of 4 GiB or more has its length
cut off in its row, which then has to be more than its file has. -/
structure Clean (c : Cache) (hash : Cas.Hash) (data : List UInt8) : Prop where
  file : ∀ f ∈ c.files hash, AgreesWith data f
  size : data.length < 4294967296 ∨ ∃ f ∈ c.files hash, f.length < data.length % 4294967296
  handle : ∀ f ∈ c.handle hash, SameAs data f
  opened : c.handle hash = none → ∀ f ∈ c.files hash, SameAs data f

/-- What `put_blob` and `ingest_chunk` do for the hash of a block. -/
structure Stored (c after : Cache) (hash : Cas.Hash) (data : List UInt8) (now : UInt64) : Prop where
  file : after.files hash = some ((c.files hash).getD data)
  row : after.db.chunks.lookup hash = some ⟨.ofNat data.length, now⟩
  handle : after.handle hash = c.handle hash

theorem files_store (c : Cache) (hash : Cas.Hash) (data : List UInt8) :
    (if (c.files hash).isSome then c.files else Function.update c.files hash (some data)) hash =
      some ((c.files hash).getD data) := by
  cases hf : c.files hash with
  | some f => exact hf
  | none => exact update_self ..

theorem putBlob_stored (c : Cache) (blake3 : List UInt8 → Cas.Hash) (data : List UInt8)
    (now : UInt64) : Stored c (c.putBlob blake3 data now) (blake3 data) data now :=
  ⟨files_store c _ data, Finmap.lookup_insert _, rfl⟩

theorem ingestChunk_stored (c : Cache) (blake3 : List UInt8 → Cas.Hash) (key : Cas.ManifestKey)
    (off : UInt64) (data : List UInt8) (now : UInt64) :
    Stored c (c.ingestChunk blake3 key off data now) (blake3 data) data now :=
  ⟨files_store c _ data, Finmap.lookup_insert _, rfl⟩

theorem Stored.ready_iff {after : Cache} {now : UInt64} (h : Stored c after hash data now) :
    after.Ready hash data ↔ c.Clean hash data := by
  have hlen : (ofNat data.length).toNat = data.length % 4294967296 := toNat_ofNat'
  constructor
  · intro hready
    have hkept : ∀ f ∈ c.files hash, f ∈ after.files hash := fun f hf => by
      rw [h.file, mem_def.mp hf]
      rfl
    refine ⟨fun f hf => hready.file f (hkept f hf), ?_, fun f hf => hready.handle f ?_,
      fun hclosed f hf => hready.opened (h.handle.trans hclosed) f (hkept f hf)⟩
    · have hrow := hready.row _ h.file _ h.row
      rw [hlen] at hrow
      cases hf : c.files hash with
      | some f =>
        rw [hf, getD_some] at hrow
        by_cases hshort : f.length < data.length % 4294967296
        · exact .inr ⟨f, rfl, hshort⟩
        · omega
      | none =>
        rw [hf, getD_none] at hrow
        omega
    · rwa [h.handle]
  · intro hclean
    have hfile : ∀ f ∈ after.files hash, f ∈ c.files hash ∨ c.files hash = none ∧ f = data := by
      intro f hf
      rw [h.file] at hf
      cases hold : c.files hash with
      | some g => exact .inl ((congrArg some (by rw [hold] at hf; exact (some.inj hf))))
      | none => exact .inr ⟨rfl, by rw [hold] at hf; exact (some.inj hf).symm⟩
    refine ⟨fun f hf => ?_, fun f hf row hrow hle => ?_, fun f hf => ?_, fun hclosed f hf => ?_⟩
    · rcases hfile f hf with hold | ⟨-, rfl⟩
      · exact hclean.file f hold
      · exact fun p _ b hb => hb
    · obtain rfl := mem_unique h.row hrow
      rw [hlen] at hle ⊢
      rcases hclean.size with hsmall | ⟨g, hg, hshort⟩
      · omega
      rcases hfile f hf with hold | ⟨hnone, -⟩
      · obtain rfl := mem_unique hold hg
        omega
      · cases hnone.symm.trans hg
    · rw [h.handle] at hf
      exact hclean.handle f hf
    · rw [h.handle] at hclosed
      rcases hfile f hf with hold | ⟨-, rfl⟩
      · exact hclean.opened hclosed f hold
      · exact fun p _ => rfl

theorem of_files_evict {victims : List Cas.Hash}
    (hf : (c.evict victims).files hash = some f) : c.files hash = some f := by
  simp only [Cache.evict] at hf
  split at hf
  · cases hf
  · exact hf

theorem files_evict (c : Cache) {victims : List Cas.Hash} (h : hash ∉ victims) :
    (c.evict victims).files hash = c.files hash :=
  if_neg (by simpa using h)

theorem Ready.evict (h : c.Ready hash data) (victims : List Cas.Hash) :
    (c.evict victims).Ready hash data := by
  have hfiles : ∀ f ∈ (c.evict victims).files hash, f ∈ c.files hash := fun f => of_files_evict
  have hrows : ∀ row ∈ (c.evict victims).db.chunks.lookup hash, row ∈ c.db.chunks.lookup hash := by
    intro row hrow
    have hlookup := KeyMap.lookup_eraseAll c.db.chunks victims hash
    split at hlookup
    · cases hlookup.symm.trans hrow
    · exact hlookup.symm.trans hrow
  exact ⟨fun f hf => h.file f (hfiles f hf), fun f hf row hrow => h.row f (hfiles f hf) row
    (hrows row hrow), h.handle, fun hclosed f hf => h.opened hclosed f (hfiles f hf)⟩

theorem evict_nil (c : Cache) : c.evict [] = c := by
  rfl

theorem Stored.serves_iff {after : Cache} {now : UInt64} (h : Stored c after hash data now)
    (blake3 : List UInt8 → Cas.Hash) :
    (∀ victims, (after.evict victims).Serves blake3 hash data) ↔ c.Clean hash data := by
  rw [← h.ready_iff]
  constructor
  · intro hserves
    have hready := (hserves []).ready
    rwa [evict_nil] at hready
  · exact fun hready victims => (hready.evict victims).serves

def intact (c : Cache) (blake3 : List UInt8 → Cas.Hash) (hash : Cas.Hash) : Bool :=
  (c.files hash).any fun f => blake3 f = hash

section

variable (c : Cache) (blake3 : List UInt8 → Cas.Hash)

theorem scrubBlob_eq (hash : Cas.Hash) :
    scrubBlob blake3 c hash = if c.intact blake3 hash then c else c.dropCorrupt hash := by
  unfold scrubBlob intact
  cases c.files hash with
  | none => rfl
  | some f => simp only [any_some, decide_eq_true_eq]

theorem scrubBlob_at (k h : Cas.Hash) :
    (scrubBlob blake3 c k).files h =
        (if h = k ∧ c.intact blake3 h = false then none else c.files h) ∧
      (scrubBlob blake3 c k).db.chunks.lookup h =
        if h = k ∧ c.intact blake3 h = false then none else c.db.chunks.lookup h := by
  have hdrop : (c.dropCorrupt k).db.chunks.lookup h =
      if h = k then none else c.db.chunks.lookup h := KeyMap.lookup_erase_ite ..
  rw [scrubBlob_eq]
  by_cases hk : h = k
  · subst hk
    cases hi : c.intact blake3 h with
    | true => simp
    | false => exact ⟨by simp [dropCorrupt], by simp [hdrop]⟩
  · simp only [hk, false_and, if_false]
    split
    · exact ⟨rfl, rfl⟩
    · exact ⟨update_of_ne hk .., hdrop.trans (if_neg hk)⟩

theorem scrubBlob_intact (k h : Cas.Hash) :
    (scrubBlob blake3 c k).intact blake3 h = c.intact blake3 h := by
  rw [intact, (scrubBlob_at ..).1]
  split_ifs with hand
  · rw [hand.2]
    rfl
  · rfl

theorem scrub_at (hashes : List Cas.Hash) (h : Cas.Hash) :
    (c.scrub blake3 hashes).files h =
        (if h ∈ hashes ∧ c.intact blake3 h = false then none else c.files h) ∧
      (c.scrub blake3 hashes).db.chunks.lookup h =
        if h ∈ hashes ∧ c.intact blake3 h = false then none else c.db.chunks.lookup h := by
  induction hashes generalizing c with
  | nil => simp [scrub]
  | cons k hashes ih =>
    obtain ⟨hfiles, hrows⟩ := ih (scrubBlob blake3 c k)
    rw [scrubBlob_intact, (scrubBlob_at ..).1] at hfiles
    rw [scrubBlob_intact, (scrubBlob_at ..).2] at hrows
    refine ⟨hfiles.trans ?_, hrows.trans ?_⟩ <;>
      cases hi : c.intact blake3 h <;> by_cases hk : h = k <;> simp [hk]

theorem scrub_fds (hashes : List Cas.Hash) : (c.scrub blake3 hashes).fds = c.fds := by
  induction hashes generalizing c with
  | nil => rfl
  | cons k hashes ih =>
    show ((scrubBlob blake3 c k).scrub blake3 hashes).fds = _
    rw [ih, scrubBlob_eq]
    split <;> rfl

end

/-- A blob with its own bytes in its file is not listed as shorter than it is, and its handle has the
same bytes. -/
def RowsClean (c : Cache) (blake3 : List UInt8 → Cas.Hash) : Prop :=
  ∀ data, c.files (blake3 data) = some data → ∀ row ∈ c.db.chunks.lookup (blake3 data),
    data.length ≤ row.len.toNat ∧ ∀ f ∈ c.handle (blake3 data), SameAs data f

theorem scrub_serves_iff (hinj : Function.Injective blake3) {hashes : List Cas.Hash}
    (hall : ∀ h, h ∈ hashes ↔ (c.db.chunks.lookup h).isSome) :
    (∀ data, ((c.scrub blake3 hashes).db.chunks.lookup (blake3 data)).isSome →
      (c.scrub blake3 hashes).Serves blake3 (blake3 data) data) ↔ c.RowsClean blake3 := by
  have hhandle : ∀ h, (c.scrub blake3 hashes).handle h = c.handle h := fun h => by
    rw [Cache.handle, scrub_fds]
    rfl
  constructor
  · intro hserves data hfile row hrow
    have hintact : c.intact blake3 (blake3 data) = true := by simp [intact, hfile]
    obtain ⟨hfiles, hlookup⟩ := scrub_at c blake3 hashes (blake3 data)
    rw [if_neg (by simp [hintact])] at hlookup hfiles
    rw [mem_def.mp hrow] at hlookup
    have hready := (hserves data (by rw [hlookup]; rfl)).ready
    refine ⟨?_, fun f hf => hready.handle f (by rwa [hhandle])⟩
    have hlen := hready.row data (hfiles.trans hfile) row hlookup
    omega
  · intro hclean data hlisted
    obtain ⟨hfiles, hlookup⟩ := scrub_at c blake3 hashes (blake3 data)
    have hkept : ¬ (blake3 data ∈ hashes ∧ c.intact blake3 (blake3 data) = false) := fun hand => by
      rw [hlookup, if_pos hand] at hlisted
      cases hlisted
    rw [if_neg hkept] at hlookup hfiles
    rw [hlookup, ← hall] at hlisted
    -- Its file has the hash of the block, so it has the block.
    have hdata : c.files (blake3 data) = some data := by
      cases hf : c.files (blake3 data) with
      | none => exact absurd ⟨hlisted, by rw [intact, hf]; rfl⟩ hkept
      | some f =>
        by_cases hhash : blake3 f = blake3 data
        · rw [hinj hhash]
        · exact absurd ⟨hlisted, by rw [intact, hf]; exact decide_eq_false hhash⟩ hkept
    refine Ready.serves ⟨fun f hf => ?_, fun f hf row hrow hle => ?_, fun f hf => ?_,
      fun _ f hf => ?_⟩
    · obtain rfl := some.inj ((hfiles.trans hdata).symm.trans hf)
      exact fun p _ b hb => hb
    · obtain rfl := some.inj ((hfiles.trans hdata).symm.trans hf)
      have := (hclean data hdata row (hlookup.symm.trans hrow)).1
      omega
    · obtain ⟨row, hrow⟩ := isSome_iff_exists.mp ((hall _).mp hlisted)
      exact (hclean data hdata row hrow).2 f (by rwa [← hhandle])
    · obtain rfl := some.inj ((hfiles.trans hdata).symm.trans hf)
      exact fun p _ => rfl

end

/-- After a block was stored every read of its hash returns its bytes or a miss exactly if nothing
but its bytes was there before; after a scrub, if the blobs with an intact file have a clean row and
handle. -/
theorem heals_iff {blake3 : List UInt8 → Cas.Hash} (hinj : Function.Injective blake3) (c : Cache) :
    (∀ data now, (∀ victims, ((c.putBlob blake3 data now).evict victims).Serves blake3
      (blake3 data) data) ↔ c.Clean (blake3 data) data) ∧
    (∀ key off data now, (∀ victims, ((c.ingestChunk blake3 key off data now).evict victims).Serves
      blake3 (blake3 data) data) ↔ c.Clean (blake3 data) data) ∧
    ∀ hashes : List Cas.Hash, (∀ h, h ∈ hashes ↔ (c.db.chunks.lookup h).isSome) →
      ((∀ data, ((c.scrub blake3 hashes).db.chunks.lookup (blake3 data)).isSome →
        (c.scrub blake3 hashes).Serves blake3 (blake3 data) data) ↔ c.RowsClean blake3) :=
  ⟨fun data now => (putBlob_stored c blake3 data now).serves_iff blake3,
    fun key off data now => (ingestChunk_stored c blake3 key off data now).serves_iff blake3,
    fun _ hall => scrub_serves_iff hinj hall⟩

def corrupted : Cache :=
  { db := ⟨[], Finmap.singleton [1, 2] ⟨2, 7⟩⟩
    files := fun h => if h = [1, 2] then some [9, 9] else none
    fds := []
    manifests := [] }

theorem heals_iff_beside : Function.Injective (id : List UInt8 → Cas.Hash) ∧
    ∀ victims, ((corrupted.putBlob id [3] 8).evict victims).Serves id [3] [3] := by
  have hnone : corrupted.files [3] = none := by decide
  have hclosed : corrupted.handle [3] = none := by decide
  refine ⟨injective_id, ((heals_iff injective_id corrupted).1 [3] 8).mpr ?_⟩
  refine ⟨fun f hf => ?_, .inl (by decide), fun f hf => ?_, fun _ f hf => ?_⟩
  · cases hnone.symm.trans hf
  · cases hclosed.symm.trans hf
  · cases hnone.symm.trans hf

/-- The block itself is stored, and the other bytes are read. -/
theorem put_keeps_corrupted :
    ¬ ∀ victims, ((corrupted.putBlob id [1, 2] 8).evict victims).Serves id [1, 2] [1, 2] := by
  intro h
  have hread : ((corrupted.putBlob id [1, 2] 8).evict []).read id [1, 2] .getBlob =
      (some [9, 9], (corrupted.putBlob id [1, 2] 8).evict []) := rfl
  rcases h [] [] .getBlob with hnone | hsome
  · cases (congrArg Prod.fst hread).symm.trans hnone
  · cases (congrArg Prod.fst hread).symm.trans hsome

end Cache

end Mist
