import Mist.Cas.Store
import Mist.Runs

/-! The byte and blob counters of the store.  Rows change in transactions, and the counters follow
in steps of their own. -/

namespace Mist.Cas

open List Runs KeyMap UInt32

/-- How long a use protects a chunk from eviction, in seconds. -/
def EVICTION_PROTECTION : UInt64 := 600

/-- The high watermark, and the bytes an eviction goes down to. -/
structure Watermarks where
  maxBytes : UInt64
  target : UInt64

/-- A row of the snapshot with its last use. -/
structure Candidate where
  hash : Hash
  len : Nat
  last : UInt64

/-- What an eviction reads: the rows in the order of the table, and the uses known in memory. -/
structure Snapshot where
  rows : List (Hash × ChunkRow)
  recency : Hash → UInt64

def Snapshot.Lists (seen : Snapshot) (chunks : Chunks) : Prop :=
  (seen.rows.map Prod.fst).Nodup ∧ (∀ r ∈ seen.rows, chunks.lookup r.1 = some r.2) ∧
    KeyMap.total (fun _ => 1) chunks = seen.rows.length
  deriving Decidable

def Snapshot.candidate (seen : Snapshot) (r : Hash × ChunkRow) : Candidate :=
  ⟨r.1, r.2.len.toNat, max (seen.recency r.1) r.2.lastAccess⟩

def Snapshot.byAge (seen : Snapshot) : List Candidate :=
  (seen.rows.map seen.candidate).mergeSort fun a b => decide (a.last ≤ b.last)

def Candidate.hot (now : UInt64) (c : Candidate) : Bool :=
  now.toNat - c.last.toNat < EVICTION_PROTECTION.toNat

def takeVictims (total target : Nat) (skip : Candidate → Bool) :
    List Candidate → List Hash × Nat → List Hash × Nat
  | [], acc => acc
  | c :: rest, acc =>
    if total - acc.2 ≤ target then acc
    else if skip c then takeVictims total target skip rest acc
    else takeVictims total target skip rest (acc.1 ++ [c.hash], acc.2 + c.len)

/-- The victims and the bytes they free: first what is not protected, and if that does not reach the
hard cap the oldest of the rest. -/
def chooseVictims (marks : Watermarks) (total now : UInt64) (seen : Snapshot) : List Hash × Nat :=
  let first := takeVictims total.toNat marks.target.toNat (Candidate.hot now) seen.byAge ([], 0)
  if total.toNat - first.2 > marks.maxBytes.toNat then
    takeVictims total.toNat marks.target.toNat (fun c => first.1.contains c.hash) seen.byAge first
  else first

inductive CasCall where
  | ingestChunk (key : ManifestKey) (off : UInt64) (data : List UInt8)
  | ingestChunks (key : ManifestKey) (pieces : List (UInt64 × List UInt8))
  | putBlob (data : List UInt8)
  | evict
  | dropCorrupt (hash : Hash)
  deriving DecidableEq

inductive CallPhase where
  | called (call : CasCall)
  | counting (fresh : Fresh)
  | countingBlobs (fresh : Fresh)
  | checking
  | evicting
  | reading (total : UInt64)
  | removing (victims : List Hash) (freed : Nat)
  | freeing (freed count : Nat)
  | freeingBlobs (count : Nat)
  | returned
  deriving DecidableEq

/-- The database and the counters.  A counter is kept as the integer its additions and subtractions
give; the machine word is that integer's residue, so below zero is where it wraps. -/
structure CasStore where
  db : Db
  totalBytes : Int
  blobs : Int

def CasStore.loaded (s : CasStore) : UInt64 := UInt64.ofInt s.totalBytes

structure Calls where
  store : CasStore
  threads : List CallPhase

namespace Calls

variable (blake3 : List UInt8 → Hash) (marks : Watermarks)

def advance (s : CasStore) (now : UInt64) (seen : Snapshot) : CallPhase → Option (CasStore × CallPhase)
  | .called (.ingestChunk key off data) =>
    let p := s.db.ingestChunk blake3 key off data now
    some ({ s with db := p.1 }, .counting p.2)
  | .called (.ingestChunks key pieces) =>
    let p := s.db.ingestChunks blake3 key pieces now
    some ({ s with db := p.1 }, .counting p.2)
  | .called (.putBlob data) =>
    let p := s.db.putBlob blake3 data now
    some ({ s with db := p.1 }, .counting p.2)
  | .called .evict => some (s, .evicting)
  | .called (.dropCorrupt hash) =>
    match s.db.chunks.lookup hash with
    | none => some (s, .returned)
    | some row => some ({ s with db := s.db.removeRows [hash] }, .freeing row.len.toNat 1)
  | .counting fresh => some ({ s with totalBytes := s.totalBytes + fresh.bytes }, .countingBlobs fresh)
  | .countingBlobs fresh => some ({ s with blobs := s.blobs + fresh.blocks.length }, .checking)
  | .checking => some (s, if s.loaded > marks.maxBytes then .evicting else .returned)
  | .evicting => some (s, if s.loaded ≤ marks.target then .returned else .reading s.loaded)
  | .reading total =>
    if seen.Lists s.db.chunks then
      let chosen := chooseVictims marks total now seen
      some (s, if chosen.1.isEmpty then .returned else .removing chosen.1 chosen.2)
    else none
  | .removing victims freed =>
    some ({ s with db := s.db.removeRows victims }, .freeing freed victims.length)
  | .freeing freed count => some ({ s with totalBytes := s.totalBytes - freed }, .freeingBlobs count)
  | .freeingBlobs count => some ({ s with blobs := s.blobs - count }, .returned)
  | .returned => none

/-- Does the step that is next end with an error when the database or a file does? -/
def canFail : CallPhase → Bool
  | .called _ | .evicting | .reading _ | .removing _ _ => true
  | _ => false

inductive Action where
  | call (call : CasCall)
  | run (i : Nat) (now : UInt64) (seen : Snapshot)
  | fail (i : Nat)
  | touch (hash : Hash) (now : UInt64)

def step (s : Calls) : Action → Option Calls
  | .call call => some { s with threads := s.threads ++ [.called call] }
  | .run i now seen => do
    let phase ← s.threads[i]?
    let p ← advance blake3 marks s.store now seen phase
    some ⟨p.1, s.threads.set i p.2⟩
  | .fail i => do
    let phase ← s.threads[i]?
    if canFail phase then some { s with threads := s.threads.set i .returned } else none
  | .touch hash now => some { s with store := { s.store with db := s.store.db.touch hash now } }

/-- The blocks whose rows a call has written but not yet counted. -/
def uncounted : CallPhase → List Hash
  | .counting fresh | .countingBlobs fresh => fresh.blocks
  | _ => []

def Fits : CasCall → Prop
  | .ingestChunk _ _ data | .putBlob data => data.length < 4294967296
  | .ingestChunks _ pieces => ∀ p ∈ pieces, p.2.length < 4294967296
  | .evict | .dropCorrupt _ => True

def Counted (s : Calls) (hash : Hash) : Prop := ∀ p ∈ s.threads, hash ∉ uncounted p
  deriving Decidable

/-- The rows a removal is about to take: each is there, and its insertion is counted. -/
def Removable (s : Calls) : CallPhase → Prop
  | .removing victims _ => ∀ h ∈ victims, (s.store.db.chunks.lookup h).isSome ∧ s.Counted h
  | .called (.dropCorrupt hash) => s.Counted hash
  | _ => True

/-- A call's blocks fit their rows, and a removal takes rows that are there and counted. -/
def Orderly (s : Calls) : Action → Prop
  | .call call => Fits call
  | .run i _ _ => ∀ phase ∈ s.threads[i]?, s.Removable phase
  | _ => True

end Calls

section

variable (blake3 : List UInt8 → Hash)

open Classical in
noncomputable def sizeOf (hash : Hash) : UInt32 :=
  if h : ∃ data, blake3 data = hash then .ofNat h.choose.length else 0

noncomputable def bytesOf (hash : Hash) : Nat := (sizeOf blake3 hash).toNat

def Sized (chunks : Chunks) : Prop :=
  ∀ hash row, chunks.lookup hash = some row → row.len = sizeOf blake3 hash

variable {blake3}

theorem sizeOf_blake3 (hinj : Function.Injective blake3) (data : List UInt8) :
    sizeOf blake3 (blake3 data) = .ofNat data.length := by
  have h : ∃ other, blake3 other = blake3 data := ⟨data, rfl⟩
  rw [sizeOf, dif_pos h, hinj h.choose_spec]

structure Block.Sound (blake3 : List UInt8 → Hash) (b : Block) : Prop where
  size : sizeOf blake3 b.hash = .ofNat b.size
  fits : b.size < 4294967296

variable {b : Block} {chunks : Chunks}

theorem Block.Sound.toNat (h : b.Sound blake3) : (UInt32.ofNat b.size).toNat = b.size :=
  toNat_ofNat_of_lt' h.fits

theorem Block.Sound.bytes (h : b.Sound blake3) : bytesOf blake3 b.hash = b.size := by
  rw [bytesOf, h.size, h.toNat]

theorem blockOf_sound (hinj : Function.Injective blake3) {data : List UInt8}
    (hfits : data.length < 4294967296) : (blockOf blake3 data).Sound blake3 :=
  ⟨sizeOf_blake3 hinj data, hfits⟩

/-- What an ingest has done to the rows: it added the fresh blocks and no others. -/
structure Added (blake3 : List UInt8 → Hash) (before after : Chunks) (fresh : Fresh) : Prop where
  sized : Sized blake3 after
  kept : ∀ h, (before.lookup h).isSome → (after.lookup h).isSome
  nodup : fresh.blocks.Nodup
  absent : ∀ h ∈ fresh.blocks, before.lookup h = none
  present : ∀ h ∈ fresh.blocks, (after.lookup h).isSome
  bytes : fresh.bytes = weigh (bytesOf blake3) fresh.blocks
  total : KeyMap.total (fun r => r.len.toNat) after =
    KeyMap.total (fun r => r.len.toNat) before + fresh.bytes
  count : KeyMap.total (fun _ => 1) after = KeyMap.total (fun _ => 1) before + fresh.blocks.length

theorem Added.refl (h : Sized blake3 chunks) : Added blake3 chunks chunks ⟨0, []⟩ where
  sized := h
  kept _ hh := hh
  nodup := nodup_nil
  absent h hh := by cases hh
  present h hh := by cases hh
  bytes := rfl
  total := rfl
  count := rfl

theorem Sized.insert (h : Sized blake3 chunks) (hb : b.Sound blake3)
    (now : UInt64) : Sized blake3 (chunks.insert b.hash ⟨.ofNat b.size, now⟩) := by
  intro hash row hrow
  rw [lookup_insert_ite] at hrow
  split_ifs at hrow with heq
  · cases hrow
    rw [heq, hb.size]
  · exact h hash row hrow

theorem Added.addRow {before after : Chunks} {fresh : Fresh} (h : Added blake3 before after fresh) (hb : b.Sound blake3) (now : UInt64) :
    Added blake3 before (addRow now (after, fresh) b).1 (addRow now (after, fresh) b).2 := by
  have hsome : ∀ j, (after.lookup j).isSome →
      ((after.insert b.hash ⟨.ofNat b.size, now⟩).lookup j).isSome := by
    intro j hj
    rw [lookup_insert_ite]
    split
    · rfl
    · exact hj
  cases hold : after.lookup b.hash with
  | some row =>
    -- the row is there: its length stays, only the access time changes
    have hlen : row.len.toNat = b.size := by
      rw [h.sized _ row hold, hb.size, hb.toNat]
    have hkeep := total_insert_old (fun r : ChunkRow => r.len.toNat) ⟨.ofNat b.size, now⟩ hold
    have hcount := total_insert_old (fun _ : ChunkRow => 1) ⟨.ofNat b.size, now⟩ hold
    simp only [hb.toNat] at hkeep
    simp only [Cas.addRow, hold, Option.isNone_some, Bool.false_eq_true, if_false]
    exact ⟨h.sized.insert hb now, fun j hj => hsome j (h.kept j hj), h.nodup, h.absent,
      fun j hj => hsome j (h.present j hj), h.bytes, by have := h.total; omega,
      by have := h.count; omega⟩
  | none =>
    have hnew := total_insert_new (fun r : ChunkRow => r.len.toNat) ⟨.ofNat b.size, now⟩ hold
    have hcount := total_insert_new (fun _ : ChunkRow => 1) ⟨.ofNat b.size, now⟩ hold
    have habsent : before.lookup b.hash = none := by
      cases hb' : before.lookup b.hash with
      | none => rfl
      | some row => exact absurd (h.kept b.hash (by rw [hb']; rfl)) (by rw [hold]; decide)
    simp only [hb.toNat] at hnew
    simp only [Cas.addRow, hold, Option.isNone_none, if_true]
    refine ⟨h.sized.insert hb now, fun j hj => hsome j (h.kept j hj), ?_, ?_, ?_, ?_, ?_, ?_⟩
    · refine nodup_cons.mpr ⟨fun hmem => ?_, h.nodup⟩
      exact absurd (h.present _ hmem) (by rw [hold]; decide)
    · rintro j (_ | ⟨_, hj⟩)
      · exact habsent
      · exact h.absent j hj
    · rintro j (_ | ⟨_, hj⟩)
      · simp
      · exact hsome j (h.present j hj)
    · rw [weigh, hb.bytes, h.bytes, Nat.add_comm]
    · have := h.total
      show _ = _ + (fresh.bytes + b.size)
      omega
    · have := h.count
      simp only [length_cons]
      omega

theorem addRows_added (h : Sized blake3 chunks) {blocks : List Block}
    (hb : ∀ b ∈ blocks, b.Sound blake3) (now : UInt64) :
    Added blake3 chunks (addRows now chunks blocks).1 (addRows now chunks blocks).2 :=
  foldlRecOn blocks (addRow now) (motive := fun p => Added blake3 chunks p.1 p.2) (.refl h)
    fun _ hp b hmem => hp.addRow (hb b hmem) now

theorem takeVictims_spec (total target : Nat) (skip : Candidate → Bool) (cands : List Candidate)
    (victims : List Hash) (freed : Nat) :
    ∃ taken : List Candidate, taken.Sublist cands ∧ (∀ c ∈ taken, skip c = false) ∧
      takeVictims total target skip cands (victims, freed) =
        (victims ++ taken.map Candidate.hash, freed + weigh Candidate.len taken) := by
  induction cands generalizing victims freed with
  | nil => exact ⟨[], .slnil, nofun, by simp [takeVictims, weigh]⟩
  | cons c rest ih =>
    unfold takeVictims
    split
    · exact ⟨[], nil_sublist _, nofun, by simp [weigh]⟩
    split
    · obtain ⟨taken, hsub, hskip, heq⟩ := ih victims freed
      exact ⟨taken, hsub.cons c, hskip, heq⟩
    rename_i hskip
    obtain ⟨taken, hsub, hrest, heq⟩ := ih (victims ++ [c.hash]) (freed + c.len)
    refine ⟨c :: taken, hsub.cons_cons c, ?_, ?_⟩
    · rintro d (_ | ⟨_, hd⟩)
      · simpa using hskip
      · exact hrest d hd
    · rw [heq]
      simp [weigh, Nat.add_assoc]

theorem chooseVictims_spec (marks : Watermarks) (total now : UInt64) {seen : Snapshot}
    (hnodup : (seen.rows.map Prod.fst).Nodup) :
    ∃ taken : List Candidate, (∀ c ∈ taken, c ∈ seen.rows.map seen.candidate) ∧
      (taken.map Candidate.hash).Nodup ∧
      chooseVictims marks total now seen = (taken.map Candidate.hash, weigh Candidate.len taken) := by
  have hperm : seen.byAge.Perm (seen.rows.map seen.candidate) := mergeSort_perm ..
  have hhash : (seen.byAge.map Candidate.hash).Nodup := by
    refine (hperm.map Candidate.hash).nodup_iff.mpr ?_
    rw [map_map]
    exact hnodup
  obtain ⟨taken, hsub, -, hfirst⟩ :=
    takeVictims_spec total.toNat marks.target.toNat (Candidate.hot now) seen.byAge [] 0
  simp only [nil_append, Nat.zero_add] at hfirst
  have hmem : ∀ {l : List Candidate}, l.Sublist seen.byAge →
      ∀ c ∈ l, c ∈ seen.rows.map seen.candidate := fun hl c hc => hperm.mem_iff.mp (hl.subset hc)
  unfold chooseVictims
  simp only [hfirst]
  split
  · obtain ⟨more, hmore, hskip, hsecond⟩ :=
      takeVictims_spec total.toNat marks.target.toNat
        (fun c => (taken.map Candidate.hash).contains c.hash) seen.byAge
        (taken.map Candidate.hash) (weigh Candidate.len taken)
    refine ⟨taken ++ more, ?_, ?_, ?_⟩
    · intro c hc
      exact (mem_append.mp hc).elim (hmem hsub c) (hmem hmore c)
    · rw [map_append]
      refine nodup_append.mpr ⟨(hsub.map _).nodup hhash, (hmore.map _).nodup hhash, ?_⟩
      intro h hh h' hh' heq
      obtain ⟨c, hc, rfl⟩ := mem_map.mp hh'
      have := hskip c hc
      rw [← heq] at this
      simp only [contains_eq_mem, decide_eq_false_iff_not] at this
      exact this hh
    · rw [hsecond, map_append, weigh_append]
  · exact ⟨taken, hmem hsub, (hsub.map _).nodup hhash, rfl⟩

end

namespace Calls

def due : CallPhase → Nat
  | .counting fresh => fresh.bytes
  | _ => 0

def dueBlobs : CallPhase → Nat
  | .counting fresh | .countingBlobs fresh => fresh.blocks.length
  | _ => 0

/-- Bytes and blobs a call has still to subtract. -/
def owed : CallPhase → Nat
  | .freeing freed _ => freed
  | _ => 0

def owedBlobs : CallPhase → Nat
  | .freeing _ count | .freeingBlobs count => count
  | _ => 0

def Settled (p : CallPhase) : Prop :=
  due p = 0 ∧ dueBlobs p = 0 ∧ owed p = 0 ∧ owedBlobs p = 0 ∧ uncounted p = []

variable {i : Nat} {p q : CallPhase} {store : CasStore} {call : CasCall} {chunks : Chunks}
  {fresh : Fresh} {seen : Snapshot} {marks : Watermarks}

theorem Settled.ite {c : Prop} [Decidable c] (hp : Settled p) (hq : Settled q) :
    Settled (if c then p else q) := by
  split
  · exact hp
  · exact hq

variable (blake3 : List UInt8 → Hash)

/-- What a call carries from one step to the next is right. -/
def Consistent : CallPhase → Prop
  | .called call => Fits call
  | .counting fresh => fresh.bytes = weigh (bytesOf blake3) fresh.blocks
  | .removing victims freed => victims.Nodup ∧ freed = weigh (bytesOf blake3) victims
  | _ => True

def rowBytes (chunks : Chunks) : Nat := KeyMap.total (fun r => r.len.toNat) chunks

def rowCount (chunks : Chunks) : Nat := KeyMap.total (fun _ => 1) chunks

structure Exact (s : Calls) : Prop where
  sized : Sized blake3 s.store.db.chunks
  bytes : s.store.totalBytes + (weigh due s.threads : Nat) =
    (rowBytes s.store.db.chunks + weigh owed s.threads : Nat)
  blobs : s.store.blobs + (weigh dueBlobs s.threads : Nat) =
    (rowCount s.store.db.chunks + weigh owedBlobs s.threads : Nat)
  nodup : ∀ p ∈ s.threads, (uncounted p).Nodup
  present : ∀ p ∈ s.threads, ∀ h ∈ uncounted p, (s.store.db.chunks.lookup h).isSome
  apart : ∀ (i j : Nat) p q, s.threads[i]? = some p → s.threads[j]? = some q → i ≠ j →
    ∀ h ∈ uncounted p, h ∉ uncounted q
  consistent : ∀ p ∈ s.threads, Consistent blake3 p

variable {blake3} {s : Calls}

section

variable (hs : s.Exact blake3)
include hs

theorem Exact.set (hi : s.threads[i]? = some p) (hsized : Sized blake3 store.db.chunks)
    (hbytes : store.totalBytes + due q + (rowBytes s.store.db.chunks + owed p : Nat) =
      s.store.totalBytes + due p + (rowBytes store.db.chunks + owed q : Nat))
    (hblobs : store.blobs + dueBlobs q + (rowCount s.store.db.chunks + owedBlobs p : Nat) =
      s.store.blobs + dueBlobs p + (rowCount store.db.chunks + owedBlobs q : Nat))
    (hkept : ∀ h, (s.store.db.chunks.lookup h).isSome →
      (store.db.chunks.lookup h).isSome ∨ s.Counted h)
    (hnodup : (uncounted q).Nodup)
    (hnew : ∀ h ∈ uncounted q, (store.db.chunks.lookup h).isSome ∧
      (h ∈ uncounted p ∨ s.store.db.chunks.lookup h = none))
    (hq : Consistent blake3 q) : Exact blake3 ⟨store, s.threads.set i q⟩ where
  sized := hsized
  bytes := by
    have hold := hs.bytes
    have hdue := weigh_set due hi q
    have howed := weigh_set owed hi q
    simp only
    omega
  blobs := by
    have hold := hs.blobs
    have hdue := weigh_set dueBlobs hi q
    have howed := weigh_set owedBlobs hi q
    simp only
    omega
  nodup := forall_set hs.nodup hnodup
  present r hr h hh := by
    rcases mem_or_eq_of_mem_set hr with hold | rfl
    · refine (hkept h (hs.present r hold h hh)).elim id fun hcounted => ?_
      exact absurd hh (hcounted r hold)
    · exact (hnew h hh).1
  apart j k r t hj hk hjk h hh hh' := by
    -- a row that is new to the call cannot be another call's, which would be there
    have hother : ∀ l u, s.threads[l]? = some u → l ≠ i → h ∈ uncounted u → h ∉ uncounted q := by
      intro l u hl hli hu hhq
      rcases (hnew h hhq).2 with hmine | habsent
      · exact hs.apart l i u p hl hi hli h hu hmine
      · have := hs.present u (mem_of_getElem? hl) h hu
        rw [habsent] at this
        cases this
    rcases getElem?_set_cases hj with ⟨rfl, rfl⟩ | ⟨hij, hj'⟩
    · rcases getElem?_set_cases hk with ⟨rfl, rfl⟩ | ⟨hik, hk'⟩
      · exact hjk rfl
      · exact hother k t hk' (Ne.symm hik) hh' hh
    · rcases getElem?_set_cases hk with ⟨rfl, rfl⟩ | ⟨hik, hk'⟩
      · exact hother j r hj' (Ne.symm hij) hh hh'
      · exact hs.apart j k r t hj' hk' hjk h hh hh'
  consistent := forall_set hs.consistent hq

theorem Exact.stay (hi : s.threads[i]? = some p) (hp : Settled p) (hq : Settled q)
    (hcons : Consistent blake3 q) : Exact blake3 ⟨s.store, s.threads.set i q⟩ := by
  obtain ⟨hp1, hp2, hp3, hp4, -⟩ := hp
  obtain ⟨hq1, hq2, hq3, hq4, hnone⟩ := hq
  refine hs.set hi hs.sized (by omega) (by omega) (fun h hh => .inl hh) ?_ ?_ hcons
  · rw [hnone]
    exact nodup_nil
  · rw [hnone]
    exact nofun

theorem Exact.ingest (hi : s.threads[i]? = some (.called call)) {manifests : Manifests}
    (hadded : Added blake3 s.store.db.chunks chunks fresh) :
    Exact blake3 ⟨{ s.store with db := ⟨manifests, chunks⟩ }, s.threads.set i (.counting fresh)⟩ := by
  have htotal := hadded.total
  have hcount := hadded.count
  refine hs.set hi hadded.sized ?_ ?_ (fun h hh => .inl (hadded.kept h hh)) hadded.nodup
    (fun h hh => ⟨hadded.present h hh, .inr (hadded.absent h hh)⟩) hadded.bytes
  · simp only [due, owed, rowBytes]
    omega
  · simp only [dueBlobs, owedBlobs, rowCount]
    omega

/-- The transaction of a removal: what it takes is there, counted, and has the length to be freed. -/
theorem Exact.remove (hi : s.threads[i]? = some p) (hp : Settled p) {victims : List Hash}
    (hnodup : victims.Nodup)
    (htake : ∀ h ∈ victims, (s.store.db.chunks.lookup h).isSome ∧ s.Counted h) :
    Exact blake3 ⟨{ s.store with db := s.store.db.removeRows victims },
      s.threads.set i (.freeing (weigh (bytesOf blake3) victims) victims.length)⟩ := by
  obtain ⟨hp1, hp2, hp3, hp4, -⟩ := hp
  have hrows : ∀ h ∈ victims, ∃ row, s.store.db.chunks.lookup h = some row ∧
      row.len.toNat = bytesOf blake3 h := by
    intro h hh
    obtain ⟨row, hrow⟩ := Option.isSome_iff_exists.mp (htake h hh).1
    exact ⟨row, hrow, congrArg toNat (hs.sized h row hrow)⟩
  have hbytes := total_eraseAll (fun r : ChunkRow => r.len.toNat) (bytesOf blake3) hnodup hrows
  have hblobs := total_eraseAll (fun _ : ChunkRow => 1) (fun _ => 1) hnodup fun h hh =>
    (hrows h hh).imp fun row hrow => ⟨hrow.1, rfl⟩
  rw [weigh_one] at hblobs
  refine hs.set hi ?_ ?_ ?_ ?_ nodup_nil nofun trivial
  · intro hash row hrow
    rw [Db.removeRows, lookup_eraseAll] at hrow
    split at hrow
    · cases hrow
    · exact hs.sized hash row hrow
  · simp only [due, owed, rowBytes, Db.removeRows] at *
    omega
  · simp only [dueBlobs, owedBlobs, rowCount, Db.removeRows] at *
    omega
  · intro h hh
    by_cases hmem : h ∈ victims
    · exact .inr (htake h hmem).2
    · refine .inl ?_
      rw [Db.removeRows, lookup_eraseAll, if_neg hmem]
      exact hh

end

theorem settled_returned : Settled .returned := ⟨rfl, rfl, rfl, rfl, rfl⟩

section

variable (hs : s.Exact blake3)
include hs

theorem Exact.count (hi : s.threads[i]? = some (.counting fresh)) :
    Exact blake3 ⟨{ s.store with totalBytes := s.store.totalBytes + fresh.bytes },
      s.threads.set i (.countingBlobs fresh)⟩ := by
  have hmem := mem_of_getElem? hi
  refine hs.set hi hs.sized ?_ ?_ (fun h hh => .inl hh) (hs.nodup (.counting fresh) hmem)
    (fun h hh => ⟨hs.present (.counting fresh) hmem h hh, .inl hh⟩) trivial
  · simp only [due, owed]
    omega
  · simp only [dueBlobs, owedBlobs]

theorem Exact.countBlobs (hi : s.threads[i]? = some (.countingBlobs fresh)) :
    Exact blake3 ⟨{ s.store with blobs := s.store.blobs + fresh.blocks.length },
      s.threads.set i .checking⟩ := by
  refine hs.set hi hs.sized ?_ ?_ (fun h hh => .inl hh) nodup_nil
    nofun trivial
  · simp only [due, owed]
  · simp only [dueBlobs, owedBlobs]
    omega

theorem Exact.free {freed count : Nat} (hi : s.threads[i]? = some (.freeing freed count)) :
    Exact blake3 ⟨{ s.store with totalBytes := s.store.totalBytes - freed },
      s.threads.set i (.freeingBlobs count)⟩ := by
  refine hs.set hi hs.sized ?_ ?_ (fun h hh => .inl hh) nodup_nil
    nofun trivial
  · simp only [due, owed]
    omega
  · simp only [dueBlobs, owedBlobs]

theorem Exact.freeBlobs {count : Nat} (hi : s.threads[i]? = some (.freeingBlobs count)) :
    Exact blake3 ⟨{ s.store with blobs := s.store.blobs - count }, s.threads.set i .returned⟩ := by
  refine hs.set hi hs.sized ?_ ?_ (fun h hh => .inl hh) nodup_nil
    nofun trivial
  · simp only [due, owed]
  · simp only [dueBlobs, owedBlobs]
    omega

end

theorem chosen_consistent (marks : Watermarks) (total now : UInt64) (hsized : Sized blake3 chunks) (hlists : seen.Lists chunks) :
    Consistent blake3 (.removing (chooseVictims marks total now seen).1
      (chooseVictims marks total now seen).2) := by
  obtain ⟨taken, hmem, hnodup, hchosen⟩ := chooseVictims_spec marks total now hlists.1
  rw [hchosen]
  refine ⟨hnodup, ?_⟩
  rw [weigh_map]
  refine weigh_congr fun c hc => ?_
  obtain ⟨r, hr, rfl⟩ := mem_map.mp (hmem c hc)
  exact congrArg toNat (hsized r.1 r.2 (hlists.2.1 r hr))

section

variable (hinj : Function.Injective blake3)
include hinj

theorem ingest_added (hsized : Sized blake3 chunks) (data : List (List UInt8))
    (hfits : ∀ d ∈ data, d.length < 4294967296) (now : UInt64) :
    Added blake3 chunks (addRows now chunks (data.map (blockOf blake3))).1
      (addRows now chunks (data.map (blockOf blake3))).2 := by
  refine addRows_added hsized (fun b hb => ?_) now
  obtain ⟨d, hd, rfl⟩ := mem_map.mp hb
  exact blockOf_sound hinj (hfits d hd)

theorem Exact.called (hs : s.Exact blake3) (hi : s.threads[i]? = some (.called call))
    (hok : s.Removable (.called call)) {now : UInt64}
    (h : advance blake3 marks s.store now seen (.called call) = some (store, q)) :
    Exact blake3 ⟨store, s.threads.set i q⟩ := by
  have hfits : Fits call := hs.consistent _ (mem_of_getElem? hi)
  cases call with
  | ingestChunk key off data =>
    cases h
    exact hs.ingest hi (ingest_added hinj hs.sized [data] (by simpa [Fits] using hfits) now)
  | ingestChunks key pieces =>
    cases h
    have hadded := ingest_added hinj hs.sized (pieces.map Prod.snd)
      (forall_mem_map.mpr hfits) now
    rw [map_map] at hadded
    exact hs.ingest hi hadded
  | putBlob data =>
    cases h
    exact hs.ingest hi (ingest_added hinj hs.sized [data] (by simpa [Fits] using hfits) now)
  | evict =>
    cases h
    exact hs.stay hi ⟨rfl, rfl, rfl, rfl, rfl⟩ ⟨rfl, rfl, rfl, rfl, rfl⟩ trivial
  | dropCorrupt hash =>
    simp only [Calls.advance] at h
    split at h
    · cases h
      exact hs.stay hi ⟨rfl, rfl, rfl, rfl, rfl⟩ settled_returned trivial
    rename_i row hrow
    cases h
    have hlen : weigh (bytesOf blake3) [hash] = row.len.toNat :=
      congrArg toNat (hs.sized hash row hrow).symm
    have hremove := hs.remove hi ⟨rfl, rfl, rfl, rfl, rfl⟩ (nodup_singleton hash)
      fun h hh => by
        obtain rfl := mem_singleton.mp hh
        exact ⟨by rw [hrow]; rfl, hok⟩
    rw [hlen] at hremove
    exact hremove

theorem Exact.advance (hs : s.Exact blake3) (hi : s.threads[i]? = some p) (hok : s.Removable p) {now : UInt64}
    (h : advance blake3 marks s.store now seen p = some (store, q)) :
    Exact blake3 ⟨store, s.threads.set i q⟩ := by
  cases p with
  | called call => exact hs.called hinj hi hok h
  | counting fresh =>
    cases h
    exact hs.count hi
  | countingBlobs fresh =>
    cases h
    exact hs.countBlobs hi
  | checking =>
    cases h
    refine hs.stay hi ⟨rfl, rfl, rfl, rfl, rfl⟩ (.ite ⟨rfl, rfl, rfl, rfl, rfl⟩ settled_returned) ?_
    split <;> trivial
  | evicting =>
    cases h
    refine hs.stay hi ⟨rfl, rfl, rfl, rfl, rfl⟩ (.ite settled_returned ⟨rfl, rfl, rfl, rfl, rfl⟩) ?_
    split <;> trivial
  | reading total =>
    obtain ⟨hlists, ⟨⟩⟩ := Option.ite_none_right_eq_some.mp h
    refine hs.stay hi ⟨rfl, rfl, rfl, rfl, rfl⟩
      (.ite settled_returned ⟨rfl, rfl, rfl, rfl, rfl⟩) ?_
    split
    · trivial
    · exact chosen_consistent marks total now hs.sized hlists
  | removing victims freed =>
    cases h
    obtain ⟨hnodup, rfl⟩ := hs.consistent _ (mem_of_getElem? hi)
    exact hs.remove hi ⟨rfl, rfl, rfl, rfl, rfl⟩ hnodup hok
  | freeing freed count =>
    cases h
    exact hs.free hi
  | freeingBlobs count =>
    cases h
    exact hs.freeBlobs hi
  | returned => cases h

end

theorem Exact.append (hs : s.Exact blake3) (hfits : Fits call) :
    Exact blake3 { s with threads := s.threads ++ [.called call] } where
  sized := hs.sized
  bytes := by simpa [weigh_append, weigh, due, owed] using hs.bytes
  blobs := by simpa [weigh_append, weigh, dueBlobs, owedBlobs] using hs.blobs
  nodup := forall_concat hs.nodup nodup_nil
  present := forall_concat hs.present nofun
  apart i j p q hi hj hij h hh hh' := by
    rcases getElem?_append_cases hi with hi' | ⟨-, rfl⟩
    · rcases getElem?_append_cases hj with hj' | ⟨-, rfl⟩
      · exact hs.apart i j p q hi' hj' hij h hh hh'
      · cases hh'
    · cases hh
  consistent := forall_concat hs.consistent hfits

theorem Exact.touch (hs : s.Exact blake3) (hash : Hash) (now : UInt64) :
    Exact blake3 { s with store := { s.store with db := s.store.db.touch hash now } } := by
  unfold Db.touch
  split
  · exact hs
  rename_i row hrow
  have hbytes := total_insert_old (fun r : ChunkRow => r.len.toNat)
    { row with lastAccess := now } hrow
  have hblobs := total_insert_old (fun _ : ChunkRow => 1)
    { row with lastAccess := now } hrow
  refine ⟨fun h r hr => ?_, ?_, ?_, hs.nodup, fun p hp h hh => ?_, hs.apart, hs.consistent⟩
  · rw [lookup_insert_ite] at hr
    split_ifs at hr with heq
    · cases hr
      rw [heq]
      exact hs.sized hash row hrow
    · exact hs.sized h r hr
  · have hold := hs.bytes
    simp only [rowBytes] at *
    omega
  · have hold := hs.blobs
    simp only [rowCount] at *
    omega
  · rw [lookup_insert_ite]
    split
    · rfl
    · exact hs.present p hp h hh

theorem settled_of_canFail (h : canFail p) : Settled p := by
  cases p <;> first | exact ⟨rfl, rfl, rfl, rfl, rfl⟩ | cases h

theorem Exact.step (hinj : Function.Injective blake3) {t : Calls} {a : Action}
    (hs : s.Exact blake3) (hok : s.Orderly a) (h : step blake3 marks s a = some t) :
    t.Exact blake3 := by
  cases a with
  | call call =>
    cases h
    exact hs.append hok
  | run i now seen =>
    obtain ⟨p, hi, h⟩ := Option.bind_eq_some_iff.mp h
    obtain ⟨⟨store, q⟩, hadvance, h⟩ := Option.bind_eq_some_iff.mp h
    cases h
    exact hs.advance hinj hi (hok p hi) hadvance
  | fail i =>
    obtain ⟨p, hi, h⟩ := Option.bind_eq_some_iff.mp h
    obtain ⟨hfail, rfl⟩ := Option.ite_some_none_eq_some.mp h
    exact hs.stay hi (settled_of_canFail hfail) settled_returned trivial
  | touch hash now =>
    cases h
    exact hs.touch hash now

theorem Exact.uncounted_nodup (hs : s.Exact blake3) : (s.threads.flatMap uncounted).Nodup := by
  refine nodup_flatMap.mpr ⟨hs.nodup, pairwise_iff_getElem.mpr fun i j hi hj hij => ?_⟩
  intro h hh hh'
  exact hs.apart i j _ _ (getElem?_eq_getElem hi) (getElem?_eq_getElem hj)
    (by omega) h hh hh'

theorem Exact.due_le (hs : s.Exact blake3) :
    weigh due s.threads ≤ rowBytes s.store.db.chunks ∧
      weigh dueBlobs s.threads ≤ rowCount s.store.db.chunks := by
  have hrows : ∀ h ∈ s.threads.flatMap uncounted, ∃ row, s.store.db.chunks.lookup h = some row ∧
      row.len.toNat = bytesOf blake3 h := by
    intro h hh
    obtain ⟨p, hp, hmem⟩ := mem_flatMap.mp hh
    obtain ⟨row, hrow⟩ := Option.isSome_iff_exists.mp (hs.present p hp h hmem)
    exact ⟨row, hrow, congrArg toNat (hs.sized h row hrow)⟩
  constructor
  · refine (weigh_le fun p hp => ?_).trans ((weigh_flatMap (bytesOf blake3) uncounted _).symm.trans_le
      (weigh_le_total (fun r : ChunkRow => r.len.toNat) (bytesOf blake3) hs.uncounted_nodup hrows))
    cases p with
    | counting fresh => exact (hs.consistent _ hp).le
    | _ => exact Nat.zero_le _
  · refine (weigh_le fun p _ => ?_).trans ((weigh_flatMap (fun _ => 1) uncounted _).symm.trans_le
      (weigh_le_total (fun _ : ChunkRow => 1) (fun _ => 1) hs.uncounted_nodup fun h hh =>
        (hrows h hh).imp fun row hrow => ⟨hrow.1, rfl⟩))
    rw [weigh_one]
    cases p <;> exact Nat.le_refl _

structure Opened (blake3 : List UInt8 → Hash) (s : Calls) : Prop where
  sized : Sized blake3 s.store.db.chunks
  bytes : s.store.totalBytes = rowBytes s.store.db.chunks
  blobs : s.store.blobs = rowCount s.store.db.chunks
  idle : s.threads = []

theorem Opened.exact (h : Opened blake3 s) : s.Exact blake3 := by
  obtain ⟨hsized, hbytes, hblobs, hidle⟩ := h
  refine ⟨hsized, ?_, ?_, ?_, ?_, ?_, ?_⟩ <;> simp [hidle, weigh, hbytes, hblobs]

theorem weigh_returned {w : CallPhase → Nat} (hw : w .returned = 0)
    (h : ∀ p ∈ s.threads, p = .returned) : weigh w s.threads = 0 :=
  weigh_eq_zero fun p hp => (h p hp) ▸ hw

/-- Cache accounting under concurrency: no counter goes below zero, and once all calls have returned
the counters are the bytes and the number of the rows. -/
theorem counters_exact (blake3 : List UInt8 → Hash) (hinj : Function.Injective blake3)
    (marks : Watermarks) {s₀ s : Calls} (hopen : Opened blake3 s₀)
    (h : Runs.Reaches (step blake3 marks) Orderly s₀ s) :
    0 ≤ s.store.totalBytes ∧ 0 ≤ s.store.blobs ∧
      ((∀ p ∈ s.threads, p = .returned) → s.store.totalBytes = rowBytes s.store.db.chunks ∧
        s.store.blobs = rowCount s.store.db.chunks) := by
  have hs := h.inv hopen.exact fun _ _ _ ht hok hstep => ht.step hinj hok hstep
  obtain ⟨hdue, hdueBlobs⟩ := hs.due_le
  have hbytes := hs.bytes
  have hblobs := hs.blobs
  refine ⟨by omega, by omega, fun hall => ?_⟩
  rw [weigh_returned rfl hall, weigh_returned rfl hall] at hbytes hblobs
  exact ⟨by omega, by omega⟩

instance : (call : CasCall) → Decidable (Fits call)
  | .ingestChunk .. | .putBlob _ => inferInstanceAs (Decidable (_ < _))
  | .ingestChunks .. => inferInstanceAs (Decidable (∀ p ∈ _, _))
  | .evict | .dropCorrupt _ => .isTrue trivial

instance (s : Calls) : (p : CallPhase) → Decidable (s.Removable p)
  | .removing .. => inferInstanceAs (Decidable (∀ h ∈ _, _))
  | .called (.dropCorrupt hash) => inferInstanceAs (Decidable (s.Counted hash))
  | .called (.ingestChunk ..) | .called (.ingestChunks ..) | .called (.putBlob _) | .called .evict
  | .counting _ | .countingBlobs _ | .checking | .evicting | .reading _ | .freeing _ _
  | .freeingBlobs _ | .returned => .isTrue trivial

instance (s : Calls) : (a : Action) → Decidable (s.Orderly a)
  | .call call => inferInstanceAs (Decidable (Fits call))
  | .run .. => inferInstanceAs (Decidable (∀ phase ∈ _, _))
  | .fail _ | .touch _ _ => .isTrue trivial

def emptyStore : Calls := ⟨⟨⟨[], ∅⟩, 0, 0⟩, []⟩

def oneByte : Snapshot := ⟨[([1], ⟨1, 0⟩)], fun _ => 0⟩

def putByte : List Action :=
  [.call (.putBlob [1]), .run 0 0 oneByte, .run 0 0 oneByte, .run 0 0 oneByte, .run 0 0 oneByte]

/-- Two evictions subtract the same victim; and a corrupt block is subtracted before it is counted.
-/
theorem counters_wrap :
    (∃ s, Runs.Reaches (step id ⟨10, 0⟩) (fun _ _ => True) emptyStore s ∧
      (∀ p ∈ s.threads, p = .returned) ∧ rowBytes s.store.db.chunks = 0 ∧
      s.store.totalBytes = -1 ∧ s.store.blobs = -1) ∧
    ∃ s, Runs.Reaches (step id ⟨10, 0⟩) (fun _ _ => True) emptyStore s ∧
      s.store.totalBytes = -1 := by
  constructor
  · exact Reaches.exists_of_guarded
      (putByte ++ [.call .evict, .call .evict, .run 1 0 oneByte, .run 1 0 oneByte,
        .run 1 1000 oneByte, .run 2 0 oneByte, .run 2 0 oneByte, .run 2 1000 oneByte,
        .run 1 0 oneByte, .run 2 0 oneByte, .run 1 0 oneByte, .run 1 0 oneByte, .run 2 0 oneByte,
        .run 2 0 oneByte]) (by decide +kernel)
  · exact Reaches.exists_of_guarded
      [.call (.putBlob [1]), .run 0 0 oneByte, .call (.dropCorrupt [1]), .run 1 0 oneByte,
        .run 1 0 oneByte] (by decide +kernel)

theorem emptyStore_opened : Opened id emptyStore where
  sized hash row hrow := by cases hrow
  bytes := rfl
  blobs := rfl
  idle := rfl

theorem counters_exact_evicted :
    ∃ s, Runs.Reaches (step id ⟨10, 0⟩) Orderly emptyStore s ∧
      (∀ p ∈ s.threads, p = .returned) ∧ s.store.totalBytes = rowBytes s.store.db.chunks ∧
      s.store.blobs = rowCount s.store.db.chunks := by
  exact Reaches.exists_imp (fun s => ∀ p ∈ s.threads, p = .returned)
    (putByte ++ [.call .evict, .run 1 0 oneByte, .run 1 0 oneByte, .run 1 1000 oneByte,
      .run 1 0 oneByte, .run 1 0 oneByte, .run 1 0 oneByte]) (by decide +kernel) fun s hs hall =>
    ⟨hall, (counters_exact id Function.injective_id ⟨10, 0⟩ emptyStore_opened hs).2.2 hall⟩

end Calls

end Mist.Cas
