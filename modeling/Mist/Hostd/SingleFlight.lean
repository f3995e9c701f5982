import Mist.Hostd.Healing
import Mist.Hostd.ReadPaths

/-! Concurrent fetches of cold chunks.  A reader that misses takes the chunk's guard out of a table
and fetches with the guard locked. -/

namespace Mist.SingleFlight

open Nfs List Option Table Cas.Manifests Function

structure Chunk where
  key : Cas.ManifestKey
  off : UInt64
  deriving DecidableEq

/-- Where a task is.  From `waiting` on it has a hold of guard `g`, and from `locked` on it has locked
it, until it leaves. -/
inductive Phase where
  | start
  | missed
  | waiting (g : Nat)
  | locked (g : Nat)
  | fetching (g : Nat)
  | ingesting (g : Nat) (data : List UInt8)
  | leaving (g : Nat)
  | done
  deriving DecidableEq

def Phase.guard : Phase → Option Nat
  | .waiting g | .locked g | .fetching g | .ingesting g _ | .leaving g => some g
  | _ => none

def Phase.lock : Phase → Option Nat
  | .locked g | .fetching g | .ingesting g _ | .leaving g => some g
  | _ => none

def Phase.fetches : Phase → Bool
  | .fetching _ => true
  | _ => false

/-- Before the chunk is looked for with the guard locked. -/
def Phase.waits : Phase → Bool
  | .start | .missed | .waiting _ => true
  | _ => false

/-- A foreground read of `want` bytes at `inner` of the chunk, or a prefetch. -/
inductive Kind where
  | reader (inner want : UInt64)
  | prefetch
  deriving DecidableEq

structure Task where
  chunk : Chunk
  kind : Kind
  phase : Phase
  deriving DecidableEq

structure State where
  cache : Cache
  guards : Table Chunk Nat
  next : Nat
  tasks : List Task

/-- `run` is the next step of a task that needs nothing from outside; `answer` is the guest's answer
to its fetch, `ingest` and `ingestFailed` the end of its ingest, the latter with the blob file written
or not. -/
inductive Action where
  | read (chunk : Chunk) (inner want : UInt64)
  | run (i : Nat)
  | answer (i : Nat) (data : Option (List UInt8))
  | ingest (i : Nat) (now : UInt64)
  | ingestFailed (i : Nat) (wrote : Bool)
  | evict (victims : List Cas.Hash)
  | invalidate (gone : List Cas.ManifestKey)

namespace State

/-- A guard is shared with a task: its strong count is above one. -/
def held (s : State) (g : Nat) : Bool := s.tasks.any fun t => t.phase.guard = some g

def locked (s : State) (g : Nat) : Bool := s.tasks.any fun t => t.phase.lock = some g

def pruned (s : State) : Table Chunk Nat :=
  if 1024 < s.guards.length then s.guards.filter fun p => s.held p.2 else s.guards

/-- The guard of a chunk, made if there is none, and the state with it in the table. -/
def fetchGuard (s : State) (c : Chunk) : Nat × State :=
  match s.pruned.get c with
  | some g => (g, { s with guards := s.pruned })
  | none => (s.next, { s with guards := s.pruned.insert c s.next, next := s.next + 1 })

def goes (s : State) (i : Nat) (phase : Phase) : State :=
  { s with tasks := s.tasks.modify i fun t => { t with phase } }

end State

section

variable (blake3 : List UInt8 → Cas.Hash) (size : Cas.ManifestKey → UInt64)

def Chunk.len (c : Chunk) : UInt64 := minU64 CAS_CHUNK (size c.key - c.off)

def Task.ahead (t : Task) : List Task :=
  match t.kind with
  | .reader .. =>
    let next := t.chunk.off + CAS_CHUNK
    if size t.chunk.key ≤ next then [] else [⟨⟨t.chunk.key, next⟩, .prefetch, .start⟩]
  | .prefetch => []

def listed (c : Cache) (chunk : Chunk) : Bool :=
  (c.db.manifests.get chunk.key).any fun m => m.any fun r => r.off = chunk.off

namespace State

/-- The first look: of a reader on the hit path, of a prefetch at the manifest. -/
def look (s : State) (i : Nat) (t : Task) : State :=
  match t.kind with
  | .reader inner want =>
    let r := s.cache.hit t.chunk.key t.chunk.off inner want
    { s.goes i (if r.1.isSome then .done else .missed) with cache := r.2 }
  | .prefetch => s.goes i (if listed s.cache t.chunk then .done else .missed)

/-- A reader waits for the lock; a prefetch gives up if it is taken, and fetches if it is not. -/
def tryLock (s : State) (i : Nat) (t : Task) (g : Nat) : Option State :=
  match t.kind with
  | .reader .. => if s.locked g then none else some (s.goes i (.locked g))
  | .prefetch => some (s.goes i (if s.locked g then .done else .fetching g))

def lookAgain (s : State) (i : Nat) (t : Task) (g : Nat) : Option State :=
  match t.kind with
  | .reader inner want =>
    let r := s.cache.recheck blake3 t.chunk.key t.chunk.off inner want
    some { s.goes i (if r.1.isSome then .leaving g else .fetching g) with cache := r.2 }
  | .prefetch => none

/-- The next step of a task by itself; nothing while it waits for a lock, the guest or the store. -/
def runTask (s : State) (i : Nat) (t : Task) : Option State :=
  match t.phase with
  | .start => some (s.look i t)
  | .missed => some ((s.fetchGuard t.chunk).2.goes i (.waiting (s.fetchGuard t.chunk).1))
  | .waiting g => s.tryLock i t g
  | .locked g => s.lookAgain blake3 i t g
  | .leaving _ => some (s.goes i .done)
  | .fetching _ | .ingesting .. | .done => none

/-- The guest answers: a whole chunk goes into the store. -/
def answerTask (s : State) (i : Nat) (t : Task) (data : Option (List UInt8)) : Option State :=
  match t.phase with
  | .fetching g =>
    match data with
    | some data =>
      some (s.goes i (if data.length = (t.chunk.len size).toNat then .ingesting g data
        else .leaving g))
    | none => some (s.goes i (.leaving g))
  | _ => none

def ingestTask (s : State) (i : Nat) (t : Task) (store : List UInt8 → Cache) : Option State :=
  match t.phase with
  | .ingesting g data =>
    some { s.goes i (.leaving g) with
      cache := store data
      tasks := (s.goes i (.leaving g)).tasks ++ t.ahead size }
  | _ => none

/-- An ingest that fails before its transaction is through, or before it wrote the blob file. -/
def failed (s : State) (data : List UInt8) (wrote : Bool) : Cache :=
  if wrote then
    { s.cache with
      files := if (s.cache.files (blake3 data)).isSome then s.cache.files
        else Function.update s.cache.files (blake3 data) (some data) }
  else s.cache

def step (s : State) : Action → Option State
  | .read chunk inner want =>
    if chunk.off < size chunk.key ∧ inner.toNat + want.toNat ≤ (chunk.len size).toNat then
      some { s with tasks := s.tasks ++ [⟨chunk, .reader inner want, .start⟩] }
    else none
  | .run i => s.tasks[i]?.bind (s.runTask blake3 i)
  | .answer i data => s.tasks[i]?.bind fun t => s.answerTask size i t data
  | .ingest i now => s.tasks[i]?.bind fun t => s.ingestTask size i t fun data =>
      s.cache.ingestChunk blake3 t.chunk.key t.chunk.off data now
  | .ingestFailed i wrote => s.tasks[i]?.bind fun t => s.ingestTask size i t fun data =>
      s.failed blake3 data wrote
  | .evict victims => some { s with cache := s.cache.evict victims }
  | .invalidate gone => some { s with
      cache := { s.cache with
        db := { s.cache.db with
          manifests := s.cache.db.manifests.filter fun p => p.1 ∉ gone } } }

end State

end

structure Exclusive (s : State) : Prop where
  guards : ∀ (i : Nat) (t : Task), s.tasks[i]? = some t → ∀ g, t.phase.guard = some g →
    s.guards.get t.chunk = some g
  locks : ∀ (i j : Nat) (t u : Task), s.tasks[i]? = some t → s.tasks[j]? = some u → i ≠ j →
    ∀ g, t.phase.lock = some g → u.phase.lock ≠ some g

section

variable {s : State} {i j : Nat} {t u : Task} {phase : Phase} {g : Nat}

theorem task_goes (h : (s.goes i phase).tasks[j]? = some u) :
    ∃ t, s.tasks[j]? = some t ∧ u = if i = j then { t with phase } else t := by
  rw [State.goes, getElem?_modify] at h
  obtain ⟨t, ht, rfl⟩ := map_eq_some_iff.mp h
  exact ⟨t, ht, rfl⟩

theorem held_of_task (hi : s.tasks[i]? = some t) (hg : t.phase.guard = some g) : s.held g :=
  any_eq_true.mpr ⟨t, mem_of_getElem? hi, decide_eq_true hg⟩

theorem not_locked (h : ¬ s.locked g) (hi : s.tasks[i]? = some t) : t.phase.lock ≠ some g :=
  fun hl => h (any_eq_true.mpr ⟨t, mem_of_getElem? hi, decide_eq_true hl⟩)

theorem get_filter_of_get {l : Table Chunk Nat} {c : Chunk} {q : Chunk × Nat → Bool}
    (h : l.get c = some g) (hq : ∀ p : Chunk × Nat, p.2 = g → q p = true) :
    get (l.filter q) c = some g := by
  induction l with
  | nil => cases h
  | cons p l ih =>
    by_cases hp : p.1 = c
    · obtain rfl : p.2 = g := by simpa [Table.get, hp] using h
      simp [Table.get, hp, hq p rfl]
    have hrest : Table.get l c = some g := by simpa [Table.get, hp] using h
    by_cases hkeep : q p = true
    · simpa [Table.get, hkeep, hp] using ih hrest
    · rw [filter_cons_of_neg hkeep]
      exact ih hrest

theorem get_pruned {c : Chunk} (h : s.guards.get c = some g) (hheld : s.held g) :
    s.pruned.get c = some g := by
  unfold State.pruned
  split
  · exact get_filter_of_get h fun p hp => by rw [hp]; exact hheld
  · exact h

namespace Exclusive

variable (hs : Exclusive s)
include hs

theorem goes (hi : s.tasks[i]? = some t)
    (hguard : ∀ g, phase.guard = some g → s.guards.get t.chunk = some g)
    (hlock : ∀ g, phase.lock = some g → t.phase.lock = some g ∨ ¬ s.locked g) :
    Exclusive (s.goes i phase) := by
  -- Whatever the task has locked now, no other one has.
  have hother : ∀ j u, s.tasks[j]? = some u → i ≠ j → ∀ g, phase.lock = some g →
      u.phase.lock ≠ some g := by
    intro j u hj hij g hg
    rcases hlock g hg with hmine | hfree
    · exact hs.locks i j t u hi hj hij g hmine
    · exact not_locked hfree hj
  refine ⟨fun j u hj g hg => ?_, fun j k u v hj hk hjk g hg hg' => ?_⟩
  · obtain ⟨old, hold, rfl⟩ := task_goes hj
    by_cases hij : i = j
    · subst hij
      rw [if_pos rfl] at hg ⊢
      obtain rfl := mem_unique hi hold
      exact hguard g hg
    · rw [if_neg hij] at hg ⊢
      exact hs.guards j old hold g hg
  · obtain ⟨old, hold, rfl⟩ := task_goes hj
    obtain ⟨old', hold', rfl⟩ := task_goes hk
    by_cases hij : i = j
    · rw [if_pos hij] at hg
      rw [if_neg fun hik => hjk (hij.symm.trans hik)] at hg'
      exact hother k old' hold' (fun hik => hjk (hij.symm.trans hik)) g hg hg'
    rw [if_neg hij] at hg
    by_cases hik : i = k
    · rw [if_pos hik] at hg'
      exact hother j old hold hij g hg' hg
    · rw [if_neg hik] at hg'
      exact hs.locks j k old old' hold hold' hjk g hg hg'

theorem spawn {new : List Task} (hnew : ∀ t ∈ new, t.phase = .start) :
    Exclusive { s with tasks := s.tasks ++ new } := by
  have hold : ∀ (j : Nat) (u : Task), (s.tasks ++ new)[j]? = some u →
      s.tasks[j]? = some u ∨ u.phase = .start := by
    intro j u hj
    rw [getElem?_append] at hj
    split at hj
    · exact .inl hj
    · exact .inr (hnew u (mem_of_getElem? hj))
  refine ⟨fun j u hj g hg => ?_, fun j k u v hj hk hjk g hg hg' => ?_⟩
  · rcases hold j u hj with hj | hstart
    · exact hs.guards j u hj g hg
    · rw [hstart] at hg
      cases hg
  · rcases hold j u hj with hj | hstart
    · rcases hold k v hk with hk | hstart
      · exact hs.locks j k u v hj hk hjk g hg hg'
      · rw [hstart] at hg'
        cases hg'
    · rw [hstart] at hg
      cases hg

theorem fetchGuard (c : Chunk) :
    Exclusive (s.fetchGuard c).2 ∧ (s.fetchGuard c).2.guards.get c = some (s.fetchGuard c).1 ∧
      (s.fetchGuard c).2.tasks = s.tasks := by
  have hkeep : ∀ (j : Nat) (u : Task), s.tasks[j]? = some u → ∀ g, u.phase.guard = some g →
      s.pruned.get u.chunk = some g := fun j u hj g hg =>
    get_pruned (hs.guards j u hj g hg) (held_of_task hj hg)
  unfold State.fetchGuard
  split
  · rename_i g hget
    exact ⟨⟨hkeep, hs.locks⟩, hget, rfl⟩
  rename_i hnone
  refine ⟨⟨fun j u hj g hg => ?_, hs.locks⟩, ?_, rfl⟩
  · have hget := hkeep j u hj g hg
    have hne : u.chunk ≠ c := fun heq => by
      rw [heq, hnone] at hget
      cases hget
    exact (get_insert ..).trans ((if_neg hne).trans hget)
  · exact (get_insert ..).trans (if_pos rfl)

end Exclusive

end

section

variable {blake3 : List UInt8 → Cas.Hash} {size : Cas.ManifestKey → UInt64} {s s' : State} {i : Nat}
  {t : Task}

theorem ahead_start : ∀ u ∈ t.ahead size, u.phase = .start := by
  intro u hu
  unfold Task.ahead at hu
  split at hu
  · simp only at hu
    split at hu
    · cases hu
    · rw [mem_singleton.mp hu]
  · cases hu

variable {phase p : Phase}

section

variable (hs : Exclusive s)
include hs

section

variable (hi : s.tasks[i]? = some t)
include hi

theorem Exclusive.free
    (hguard : phase.guard = none) (hlock : phase.lock = none) : Exclusive (s.goes i phase) :=
  hs.goes hi (fun g hg => by cases hguard.symm.trans hg) fun g hg => by cases hlock.symm.trans hg

theorem Exclusive.onward (hp : t.phase = p)
    (hlock : phase.lock = p.lock) (hguard : phase.guard = p.guard) : Exclusive (s.goes i phase) := by
  subst hp
  exact hs.goes hi (fun g hg => hs.guards i t hi g (hguard.symm.trans hg)) fun _ hg =>
    .inl (hlock.symm.trans hg)

theorem Exclusive.takes {g : Nat}
    (hphase : t.phase = .waiting g) (hfree : ¬ s.locked g)
    (hguard : phase.guard = some g) (hlock : phase.lock = some g) : Exclusive (s.goes i phase) := by
  refine hs.goes hi (fun g' hg' => ?_) fun g' hg' => ?_
  · obtain rfl := mem_unique hguard hg'
    exact hs.guards i t hi g (by rw [hphase]; rfl)
  · obtain rfl := mem_unique hlock hg'
    exact .inr hfree

theorem Exclusive.runTask
    (hrun : s.runTask blake3 i t = some s') : Exclusive s' := by
  unfold State.runTask at hrun
  split at hrun
  · cases hrun
    unfold State.look
    split
    · dsimp only
      split
      · have hfree : Exclusive (s.goes i .done) := hs.free hi rfl rfl
        exact { hfree with }
      · have hfree : Exclusive (s.goes i .missed) := hs.free hi rfl rfl
        exact { hfree with }
    · split
      · exact hs.free hi rfl rfl
      · exact hs.free hi rfl rfl
  · cases hrun
    obtain ⟨hnext, hget, htasks⟩ := hs.fetchGuard t.chunk
    refine hnext.goes (htasks ▸ hi) (fun g hg => ?_) fun g hg => ?_
    · cases hg
      exact hget
    · cases hg
  · rename_i g hphase
    unfold State.tryLock at hrun
    split at hrun
    · obtain ⟨hfree, ⟨⟩⟩ := ite_none_left_eq_some.mp hrun
      exact hs.takes hi hphase hfree rfl rfl
    cases hrun
    split_ifs with hfree
    · exact hs.free hi rfl rfl
    · exact hs.takes hi hphase hfree rfl rfl
  · rename_i g hphase
    unfold State.lookAgain at hrun
    split at hrun
    · cases hrun
      split
      · have hnext : Exclusive (s.goes i (.leaving g)) := hs.onward hi hphase rfl rfl
        exact { hnext with }
      · have hnext : Exclusive (s.goes i (.fetching g)) := hs.onward hi hphase rfl rfl
        exact { hnext with }
    · cases hrun
  · cases hrun
    exact hs.free hi rfl rfl
  · cases hrun
  · cases hrun
  · cases hrun

end

theorem Exclusive.step {a : Action} (hstep : s.step blake3 size a = some s') : Exclusive s' := by
  have hingest : ∀ {i : Nat} {t : Task} {store : List UInt8 → Cache}, s.tasks[i]? = some t →
      s.ingestTask size i t store = some s' → Exclusive s' := by
    intro i t store hi hend
    unfold State.ingestTask at hend
    split at hend
    · rename_i g data hphase
      cases hend
      have hleave : Exclusive (s.goes i (.leaving g)) := hs.onward hi hphase rfl rfl
      have hspawn := hleave.spawn (@ahead_start size t)
      exact { hspawn with }
    · cases hend
  cases a with
  | read chunk inner want =>
    obtain ⟨-, ⟨⟩⟩ := ite_none_right_eq_some.mp hstep
    exact hs.spawn fun u hu => by rw [mem_singleton.mp hu]
  | run i =>
    obtain ⟨t, hi, hrun⟩ := bind_eq_some_iff.mp hstep
    exact hs.runTask hi hrun
  | answer i data =>
    obtain ⟨t, hi, hrun⟩ := bind_eq_some_iff.mp hstep
    unfold State.answerTask at hrun
    split at hrun
    · rename_i g hphase
      split at hrun
      · cases hrun
        split
        · exact hs.onward hi hphase rfl rfl
        · exact hs.onward hi hphase rfl rfl
      · cases hrun
        exact hs.onward hi hphase rfl rfl
    · cases hrun
  | ingest i now =>
    obtain ⟨t, hi, hend⟩ := bind_eq_some_iff.mp hstep
    exact hingest hi hend
  | ingestFailed i wrote =>
    obtain ⟨t, hi, hend⟩ := bind_eq_some_iff.mp hstep
    exact hingest hi hend
  | evict victims =>
    cases hstep
    exact { hs with }
  | invalidate gone =>
    cases hstep
    exact { hs with }

end

theorem Phase.fetching_of (h : p.fetches) : ∃ g, p = .fetching g := by
  cases p with
  | fetching g => exact ⟨g, rfl⟩
  | start | missed | waiting g | locked g | ingesting g data | leaving g | done => cases h

theorem Exclusive.fetches (hs : Exclusive s) {j : Nat} {u : Task} (hi : s.tasks[i]? = some t)
    (hj : s.tasks[j]? = some u) (ht : t.phase.fetches) (hu : u.phase.fetches)
    (hchunk : t.chunk = u.chunk) : i = j := by
  obtain ⟨g, hp⟩ := Phase.fetching_of ht
  obtain ⟨g', hp'⟩ := Phase.fetching_of hu
  have hg := hs.guards i t hi g (by rw [hp]; rfl)
  have hg' := hs.guards j u hj g' (by rw [hp']; rfl)
  rw [hchunk, hg'] at hg
  obtain rfl := some.inj hg
  by_contra hij
  exact hs.locks i j t u hi hj hij g' (by rw [hp]; rfl) (by rw [hp']; rfl)

/-- A chunk is listed at its place, and its blob file is there. -/
def Holds (c : Cache) (chunk : Chunk) : Prop :=
  ∃ m r, c.db.manifests.get chunk.key = some m ∧
    (m.find? fun r => r.off = chunk.off) = some r ∧ (c.files r.hash).isSome

structure Sound (blake3 : List UInt8 → Cas.Hash) (size : Cas.ManifestKey → UInt64) (c : Cache) :
    Prop where
  files : ∀ h f, c.files h = some f → blake3 f = h
  chunks : ∀ key m, c.db.manifests.get key = some m → ∀ r ∈ m, ∃ data,
    blake3 data = r.hash ∧ data.length = ((Chunk.mk key r.off).len size).toNat

/-- A read is of a part of its chunk, and what is ingested is whole. -/
def Task.Fits (size : Cas.ManifestKey → UInt64) (t : Task) : Prop :=
  (∀ inner want, t.kind = .reader inner want →
    inner.toNat + want.toNat ≤ (t.chunk.len size).toNat) ∧
  ∀ g data, t.phase = .ingesting g data → data.length = (t.chunk.len size).toNat

theorem len_le (chunk : Chunk) : (chunk.len size).toNat ≤ 4194304 := by
  rw [Chunk.len, minU64_toNat]
  exact Nat.min_le_left ..

namespace Sound

variable {c : Cache} {chunk other : Chunk} {inner want : UInt64} {data : List UInt8}

section

variable (hc : Sound blake3 size c)
include hc

theorem file_length (hinj : Function.Injective blake3) {m : List Cas.ChunkRef} {r : Cas.ChunkRef}
    {f : List UInt8} (hm : c.db.manifests.get chunk.key = some m)
    (hr : (m.find? fun r => r.off = chunk.off) = some r) (hf : c.files r.hash = some f) :
    f.length = (chunk.len size).toNat := by
  have hoff : r.off = chunk.off := by simpa using find?_some hr
  obtain ⟨data, hdata, hlen⟩ := hc.chunks _ m hm r (mem_of_find?_eq_some hr)
  rw [hinj ((hc.files _ f hf).trans hdata.symm), hlen, hoff]

theorem recheck (hinj : Function.Injective blake3)
    (hfits : inner.toNat + want.toNat ≤ (chunk.len size).toNat) :
    (c.recheck blake3 chunk.key chunk.off inner want).2 = c ∧
    (Holds c chunk → (c.recheck blake3 chunk.key chunk.off inner want).1 ≠ none) := by
  have hlen := @len_le size chunk
  have hinner : inner.toUInt32.toNat = inner.toNat := by
    rw [UInt64.toNat_toUInt32]
    omega
  have hwant : want.toUInt32.toNat = want.toNat := by
    rw [UInt64.toNat_toUInt32]
    omega
  unfold Cache.recheck
  cases hm : c.db.manifests.get chunk.key with
  | none =>
    refine ⟨rfl, ?_⟩
    rintro ⟨m, _, hm', _⟩
    cases hm.symm.trans hm'
  | some m =>
    simp only
    cases hr : m.find? fun r => r.off = chunk.off with
    | none =>
      refine ⟨rfl, ?_⟩
      rintro ⟨m', r, hm', hr', _⟩
      obtain rfl := mem_unique hm hm'
      cases hr.symm.trans hr'
    | some r =>
      simp only [Cache.getBlobRange]
      cases hf : c.files r.hash with
      | none =>
        refine ⟨rfl, ?_⟩
        rintro ⟨m', r', hm', hr', hf'⟩
        obtain rfl := mem_unique hm hm'
        obtain rfl := mem_unique hr hr'
        rw [hf] at hf'
        cases hf'
      | some f =>
        have hwhole := hc.file_length hinj hm hr hf
        have hfull : (readAt f inner.toUInt32.toUInt64 want.toUInt32.toNat).length =
            want.toUInt32.toNat := by
          rw [readAt, length_take, length_drop, UInt32.toNat_toUInt64]
          omega
        simp only [Bool.false_eq_true, if_false, if_pos hfull]
        exact ⟨trivial, fun _ => some_ne_none _⟩

theorem addFile {h : Cas.Hash} {f : List UInt8}
    (hf : (if (c.files (blake3 data)).isSome then c.files
      else Function.update c.files (blake3 data) (some data)) h = some f) : blake3 f = h := by
  split at hf
  · exact hc.files h f hf
  rw [update_apply] at hf
  split_ifs at hf with heq
  · rw [heq, some.inj hf]
  · exact hc.files h f hf

theorem ingest (hdata : data.length = (chunk.len size).toNat)
    (now : UInt64) : Sound blake3 size (c.ingestChunk blake3 chunk.key chunk.off data now) := by
  refine ⟨fun h f hf => hc.addFile hf, fun key m hm r hr => ?_⟩
  have hget := (get_putManifest c.db.manifests chunk.key key
    (setChunk (Cas.chunkOf blake3 (chunk.off, data))
      ((c.db.manifests.get chunk.key).getD []))).symm.trans hm
  split at hget
  · rename_i hkey
    cases hget
    rcases mem_of_setChunk hr with rfl | hold
    · exact ⟨data, rfl, by rw [hkey]; exact hdata⟩
    rw [hkey]
    cases hlist : c.db.manifests.get chunk.key with
    | none =>
      rw [hlist] at hold
      cases hold
    | some l =>
      rw [hlist] at hold
      exact hc.chunks _ l hlist r hold
  · split at hget
    · cases hget
    · exact hc.chunks key m hget r hr

end

theorem ingest_holds (c : Cache) (chunk : Chunk) (data : List UInt8) (now : UInt64) :
    Holds (c.ingestChunk blake3 chunk.key chunk.off data now) chunk := by
  refine ⟨_, Cas.chunkOf blake3 (chunk.off, data), (get_putManifest ..).trans (if_pos rfl), ?_, ?_⟩
  · exact (find?_setChunk ..).trans (if_pos rfl)
  show ((if (c.files (blake3 data)).isSome then c.files
    else update c.files (blake3 data) (some data)) (blake3 data)).isSome
  split
  · assumption
  · rw [update_self]
    rfl

end Sound

theorem isSome_addFile {c : Cache} {h k : Cas.Hash} {data : List UInt8} (hf : (c.files h).isSome) :
    ((if (c.files k).isSome then c.files else Function.update c.files k (some data)) h).isSome := by
  split
  · exact hf
  rw [update_apply]
  split
  · rfl
  · exact hf

theorem Holds.ingest {c : Cache} {chunk other : Chunk} {data : List UInt8} (h : Holds c chunk)
    (hother : ofNode other.key chunk.key → other.key = chunk.key) (now : UInt64) :
    Holds (c.ingestChunk blake3 other.key other.off data now) chunk := by
  obtain ⟨m, r, hm, hr, hf⟩ := h
  by_cases hkey : chunk.key = other.key
  · by_cases hoff : other.off = chunk.off
    · obtain rfl : chunk = other := by
        cases chunk
        cases other
        simp_all
      exact Sound.ingest_holds c chunk data now
    · refine ⟨_, r, (get_putManifest ..).trans (if_pos hkey), ?_, isSome_addFile hf⟩
      refine (find?_setChunk ..).trans ((if_neg hoff).trans ?_)
      rw [← hkey, hm]
      exact hr
  · refine ⟨m, r, (get_putManifest ..).trans ((if_neg hkey).trans ?_), hr, isSome_addFile hf⟩
    rw [if_neg fun hnode => hkey (hother hnode).symm]
    exact hm

/-- The step takes the chunk away: the eviction of its blob, the invalidation of its manifest, or the
ingest of another version of the file. -/
def State.Loses (s : State) (chunk : Chunk) : Action → Prop
  | .evict victims => ∃ m ∈ s.cache.db.manifests.get chunk.key,
      ∃ r ∈ m.find? (fun r => r.off = chunk.off), r.hash ∈ victims
  | .invalidate gone => chunk.key ∈ gone
  | .ingest i _ => ∃ t ∈ s.tasks[i]?, Cas.Manifests.ofNode t.chunk.key chunk.key ∧
      t.chunk.key ≠ chunk.key
  | _ => False

structure Whole (blake3 : List UInt8 → Cas.Hash) (size : Cas.ManifestKey → UInt64) (s : State) :
    Prop where
  cache : Sound blake3 size s.cache
  tasks : ∀ t ∈ s.tasks, t.Fits size

def Phase.quiet : Phase → Bool
  | .fetching _ | .ingesting .. => false
  | _ => true

theorem Phase.quiet_of (hfetches : p.fetches = false)
    (hingests : ∀ g data, p ≠ .ingesting g data) : p.quiet := by
  cases p with
  | fetching g => cases hfetches
  | ingesting g data => exact absurd rfl (hingests g data)
  | start | missed | waiting g | locked g | leaving g | done => rfl

theorem Phase.quiet_of_waits (h : p.waits) : p.quiet := by
  cases p with
  | start | missed | waiting g => rfl
  | locked g | fetching g | ingesting g data | leaving g | done => cases h

theorem Phase.not_fetches (h : p.quiet) : ¬ p.fetches := by
  cases p with
  | fetching g | ingesting g data => cases h
  | start | missed | waiting g | locked g | leaving g | done => exact Bool.false_ne_true

/-- A chunk is in the store, and reader `i` of it has not fetched. -/
structure Served (s : State) (i : Nat) (chunk : Chunk) : Prop where
  holds : Holds s.cache chunk
  reader : ∃ t, s.tasks[i]? = some t ∧ t.chunk = chunk ∧ t.kind ≠ .prefetch ∧ t.phase.quiet

/-- What a task does by itself: it goes on to some phase, but to no ingest. -/
theorem runTask_effect (h : s.runTask blake3 i t = some s') :
    ∃ p, s'.tasks = (s.goes i p).tasks ∧ (∀ g data, p ≠ .ingesting g data) ∧
      ((s.cache.Warmed s'.cache ∧ (p.fetches → t.kind = .prefetch)) ∨
        ∃ g inner want, t.kind = .reader inner want ∧
          s'.cache = (s.cache.recheck blake3 t.chunk.key t.chunk.off inner want).2 ∧
          ((s.cache.recheck blake3 t.chunk.key t.chunk.off inner want).1 ≠ none → p = .leaving g)) := by
  have hsame : s.cache.Warmed s.cache := ⟨rfl, rfl⟩
  unfold State.runTask at h
  split at h
  · cases h
    unfold State.look
    split
    · refine ⟨_, rfl, fun g data hp => ?_, .inl ⟨Cache.hit_warmed .., fun hp => ?_⟩⟩
      · split at hp <;> cases hp
      · split at hp <;> cases hp
    · rename_i hkind
      refine ⟨_, rfl, fun g data hp => ?_, .inl ⟨hsame, fun _ => hkind⟩⟩
      split at hp <;> cases hp
  · cases h
    refine ⟨.waiting (s.fetchGuard t.chunk).1, ?_, nofun, .inl ⟨?_, nofun⟩⟩
    · unfold State.fetchGuard
      split <;> rfl
    · unfold State.fetchGuard
      split <;> exact hsame
  · unfold State.tryLock at h
    split at h
    · split at h
      · cases h
      · cases h
        exact ⟨_, rfl, nofun, .inl ⟨hsame, nofun⟩⟩
    · rename_i hkind
      cases h
      refine ⟨_, rfl, fun _ _ hp => ?_, .inl ⟨hsame, fun _ => hkind⟩⟩
      split at hp <;> cases hp
  · rename_i g _
    unfold State.lookAgain at h
    split at h
    · rename_i inner want hkind
      cases h
      refine ⟨_, rfl, fun _ _ hp => ?_, .inr ⟨g, inner, want, hkind, rfl, fun hsome => ?_⟩⟩
      · split at hp <;> cases hp
      · exact if_pos (isSome_iff_ne_none.mpr hsome)
    · cases h
  · cases h
    exact ⟨_, rfl, nofun, .inl ⟨hsame, nofun⟩⟩
  · cases h
  · cases h
  · cases h

theorem mem_goes {u : Task} (hu : u ∈ (s.goes i phase).tasks) :
    u ∈ s.tasks ∨ ∃ t, s.tasks[i]? = some t ∧ u = { t with phase } := by
  obtain ⟨j, hj⟩ := mem_iff_getElem?.mp hu
  obtain ⟨t, ht, rfl⟩ := task_goes hj
  by_cases hij : i = j
  · subst hij
    exact .inr ⟨t, ht, if_pos rfl⟩
  · rw [if_neg hij]
    exact .inl (mem_of_getElem? ht)

theorem goes_task {j : Nat} (hi : s.tasks[i]? = some t) (hne : j ≠ i) :
    (s.goes j phase).tasks[i]? = some t := by
  rw [State.goes, getElem?_modify, hi]
  exact congrArg some (if_neg hne)

theorem goes_task_self (hi : s.tasks[i]? = some t) :
    (s.goes i phase).tasks[i]? = some { t with phase } := by
  rw [State.goes, getElem?_modify, hi]
  exact congrArg some (if_pos rfl)

theorem ahead_fits : ∀ u ∈ t.ahead size, u.Fits size := by
  intro u hu
  unfold Task.ahead at hu
  split at hu
  · simp only at hu
    split at hu
    · cases hu
    · rw [mem_singleton.mp hu]
      exact ⟨nofun, nofun⟩
  · cases hu

namespace Whole

variable (hs : Whole blake3 size s)
include hs

theorem goes_fits {phase : Phase}
    (hphase : ∀ t, s.tasks[i]? = some t → ∀ g data, phase = .ingesting g data →
      data.length = (t.chunk.len size).toNat) : ∀ u ∈ (s.goes i phase).tasks, u.Fits size := by
  intro u hu
  rcases mem_goes hu with hold | ⟨t, ht, rfl⟩
  · exact hs.tasks u hold
  · exact ⟨(hs.tasks t (mem_of_getElem? ht)).1, hphase t ht⟩

theorem runTask (hinj : Function.Injective blake3)
    (hi : s.tasks[i]? = some t) (hrun : s.runTask blake3 i t = some s') : Whole blake3 size s' := by
  obtain ⟨p, htasks, hp, hcache⟩ := runTask_effect hrun
  refine ⟨?_, fun u hu => hs.goes_fits (fun _ _ g data hing => absurd hing (hp g data)) u
    (htasks ▸ hu)⟩
  rcases hcache with ⟨hwarm, -⟩ | ⟨g, inner, want, hkind, hcache, -⟩
  · exact ⟨by rw [hwarm.files]; exact hs.cache.files, by rw [hwarm.db]; exact hs.cache.chunks⟩
  · have hfits := (hs.tasks t (mem_of_getElem? hi)).1 inner want hkind
    rw [hcache, (hs.cache.recheck hinj hfits).1]
    exact hs.cache

theorem ingestTask (hi : s.tasks[i]? = some t) {store : List UInt8 → Cache}
    (hstore : ∀ data, data.length = (t.chunk.len size).toNat → Sound blake3 size (store data))
    (hend : s.ingestTask size i t store = some s') : Whole blake3 size s' := by
  unfold State.ingestTask at hend
  split at hend
  · rename_i g data hphase
    cases hend
    refine ⟨hstore data ((hs.tasks t (mem_of_getElem? hi)).2 g data hphase), fun u hu => ?_⟩
    rcases mem_append.mp hu with hold | hnew
    · exact hs.goes_fits (fun _ _ _ _ hing => by cases hing) u hold
    · exact ahead_fits u hnew
  · cases hend

theorem step {a : Action} (hinj : Function.Injective blake3)
    (hstep : s.step blake3 size a = some s') : Whole blake3 size s' := by
  cases a with
  | read chunk inner want =>
    obtain ⟨hfits, rfl⟩ := ite_some_none_eq_some.mp hstep
    refine ⟨hs.cache, fun u hu => ?_⟩
    rcases Runs.mem_append_cases hu with hold | rfl
    · exact hs.tasks u hold
    · refine ⟨fun _ _ hkind => ?_, nofun⟩
      cases hkind
      exact hfits.2
  | run i =>
    obtain ⟨t, hi, hrun⟩ := bind_eq_some_iff.mp hstep
    exact hs.runTask hinj hi hrun
  | answer i data =>
    obtain ⟨t, hi, hrun⟩ := bind_eq_some_iff.mp hstep
    unfold State.answerTask at hrun
    split at hrun
    · split at hrun
      · cases hrun
        refine ⟨hs.cache, hs.goes_fits fun u hu g' data' hing => ?_⟩
        split at hing
        · rename_i hlen
          cases hing
          obtain rfl := mem_unique hi hu
          exact hlen
        · cases hing
      · cases hrun
        exact ⟨hs.cache, hs.goes_fits nofun⟩
    · cases hrun
  | ingest i now =>
    obtain ⟨t, hi, hend⟩ := bind_eq_some_iff.mp hstep
    exact hs.ingestTask hi (fun data hdata => hs.cache.ingest hdata now) hend
  | ingestFailed i wrote =>
    obtain ⟨t, hi, hend⟩ := bind_eq_some_iff.mp hstep
    refine hs.ingestTask hi (fun data _ => ?_) hend
    unfold State.failed
    split
    · exact ⟨fun h f hf => hs.cache.addFile hf, hs.cache.chunks⟩
    · exact hs.cache
  | evict victims =>
    cases hstep
    exact ⟨⟨fun h f hf => hs.cache.files h f (Cache.of_files_evict hf), hs.cache.chunks⟩, hs.tasks⟩
  | invalidate gone =>
    cases hstep
    refine ⟨⟨hs.cache.files, fun key m hm => ?_⟩, hs.tasks⟩
    have hget := (get_filter s.cache.db.manifests (fun k => decide (k ∉ gone)) key).symm.trans hm
    obtain ⟨-, hget⟩ := ite_none_right_eq_some.mp hget
    exact hs.cache.chunks key m hget

end Whole

namespace Served

variable {chunk : Chunk}

theorem other (hs : Served s i chunk) {j : Nat} {phase : Phase} {more : List Task} (hne : j ≠ i)
    (hholds : Holds s'.cache chunk) (htasks : s'.tasks = (s.goes j phase).tasks ++ more) :
    Served s' i chunk := by
  obtain ⟨t, hi, hrest⟩ := hs.reader
  refine ⟨hholds, t, ?_, hrest⟩
  have hgoes : (s.goes j phase).tasks[i]? = some t := goes_task hi hne
  rw [htasks, getElem?_append_left (Runs.lt_length hgoes)]
  exact hgoes

theorem step {a : Action} (hs : Served s i chunk) (hw : Whole blake3 size s)
    (hinj : Function.Injective blake3) (hkeep : ¬ s.Loses chunk a)
    (hstep : s.step blake3 size a = some s') : Served s' i chunk := by
  obtain ⟨t, hi, hchunk, hkind, hquiet⟩ := hs.reader
  -- A task that fetches or ingests is another one.
  have hingest : ∀ {j : Nat} {u : Task} {store : List UInt8 → Cache}, s.tasks[j]? = some u →
      (∀ data, Holds (store data) chunk) → s.ingestTask size j u store = some s' →
      Served s' i chunk := by
    intro j u store hj hstore hend
    unfold State.ingestTask at hend
    split at hend
    · rename_i g data hphase
      cases hend
      refine hs.other (fun hij => ?_) (hstore data) rfl
      subst hij
      obtain rfl := mem_unique hi hj
      rw [hphase] at hquiet
      cases hquiet
    · cases hend
  cases a with
  | read c inner want =>
    obtain ⟨-, ⟨⟩⟩ := ite_none_right_eq_some.mp hstep
    refine ⟨hs.holds, t, ?_, hchunk, hkind, hquiet⟩
    simp only [getElem?_append_left (Runs.lt_length hi)]
    exact hi
  | run j =>
    obtain ⟨u, hj, hrun⟩ := bind_eq_some_iff.mp hstep
    obtain ⟨p, htasks, hp, hcache⟩ := runTask_effect hrun
    have hholds : Holds s'.cache chunk := by
      rcases hcache with ⟨hwarm, -⟩ | ⟨g, inner, want, hreader, hcache, -⟩
      · unfold Holds
        rw [hwarm.db, hwarm.files]
        exact hs.holds
      · have hfits := (hw.tasks u (mem_of_getElem? hj)).1 inner want hreader
        rw [hcache, (hw.cache.recheck hinj hfits).1]
        exact hs.holds
    by_cases hij : j = i
    · subst hij
      obtain rfl := mem_unique hi hj
      refine ⟨hholds, { t with phase := p }, htasks ▸ goes_task_self hi, hchunk, hkind, ?_⟩
      have hfetches : p.fetches = false := by
        rcases hcache with ⟨-, hprefetch⟩ | ⟨g, inner, want, hreader, -, hfound⟩
        · exact Bool.eq_false_iff.mpr fun hfetch => hkind (hprefetch hfetch)
        · have hfits := (hw.tasks t (mem_of_getElem? hi)).1 inner want hreader
          rw [hfound ((hw.cache.recheck hinj hfits).2 (hchunk ▸ hs.holds))]
          rfl
      exact Phase.quiet_of hfetches hp
    · exact hs.other hij hholds (htasks.trans (append_nil _).symm)
  | answer j data =>
    obtain ⟨u, hj, hrun⟩ := bind_eq_some_iff.mp hstep
    unfold State.answerTask at hrun
    split at hrun
    · rename_i g hphase
      have hne : j ≠ i := fun hij => by
        subst hij
        obtain rfl := mem_unique hi hj
        rw [hphase] at hquiet
        cases hquiet
      split at hrun
      · cases hrun
        exact hs.other hne hs.holds (append_nil _).symm
      · cases hrun
        exact hs.other hne hs.holds (append_nil _).symm
    · cases hrun
  | ingest j now =>
    obtain ⟨u, hj, hend⟩ := bind_eq_some_iff.mp hstep
    refine hingest hj (fun data => hs.holds.ingest (fun hnode => ?_) now) hend
    by_contra hne
    exact hkeep ⟨u, hj, hnode, hne⟩
  | ingestFailed j wrote =>
    obtain ⟨u, hj, hend⟩ := bind_eq_some_iff.mp hstep
    refine hingest hj (fun data => ?_) hend
    unfold State.failed
    split
    · obtain ⟨m, r, hm, hr, hf⟩ := hs.holds
      exact ⟨m, r, hm, hr, isSome_addFile hf⟩
    · exact hs.holds
  | evict victims =>
    cases hstep
    obtain ⟨m, r, hm, hr, hf⟩ := hs.holds
    have hkept := Cache.files_evict s.cache fun hin => hkeep ⟨m, hm, r, hr, hin⟩
    exact ⟨⟨m, r, hm, hr, (congrArg isSome hkept).trans hf⟩, hs.reader⟩
  | invalidate gone =>
    cases hstep
    obtain ⟨m, r, hm, hr, hf⟩ := hs.holds
    refine ⟨⟨m, r, ?_, hr, hf⟩, hs.reader⟩
    have hkept : chunk.key ∉ gone := hkeep
    refine (get_filter s.cache.db.manifests (fun k => decide (k ∉ gone)) chunk.key).trans ?_
    rw [if_pos (decide_eq_true hkept)]
    exact hm

end Served

/-- Two fetches in progress are of different chunks, and a reader that has not locked its guard when
a fetch of the chunk is ingested does not fetch it. -/
theorem single_flight {c : Cache}
    (h : Runs.Reaches (State.step blake3 size) (fun _ _ => True) ⟨c, [], 0, []⟩ s) :
    (∀ (i j : Nat) (t u : Task), s.tasks[i]? = some t → s.tasks[j]? = some u → t.phase.fetches →
      u.phase.fetches → t.chunk = u.chunk → i = j) ∧
    (Function.Injective blake3 → Sound blake3 size c →
      ∀ (i j : Nat) (t u : Task) (now : UInt64) (s' : State), s.tasks[i]? = some t →
        t.kind ≠ .prefetch → t.phase.waits → s.tasks[j]? = some u → u.chunk = t.chunk →
        s.step blake3 size (.ingest j now) = some s' →
        ∀ s'', Runs.Reaches (State.step blake3 size) (fun s a => ¬ s.Loses t.chunk a) s' s'' →
          ∀ v, s''.tasks[i]? = some v → ¬ v.phase.fetches) := by
  have hempty : ∀ (i : Nat) (t : Task), (State.mk c [] 0 []).tasks[i]? ≠ some t := fun i t ht => by
    cases ht
  have hexcl : Exclusive s :=
    h.inv ⟨fun i t ht => absurd ht (hempty i t), fun i j t u ht => absurd ht (hempty i t)⟩
      fun _ _ _ hs _ hstep => hs.step hstep
  refine ⟨fun i j t u hi hj => hexcl.fetches hi hj, fun hinj hc i j t u now s' hi hkind hwaits hj
    hchunk hstep s'' hrun v hv hfetches => ?_⟩
  have hwhole : Whole blake3 size s := h.inv ⟨hc, nofun⟩ fun _ _ _ hs _ hstep => hs.step hinj hstep
  have hserved : Served s' i t.chunk := by
    obtain ⟨u', hj', hend⟩ := bind_eq_some_iff.mp hstep
    obtain rfl := mem_unique hj hj'
    unfold State.ingestTask at hend
    split at hend
    · rename_i g data hphase
      cases hend
      have hne : j ≠ i := fun hij => by
        subst hij
        obtain rfl := mem_unique hi hj
        rw [hphase] at hwaits
        cases hwaits
      refine ⟨hchunk ▸ Sound.ingest_holds s.cache u.chunk data now, t, ?_, rfl, hkind,
        Phase.quiet_of_waits hwaits⟩
      have hgoes : (s.goes j (.leaving g)).tasks[i]? = some t := goes_task hi hne
      simp only [List.getElem?_append_left (Runs.lt_length hgoes)]
      exact hgoes
    · cases hend
  have hkept := hrun.inv (I := fun s => Served s i t.chunk ∧ Whole blake3 size s)
    ⟨hserved, hwhole.step hinj hstep⟩
    fun _ _ _ hs hkeep hstep => ⟨hs.1.step hs.2 hinj hkeep hstep, hs.2.step hinj hstep⟩
  obtain ⟨v', hv', -, -, hquiet⟩ := hkept.1.reader
  obtain rfl := mem_unique hv hv'
  exact Phase.not_fetches hquiet hfetches

end

def small : Chunk := ⟨⟨1, ⟨2, 0⟩, 7⟩, 0⟩

theorem single_flight_pair : ∃ s s' : State,
    Runs.Reaches (State.step id fun _ => 3) (fun _ _ => True)
      ⟨⟨⟨[], ∅⟩, fun _ => none, [], []⟩, [], 0, []⟩ s ∧
    s.tasks = [⟨small, .reader 0 2, .ingesting 0 [1, 2, 3]⟩, ⟨small, .reader 1 2, .waiting 0⟩] ∧
    s.step id (fun _ => 3) (.ingest 0 9) = some s' ∧
    ∀ s'', Runs.Reaches (State.step id fun _ => 3) (fun s a => ¬ s.Loses small a) s' s'' →
      ∀ v, s''.tasks[1]? = some v → ¬ v.phase.fetches := by
  obtain ⟨s, hs, htasks⟩ : ∃ s, Runs.Reaches (State.step id fun _ => 3) (fun _ _ => True)
      ⟨⟨⟨[], ∅⟩, fun _ => none, [], []⟩, [], 0, []⟩ s ∧
      s.tasks = [⟨small, .reader 0 2, .ingesting 0 [1, 2, 3]⟩, ⟨small, .reader 1 2, .waiting 0⟩] :=
    Runs.Reaches.exists_of_guarded
      [.read small 0 2, .read small 1 2, .run 0, .run 0, .run 0, .run 0, .run 1, .run 1,
        .answer 0 (some [1, 2, 3])]
      (by decide +kernel)
  have hi : s.tasks[1]? = some ⟨small, .reader 1 2, .waiting 0⟩ := by rw [htasks]; rfl
  have hj : s.tasks[0]? = some ⟨small, .reader 0 2, .ingesting 0 [1, 2, 3]⟩ := by rw [htasks]; rfl
  obtain ⟨s', hs'⟩ : ∃ s', s.step id (fun _ => 3) (.ingest 0 9) = some s' := by
    simp only [State.step, hj]
    exact ⟨_, rfl⟩
  have hsound : Sound id (fun _ => 3) ⟨⟨[], ∅⟩, fun _ => none, [], []⟩ := ⟨nofun, nofun⟩
  exact ⟨s, s', hs, htasks, hs', (single_flight hs).2 injective_id hsound 1 0 _ _ 9 s' hi
    nofun rfl hj rfl hs'⟩

end Mist.SingleFlight
