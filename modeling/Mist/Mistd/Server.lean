import Mist.Mistd.Journal

/-! The guest's side of one session: the journal lane and the snapshot walk. -/

namespace Mist

open List Option Runs

/-- What the journal writer sends: a batch, by its place in the broadcast, or the sentinel for a lag,
with the number of batches that were broadcast before it. -/
inductive LaneItem where
  | batch (i : Nat) (b : JournalBatch)
  | sentinel (n : Nat)
  deriving DecidableEq

def LaneItem.frame : LaneItem → JournalBatch
  | .batch _ b => b
  | .sentinel _ => ⟨⟨0xffff⟩, 0, [.overflow]⟩

/-- The engine of a share and a session.  `mark` is how many records the reader had put into the
channel, and how many losses there had been, when the walk read its first directory; `cursor` is the
next batch of the lane's subscription. -/
structure Server where
  engine : JournalEngine
  bulk : Bool
  walking : Bool
  mark : Option (Nat × Nat)
  cursor : Option Nat
  lane : List LaneItem

namespace Server

/-- `recv` and `lagged` are the two answers that the broadcast gives the journal writer: the next
batch, or that it has been overtaken and goes on at `next`. -/
inductive Action where
  | engine (a : JournalEngine.Action)
  | bulkHello
  | journalHello
  | snapshotStart
  | firstRead
  | recv
  | lagged (next : Nat)

def start (share : ShareId) (mistdPid : Int32) : Server where
  engine := .start share mistdPid
  bulk := false
  walking := false
  mark := none
  cursor := none
  lane := []

def recordsOf (s : Server) (n : Nat) : List Rec :=
  (s.engine.stream.take n).flatMap JournalBatch.records

def accepted (s : Server) : List Rec := s.recordsOf s.engine.stream.length ++ s.engine.inFlight

def step (s : Server) : Action → Option Server
  | .engine a => (s.engine.step a).map fun engine => { s with engine }
  | .bulkHello => some { s with bulk := true }
  | .journalHello =>
    if s.cursor = none then some { s with cursor := some s.engine.stream.length } else none
  | .snapshotStart => if s.bulk then some { s with walking := true } else none
  | .firstRead =>
    if s.walking ∧ s.mark = none then
      some { s with mark := some (s.accepted.length, s.engine.losses.length) }
    else none
  | .recv => do
    let c ← s.cursor
    let b ← s.engine.stream[c]?
    return { s with cursor := some (c + 1), lane := s.lane ++ [.batch c b] }
  | .lagged next => do
    let c ← s.cursor
    if c < next ∧ next ≤ s.engine.stream.length then
      return { s with
        cursor := some next
        lane := s.lane ++ [.sentinel s.engine.stream.length] }
    else none

/-- Batch `i` has records that were put into the channel after the first read. -/
def Late (s : Server) (i : Nat) : Prop := ∃ m ∈ s.mark, m.1 < (s.recordsOf (i + 1)).length

/-- The batch that goes out next has such records, or it is the notice of a loss after the first
read. -/
def Carries (s : Server) : Prop :=
  ∃ m ∈ s.mark, m.1 < (s.recordsOf s.engine.stream.length).length + s.engine.batch.length ∨
    (m.2 < s.engine.losses.length ∧ Rec.overflow ∈ s.engine.batch)

instance (s : Server) : Decidable s.Carries := inferInstanceAs (Decidable (∃ m ∈ s.mark, _))

def Action.engineStep : Action → Option JournalEngine.Action
  | .engine a => some a
  | _ => none

/-- A batch that carries what belongs after the first read is broadcast to the lane, and the engine
sends its notices when they have a slot. -/
def Heard (s : Server) (a : Action) : Prop :=
  ∀ e ∈ a.engineStep, (e.isFlush → s.cursor.isSome ∨ ¬ s.Carries) ∧ s.engine.Noticed e
  deriving Decidable

/-- Batch `i` was sent to the lane, or a sentinel after it was broadcast. -/
def Delivered (s : Server) (i : Nat) : Prop :=
  (∃ b, .batch i b ∈ s.lane) ∨ ∃ n, i < n ∧ .sentinel n ∈ s.lane

def Ahead (s : Server) (i : Nat) : Prop := ∃ c ∈ s.cursor, c ≤ i

/-- All that belongs after the first read, records and losses, is delivered or on its way. -/
def Followed (s : Server) : Prop :=
  (∀ i < s.engine.stream.length, s.Late i → s.Delivered i ∨ s.Ahead i) ∧
  ∀ m ∈ s.mark, ∀ t ∈ s.engine.losses.drop m.2, s.engine.Pending ∨
    ∃ i b, t ≤ i ∧ s.engine.stream[i]? = some b ∧ Rec.overflow ∈ b.records ∧
      (s.Delivered i ∨ s.Ahead i)

def Quiet (s : Server) : Prop := s.engine.Drained ∧ s.cursor = some s.engine.stream.length

def AllDelivered (s : Server) : Prop :=
  (∀ i < s.engine.stream.length, s.Late i → s.Delivered i) ∧
  ∀ m ∈ s.mark, ∀ t ∈ s.engine.losses.drop m.2,
    ∃ i b, t ≤ i ∧ s.engine.stream[i]? = some b ∧ Rec.overflow ∈ b.records ∧ s.Delivered i

structure Following (s : Server) : Prop where
  past : ∀ t ∈ s.engine.losses, t ≤ s.engine.stream.length
  cursor : ∀ c ∈ s.cursor, c ≤ s.engine.stream.length
  followed : s.Followed

section

variable {s s' : Server} {a : Action} {i : Nat}

theorem start_following (share : ShareId) (pid : Int32) : (start share pid).Following where
  past t h := by cases h
  cursor c h := by cases h
  followed := ⟨fun i hi => absurd hi (Nat.not_lt_zero i), nofun⟩

variable {engine : JournalEngine}

theorem recordsOf_append {b : JournalBatch} {n : Nat} (h : engine.stream = s.engine.stream ++ [b])
    (hn : n ≤ s.engine.stream.length) : recordsOf { s with engine } n = s.recordsOf n := by
  simp only [recordsOf, h, take_append_of_le_length hn]

section

variable (h : s.Following)
include h

theorem Following.lane {cursor : Option Nat} {lane : List LaneItem}
    (hcursor : ∀ c ∈ cursor, c ≤ s.engine.stream.length)
    (hlane : ∀ i < s.engine.stream.length, s.Delivered i ∨ s.Ahead i →
      Delivered { s with cursor, lane } i ∨ Ahead { s with cursor, lane } i) :
    Following { s with cursor, lane } := by
  refine ⟨h.past, hcursor, fun i hi hlate => hlane i hi (h.followed.1 i hi hlate),
    fun m hm t ht => (h.followed.2 m hm t ht).imp_right ?_⟩
  rintro ⟨i, b, hti, hi, hover, hreached⟩
  exact ⟨i, b, hti, hi, hover, hlane i (lt_length hi) hreached⟩

theorem Following.recv {c : Nat} {b : JournalBatch} (hc : s.cursor = some c)
    (hb : s.engine.stream[c]? = some b) :
    Following { s with cursor := some (c + 1), lane := s.lane ++ [.batch c b] } := by
  refine h.lane (fun c' hc' => ?_) fun i _ hreached => ?_
  · cases hc'
    exact lt_length hb
  rcases hreached with (⟨b', hb'⟩ | ⟨n, hn, hsent⟩) | ⟨c', hc', hle⟩
  · exact .inl (.inl ⟨b', mem_append_left _ hb'⟩)
  · exact .inl (.inr ⟨n, hn, mem_append_left _ hsent⟩)
  · obtain rfl := mem_unique hc hc'
    rcases Nat.eq_or_lt_of_le hle with rfl | hlt
    · exact .inl (.inl ⟨b, by simp⟩)
    · exact .inr ⟨c + 1, rfl, hlt⟩

theorem Following.lagged {next : Nat} (hnext : next ≤ s.engine.stream.length) :
    Following { s with
      cursor := some next
      lane := s.lane ++ [.sentinel s.engine.stream.length] } := by
  refine h.lane (fun c' hc' => ?_) fun i hi hreached => ?_
  · cases hc'
    exact hnext
  rcases hreached with (⟨b', hb'⟩ | ⟨n, hn, hsent⟩) | _
  · exact .inl (.inl ⟨b', mem_append_left _ hb'⟩)
  · exact .inl (.inr ⟨n, hn, mem_append_left _ hsent⟩)
  · exact .inl (.inr ⟨s.engine.stream.length, hi, by simp⟩)

theorem Following.firstRead :
    Following { s with mark := some (s.accepted.length, s.engine.losses.length) } := by
  refine ⟨h.past, h.cursor, fun i hi hlate => ?_, fun m hm t ht => ?_⟩
  · obtain ⟨m, hm, hlt⟩ := hlate
    cases hm
    have hprefix : (s.recordsOf (i + 1)).length ≤ s.accepted.length := by
      have hsplit : s.recordsOf s.engine.stream.length =
          s.recordsOf (i + 1) ++ (s.engine.stream.drop (i + 1)).flatMap JournalBatch.records := by
        rw [recordsOf, recordsOf, ← flatMap_append, take_append_drop, take_length]
      simp only [accepted, hsplit, length_append]
      omega
    exact absurd hprefix (Nat.not_le.mpr hlt)
  · cases hm
    simp at ht

theorem Following.engineStays
    (hstream : engine.stream = s.engine.stream) (hpending : s.engine.Pending → engine.Pending)
    (hlosses : engine.losses = s.engine.losses ∨
      engine.losses = s.engine.losses ++ [s.engine.stream.length] ∧ engine.Pending) :
    Following { s with engine } := by
  have hold : ∀ m ∈ s.mark, ∀ t ∈ s.engine.losses.drop m.2, engine.Pending ∨
      ∃ i b, t ≤ i ∧ engine.stream[i]? = some b ∧ Rec.overflow ∈ b.records ∧
        (s.Delivered i ∨ s.Ahead i) := fun m hm t ht => by
    rw [hstream]
    exact (h.followed.2 m hm t ht).imp_left hpending
  refine ⟨fun t ht => ?_, fun c hc => hstream ▸ h.cursor c hc, fun i hi hlate => ?_,
    fun m hm t ht => ?_⟩
  · rw [hstream]
    rcases hlosses with heq | ⟨heq, -⟩ <;> rw [heq] at ht
    · exact h.past t ht
    · rcases mem_append_cases ht with ht | rfl
      · exact h.past t ht
      · exact le_rfl
  · refine h.followed.1 i (hstream ▸ hi) ?_
    simpa only [Late, recordsOf, hstream] using hlate
  · rcases hlosses with heq | ⟨-, hnew⟩
    · exact hold m hm t (heq ▸ ht)
    · exact .inl hnew

theorem Following.engineFlush (hok : s.cursor.isSome ∨ ¬ s.Carries)
    (hstream : engine.stream = s.engine.stream ++ [s.engine.nextBatch])
    (hlosses : engine.losses = s.engine.losses)
    (hpending : s.engine.Pending → Rec.overflow ∈ s.engine.nextBatch.records ∨ engine.Pending) :
    Following { s with engine } := by
  have hahead : s.Carries → s.Ahead s.engine.stream.length := by
    intro hcarries
    obtain ⟨c, hc⟩ := isSome_iff_exists.mp (hok.resolve_right fun hn => hn hcarries)
    exact ⟨c, hc, h.cursor c hc⟩
  have hlen : engine.stream.length = s.engine.stream.length + 1 := by simp [hstream]
  have hle : s.engine.stream.length ≤ engine.stream.length := by omega
  refine ⟨fun t ht => ?_, fun c hc => (h.cursor c hc).trans hle, fun i hi hlate => ?_,
    fun m hm t ht => ?_⟩
  · rw [hlosses] at ht
    exact (h.past t ht).trans hle
  · obtain ⟨m, hm, hlt⟩ := hlate
    change i < engine.stream.length at hi
    rcases Nat.lt_or_ge i s.engine.stream.length with hold | hnew
    · rw [recordsOf_append hstream hold] at hlt
      exact h.followed.1 i hold ⟨m, hm, hlt⟩
    · obtain rfl : i = s.engine.stream.length := by omega
      refine .inr (hahead ⟨m, hm, .inl ?_⟩)
      simpa [recordsOf, hstream, JournalEngine.nextBatch] using hlt
  · rw [hlosses] at ht
    have htle := h.past t (mem_of_mem_drop ht)
    have hlost : m.2 < s.engine.losses.length := by
      by_contra hge
      rw [drop_eq_nil_of_le (by omega)] at ht
      cases ht
    rcases h.followed.2 m hm t ht with hp | ⟨i, b, hti, hi, hover, hreached⟩
    · rcases hpending hp with hover | hp
      · exact .inr ⟨_, s.engine.nextBatch, htle, by simp [hstream], hover,
          .inr (hahead ⟨m, hm, .inr ⟨hlost, hover⟩⟩)⟩
      · exact .inl hp
    · refine .inr ⟨i, b, hti, ?_, hover, hreached⟩
      rw [hstream, getElem?_append_left (lt_length hi), hi]

theorem Following.step (hok : s.Heard a) (hs' : s.step a = some s') : s'.Following := by
  cases a with
  | engine e =>
    obtain ⟨engine, hengine, rfl⟩ := map_eq_some_iff.mp hs'
    obtain ⟨hlane, hnoticed⟩ := hok e rfl
    rcases JournalEngine.step_cases hengine with ⟨⟨hstream, -⟩, hpending, hlosses⟩ |
      ⟨hflush, ⟨hstream, -⟩, hlosses, hpending⟩
    · exact h.engineStays hstream (hpending hnoticed) hlosses
    · exact h.engineFlush (hlane hflush) hstream hlosses hpending
  | bulkHello =>
    cases hs'
    exact { h with }
  | journalHello =>
    simp only [Server.step] at hs'
    split at hs' <;> cases hs'
    rename_i hnone
    refine h.lane (fun c hc => ?_) fun i _ hreached => ?_
    · cases hc
      exact le_rfl
    refine hreached.imp_right ?_
    rintro ⟨c, hc, -⟩
    rw [hnone] at hc
    cases hc
  | snapshotStart =>
    simp only [Server.step] at hs'
    split at hs' <;> cases hs'
    exact { h with }
  | firstRead =>
    simp only [Server.step] at hs'
    split at hs' <;> cases hs'
    exact h.firstRead
  | recv =>
    simp only [Server.step, bind_eq_bind, bind_eq_some_iff] at hs'
    obtain ⟨c, hc, b, hb, hs'⟩ := hs'
    cases hs'
    exact h.recv hc hb
  | lagged next =>
    simp only [Server.step, bind_eq_bind, bind_eq_some_iff] at hs'
    obtain ⟨c, -, hs'⟩ := hs'
    split at hs' <;> cases hs'
    rename_i hnext
    exact h.lagged hnext.2

theorem Following.allDelivered (hquiet : s.Quiet) : s.AllDelivered := by
  obtain ⟨⟨⟨-, hnotice⟩, hflight⟩, hcursor⟩ := hquiet
  have hbehind : ∀ i < s.engine.stream.length, ¬ s.Ahead i := by
    rintro i hi ⟨c, hc, hle⟩
    obtain rfl := mem_unique hcursor hc
    omega
  refine ⟨fun i hi hlate => (h.followed.1 i hi hlate).resolve_right (hbehind i hi), ?_⟩
  intro m hm t ht
  rcases h.followed.2 m hm t ht with (hp | hp) | ⟨i, b, hti, hi, hover, hreached⟩
  · rw [hflight] at hp
    cases hp
  · rw [hnotice] at hp
    cases hp
  · exact ⟨i, b, hti, hi, hover,
      hreached.resolve_right (hbehind i (lt_length hi))⟩

end

end

/-- If nothing that belongs after the walk's first read is broadcast before the lane subscribes, all
of it reaches the lane or is followed by a sentinel. -/
theorem late_events_followed {share : ShareId} {pid : Int32} {s : Server}
    (h : Runs.Reaches Server.step Server.Heard (start share pid) s) :
    s.Followed ∧ (s.Quiet → s.AllDelivered) := by
  have hf := h.inv (start_following share pid) fun _ _ _ ht hok hstep => Following.step ht hok hstep
  exact ⟨hf.followed, hf.allDelivered⟩

def startWalk : List Action := [.bulkHello, .snapshotStart, .firstRead]

def broadcastUnlink : List Action :=
  [.event JournalEngine.unlinkEvent JournalEngine.emptyShare, .send, .recv, .flush].map .engine

theorem late_events_followed_laneFirst : ∃ s,
    Runs.Reaches Server.step Server.Heard (start ⟨0⟩ 7) s ∧
      (s.mark = some (0, 0) ∧ s.engine.stream.length = 1 ∧
        s.lane = [.batch 0 ⟨⟨0⟩, 1, [JournalEngine.unlinked]⟩]) ∧
      s.Followed ∧ (s.Quiet → s.AllDelivered) :=
  Runs.Reaches.exists_of_guarded_and
    ([.journalHello] ++ startWalk ++ broadcastUnlink ++ [.recv])
    (by decide +kernel) fun _ hs => late_events_followed hs

/-- A file is unlinked after the walk's first read and before the lane subscribes: the lane has
caught up and has got nothing. -/
theorem late_event_before_lane : ∃ s,
    Runs.Reaches Server.step (fun _ _ => True) (start ⟨0⟩ 7) s ∧ s.Quiet ∧ s.lane = [] ∧
      ¬ s.AllDelivered := by
  refine Runs.Reaches.exists_imp (fun s => s.engine.ReaderIdle ∧ s.engine.inFlight = [] ∧
      s.cursor = some s.engine.stream.length ∧ s.lane = [] ∧ s.mark = some (0, 0) ∧
      s.engine.stream.length = 1 ∧ 0 < (s.recordsOf 1).length)
    (startWalk ++ broadcastUnlink ++ [.journalHello]) (by decide +kernel) ?_
  rintro s - ⟨hidle, hflight, hcursor, hlane, hmark, hlen, hrecords⟩
  refine ⟨⟨⟨hidle, hflight⟩, hcursor⟩, hlane, fun hall => ?_⟩
  rcases hall.1 0 (by omega) ⟨(0, 0), hmark, hrecords⟩ with ⟨b, hb⟩ | ⟨n, -, hn⟩
  · rw [hlane] at hb
    cases hb
  · rw [hlane] at hn
    cases hn

end Server

end Mist
