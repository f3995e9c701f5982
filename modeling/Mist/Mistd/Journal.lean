import Mist.Runs
import Mist.Mistd.Fanotify

/-! The journal engine of one share: a reader, a bounded channel, and a batcher that numbers the
records and broadcasts them. -/

namespace Mist

open List Option Runs

def channelDepth : Nat := 65536
def maxRecords : Nat := 512
def maxBatchBytes : Nat := 65536

def approxSize : Rec → Nat
  | .created _ name _ _ => 48 + name.bytes.length
  | .createdBatch _ entries => 16 + entries.length * 64
  | .removed _ name => 24 + name.bytes.length
  | .renamed _ fromName _ toName => 48 + fromName.bytes.length + toName.bytes.length
  | .attrChanged _ _ => 64
  | .content _ _ _ _ _ => 40
  | .selfRemoved _ => 16
  | .overflow => 8
  | .echoMarker _ => 8

/-- Reader, channel and batcher.  `todo` is what the reader has left of an event, `notice` says that it
is about to send an `Overflow`.  `losses` are the lengths that the stream had when something was
lost. -/
structure JournalEngine where
  share : ShareId
  mistdPid : Int32
  vstate : VersionState
  todo : List Rec
  notice : Bool
  chan : List Rec
  batch : List Rec
  bytes : Nat
  seq : UInt64
  stream : List JournalBatch
  losses : List Nat

namespace JournalEngine

/-- `read` is the reader's next read of the kernel's queue, `event` the next event of what it read,
`send` and `notify` its two kinds of `try_send`; `recv` and `flush` are the batcher's. -/
inductive Action where
  | read
  | event (ev : ParsedEvent) (now : ShareNow)
  | send
  | notify
  | recv
  | flush

def start (share : ShareId) (mistdPid : Int32) : JournalEngine where
  share := share
  mistdPid := mistdPid
  vstate := .new
  todo := []
  notice := false
  chan := []
  batch := []
  bytes := 0
  seq := 1
  stream := []
  losses := []

def ReaderIdle (s : JournalEngine) : Prop := s.todo = [] ∧ s.notice = false

instance (s : JournalEngine) : Decidable s.ReaderIdle := inferInstanceAs (Decidable (_ ∧ _))

def lose (s : JournalEngine) : JournalEngine :=
  { s with todo := [], notice := true, losses := s.losses ++ [s.stream.length] }

def onEvent (s : JournalEngine) (ev : ParsedEvent) (now : ShareNow) : JournalEngine :=
  if ev.has FAN_Q_OVERFLOW then s.lose
  else if ev.pid = s.mistdPid then s
  else { s with todo := (synthesize ev now s.vstate).1, vstate := (synthesize ev now s.vstate).2 }

def nextBatch (s : JournalEngine) : JournalBatch := ⟨s.share, s.seq, s.batch⟩

def step (s : JournalEngine) : Action → Option JournalEngine
  | .read =>
    if s.ReaderIdle then some { s with vstate := { s.vstate with modifySeen := ∅ } } else none
  | .event ev now => if s.ReaderIdle then some (s.onEvent ev now) else none
  | .send =>
    match s.todo with
    | [] => none
    | rec :: rest =>
      if s.chan.length < channelDepth then some { s with todo := rest, chan := s.chan ++ [rec] }
      else some s.lose
  | .notify =>
    if s.notice then
      some { s with
        notice := false
        chan := if s.chan.length < channelDepth then s.chan ++ [.overflow] else s.chan }
    else none
  | .recv =>
    match s.chan with
    | [] => none
    | rec :: chan =>
      if s.batch = [] then some { s with chan, batch := [rec], bytes := 64 }
      else if s.batch.length < maxRecords ∧ s.bytes < maxBatchBytes then
        some { s with chan, batch := s.batch ++ [rec], bytes := s.bytes + approxSize rec }
      else none
  | .flush =>
    if s.batch = [] then none
    else
      some { s with
        batch := []
        seq := s.seq + s.batch.length.toUInt64
        stream := s.stream ++ [s.nextBatch] }

def inFlight (s : JournalEngine) : List Rec := s.batch ++ s.chan

def Action.isNotify : Action → Bool
  | .notify => true
  | _ => false

def Action.isFlush : Action → Bool
  | .flush => true
  | _ => false

/-- A notice is sent when there is a slot for it, or an `Overflow` is still on its way. -/
def Noticed (s : JournalEngine) (a : Action) : Prop :=
  a.isNotify → s.chan.length < channelDepth ∨ Rec.overflow ∈ s.inFlight
  deriving Decidable

def Pending (s : JournalEngine) : Prop := Rec.overflow ∈ s.inFlight ∨ s.notice

/-- An `Overflow` was broadcast after each loss, or is going to be. -/
def Told (s : JournalEngine) : Prop :=
  ∀ t ∈ s.losses, (∃ b ∈ s.stream.drop t, Rec.overflow ∈ b.records) ∨ s.Pending

def Drained (s : JournalEngine) : Prop := s.ReaderIdle ∧ s.inFlight = []

def Gapless (bs : List JournalBatch) : Prop :=
  bs.IsChain fun a b => b.firstSeq = a.firstSeq + a.records.length.toUInt64

/-- An `Overflow`, or a gap in the numbers, was broadcast after each loss. -/
def Signalled (s : JournalEngine) : Prop :=
  ∀ t ∈ s.losses, (∃ b ∈ s.stream.drop t, Rec.overflow ∈ b.records) ∨ ¬ Gapless (s.stream.drop t)

section

variable {s s' : JournalEngine} {a : Action}

theorem step_cases (hs' : s.step a = some s') :
    ((s'.stream = s.stream ∧ s'.seq = s.seq) ∧ (s.Noticed a → s.Pending → s'.Pending) ∧
      (s'.losses = s.losses ∨ s'.losses = s.losses ++ [s.stream.length] ∧ s'.Pending)) ∨
    (a.isFlush ∧ (s'.stream = s.stream ++ [s.nextBatch] ∧
        s'.seq = s.seq + s.batch.length.toUInt64) ∧ s'.losses = s.losses ∧
      (s.Pending → Rec.overflow ∈ s.nextBatch.records ∨ s'.Pending)) := by
  cases a with
  | read =>
    obtain ⟨-, ⟨⟩⟩ := ite_none_right_eq_some.mp hs'
    exact .inl ⟨⟨rfl, rfl⟩, fun _ => id, .inl rfl⟩
  | event ev now =>
    obtain ⟨-, ⟨⟩⟩ := ite_none_right_eq_some.mp hs'
    unfold onEvent
    split
    · exact .inl ⟨⟨rfl, rfl⟩, fun _ _ => .inr rfl, .inr ⟨rfl, .inr rfl⟩⟩
    · split <;> exact .inl ⟨⟨rfl, rfl⟩, fun _ => id, .inl rfl⟩
  | send =>
    simp only [JournalEngine.step] at hs'
    split at hs'
    · cases hs'
    split at hs' <;> cases hs'
    · refine .inl ⟨⟨rfl, rfl⟩, fun _ => .imp_left fun hover => ?_, .inl rfl⟩
      simp only [inFlight, ← append_assoc]
      exact mem_append_left _ hover
    · exact .inl ⟨⟨rfl, rfl⟩, fun _ _ => .inr rfl, .inr ⟨rfl, .inr rfl⟩⟩
  | notify =>
    obtain ⟨-, ⟨⟩⟩ := ite_none_right_eq_some.mp hs'
    refine .inl ⟨⟨rfl, rfl⟩, fun hok _ => .inl ?_, .inl rfl⟩
    simp only [inFlight]
    split_ifs with hfull
    · simp
    · exact (hok rfl).resolve_left hfull
  | recv =>
    simp only [JournalEngine.step] at hs'
    split at hs'
    · cases hs'
    rename_i rec chan hchan
    split at hs'
    · rename_i hbatch
      cases hs'
      refine .inl ⟨⟨rfl, rfl⟩, fun _ => .imp_left fun hover => ?_, .inl rfl⟩
      simpa [inFlight, hbatch, hchan] using hover
    · split at hs' <;> cases hs'
      refine .inl ⟨⟨rfl, rfl⟩, fun _ => .imp_left fun hover => ?_, .inl rfl⟩
      simpa [inFlight, hchan] using hover
  | flush =>
    obtain ⟨-, ⟨⟩⟩ := ite_none_left_eq_some.mp hs'
    refine .inr ⟨rfl, ⟨rfl, rfl⟩, rfl, ?_⟩
    rintro (hover | hnotice)
    · rcases mem_append.mp hover with hbatch | hchan
      · exact .inl hbatch
      · exact .inr (.inl hchan)
    · exact .inr (.inr hnotice)

structure Telling (s : JournalEngine) : Prop where
  past : ∀ t ∈ s.losses, t ≤ s.stream.length
  told : s.Told

theorem start_telling (share : ShareId) (pid : Int32) : (start share pid).Telling where
  past t h := by cases h
  told t h := by cases h

theorem Telling.step (h : s.Telling) (hok : s.Noticed a) (hs' : s.step a = some s') :
    s'.Telling := by
  rcases step_cases hs' with ⟨⟨hstream, -⟩, hpending, hlosses | ⟨hlosses, hnew⟩⟩ |
    ⟨-, ⟨hstream, -⟩, hlosses, hpending⟩
  · refine ⟨fun t ht => hstream ▸ h.past t (hlosses ▸ ht), fun t ht => ?_⟩
    rw [hstream]
    exact (h.told t (hlosses ▸ ht)).imp_right (hpending hok)
  · refine ⟨fun t ht => ?_, fun _ _ => .inr hnew⟩
    rw [hlosses] at ht
    rcases mem_append_cases ht with ht | rfl
    · exact hstream ▸ h.past t ht
    · exact hstream ▸ le_rfl
  · refine ⟨fun t ht => ?_, fun t ht => ?_⟩ <;> rw [hlosses] at ht
    · exact (h.past t ht).trans (by simp [hstream])
    · rw [hstream, drop_append_of_le_length (h.past t ht)]
      rcases h.told t ht with ⟨b, hb, hover⟩ | hp
      · exact .inl ⟨b, mem_append_left _ hb, hover⟩
      · exact (hpending hp).imp_left fun hover => ⟨s.nextBatch, by simp, hover⟩

theorem Telling.signalled (h : s.Telling) (hdrained : s.Drained) : s.Signalled := by
  intro t ht
  obtain ⟨⟨-, hnotice⟩, hflight⟩ := hdrained
  rcases h.told t ht with hover | hover | hn
  · exact .inl hover
  · rw [hflight] at hover
    cases hover
  · rw [hnotice] at hn
    cases hn

end

/-- If each notice has a slot or follows another `Overflow`, an `Overflow` is broadcast after every
loss or is on its way. -/
theorem overflow_told {share : ShareId} {pid : Int32} {s : JournalEngine}
    (h : Runs.Reaches JournalEngine.step JournalEngine.Noticed (start share pid) s) :
    s.Told ∧ (s.Drained → s.Signalled) := by
  have ht := h.inv (start_telling share pid) fun _ _ _ ht hok hstep => Telling.step ht hok hstep
  exact ⟨ht.told, ht.signalled⟩

def Numbered (s : JournalEngine) : Prop :=
  Gapless s.stream ∧ ∀ b ∈ s.stream.getLast?, s.seq = b.firstSeq + b.records.length.toUInt64

theorem Numbered.step {s s' : JournalEngine} {a : Action} (h : s.Numbered)
    (hs' : s.step a = some s') : s'.Numbered := by
  rcases step_cases hs' with ⟨⟨hstream, hseq⟩, -⟩ | ⟨-, ⟨hstream, hseq⟩, -⟩
  · rwa [Numbered, hstream, hseq]
  rw [Numbered, hstream, hseq]
  refine ⟨isChain_append.mpr ⟨h.1, .singleton _, fun a ha b hb => ?_⟩, fun b hb => ?_⟩
  · obtain rfl : s.nextBatch = b := by simpa using hb
    exact h.2 a ha
  · obtain rfl : s.nextBatch = b := by simpa using hb
    rfl

theorem stream_gapless {ok : JournalEngine → Action → Prop} {share : ShareId} {pid : Int32}
    {s : JournalEngine} (h : Reaches JournalEngine.step ok (start share pid) s) (t : Nat) :
    Gapless (s.stream.drop t) := by
  have hstart : (start share pid).Numbered := ⟨.nil, nofun⟩
  exact (h.inv hstart fun _ _ _ ht _ hstep => ht.step hstep).1.drop t

theorem overflow_told_kernel : ∃ s,
    Runs.Reaches JournalEngine.step JournalEngine.Noticed (start ⟨0⟩ 7) s ∧
      (s.ReaderIdle ∧ s.inFlight = [] ∧ s.losses = [0] ∧ s.stream = [⟨⟨0⟩, 1, [.overflow]⟩]) ∧
      s.Told ∧ (s.Drained → s.Signalled) :=
  Runs.Reaches.exists_of_guarded_and
    [.read, .event { mask := FAN_Q_OVERFLOW, pid := 0 } ⟨false, fun _ _ => none, fun _ => none,
      fun _ => true⟩, .notify, .recv, .flush]
    (by decide +kernel) fun _ hs => overflow_told hs

def unlinkEvent : ParsedEvent :=
  { mask := FAN_DELETE, pid := 1, dfidName := some ⟨some ⟨1, 0⟩, some [97]⟩ }

def emptyShare : ShareNow := ⟨false, fun _ _ => none, fun _ => none, fun _ => true⟩

def unlinked : Rec := .removed ⟨1, 0⟩ (.letter 'a')

def backlog (n : Nat) : JournalEngine := { start ⟨0⟩ 7 with chan := List.replicate n unlinked }

theorem event_backlog (n : Nat) :
    (backlog n).step (.event unlinkEvent emptyShare) = some { backlog n with todo := [unlinked] } := by
  rfl

theorem backlog_reached : ∀ n ≤ channelDepth,
    Reaches JournalEngine.step (fun _ _ => True) (start ⟨0⟩ 7) (backlog n)
  | 0, _ => .refl
  | n + 1, hn => by
    have hroom : (replicate n unlinked).length < channelDepth := by simp; omega
    have hsend : step { backlog n with todo := [unlinked] } .send = some (backlog (n + 1)) := by
      simp only [step, backlog, hroom, if_true, replicate_succ']
      rfl
    exact ((backlog_reached n (by omega)).tail trivial (event_backlog n)).tail trivial hsend

theorem drain_reached (chan : List Rec) (s : JournalEngine) (hchan : s.chan = chan)
    (hbatch : s.batch = []) : ∃ s', Reaches JournalEngine.step (fun _ _ => True) s s' ∧
      s'.inFlight = [] ∧ s'.todo = s.todo ∧ s'.notice = s.notice ∧ s'.losses = s.losses ∧
      s'.stream.flatMap JournalBatch.records = s.stream.flatMap JournalBatch.records ++ chan := by
  induction chan generalizing s with
  | nil => exact ⟨s, .refl, by simp [inFlight, hchan, hbatch], rfl, rfl, rfl, by simp⟩
  | cons rec chan ih =>
    have hrecv : s.step .recv = some { s with chan, batch := [rec], bytes := 64 } := by
      simp [step, hchan, hbatch]
    obtain ⟨s', hreach, hempty, htodo, hnotice, hlosses, hrecords⟩ := ih
      { s with
        chan, batch := [], bytes := 64, seq := s.seq + 1
        stream := s.stream ++ [⟨s.share, s.seq, [rec]⟩] } rfl rfl
    refine ⟨s', .head trivial hrecv (.head (a := .flush) trivial rfl hreach), hempty, htodo, hnotice,
      hlosses, ?_⟩
    simp [hrecords]

/-- The channel is full: a record is refused, and so is the notice.  The stream has no gap and no
`Overflow`. -/
theorem loss_untold_when_full : ∃ s,
    Runs.Reaches JournalEngine.step (fun _ _ => True) (start ⟨0⟩ 7) s ∧ s.Drained ∧
      s.losses = [0] ∧ ¬ s.Signalled := by
  have hfull : ¬ (replicate channelDepth unlinked).length < channelDepth := by simp
  have hsend : step { backlog channelDepth with todo := [unlinked] } .send =
      some { backlog channelDepth with notice := true, losses := [0] } := by
    simp only [step, backlog, hfull, if_false]
    rfl
  have hnotify : step { backlog channelDepth with notice := true, losses := [0] } .notify =
      some { backlog channelDepth with losses := [0] } := by
    simp only [step, backlog, hfull, if_false, if_true]
    rfl
  have hlost : Runs.Reaches JournalEngine.step (fun _ _ => True) (start ⟨0⟩ 7)
      { backlog channelDepth with losses := [0] } :=
    (((backlog_reached channelDepth le_rfl).tail trivial (event_backlog _)).tail trivial hsend).tail
      (a := .notify) trivial hnotify
  obtain ⟨s, hreach, hempty, htodo, hnotice, hlosses, hrecords⟩ :=
    drain_reached _ { backlog channelDepth with losses := [0] } rfl rfl
  have hall := hlost.trans hreach
  refine ⟨s, hall, ⟨⟨htodo, hnotice⟩, hempty⟩, hlosses, fun hsig => ?_⟩
  rcases hsig 0 (by simp [hlosses]) with ⟨b, hb, hover⟩ | hgap
  · have hmem : Rec.overflow ∈ s.stream.flatMap JournalBatch.records :=
      mem_flatMap.mpr ⟨b, by simpa using hb, hover⟩
    rw [hrecords] at hmem
    have : Rec.overflow ∈ replicate channelDepth unlinked := by simpa [backlog, start] using hmem
    exact absurd (eq_of_mem_replicate this) (by decide)
  · exact hgap (stream_gapless hall 0)

end JournalEngine

end Mist
