import Mist.Hostd.Contiguity

/-! The handlers of one share on different lane readers.  Each access to a shared cell is a step, and
the steps of several handlers interleave. -/

namespace Mist

open List Option Runs

/-- Where `on_journal` is with a batch.  A replica is known by the number of swaps before it. -/
inductive JournalPhase where
  | arrived
  | unstaged
  | captured (epoch : Nat) (state : ShareState)
  | live (epoch : Nat)
  | sequenced (epoch : Nat)
  | applied (needResync : Bool)
  | done
  deriving DecidableEq

structure JournalCall where
  batch : JournalBatch
  phase : JournalPhase
  deriving DecidableEq

/-- Where `begin` is, and the request that follows it: it clears the sequence, stages a new replica
and sends `SnapshotStart`. -/
inductive BeginPhase where
  | called | cleared | staged | sent
  deriving DecidableEq

structure BeginCall where
  snapId : UInt64
  phase : BeginPhase

/-- Where `finish_seed` is: it has taken the staging, replayed the buffer, swapped the replica and
set the sequence. -/
inductive SeedPhase where
  | taken | replayed | swapped | done
  deriving DecidableEq

/-- A call of `finish_seed`; the buffer has the batches by their arrival. -/
structure SeedCall where
  done : SnapDone
  replica : ShareReplica
  journalBuf : List Nat
  phase : SeedPhase

structure Staged where
  snapId : UInt64
  replica : ShareReplica
  journalBuf : List Nat

/-- The cells of one share and the calls under way.  `applied` are the arrivals that the replica of
the share has, and the first `requested` arrivals came before the last `SnapshotStart`. -/
structure Pipeline where
  info : ShareInfo
  staging : Option Staged
  seq : Option UInt64
  replica : ShareReplica
  epoch : Nat
  arrivals : List JournalCall
  begins : List BeginCall
  seeds : List SeedCall
  applied : List Nat
  requested : Nat

namespace Pipeline

/-- `begin k`, `seed k` and `journal i` are the next step of that call; `dirty` are the nodes that the
Mac has written lately. -/
inductive Action where
  | callBegin (snapId : UInt64)
  | begin (k : Nat)
  | snapDir (d : SnapDir)
  | snapDone (done : SnapDone)
  | seed (k : Nat)
  | arrive (b : JournalBatch)
  | journal (i : Nat) (dirty : List NodeKey) (snapId : UInt64)

def start (info : ShareInfo) (replica : ShareReplica) : Pipeline where
  info := info
  staging := none
  seq := none
  replica := replica
  epoch := 0
  arrivals := []
  begins := []
  seeds := []
  applied := []
  requested := 0

def callBegin (s : Pipeline) (snapId : UInt64) : Pipeline :=
  { s with begins := s.begins ++ [⟨snapId, .called⟩] }

def stepBegin (s : Pipeline) (k : Nat) (call : BeginCall) : Option Pipeline :=
  match call.phase with
  | .called => some { s with seq := none, begins := s.begins.set k { call with phase := .cleared } }
  | .cleared =>
    some { s with
      staging := some ⟨call.snapId, .new s.info, []⟩
      begins := s.begins.set k { call with phase := .staged } }
  | .staged =>
    some { s with
      requested := s.arrivals.length
      begins := s.begins.set k { call with phase := .sent } }
  | .sent => none

def onSnapDir (s : Pipeline) (d : SnapDir) : Pipeline :=
  match s.staging with
  | some st =>
    if st.snapId = d.snapId then
      match st.replica.applySnapDir d with
      | some replica => { s with staging := some { st with replica } }
      | none => s
    else s
  | none => s

/-- The first step of `finish_seed`, under the lock of the staging. -/
def takeStaging (s : Pipeline) (done : SnapDone) : Pipeline :=
  match s.staging with
  | some st =>
    if st.snapId = done.snapId then
      { s with
        staging := none
        seeds := s.seeds ++ [⟨done, st.replica, st.journalBuf, .taken⟩] }
    else s
  | none => s

def batches (s : Pipeline) (buf : List Nat) : List JournalBatch :=
  buf.filterMap fun i => s.arrivals[i]?.map JournalCall.batch

def stepSeed (s : Pipeline) (k : Nat) (call : SeedCall) : Option Pipeline :=
  match call.phase with
  | .taken =>
    let r := (call.replica.finishSnapshot call.done).1.replayBuffer (s.batches call.journalBuf)
    let call := { call with replica := { r with state := .live }, phase := .replayed }
    some { s with seeds := s.seeds.set k call }
  | .replayed =>
    some { s with
      replica := call.replica
      epoch := s.epoch + 1
      applied := call.journalBuf
      seeds := s.seeds.set k { call with phase := .swapped } }
  | .swapped =>
    some { s with
      seq := some (nextSeq (s.batches call.journalBuf))
      seeds := s.seeds.set k { call with phase := .done } }
  | .done => none

def advance (s : Pipeline) (i : Nat) (call : JournalCall) (phase : JournalPhase) : Pipeline :=
  { s with arrivals := s.arrivals.set i { call with phase } }

/-- Records that are applied to a replica that has been swapped out are seen by nobody; whether they
ask for a resync does not depend on the replica. -/
def applyRecords (s : Pipeline) (i epoch : Nat) (call : JournalCall) (dirty : List NodeKey) :
    Pipeline :=
  let res := s.replica.onRecs dirty.contains call.batch.records
  let s' := s.advance i call (.applied res.2)
  if epoch = s.epoch then { s' with replica := res.1, applied := s.applied ++ [i] } else s'

def stepJournal (s : Pipeline) (i : Nat) (call : JournalCall) (dirty : List NodeKey)
    (snapId : UInt64) : Option Pipeline :=
  match call.phase with
  | .arrived =>
    match s.staging with
    | some st =>
      some { s.advance i call .done with
        staging := some { st with journalBuf := st.journalBuf ++ [i] } }
    | none => some (s.advance i call .unstaged)
  | .unstaged => some (s.advance i call (.captured s.epoch s.replica.state))
  | .captured epoch state =>
    some (s.advance i call (if state = .live then .live epoch else .done))
  | .live epoch =>
    match s.seq with
    | none => some (s.advance i call .done)
    | some expected =>
      if expected ≠ seqAdopt ∧ call.batch.firstSeq ≠ expected then
        some ((s.advance i call .done).callBegin snapId)
      else some { s.advance i call (.sequenced epoch) with seq := some call.batch.fin }
  | .sequenced epoch => some (s.applyRecords i epoch call dirty)
  | .applied needResync =>
    some (if needResync then (s.advance i call .done).callBegin snapId else s.advance i call .done)
  | .done => none

/-- One step.  Batches count from the first call of `begin` on; before it they change nothing. -/
def step (s : Pipeline) : Action → Option Pipeline
  | .callBegin snapId => some (s.callBegin snapId)
  | .begin k => s.begins[k]?.bind (s.stepBegin k)
  | .snapDir d => some (s.onSnapDir d)
  | .snapDone done => some (s.takeStaging done)
  | .seed k => s.seeds[k]?.bind (s.stepSeed k)
  | .arrive b =>
    if b.share = s.info.id ∧ s.begins ≠ [] then
      some { s with arrivals := s.arrivals ++ [⟨b, .arrived⟩] }
    else none
  | .journal i dirty snapId =>
    s.arrivals[i]?.bind fun call => s.stepJournal i call dirty snapId

def passes (s : Pipeline) : Action → Bool
  | .journal i _ _ =>
    s.staging.isNone && s.arrivals[i]?.any fun call => call.phase = .arrived
  | .snapDone done => s.staging.any fun st => st.snapId = done.snapId
  | _ => false

def Exclusive (s : Pipeline) (a : Action) : Prop :=
  s.passes a → ∀ call ∈ s.seeds, call.phase = .done
  deriving Decidable

def Asking (s : Pipeline) : Prop := ∃ call ∈ s.begins, call.phase ≠ .sent

def Seeding (s : Pipeline) : Prop := ∃ call ∈ s.seeds, call.phase ≠ .done

/-- An arrival came before the last `SnapshotStart`, or the replica of the share has it, or it is
buffered for a replica to come. -/
def Kept (s : Pipeline) (i : Nat) : Prop :=
  i < s.requested ∨ i ∈ s.applied ∨ (∃ st, s.staging = some st ∧ i ∈ st.journalBuf) ∨
    ∃ call ∈ s.seeds, call.phase ≠ .done ∧ i ∈ call.journalBuf

/-- Every batch that `on_journal` has returned from is kept, or a snapshot is being asked for. -/
def NoneLost (s : Pipeline) : Prop :=
  ∀ i call, s.arrivals[i]? = some call → call.phase = .done → s.Kept i ∨ s.Asking

/-- How the cells hang together.  The numbers in them are arrivals. -/
structure Wired (s : Pipeline) : Prop where
  begun : s.arrivals ≠ [] → s.begins ≠ []
  baseline : s.begins = [] ∨ (∃ call ∈ s.begins, call.phase = .called ∨ call.phase = .cleared) ∨
    s.staging ≠ none ∨ s.Seeding ∨ s.seq ≠ none ∧ s.replica.state = .live
  replayed : ∀ call ∈ s.seeds, call.phase = .replayed → call.replica.state = .live
  swapped : ∀ call ∈ s.seeds, call.phase = .swapped →
    s.replica.state = .live ∧ ∀ i ∈ call.journalBuf, i ∈ s.applied
  single : ∀ (j k : Nat) (call call' : SeedCall), s.seeds[j]? = some call → s.seeds[k]? = some call' →
    call.phase ≠ .done → call'.phase ≠ .done → j = k
  applied : ∀ i ∈ s.applied, i < s.arrivals.length
  buffered : ∀ st, s.staging = some st → ∀ i ∈ st.journalBuf, i < s.arrivals.length
  replaying : ∀ call ∈ s.seeds, ∀ i ∈ call.journalBuf, i < s.arrivals.length

section

variable {s s' : Pipeline} {a : Action} {i k : Nat}

theorem start_wired (info : ShareInfo) (replica : ShareReplica) : (start info replica).Wired where
  begun h := absurd rfl h
  baseline := .inl rfl
  replayed call h := by cases h
  swapped call h := by cases h
  single j k call call' h := by simp [start] at h
  applied i h := by cases h
  buffered st h := by cases h
  replaying call h := by cases h

section

variable (h : s.Wired)
include h

theorem Wired.grow (hseeds : s'.seeds = s.seeds)
    (hbegins : s'.begins = s.begins ∨ ∃ call ∈ s'.begins, call.phase = .called)
    (hbegun : s'.arrivals ≠ [] → s'.begins ≠ []) (hstaging : s.staging ≠ none → s'.staging ≠ none)
    (hseq : s.seq ≠ none → s'.seq ≠ none) (hstate : s'.replica.state = s.replica.state)
    (hlen : s.arrivals.length ≤ s'.arrivals.length) (hsub : ∀ i ∈ s.applied, i ∈ s'.applied)
    (happlied : ∀ i ∈ s'.applied, i < s'.arrivals.length)
    (hbuffered : ∀ st, s'.staging = some st → ∀ i ∈ st.journalBuf, i < s'.arrivals.length) :
    s'.Wired where
  begun := hbegun
  baseline := by
    rcases hbegins with heq | ⟨call, hmem, hcalled⟩
    · rw [heq, Seeding, hseeds, hstate]
      rcases h.baseline with h | h | h | h | h
      · exact .inl h
      · exact .inr (.inl h)
      · exact .inr (.inr (.inl (hstaging h)))
      · exact .inr (.inr (.inr (.inl h)))
      · exact .inr (.inr (.inr (.inr ⟨hseq h.1, h.2⟩)))
    · exact .inr (.inl ⟨call, hmem, .inl hcalled⟩)
  replayed := hseeds ▸ h.replayed
  swapped call hmem hphase := by
    obtain ⟨hlive, hbuf⟩ := h.swapped call (hseeds ▸ hmem) hphase
    exact ⟨hstate.trans hlive, fun i hi => hsub i (hbuf i hi)⟩
  single := hseeds ▸ h.single
  applied := happlied
  buffered := hbuffered
  replaying call hmem i hi := (h.replaying call (hseeds ▸ hmem) i hi).trans_le hlen

theorem Wired.callBegin (snapId : UInt64) : (s.callBegin snapId).Wired :=
  h.grow rfl (.inr ⟨_, mem_append_right _ (mem_singleton_self _), rfl⟩)
    (fun _ => by simp [Pipeline.callBegin]) id id rfl le_rfl (fun _ => id) h.applied h.buffered

theorem Wired.stepBegin {call : BeginCall} (hk : s.begins[k]? = some call)
    (hs' : s.stepBegin k call = some s') : s'.Wired := by
  have hne : ∀ call', s.begins.set k call' ≠ [] := fun call' hnil => by
    rw [set_eq_nil_iff] at hnil
    rw [hnil] at hk
    cases hk
  have hmem : ∀ call', call' ∈ s.begins.set k call' := fun call' =>
    mem_set (lt_length hk) call'
  unfold Pipeline.stepBegin at hs'
  split at hs' <;> cases hs'
  · exact { h with
      begun := fun _ => hne _
      baseline := .inr (.inl ⟨_, hmem _, .inr rfl⟩) }
  · exact { h with
      begun := fun _ => hne _
      baseline := .inr (.inr (.inl (by simp)))
      buffered := fun st hst i hi => by
        cases hst
        cases hi }
  · rename_i hphase
    refine { h with begun := fun _ => hne _, baseline := ?_ }
    rcases h.baseline with hnil | ⟨call', hmem', hearly⟩ | hrest
    · rw [hnil] at hk
      cases hk
    · -- the call that sends is not one of those
      rcases mem_set_of_mem hk hmem' with rfl | hkept
      · simp [hphase] at hearly
      · exact .inr (.inl ⟨call', hkept, hearly⟩)
    · exact .inr (.inr hrest)

theorem Wired.onSnapDir (d : SnapDir) : (s.onSnapDir d).Wired := by
  unfold Pipeline.onSnapDir
  split
  · rename_i st hst
    split
    · split
      · refine h.grow rfl (.inl rfl) h.begun (fun _ => by simp) id rfl le_rfl (fun _ => id) h.applied ?_
        intro st' hst' i hi
        cases hst'
        exact h.buffered st hst i hi
      · exact h
    · exact h
  · exact h

theorem Wired.takeStaging {done : SnapDone} (hok : s.Exclusive (.snapDone done)) :
    (s.takeStaging done).Wired := by
  unfold Pipeline.takeStaging
  split
  · rename_i st hst
    split
    · rename_i hid
      have hidle : ∀ call ∈ s.seeds, call.phase = .done := hok (by simp [passes, hst, hid])
      have hmem : ∀ call ∈ s.seeds ++ [⟨done, st.replica, st.journalBuf, .taken⟩],
          call ∈ s.seeds ∨ call = ⟨done, st.replica, st.journalBuf, .taken⟩ :=
        fun _ => mem_append_cases
      refine ⟨h.begun, .inr (.inr (.inr (.inl ⟨_, mem_append_right _ (mem_singleton_self _),
        SeedPhase.noConfusion⟩))), ?_, ?_, ?_, h.applied, nofun, ?_⟩
      · intro call hcall hphase
        rcases hmem call hcall with hold | rfl
        · exact h.replayed call hold hphase
        · cases hphase
      · intro call hcall hphase
        rcases hmem call hcall with hold | rfl
        · exact h.swapped call hold hphase
        · cases hphase
      · intro j k call call' hj hk hcall hcall'
        rcases getElem?_append_cases hj with hj | ⟨rfl, -⟩
        · exact absurd (hidle call (mem_of_getElem? hj)) hcall
        · rcases getElem?_append_cases hk with hk | ⟨rfl, -⟩
          · exact absurd (hidle call' (mem_of_getElem? hk)) hcall'
          · rfl
      · intro call hcall
        rcases hmem call hcall with hold | rfl
        · exact h.replaying call hold
        · exact h.buffered st hst
    · exact h
  · exact h

theorem Wired.single_set {call call' : SeedCall} (hk : s.seeds[k]? = some call)
    (hphase : call.phase ≠ .done) (i j : Nat) (c c' : SeedCall)
    (hi : (s.seeds.set k call')[i]? = some c) (hj : (s.seeds.set k call')[j]? = some c')
    (hc : c.phase ≠ .done) (hc' : c'.phase ≠ .done) : i = j := by
  have honly : ∀ i c, (s.seeds.set k call')[i]? = some c → c.phase ≠ .done → k = i := by
    intro i c hi hc
    rcases getElem?_set_cases hi with ⟨rfl, -⟩ | ⟨-, hi⟩
    · rfl
    · exact h.single k i call c hk hi hphase hc
  exact (honly i c hi hc).symm.trans (honly j c' hj hc')

theorem Wired.stepSeed {call : SeedCall} (hk : s.seeds[k]? = some call)
    (hs' : s.stepSeed k call = some s') : s'.Wired := by
  have hcall : call ∈ s.seeds := mem_of_getElem? hk
  have hnew : ∀ call', call' ∈ s.seeds.set k call' := fun call' =>
    mem_set (lt_length hk) call'
  have hbuf : ∀ {call' : SeedCall}, call'.journalBuf = call.journalBuf →
      ∀ c ∈ s.seeds.set k call', ∀ i ∈ c.journalBuf, i < s.arrivals.length := fun hsame =>
    forall_set h.replaying (hsame ▸ h.replaying call hcall)
  unfold Pipeline.stepSeed at hs'
  split at hs' <;> cases hs' <;> rename_i hphase
  · exact ⟨h.begun, .inr (.inr (.inr (.inl ⟨_, hnew _, SeedPhase.noConfusion⟩))),
      forall_set h.replayed fun _ => rfl, forall_set h.swapped nofun,
      h.single_set hk (by simp [hphase]), h.applied, h.buffered, hbuf rfl⟩
  · refine ⟨h.begun, .inr (.inr (.inr (.inl ⟨_, hnew _, SeedPhase.noConfusion⟩))),
      forall_set h.replayed nofun, fun c hc hswapped => ?_,
      h.single_set hk (by simp [hphase]), h.replaying call hcall, h.buffered, hbuf rfl⟩
    -- the call that swaps is the only one
    obtain ⟨j, hj⟩ := mem_iff_getElem?.mp hc
    rcases getElem?_set_cases hj with ⟨-, rfl⟩ | ⟨hne, hj⟩
    · exact ⟨h.replayed call hcall hphase, fun _ => id⟩
    · exact absurd (h.single k j call c hk hj (by simp [hphase]) (by simp [hswapped])) hne
  · obtain ⟨hlive, -⟩ := h.swapped call hcall hphase
    exact ⟨h.begun, .inr (.inr (.inr (.inr ⟨by simp, hlive⟩))), forall_set h.replayed nofun,
      forall_set h.swapped nofun, h.single_set hk (by simp [hphase]), h.applied, h.buffered, hbuf rfl⟩

end

structure Hands (s s' : Pipeline) (i : Nat) (call : JournalCall) : Prop where
  seeds : s'.seeds = s.seeds
  state : s'.replica.state = s.replica.state
  begins : s'.begins = s.begins ∨ ∃ snapId, s'.begins = s.begins ++ [⟨snapId, .called⟩]
  arrivals : ∃ phase, s'.arrivals = s.arrivals.set i { call with phase }
  staging : s'.staging = s.staging ∨ ∃ st, s.staging = some st ∧
    s'.staging = some { st with journalBuf := st.journalBuf ++ [i] }
  applied : s'.applied = s.applied ∨ s'.applied = s.applied ++ [i]
  seq : s.seq ≠ none → s'.seq ≠ none

theorem advance_hands (s : Pipeline) (i : Nat) (call : JournalCall) (phase : JournalPhase) :
    Hands s (s.advance i call phase) i call :=
  ⟨rfl, rfl, .inl rfl, ⟨phase, rfl⟩, .inl rfl, .inl rfl, id⟩

theorem callBegin_hands (s : Pipeline) (i : Nat) (call : JournalCall) (phase : JournalPhase)
    (snapId : UInt64) : Hands s ((s.advance i call phase).callBegin snapId) i call :=
  ⟨rfl, rfl, .inr ⟨snapId, rfl⟩, ⟨phase, rfl⟩, .inl rfl, .inl rfl, id⟩

theorem applyRecords_hands (s : Pipeline) (i epoch : Nat) (call : JournalCall)
    (dirty : List NodeKey) : Hands s (s.applyRecords i epoch call dirty) i call := by
  unfold applyRecords
  split
  · exact ⟨rfl, ShareReplica.onRecs_state .., .inl rfl, ⟨_, rfl⟩, .inl rfl, .inr rfl, id⟩
  · exact advance_hands ..

theorem stepJournal_hands {call : JournalCall} {dirty : List NodeKey} {snapId : UInt64}
    (hs' : s.stepJournal i call dirty snapId = some s') : Hands s s' i call := by
  unfold stepJournal at hs'
  split at hs'
  · split at hs' <;> cases hs'
    · rename_i st hst
      exact ⟨rfl, rfl, .inl rfl, ⟨_, rfl⟩, .inr ⟨st, hst, rfl⟩, .inl rfl, id⟩
    · exact advance_hands ..
  · cases hs'
    exact advance_hands ..
  · cases hs'
    exact advance_hands ..
  · split at hs'
    · cases hs'
      exact advance_hands ..
    · split at hs' <;> cases hs'
      · exact callBegin_hands ..
      · exact ⟨rfl, rfl, .inl rfl, ⟨_, rfl⟩, .inl rfl, .inl rfl, fun _ => by simp⟩
  · cases hs'
    exact applyRecords_hands ..
  · cases hs'
    split
    · exact callBegin_hands ..
    · exact advance_hands ..
  · cases hs'

theorem Wired.stepJournal {call : JournalCall} {dirty : List NodeKey} {snapId : UInt64}
    (h : s.Wired) (hi : s.arrivals[i]? = some call)
    (hs' : s.stepJournal i call dirty snapId = some s') : s'.Wired := by
  have hh := stepJournal_hands hs'
  have hlt : i < s.arrivals.length := lt_length hi
  obtain ⟨phase, harrivals⟩ := hh.arrivals
  have hlen : s'.arrivals.length = s.arrivals.length := by rw [harrivals, length_set]
  have hbegun : s.begins ≠ [] := h.begun (ne_nil_of_length_pos (by omega))
  refine h.grow hh.seeds ?_ ?_ ?_ hh.seq hh.state hlen.ge ?_ ?_ ?_
  · rcases hh.begins with heq | ⟨snapId, heq⟩
    · exact .inl heq
    · exact .inr ⟨⟨snapId, .called⟩, by simp [heq], rfl⟩
  · rcases hh.begins with heq | ⟨snapId, heq⟩ <;> simp [heq, hbegun]
  · intro hne
    rcases hh.staging with heq | ⟨st, -, heq⟩ <;> simp [heq, hne]
  · intro j hj
    rcases hh.applied with heq | heq <;> simp [heq, hj]
  · intro j hj
    rw [hlen]
    rcases hh.applied with heq | heq <;> rw [heq] at hj
    · exact h.applied j hj
    · exact forall_concat h.applied hlt j hj
  · intro st hst j hj
    rw [hlen]
    rcases hh.staging with heq | ⟨st₀, hst₀, heq⟩ <;> rw [heq] at hst
    · exact h.buffered st hst j hj
    cases hst
    exact forall_concat (h.buffered st₀ hst₀) hlt j hj

theorem Wired.step (h : s.Wired) (hok : s.Exclusive a) (hs' : s.step a = some s') : s'.Wired := by
  cases a with
  | callBegin snapId =>
    cases hs'
    exact h.callBegin snapId
  | begin k =>
    obtain ⟨call, hk, hs'⟩ := bind_eq_some_iff.mp hs'
    exact h.stepBegin hk hs'
  | snapDir d =>
    cases hs'
    exact h.onSnapDir d
  | snapDone done =>
    cases hs'
    exact h.takeStaging hok
  | seed k =>
    obtain ⟨call, hk, hs'⟩ := bind_eq_some_iff.mp hs'
    exact h.stepSeed hk hs'
  | arrive b =>
    simp only [Pipeline.step] at hs'
    split at hs' <;> cases hs'
    rename_i hb
    have hlen : s.arrivals.length ≤ (s.arrivals ++ [JournalCall.mk b .arrived]).length := by
      simp
    exact h.grow rfl (.inl rfl) (fun _ => hb.2) id id rfl hlen (fun _ => id)
      (fun i hi => (h.applied i hi).trans_le hlen)
      fun st hst i hi => (h.buffered st hst i hi).trans_le hlen
  | journal i dirty snapId =>
    obtain ⟨call, hi, hs'⟩ := bind_eq_some_iff.mp hs'
    exact h.stepJournal hi hs'

end

def Idle (s : Pipeline) : Prop := s.staging = none ∧ ¬ s.Seeding

/-- Past the staging, a batch meets the replica that it is going to be applied to, or it came before
the last `SnapshotStart`. -/
def Placed (s : Pipeline) (i : Nat) : JournalPhase → Prop
  | .arrived => True
  | .unstaged => s.Idle ∨ i < s.requested
  | .captured epoch state =>
    (s.Idle ∧ epoch = s.epoch ∧ state = s.replica.state) ∨ i < s.requested
  | .live epoch => (s.Idle ∧ epoch = s.epoch) ∨ i < s.requested
  | .sequenced epoch => (s.Idle ∧ epoch = s.epoch) ∨ i < s.requested
  | .applied _ => s.Kept i
  | .done => s.Kept i

/-- What a replica to come does not get, came before the last `SnapshotStart`. -/
structure Handed (s : Pipeline) : Prop where
  placed : ∀ (i : Nat) (call : JournalCall), s.arrivals[i]? = some call → s.Placed i call.phase
  old : (s.staging ≠ none ∨ ∃ call ∈ s.seeds, call.phase = .taken ∨ call.phase = .replayed) →
    ∀ i ∈ s.applied, i < s.requested
  replaying : s.staging ≠ none → ∀ call ∈ s.seeds, call.phase ≠ .done →
    ∀ i ∈ call.journalBuf, i < s.requested

section

variable {s s' : Pipeline} {a : Action} {i k : Nat}

theorem Placed.of_lt (h : i < s.requested) (phase : JournalPhase) : s.Placed i phase := by
  cases phase with
  | arrived => trivial
  | unstaged => exact .inr h
  | captured epoch state => exact .inr h
  | live epoch => exact .inr h
  | sequenced epoch => exact .inr h
  | applied needResync => exact .inl h
  | done => exact .inl h

theorem Placed.mono {phase : JournalPhase} (h : s.Placed i phase)
    (hidle : s.Idle → s'.Idle ∧ s'.epoch = s.epoch ∧ s'.replica.state = s.replica.state)
    (hreq : s'.requested = s.requested) (hkept : s.Kept i → s'.Kept i) : s'.Placed i phase := by
  cases phase with
  | arrived => trivial
  | unstaged => exact h.imp (fun h => (hidle h).1) fun h => hreq ▸ h
  | captured epoch state =>
    refine h.imp (fun ⟨h, he, hst⟩ => ?_) fun h => hreq ▸ h
    obtain ⟨hidle, hepoch, hstate⟩ := hidle h
    exact ⟨hidle, he.trans hepoch.symm, hst.trans hstate.symm⟩
  | live epoch =>
    exact h.imp (fun ⟨h, he⟩ => ⟨(hidle h).1, he.trans (hidle h).2.1.symm⟩) fun h => hreq ▸ h
  | sequenced epoch =>
    exact h.imp (fun ⟨h, he⟩ => ⟨(hidle h).1, he.trans (hidle h).2.1.symm⟩) fun h => hreq ▸ h
  | applied needResync => exact hkept h
  | done => exact hkept h

theorem start_handed (info : ShareInfo) (replica : ShareReplica) :
    (start info replica).Handed where
  placed i call h := by simp [start] at h
  old _ i h := by cases h
  replaying _ call h := by cases h

theorem Wired.handed (h : s.Wired) (hreq : s.requested = s.arrivals.length) : s.Handed where
  placed _ _ hi := .of_lt (hreq ▸ (lt_length hi)) _
  old _ i hi := hreq ▸ h.applied i hi
  replaying _ call hcall _ i hi := hreq ▸ h.replaying call hcall i hi

theorem Handed.onSnapDir (h : s.Handed) (d : SnapDir) : (s.onSnapDir d).Handed := by
  unfold Pipeline.onSnapDir
  split
  · rename_i st hst
    split
    · split
      · rename_i replica _
        have hkept : ∀ i, s.Kept i → Kept { s with staging := some { st with replica } } i := by
          intro i hi
          refine hi.imp_right (.imp_right (.imp_left ?_))
          rintro ⟨st', hst', hi⟩
          obtain rfl := mem_unique hst hst'
          exact ⟨_, rfl, hi⟩
        refine ⟨fun i call hi => ?_, fun _ => h.old (.inl (by simp [hst])),
          fun _ => h.replaying (by simp [hst])⟩
        refine (h.placed i call hi).mono (fun hidle => ?_) rfl (hkept i)
        rw [hidle.1] at hst
        cases hst
      · exact h
    · exact h
  · exact h

theorem Handed.takeStaging (h : s.Handed) (done : SnapDone) : (s.takeStaging done).Handed := by
  unfold Pipeline.takeStaging
  split
  · rename_i st hst
    split
    · refine ⟨fun i call hi => ?_, fun _ => h.old (.inl (by simp [hst])), fun hne => absurd rfl hne⟩
      refine (h.placed i call hi).mono (fun hidle => ?_) rfl fun hkept => ?_
      · rw [hidle.1] at hst
        cases hst
      refine hkept.imp_right (.imp_right fun hrest => .inr ?_)
      rcases hrest with ⟨st', hst', hi⟩ | ⟨call, hcall, hrest⟩
      · obtain rfl := mem_unique hst hst'
        exact ⟨_, mem_append_right _ (mem_singleton_self _), SeedPhase.noConfusion, hi⟩
      · exact ⟨call, mem_append_left _ hcall, hrest⟩
    · exact h
  · exact h

theorem Handed.arrive (h : s.Handed) (b : JournalBatch) :
    Handed { s with arrivals := s.arrivals ++ [⟨b, .arrived⟩] } := by
  refine ⟨fun i call hi => ?_, h.old, h.replaying⟩
  rcases getElem?_append_cases hi with hi | ⟨-, rfl⟩
  · exact (h.placed i call hi).mono (fun hidle => ⟨hidle, rfl, rfl⟩) rfl id
  · trivial

theorem Handed.stepSeed {call : SeedCall} (h : s.Handed) (hw : s.Wired)
    (hk : s.seeds[k]? = some call) (hs' : s.stepSeed k call = some s') : s'.Handed := by
  have hcall : call ∈ s.seeds := mem_of_getElem? hk
  have hnew : ∀ call', call' ∈ s.seeds.set k call' := fun call' =>
    mem_set (lt_length hk) call'
  have hbusy : call.phase ≠ .done → ¬ s.Idle := fun hphase hidle => hidle.2 ⟨call, hcall, hphase⟩
  unfold Pipeline.stepSeed at hs'
  split at hs' <;> cases hs' <;> rename_i hphase
  · -- the buffer is replayed, on a replica that nobody else has
    refine ⟨fun i c hi => ?_, fun _ => h.old (.inr ⟨call, hcall, .inl hphase⟩), fun hne =>
      forall_set (h.replaying hne) fun _ => h.replaying hne call hcall (by simp [hphase])⟩
    refine (h.placed i c hi).mono (fun hidle => absurd hidle (hbusy (by simp [hphase]))) rfl ?_
    refine .imp_right (.imp_right (.imp_right ?_))
    rintro ⟨c, hc, hopen, hbuf⟩
    rcases mem_set_of_mem hk hc with rfl | hc
    · exact ⟨_, hnew _, SeedPhase.noConfusion, hbuf⟩
    · exact ⟨c, hc, hopen, hbuf⟩
  · -- the swap: what the replica before it has came before the `SnapshotStart`
    have hbefore := h.old (.inr ⟨call, hcall, .inr hphase⟩)
    refine ⟨fun i c hi => ?_, fun hnext i hi => ?_, fun hne =>
      forall_set (h.replaying hne) fun _ => h.replaying hne call hcall (by simp [hphase])⟩
    · refine (h.placed i c hi).mono (fun hidle => absurd hidle (hbusy (by simp [hphase]))) rfl ?_
      rintro (hreq | happlied | hstaged | ⟨c, hc, hopen, hbuf⟩)
      · exact .inl hreq
      · exact .inl (hbefore i happlied)
      · exact .inr (.inr (.inl hstaged))
      · rcases mem_set_of_mem hk hc with rfl | hc
        · exact .inr (.inl hbuf)
        · exact .inr (.inr (.inr ⟨c, hc, hopen, hbuf⟩))
    · rcases hnext with hne | ⟨c, hc, hearly⟩
      · exact h.replaying hne call hcall (by simp [hphase]) i hi
      · obtain ⟨j, hj⟩ := mem_iff_getElem?.mp hc
        rcases getElem?_set_cases hj with ⟨-, rfl⟩ | ⟨hkj, hj⟩
        · simp at hearly
        · refine absurd (hw.single k j call c hk hj (by simp [hphase]) ?_) hkj
          rcases hearly with h | h <;> simp [h]
  · obtain ⟨-, hreplayed⟩ := hw.swapped call hcall hphase
    refine ⟨fun i c hi => ?_, fun hnext => h.old ?_, fun hne =>
      forall_set (h.replaying hne) fun hopen => absurd rfl hopen⟩
    · refine (h.placed i c hi).mono (fun hidle => absurd hidle (hbusy (by simp [hphase]))) rfl ?_
      rintro (hreq | happlied | hstaged | ⟨c, hc, hopen, hbuf⟩)
      · exact .inl hreq
      · exact .inr (.inl happlied)
      · exact .inr (.inr (.inl hstaged))
      · rcases mem_set_of_mem hk hc with rfl | hc
        · exact .inr (.inl (hreplayed i hbuf))
        · exact .inr (.inr (.inr ⟨c, hc, hopen, hbuf⟩))
    · rcases hnext with hne | ⟨c, hc, hearly⟩
      · exact .inl hne
      · rcases mem_or_eq_of_mem_set hc with hc | rfl
        · exact .inr ⟨c, hc, hearly⟩
        · simp at hearly

variable {call : JournalCall}

theorem Handed.advance {phase : JournalPhase} (h : s.Handed)
    (hi : s.Placed i phase) : (s.advance i call phase).Handed := by
  refine ⟨fun j c hj => ?_, h.old, h.replaying⟩
  have hsame : ∀ phase, s.Placed j phase → (s.advance i call c.phase).Placed j phase :=
    fun phase hp => hp.mono (fun hidle => ⟨hidle, rfl, rfl⟩) rfl id
  rcases getElem?_set_cases hj with ⟨rfl, rfl⟩ | ⟨-, hj⟩
  · exact hsame phase hi
  · exact hsame c.phase (h.placed j c hj)

theorem Wired.live (h : s.Wired) (hne : s.arrivals ≠ []) (hask : ¬ s.Asking) (hidle : s.Idle) :
    s.seq ≠ none ∧ s.replica.state = .live := by
  rcases h.baseline with hnil | ⟨call, hmem, hearly⟩ | hst | hseeding | hlive
  · exact absurd hnil (h.begun hne)
  · refine absurd ⟨call, hmem, ?_⟩ hask
    rcases hearly with h | h <;> simp [h]
  · exact absurd hidle.1 hst
  · exact absurd hseeding hidle.2
  · exact hlive

theorem Handed.applyRecords {epoch : Nat} {dirty : List NodeKey} (h : s.Handed)
    (hi : s.Placed i (.sequenced epoch)) : (s.applyRecords i epoch call dirty).Handed := by
  unfold Pipeline.applyRecords
  split_ifs with hepoch
  · refine ⟨fun j c hj => ?_, fun hnext j hj => ?_, h.replaying⟩
    · have hkept : ∀ j, s.Kept j →
          Kept { s.advance i call (.applied
              (s.replica.onRecs dirty.contains call.batch.records).2) with
            replica := (s.replica.onRecs dirty.contains call.batch.records).1
            applied := s.applied ++ [i] } j :=
        fun j => .imp_right (.imp_left fun hj => mem_append_left _ hj)
      rcases getElem?_set_cases hj with ⟨rfl, rfl⟩ | ⟨-, hj⟩
      · exact .inr (.inl (mem_append_right _ (mem_singleton_self _)))
      · exact (h.placed j c hj).mono
          (fun hidle => ⟨hidle, rfl, ShareReplica.onRecs_state ..⟩) rfl (hkept j)
    · rcases mem_append.mp hj with hj | hj
      · exact h.old hnext j hj
      · -- a batch that is applied while a snapshot is under way came before it
        obtain rfl : j = i := by simpa using hj
        rcases hi with ⟨hidle, -⟩ | hreq
        · rcases hnext with hst | ⟨c, hc, hearly⟩
          · exact absurd hidle.1 hst
          · refine absurd ⟨c, hc, ?_⟩ hidle.2
            rcases hearly with h | h <;> simp [h]
        · exact hreq
  · refine h.advance ?_
    rcases hi with ⟨-, heq⟩ | hreq
    · exact absurd heq hepoch
    · exact .inl hreq

theorem asking_callBegin (s : Pipeline) (snapId : UInt64) : (s.callBegin snapId).Asking :=
  ⟨_, mem_append_right _ (mem_singleton_self _), BeginPhase.noConfusion⟩

theorem Handed.stepJournal {dirty : List NodeKey} {snapId : UInt64}
    (h : s.Handed) (hw : s.Wired) (hask : ¬ s.Asking)
    (hok : s.Exclusive (.journal i dirty snapId)) (hi : s.arrivals[i]? = some call)
    (hs' : s.stepJournal i call dirty snapId = some s') : s'.Asking ∨ s'.Handed := by
  have hplaced := h.placed i call hi
  have hne : s.arrivals ≠ [] := by
    rintro hnil
    simp [hnil] at hi
  unfold Pipeline.stepJournal at hs'
  split at hs' <;> rename_i hphase <;> rw [hphase] at hplaced
  · split at hs' <;> cases hs'
    · rename_i st hst
      have hstaged : s.staging ≠ none := by simp [hst]
      refine .inr ⟨fun j c hj => ?_, fun _ => h.old (.inl hstaged), fun _ => h.replaying hstaged⟩
      rcases getElem?_set_cases hj with ⟨rfl, rfl⟩ | ⟨-, hj⟩
      · exact .inr (.inr (.inl ⟨_, rfl, mem_append_right _ (mem_singleton_self _)⟩))
      refine (h.placed j c hj).mono (fun hidle => absurd hidle.1 hstaged) rfl ?_
      refine .imp_right (.imp_right (.imp_left ?_))
      rintro ⟨st', hst', hj⟩
      obtain rfl := mem_unique hst hst'
      exact ⟨_, rfl, mem_append_left _ hj⟩
    · rename_i hst
      have hidle : ∀ call ∈ s.seeds, call.phase = .done := hok (by simp [passes, hst, hi, hphase])
      exact .inr (h.advance (.inl ⟨hst, fun ⟨c, hc, hopen⟩ => hopen (hidle c hc)⟩))
  · cases hs'
    exact .inr (h.advance (hplaced.imp_left fun hidle => ⟨hidle, rfl, rfl⟩))
  · cases hs'
    refine .inr (h.advance ?_)
    split_ifs with hdead
    · exact hplaced.imp_left fun ⟨hidle, hepoch, _⟩ => ⟨hidle, hepoch⟩
    rcases hplaced with ⟨hidle, -, hstate⟩ | hreq
    · exact absurd (hstate.trans (hw.live hne hask hidle).2) hdead
    · exact .inl hreq
  · rename_i epoch
    split at hs'
    · rename_i hseq
      cases hs'
      refine .inr (h.advance ?_)
      rcases hplaced with ⟨hidle, -⟩ | hreq
      · exact absurd hseq (hw.live hne hask hidle).1
      · exact .inl hreq
    · split at hs' <;> cases hs'
      · exact .inl (asking_callBegin ..)
      · have hadv : (s.advance i call (.sequenced epoch)).Handed := h.advance hplaced
        exact .inr { hadv with
          placed := fun j c hj =>
            (hadv.placed j c hj).mono (fun hidle => ⟨hidle, rfl, rfl⟩) rfl id }
  · cases hs'
    exact .inr (h.applyRecords hplaced)
  · cases hs'
    split
    · exact .inl (asking_callBegin ..)
    · exact .inr (h.advance hplaced)
  · cases hs'

end

structure Keeping (s : Pipeline) : Prop where
  wired : s.Wired
  handed : s.Asking ∨ s.Handed

section

variable {s s' : Pipeline} {a : Action} {k : Nat}

theorem asking_of_begins (h : s.Asking) (hsub : ∀ call ∈ s.begins, call ∈ s'.begins) : s'.Asking :=
  let ⟨call, hmem, hopen⟩ := h
  ⟨call, hsub call hmem, hopen⟩

theorem Keeping.stepBegin {call : BeginCall} (h : s.Keeping) (hk : s.begins[k]? = some call)
    (hs' : s.stepBegin k call = some s') : s'.Keeping := by
  have hw := h.wired.stepBegin hk hs'
  have hmem : ∀ call', call' ∈ s.begins.set k call' := fun call' =>
    mem_set (lt_length hk) call'
  refine ⟨hw, ?_⟩
  unfold Pipeline.stepBegin at hs'
  split at hs' <;> cases hs'
  · exact .inl ⟨_, hmem _, BeginPhase.noConfusion⟩
  · exact .inl ⟨_, hmem _, BeginPhase.noConfusion⟩
  · exact .inr (hw.handed rfl)

theorem Keeping.step (h : s.Keeping) (hok : s.Exclusive a) (hs' : s.step a = some s') :
    s'.Keeping := by
  have hw := h.wired.step hok hs'
  cases a with
  | callBegin snapId =>
    cases hs'
    exact ⟨hw, .inl (asking_callBegin s snapId)⟩
  | begin k =>
    obtain ⟨call, hk, hs'⟩ := bind_eq_some_iff.mp hs'
    exact h.stepBegin hk hs'
  | snapDir d =>
    cases hs'
    refine ⟨hw, h.handed.imp (fun hask => asking_of_begins hask fun c hc => ?_) (·.onSnapDir d)⟩
    unfold onSnapDir
    split
    · split
      · split <;> exact hc
      · exact hc
    · exact hc
  | snapDone done =>
    cases hs'
    refine ⟨hw, h.handed.imp (fun hask => asking_of_begins hask fun c hc => ?_) (·.takeStaging done)⟩
    unfold takeStaging
    split
    · split <;> exact hc
    · exact hc
  | seed k =>
    obtain ⟨call, hk, hs'⟩ := bind_eq_some_iff.mp hs'
    refine ⟨hw, h.handed.imp (fun hask => asking_of_begins hask fun c hc => ?_)
      (·.stepSeed h.wired hk hs')⟩
    unfold stepSeed at hs'
    split at hs' <;> cases hs' <;> exact hc
  | arrive b =>
    simp only [Pipeline.step] at hs'
    split at hs' <;> cases hs'
    exact ⟨hw, h.handed.imp (asking_of_begins · fun _ => id) (·.arrive b)⟩
  | journal i dirty snapId =>
    obtain ⟨call, hi, hs'⟩ := bind_eq_some_iff.mp hs'
    refine ⟨hw, ?_⟩
    by_cases hask : s.Asking
    · refine .inl (asking_of_begins hask fun c hc => ?_)
      rcases (stepJournal_hands hs').begins with heq | ⟨snapId, heq⟩ <;> simp [heq, hc]
    · exact (h.handed.resolve_left hask).stepJournal h.wired hask hok hi hs'

theorem Keeping.noneLost (h : s.Keeping) : s.NoneLost := by
  intro i call hi hdone
  rcases h.handed with hask | hhanded
  · exact .inr hask
  · have := hhanded.placed i call hi
    rw [hdone] at this
    exact .inl this

end

/-- If no batch passes while a seed is being finished, and no two seeds are finished at a time, no
batch is lost. -/
theorem batches_kept {info : ShareInfo} {replica : ShareReplica} {s : Pipeline}
    (h : Runs.Reaches Pipeline.step Pipeline.Exclusive (start info replica) s) : s.NoneLost := by
  have hstart : (start info replica).Keeping :=
    ⟨start_wired info replica, .inr (start_handed info replica)⟩
  exact (h.inv hstart fun _ _ _ ht hok hstep => ht.step hok hstep).noneLost

def fresh : Pipeline := start ⟨⟨0⟩, ⟨1, 0⟩⟩ (.new ⟨⟨0⟩, ⟨1, 0⟩⟩)

def Settled (s : Pipeline) : Prop :=
  s.staging = none ∧ (∀ call ∈ s.begins, call.phase = .sent) ∧
    (∀ call ∈ s.seeds, call.phase = .done) ∧ ∀ call ∈ s.arrivals, call.phase = .done

instance (s : Pipeline) : Decidable s.Settled := inferInstanceAs (Decidable (_ ∧ _))

def askSnapshot : List Action := [.callBegin 7, .begin 0, .begin 0, .begin 0]

def journalSteps (i n : Nat) : List Action := List.replicate n (.journal i [] 8)

def recordAt (firstSeq : UInt64) : JournalBatch := ⟨⟨0⟩, firstSeq, [.echoMarker 0]⟩

theorem batches_kept_aroundSeed : ∃ s,
    Runs.Reaches Pipeline.step Pipeline.Exclusive fresh s ∧
      (s.Settled ∧ s.replica.state = .live ∧ s.applied = [0, 1] ∧ s.requested = 0) ∧
      s.NoneLost :=
  Reaches.exists_of_guarded_and
    (askSnapshot ++ [.arrive (recordAt 1), .journal 0 [] 8, .snapDone ⟨7, ⟨0⟩⟩, .seed 0, .seed 0,
      .seed 0, .arrive (recordAt 2)] ++ journalSteps 1 6)
    (by decide +kernel) fun _ hs => batches_kept hs

/-- The first batch meets neither the staging, which is taken, nor a live replica: it is dropped,
and nothing is ever asked for. -/
theorem batch_lost_between_take_and_swap : ∃ s,
    Runs.Reaches Pipeline.step (fun _ _ => True) fresh s ∧ s.Settled ∧ s.replica.state = .live ∧
      s.applied = [1] ∧ ¬ s.NoneLost := by
  refine Reaches.exists_imp (fun s => s.Settled ∧ s.replica.state = .live ∧ s.applied = [1] ∧
      s.requested = 0 ∧ s.arrivals[0]? = some ⟨recordAt 1, .done⟩)
    (askSnapshot ++ [.snapDone ⟨7, ⟨0⟩⟩, .arrive (recordAt 1)] ++ journalSteps 0 3 ++
      [.seed 0, .seed 0, .seed 0, .arrive (recordAt 2)] ++ journalSteps 1 6) (by decide +kernel) ?_
  rintro s - ⟨hsettled, hlive, happlied, hreq, hfirst⟩
  refine ⟨hsettled, hlive, happlied, fun hnone => ?_⟩
  obtain ⟨hstaging, hbegins, hseeds, -⟩ := hsettled
  rcases hnone 0 _ hfirst rfl with (h | h | ⟨st, h, -⟩ | ⟨call, hmem, hopen, -⟩) | ⟨call, hmem, hopen⟩
  · rw [hreq] at h
    exact absurd h (by decide)
  · rw [happlied] at h
    exact absurd h (by decide)
  · rw [hstaging] at h
    cases h
  · exact hopen (hseeds call hmem)
  · exact hopen (hbegins call hmem)

end Pipeline

end Mist
