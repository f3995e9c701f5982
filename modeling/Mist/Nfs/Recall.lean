import Mist.Nfs.Nfs41

/-! Recalls of read delegations.  A recall marks the delegation; the task that sends CB_RECALL and
revokes after two seconds runs later. -/

namespace Mist.Nfs

open List Option Runs Handler State Table Triple

open Op4

/-- Where a recall is: about to revoke because there was no backchannel; about to look up the one it
chose; about to write CB_RECALL; waiting for the two seconds; over. -/
inductive RecallPhase where
  | revoking
  | starting (sid : List UInt8)
  | sending
  | waiting
  | ended
  deriving DecidableEq

/-- A recall begins with the backchannel it chose, if there was one. -/
def RecallPhase.first : Option (List UInt8) → RecallPhase
  | some sid => .starting sid
  | none => .revoking

structure RecallTask where
  node : NodeKey
  other : Other
  phase : RecallPhase
  deriving DecidableEq

structure RecallServer where
  sessions : List UInt8 → Option Session
  state : State
  tasks : List RecallTask

def State.delegreturn (st : State) (other : Other) : State :=
  match st.delegations.find? fun d => d.2.stateidOther = other with
  | some (node, _) => { st with delegations := st.delegations.remove node }
  | none => st

def State.revoke (st : State) (node : NodeKey) (other : Other) : State :=
  match st.delegations.get node with
  | some d =>
    if d.stateidOther = other then { st with delegations := st.delegations.remove node } else st
  | none => st

/-- The end of `serve_conn`: the sessions the connection carried lose their backchannel. -/
def State.unbind (st : State) (conn : Nat) : State :=
  { st with
    bound := st.bound.filter fun b => b.1 ≠ conn
    backchannels := (st.bound.filter fun b => b.1 = conn).foldl (fun t b => t.remove b.2)
      st.backchannels }

section

variable {st : State}

theorem keeps_arg {α : Type} (f : XdrReader → Option (α × XdrReader)) :
    Triple (fun _ : Call => False) (fun s : OpState => s.state = st) (fun s => s.state = st)
      (arg f) fun _ s => s.state = st := by
  intro s hs
  unfold arg
  split
  · exact ⟨fun _ _ => hs, nofun⟩
  · exact ⟨nofun, fun _ _ => hs⟩

/-- A DELEGRETURN operation asks the surface nothing and does `delegreturn`, or stops before it. -/
theorem evalDelegreturn_does :
    Triple (fun _ : Call => False) (fun s : OpState => s.state = st) (fun s => s.state = st)
      evalDelegreturn fun _ s => ∃ other, s.state = st.delegreturn other := by
  have hid : Triple (fun _ : Call => False) (fun s : OpState => s.state = st)
      (fun s => s.state = st) stateid fun _ s => s.state = st :=
    (keeps_arg _).bind fun _ => (keeps_arg _).bind fun _ => pure fun _ hs => hs
  have hstate : Triple (fun _ : Call => False) (fun s : OpState => s.state = st)
      (fun s => s.state = st) Op4.state fun st' s => st' = st ∧ s.state = st :=
    (Triple.get fun s hs => (⟨hs, hs⟩ : s.state = st ∧ s.state = st)).bind fun _ =>
      pure fun _ hs => hs
  refine hid.bind fun id => hstate.bind fun st' s hs => ?_
  obtain ⟨rfl, hs⟩ := hs
  cases hfind : st'.delegations.find? fun d => d.2.stateidOther = id.2 with
  | none => exact ⟨nofun, fun _ _ => hs⟩
  | some d =>
    refine ⟨fun _ _ => ⟨id.2, ?_⟩, nofun⟩
    rw [delegreturn, hfind, ← hs]

end

namespace RecallServer

inductive Action where
  | grant (node : NodeKey) (shareAccess : UInt32) (created : Bool)
  | delegreturn (other : Other)
  | recallNode (node : NodeKey) (sid : Option (List UInt8))
  | task (i : Nat) (written : Bool)
  | sequence (conn : Nat) (sid : List UInt8)
  | close (conn : Nat)
  | exchangeId (owner verifier : List UInt8)
  | createSession (clientid : UInt64) (cbProgram : UInt32)
  | destroySession (sid : List UInt8)
  | destroyClientid (clientid : UInt64)

def opState (s : RecallServer) : OpState := ⟨⟨[]⟩, .start, s.sessions, s.state, none⟩

def ofOp (s : RecallServer) (o : OpState) : RecallServer :=
  { s with sessions := o.sessions, state := o.state }

/-- `recall_node`: mark the delegation and choose a backchannel, if there is one. -/
def recallNode (s : RecallServer) (node : NodeKey) (sid : Option (List UInt8)) : RecallServer :=
  match s.state.delegations.get node with
  | none => s
  | some d =>
    if d.recalling then s
    else { s with
      state := { s.state with
        delegations := s.state.delegations.insert node { d with recalling := true } }
      tasks := s.tasks ++ [⟨node, d.stateidOther, .first sid⟩] }

def chosen (s : RecallServer) : Option (List UInt8) → Bool
  | some sid => (s.state.backchannels.get sid).isSome
  | none => s.state.backchannels.isEmpty

def setPhase (s : RecallServer) (i : Nat) (t : RecallTask) (phase : RecallPhase) : RecallServer :=
  { s with tasks := s.tasks.set i { t with phase } }

def reachable (s : RecallServer) (sid : List UInt8) : Bool :=
  (s.state.backchannels.get sid).isSome && (s.sessions sid).isSome

/-- The next step of a recall.  CB_RECALL may fail to be written. -/
def stepTask (s : RecallServer) (i : Nat) (t : RecallTask) (written : Bool) : Option RecallServer :=
  match t.phase with
  | .revoking => some { s.setPhase i t .ended with
      state := { s.state with delegations := s.state.delegations.remove t.node } }
  | .starting sid => some (s.setPhase i t (if s.reachable sid then .sending else .ended))
  | .sending => some (s.setPhase i t (if written then .waiting else .ended))
  | .waiting => some { s.setPhase i t .ended with state := s.state.revoke t.node t.other }
  | .ended => none

def step (s : RecallServer) : Action → Option RecallServer
  | .grant node shareAccess created =>
    some { s with state := (s.state.maybeGrantDelegation node shareAccess created).2 }
  | .delegreturn other => some { s with state := s.state.delegreturn other }
  | .recallNode node sid => if s.chosen sid then some (s.recallNode node sid) else none
  | .task i written => do
    let t ← s.tasks[i]?
    s.stepTask i t written
  | .sequence conn sid =>
    if (s.sessions sid).isSome then some { s with state := s.state.carry conn sid } else none
  | .close conn => some { s with state := s.state.unbind conn }
  | .exchangeId owner verifier => some (s.ofOp (s.opState.exchangeId owner verifier).2)
  | .createSession clientid cbProgram => do
    let (_, o) ← s.opState.createSession clientid cbProgram
    return s.ofOp o
  | .destroySession sid => some { s with
      sessions := fun id => if id = sid then none else s.sessions id
      state := { s.state with backchannels := s.state.backchannels.remove sid } }
  | .destroyClientid clientid =>
    if (s.state.clients.get clientid).isSome then some { s with
      sessions := dropSessions clientid s.sessions
      state := { s.state with
        clients := s.state.clients.remove clientid, opens := [], locks := [], delegations := [] } }
    else none

/-- A delegation marked as being recalled has its recall still running. -/
def Attended (s : RecallServer) : Prop :=
  ∀ node d, s.state.delegations.get node = some d → d.recalling = true →
    ∃ t ∈ s.tasks, t.phase ≠ .ended ∧ t.node = node ∧ t.other = d.stateidOther

def Cleared (s : RecallServer) : Prop :=
  ∀ t ∈ s.tasks, t.phase = .ended → ∀ node d, s.state.delegations.get node = some d →
    d.stateidOther ≠ t.other

def Returned (s : RecallServer) (other : Other) : Prop :=
  ∀ node d, s.state.delegations.get node = some d → d.stateidOther ≠ other

/-- The step gives the recall up before it waits: its backchannel or session is gone, or CB_RECALL
could not be written. -/
def givesUp (s : RecallServer) (t : RecallTask) (written : Bool) : Bool :=
  match t.phase with
  | .starting sid => !s.reachable sid
  | .sending => !written
  | _ => false

/-- A recall is given up only for a delegation that was returned meanwhile, and a delegation gets an
identifier that neither another one nor a recall has. -/
def Orderly (s : RecallServer) : Action → Prop
  | .task i written => ∀ t ∈ s.tasks[i]?, s.givesUp t written → s.Returned t.other
  | .grant _ _ _ => s.Returned (s.state.newOther 2).1 ∧
      ∀ t ∈ s.tasks, t.other ≠ (s.state.newOther 2).1
  | _ => True

instance (s : RecallServer) (other : Other) : Decidable (s.Returned other) :=
  decidable_of_iff (∀ p ∈ s.state.delegations, s.state.delegations.get p.1 = some p.2 →
      p.2.stateidOther ≠ other)
    ⟨fun h n d hd => h (n, d) (Table.mem_of_get hd) hd, fun h p _ hp => h p.1 p.2 hp⟩

instance (s : RecallServer) : (a : Action) → Decidable (s.Orderly a)
  | .task .. => inferInstanceAs (Decidable (∀ t ∈ _, _ → _))
  | .grant _ _ _ => inferInstanceAs (Decidable (_ ∧ _))
  | .delegreturn _ | .recallNode _ _ | .sequence _ _ | .close _ | .exchangeId _ _
  | .createSession _ _ | .destroySession _ | .destroyClientid _ => .isTrue trivial

structure Sound (s : RecallServer) : Prop where
  attended : s.Attended
  cleared : s.Cleared
  distinct : ∀ n m d e, s.state.delegations.get n = some d → s.state.delegations.get m = some e →
    d.stateidOther = e.stateidOther → n = m
  own : ∀ t ∈ s.tasks, ∀ n d, s.state.delegations.get n = some d → d.stateidOther = t.other →
    n = t.node

variable {s s' : RecallServer}

/-- Nothing was granted, marked or given up. -/
structure Fewer (s s' : RecallServer) : Prop where
  tasks : s'.tasks = s.tasks
  delegations : ∀ n d, s'.state.delegations.get n = some d → s.state.delegations.get n = some d

theorem Sound.fewer (h : s.Sound) (hf : Fewer s s') : s'.Sound where
  attended n d hd hr := by
    rw [hf.tasks]
    exact h.attended n d (hf.delegations n d hd) hr
  cleared t ht he n d hd := h.cleared t (hf.tasks ▸ ht) he n d (hf.delegations n d hd)
  distinct n m d e hd he := h.distinct n m d e (hf.delegations n d hd) (hf.delegations m e he)
  own t ht n d hd := h.own t (hf.tasks ▸ ht) n d (hf.delegations n d hd)

theorem Sound.grant (h : s.Sound) {node : NodeKey} {shareAccess : UInt32} {created : Bool}
    (hfresh : s.Orderly (.grant node shareAccess created)) :
    ({ s with state := (s.state.maybeGrantDelegation node shareAccess created).2 }).Sound := by
  unfold maybeGrantDelegation
  split
  · exact h
  split
  · exact h
  · obtain ⟨hnew, htasks⟩ := hfresh
    have hget : ∀ n d, Table.get (s.state.delegations.insert node
        ⟨(s.state.newOther 2).1, false⟩) n = some d →
        n = node ∧ d = ⟨(s.state.newOther 2).1, false⟩ ∨
          n ≠ node ∧ s.state.delegations.get n = some d := by
      intro n d hd
      rw [Table.get_insert] at hd
      split at hd
      · exact .inl ⟨‹_›, (some.inj hd).symm⟩
      · exact .inr ⟨‹_›, hd⟩
    refine ⟨fun n d hd hr => ?_, fun t ht he n d hd => ?_, fun n m d e hd he hsame => ?_,
      fun t ht n d hd hsame => ?_⟩
    · rcases hget n d hd with ⟨-, rfl⟩ | ⟨-, hd⟩
      · cases hr
      · exact h.attended n d hd hr
    · rcases hget n d hd with ⟨-, rfl⟩ | ⟨-, hd⟩
      · exact (htasks t ht).symm
      · exact h.cleared t ht he n d hd
    · rcases hget n d hd with ⟨hn, rfl⟩ | ⟨-, hold⟩
      · rcases hget m e he with ⟨hm, -⟩ | ⟨-, hold'⟩
        · rw [hn, hm]
        · exact absurd hsame.symm (hnew m e hold')
      · rcases hget m e he with ⟨-, rfl⟩ | ⟨-, hold'⟩
        · exact absurd hsame (hnew n d hold)
        · exact h.distinct n m d e hold hold' hsame
    · rcases hget n d hd with ⟨-, rfl⟩ | ⟨-, hd⟩
      · exact absurd hsame.symm (htasks t ht)
      · exact h.own t ht n d hd hsame

theorem RecallPhase.first_ne_ended (sid : Option (List UInt8)) : RecallPhase.first sid ≠ .ended := by
  cases sid <;> exact nofun

theorem Sound.recallNode (h : s.Sound) (node : NodeKey) (sid : Option (List UInt8)) :
    (s.recallNode node sid).Sound := by
  unfold RecallServer.recallNode
  cases hd₀ : s.state.delegations.get node with
  | none => exact h
  | some d₀ =>
    dsimp only
    split
    · exact h
    -- the marked delegation keeps its identifier
    have hget : ∀ n d, (s.state.delegations.insert node { d₀ with recalling := true }).get n =
        some d → ∃ d', s.state.delegations.get n = some d' ∧ d'.stateidOther = d.stateidOther ∧
          (n ≠ node → d' = d) := by
      intro n d hd
      rw [get_insert] at hd
      split_ifs at hd with hn
      · subst hn
        cases hd
        exact ⟨d₀, hd₀, rfl, fun hne => absurd rfl hne⟩
      · exact ⟨d, hd, rfl, fun _ => rfl⟩
    refine ⟨fun n d hd hr => ?_, fun t ht he n d hd => ?_, fun n m d e hd he hsame => ?_,
      fun t ht n d hd hsame => ?_⟩
    · obtain ⟨d', hd', hother, heq⟩ := hget n d hd
      by_cases hn : n = node
      · subst hn
        obtain rfl : d₀ = d' := mem_unique hd₀ hd'
        exact ⟨_, mem_append_right _ (mem_singleton_self _),
          RecallPhase.first_ne_ended sid, rfl, hother⟩
      · obtain rfl := heq hn
        obtain ⟨t, ht, hrest⟩ := h.attended n d' hd' hr
        exact ⟨t, mem_append_left _ ht, hrest⟩
    · obtain ⟨d', hd', hother, -⟩ := hget n d hd
      rcases mem_append_cases ht with ht | rfl
      · rw [← hother]
        exact h.cleared t ht he n d' hd'
      · exact absurd he (RecallPhase.first_ne_ended sid)
    · obtain ⟨d', hd', hother, -⟩ := hget n d hd
      obtain ⟨e', he', hother', -⟩ := hget m e he
      exact h.distinct n m d' e' hd' he' (hother.trans (hsame.trans hother'.symm))
    · obtain ⟨d', hd', hother, -⟩ := hget n d hd
      rcases mem_append_cases ht with ht | rfl
      · exact h.own t ht n d' hd' (hother.trans hsame)
      · exact h.distinct n node d' d₀ hd' hd₀ (hother.trans hsame)

variable {t : RecallTask} {i : Nat}

theorem Sound.finish (h : s.Sound) (hi : s.tasks[i]? = some t) {phase : RecallPhase} {st : State}
    (hsub : ∀ n d, st.delegations.get n = some d → s.state.delegations.get n = some d)
    (hgone : phase = .ended → ∀ n d, st.delegations.get n = some d → d.stateidOther ≠ t.other) :
    ({ s.setPhase i t phase with state := st }).Sound := by
  have hmem : t ∈ s.tasks := mem_of_getElem? hi
  refine ⟨fun n d hd hr => ?_, fun t' ht' he n d hd => ?_,
    fun n m d e hd he => h.distinct n m d e (hsub n d hd) (hsub m e he), fun t' ht' n d hd => ?_⟩
  · obtain ⟨t', ht', hrun, hnode, hother⟩ := h.attended n d (hsub n d hd) hr
    rcases mem_set_of_mem (a := { t with phase }) hi ht' with rfl | hkept
    · exact ⟨{ t' with phase }, mem_set (lt_length hi) _,
        fun hended => hgone hended n d hd hother.symm, hnode, hother⟩
    · exact ⟨t', hkept, hrun, hnode, hother⟩
  · rcases mem_or_eq_of_mem_set ht' with ht' | rfl
    · exact h.cleared t' ht' he n d (hsub n d hd)
    · exact hgone he n d hd
  · rcases mem_or_eq_of_mem_set ht' with ht' | rfl
    · exact h.own t' ht' n d (hsub n d hd)
    · exact h.own t hmem n d (hsub n d hd)

theorem Sound.advance (h : s.Sound) (hi : s.tasks[i]? = some t)
    {phase : RecallPhase} (hphase : phase ≠ .ended) : (s.setPhase i t phase).Sound :=
  h.finish hi (fun _ _ hd => hd) fun hended => absurd hended hphase

theorem delegreturn_fewer (s : RecallServer) (other : Other) :
    Fewer s { s with state := s.state.delegreturn other } := by
  refine ⟨rfl, fun n d hd => ?_⟩
  unfold delegreturn at hd
  split at hd
  · exact get_of_remove hd
  · exact hd

theorem carry_delegations (st : State) (conn : Nat) (sid : List UInt8) :
    (st.carry conn sid).delegations = st.delegations := by
  unfold carry
  split <;> rfl

theorem exchangeId_fewer (s : RecallServer) (owner verifier : List UInt8) :
    Fewer s (s.ofOp (s.opState.exchangeId owner verifier).2) := by
  refine ⟨rfl, fun n d hd => ?_⟩
  unfold OpState.exchangeId ofOp at hd
  split at hd
  · split at hd
    · exact hd
    · cases hd
  · exact hd

theorem createSession_fewer {clientid : UInt64} {cbProgram : UInt32} {id : List UInt8} {o : OpState}
    (h : s.opState.createSession clientid cbProgram = some (id, o)) : Fewer s (s.ofOp o) := by
  obtain ⟨c, -, heq⟩ := map_eq_some_iff.mp h
  obtain ⟨-, rfl⟩ := Prod.mk.inj heq
  exact ⟨rfl, fun _ _ hd => hd⟩

theorem revoke_gone (h : s.Sound) (ht : t ∈ s.tasks) (n : NodeKey) (d : Delegation)
    (hd : (s.state.revoke t.node t.other).delegations.get n = some d) :
    s.state.delegations.get n = some d ∧ d.stateidOther ≠ t.other := by
  unfold revoke at hd
  split at hd
  · rename_i d₀ hd₀
    split at hd
    · have hd' := get_of_remove hd
      refine ⟨hd', fun hsame => ?_⟩
      rw [h.own t ht n d hd' hsame, get_remove, if_pos rfl] at hd
      cases hd
    · rename_i hother
      refine ⟨hd, fun hsame => hother ?_⟩
      rw [h.own t ht n d hd hsame, hd₀] at hd
      cases hd
      exact hsame
  · rename_i hnone
    refine ⟨hd, fun hsame => ?_⟩
    rw [h.own t ht n d hd hsame, hnone] at hd
    cases hd

theorem Sound.stepTask (h : s.Sound) {written : Bool}
    (hi : s.tasks[i]? = some t) (hret : s.givesUp t written → s.Returned t.other)
    (hstep : s.stepTask i t written = some s') : s'.Sound := by
  have hmem : t ∈ s.tasks := mem_of_getElem? hi
  unfold RecallServer.stepTask at hstep
  cases hphase : t.phase with
  | revoking =>
    rw [hphase] at hstep
    cases hstep
    refine h.finish hi (fun n d hd => get_of_remove hd) fun _ n d hd hsame => ?_
    rw [h.own t hmem n d (get_of_remove hd) hsame, get_remove, if_pos rfl] at hd
    cases hd
  | starting sid =>
    rw [hphase] at hstep
    cases hstep
    cases hreach : s.reachable sid with
    | true => exact h.advance hi (by decide)
    | false =>
      exact h.finish hi (fun _ _ hd => hd) fun _ => hret (by rw [givesUp, hphase]; simp [hreach])
  | sending =>
    rw [hphase] at hstep
    cases hstep
    cases written with
    | true => exact h.advance hi (by decide)
    | false => exact h.finish hi (fun _ _ hd => hd) fun _ => hret (by rw [givesUp, hphase]; rfl)
  | waiting =>
    rw [hphase] at hstep
    cases hstep
    exact h.finish hi (fun n d hd => (revoke_gone h hmem n d hd).1)
      fun _ n d hd => (revoke_gone h hmem n d hd).2
  | ended =>
    rw [hphase] at hstep
    cases hstep

theorem Sound.step (h : s.Sound) {a : Action} (hok : s.Orderly a) (hstep : s.step a = some s') :
    s'.Sound := by
  cases a with
  | grant node shareAccess created =>
    cases hstep
    exact h.grant hok
  | delegreturn other =>
    cases hstep
    exact h.fewer (delegreturn_fewer s other)
  | recallNode node sid =>
    obtain ⟨_, rfl⟩ := ite_some_none_eq_some.mp hstep
    exact h.recallNode node sid
  | task i written =>
    obtain ⟨t, hi, hstep⟩ := bind_eq_some_iff.mp hstep
    exact h.stepTask hi (hok t hi) hstep
  | sequence conn sid =>
    simp only [RecallServer.step] at hstep
    obtain ⟨_, rfl⟩ := ite_some_none_eq_some.mp hstep
    refine h.fewer ⟨rfl, fun n d hd => ?_⟩
    rw [carry_delegations] at hd
    exact hd
  | close conn =>
    cases hstep
    exact h.fewer ⟨rfl, fun _ _ hd => hd⟩
  | exchangeId owner verifier =>
    cases hstep
    exact h.fewer (exchangeId_fewer s owner verifier)
  | createSession clientid cbProgram =>
    obtain ⟨⟨id, o⟩, hnew, hstep⟩ := bind_eq_some_iff.mp hstep
    cases hstep
    exact h.fewer (createSession_fewer hnew)
  | destroySession sid =>
    cases hstep
    exact h.fewer ⟨rfl, fun _ _ hd => hd⟩
  | destroyClientid clientid =>
    obtain ⟨_, rfl⟩ := ite_some_none_eq_some.mp hstep
    exact h.fewer ⟨rfl, nofun⟩

/-- While recalls are given up only for delegations that are gone, none gets stuck. -/
theorem recall_attended (s₀ s : RecallServer) (hdelegs : s₀.state.delegations = [])
    (htasks : s₀.tasks = []) (h : Runs.Reaches step Orderly s₀ s) : s.Attended ∧ s.Cleared := by
  have hnone : ∀ n, s₀.state.delegations.get n = none := by
    intro n
    rw [hdelegs]
    rfl
  have hstart : s₀.Sound := by
    refine ⟨fun n d hd => ?_, fun t ht => ?_, fun n m d e hd => ?_, fun t ht => ?_⟩
    · rw [hnone] at hd
      cases hd
    · rw [htasks] at ht
      cases ht
    · rw [hnone] at hd
      cases hd
    · rw [htasks] at ht
      cases ht
  have hsound : s.Sound := h.inv hstart fun _ _ _ ht hok hstep => ht.step hok hstep
  exact ⟨hsound.attended, hsound.cleared⟩

def fresh : RecallServer :=
  ⟨fun _ => none, ⟨[], [], [], [], 1, 1, List.replicate 8 0, fun _ => 0, 0, [], []⟩, []⟩

def delegated : List Action :=
  [.exchangeId [109] (List.replicate 8 1), .createSession 1 0, .sequence 0 (be64 1 ++ be64 0),
    .grant ⟨7, 1⟩ 1 false]

/-- The connection is lost between the mark and the task: nothing is left that would revoke. -/
theorem recall_stuck :
    ∃ s, Runs.Reaches step (fun _ _ => True) fresh s ∧ ¬ s.Attended ∧ ¬ s.Cleared := by
  refine Reaches.exists_imp (fun s =>
      s.state.delegations = [(⟨7, 1⟩, ⟨be64 1 ++ [2, 0, 0, 0], true⟩)] ∧
        s.tasks = [⟨⟨7, 1⟩, be64 1 ++ [2, 0, 0, 0], .ended⟩])
    (delegated ++ [.recallNode ⟨7, 1⟩ (some (be64 1 ++ be64 0)), .close 0, .task 0 true])
    (by decide +kernel) ?_
  rintro s - ⟨hdelegs, htasks⟩
  have hget : s.state.delegations.get ⟨7, 1⟩ = some ⟨be64 1 ++ [2, 0, 0, 0], true⟩ := by
    rw [hdelegs]
    rfl
  refine ⟨fun h => ?_, fun h => ?_⟩
  · obtain ⟨t, ht, hrun, -⟩ := h _ _ hget rfl
    rw [htasks, mem_singleton] at ht
    subst ht
    exact hrun rfl
  · exact h _ (htasks ▸ mem_singleton_self _) rfl _ _ hget rfl

theorem recall_attended_revoked :
    ∃ s, Runs.Reaches step Orderly fresh s ∧ (s.state.delegations = [] ∧
      s.tasks = [⟨⟨7, 1⟩, be64 1 ++ [2, 0, 0, 0], .ended⟩]) ∧ s.Attended ∧ s.Cleared :=
  Reaches.exists_of_guarded_and
    (delegated ++
      [.recallNode ⟨7, 1⟩ (some (be64 1 ++ be64 0)), .task 0 true, .task 0 true, .close 0,
      .task 0 true])
    (by decide +kernel) fun s hs => recall_attended fresh s rfl rfl hs

end RecallServer

end Mist.Nfs
