import Mist.Nfs.Recall

/-! The life of stateids.  Opens, locks and delegations are kept in three tables that different
operations clear. -/

namespace Mist.Nfs

open List State Table

/-- The stateids held, each with the client it was minted for; a lock's also with its open's. -/
structure Held where
  opens : Table Other UInt64
  locks : Table Other (UInt64 × Other)
  delegations : Table Other UInt64

/-- The client registered again with a new verifier, or was destroyed. -/
def Held.drop (b : Held) (client : UInt64) : Held where
  opens := b.opens.filter fun p => p.2 ≠ client
  locks := b.locks.filter fun p => p.2.1 ≠ client
  delegations := b.delegations.filter fun p => p.2 ≠ client

/-- The CLOSE of an open takes the locks derived from it along. -/
def Held.close (b : Held) (other : Other) : Held :=
  { b with opens := b.opens.remove other, locks := b.locks.filter fun p => p.2.2 ≠ other }

structure Stateids where
  state : State
  held : Held

namespace Stateids

def Registered (s : Stateids) (client : UInt64) : Prop := (s.state.clients.get client).isSome
  deriving Decidable

/-- The stateid was minted for a client as it is registered now and was not released since. -/
def Live (s : Stateids) (other : Other) : Prop :=
  ∃ client, s.Registered client ∧ ((other, client) ∈ s.held.opens ∨
    (∃ o, (other, client, o) ∈ s.held.locks) ∨ (other, client) ∈ s.held.delegations)

/-- The operations, with the client in whose session they come; an OPEN may end with a grant.  A lock
of an owner that has one, and LOCKU, change nothing. -/
inductive Action where
  | exchangeId (owner verifier : List UInt8)
  | destroyClientid (client : UInt64)
  | openFile (client : UInt64) (node : NodeKey) (owner : List UInt8) (shareAccess : UInt32)
  | grant (client : UInt64) (node : NodeKey) (shareAccess : UInt32) (created : Bool)
  | close (other : Other)
  | lock (client : UInt64) (openOther : Other)
  | freeStateid (other : Other)
  | delegreturn (other : Other)
  | revoke (node : NodeKey)

def rebooted (st : State) (owner verifier : List UInt8) : Option UInt64 :=
  (((st.clients.find? fun p => p.2.owner = owner).map Prod.snd).filter fun c =>
    c.verifier ≠ verifier).map Client.clientid

def exchanged (st : State) (owner verifier : List UInt8) : State :=
  (OpState.exchangeId ⟨⟨[]⟩, .start, fun _ => none, st, none⟩ owner verifier).2.state

def step (s : Stateids) : Action → Option Stateids
  | .exchangeId owner verifier => some
      ⟨exchanged s.state owner verifier, (rebooted s.state owner verifier).elim s.held s.held.drop⟩
  | .destroyClientid client =>
    if s.Registered client then some ⟨{ s.state with
        clients := s.state.clients.remove client, opens := [], locks := [], delegations := [] },
      s.held.drop client⟩
    else none
  | .openFile client node owner shareAccess =>
    let opened := s.state.registerOpen node owner shareAccess
    some ⟨opened.2, { s.held with opens := s.held.opens.insert opened.1.1 client }⟩
  | .grant client node shareAccess created =>
    let granted := s.state.maybeGrantDelegation node shareAccess created
    some ⟨granted.2, { s.held with
      delegations := granted.1.elim s.held.delegations fun d => s.held.delegations.insert d client }⟩
  | .close other =>
    if (s.state.opens.get other).isSome then
      some ⟨{ s.state with opens := s.state.opens.remove other }, s.held.close other⟩
    else none
  | .lock client openOther => do
    let o ← s.state.opens.get openOther
    let (other, st) := s.state.newOther 3
    return ⟨{ st with locks := st.locks.insert other o.node },
      { s.held with locks := s.held.locks.insert other (client, openOther) }⟩
  | .freeStateid other => some
      ⟨{ s.state with opens := s.state.opens.remove other, locks := s.state.locks.remove other },
        { s.held with opens := s.held.opens.remove other, locks := s.held.locks.remove other }⟩
  | .delegreturn other => some ⟨s.state.delegreturn other,
      { s.held with delegations := s.held.delegations.remove other }⟩
  | .revoke node => do
    let d ← s.state.delegations.get node
    return ⟨{ s.state with delegations := s.state.delegations.remove node },
      { s.held with delegations := s.held.delegations.remove d.stateidOther }⟩

/-- No lock is held from an open that is closed, or by a client that reboots; stateids are minted for
clients that are registered; and a delegation gets an identifier that no other one has. -/
def Tidy (s : Stateids) : Action → Prop
  | .exchangeId owner verifier => ∀ p ∈ s.held.locks,
      rebooted s.state owner verifier = some p.2.1 → s.state.locks.get p.1 = none
  | .close other => ∀ p ∈ s.held.locks, p.2.2 = other → s.state.locks.get p.1 = none
  | .lock client _ | .openFile client _ _ _ => s.Registered client
  | .grant client _ _ _ => s.Registered client ∧
      ∀ d ∈ s.state.delegations, d.2.stateidOther ≠ (s.state.newOther 2).1
  | _ => True

instance (s : Stateids) : (a : Action) → Decidable (s.Tidy a)
  | .exchangeId .. | .close _ => inferInstanceAs (Decidable (∀ p ∈ s.held.locks, _ → _))
  | .lock client _ | .openFile client _ _ _ => inferInstanceAs (Decidable (s.Registered client))
  | .grant _ _ _ _ => inferInstanceAs (Decidable (_ ∧ _))
  | .destroyClientid _ | .freeStateid _ | .delegreturn _ | .revoke _ => .isTrue trivial

section

variable {β γ : Type} {reg reg' : UInt64 → Prop} {who : γ → UInt64} {t : Table Other β}
  {b : Table Other γ}

theorem mem_remove {α : Type} [DecidableEq α] {t : Table α β} {k : α} {p : α × β} :
    p ∈ t.remove k ↔ p ∈ t ∧ p.1 ≠ k := by
  simp [remove]

/-- Every key of a table is in the book, for a registered client. -/
def Booked (reg : UInt64 → Prop) (who : γ → UInt64) (t : Table Other β) (b : Table Other γ) : Prop :=
  ∀ o, (t.get o).isSome → ∃ v, reg (who v) ∧ (o, v) ∈ b

theorem Booked.insert (h : Booked reg who t b) {v : γ} (hv : reg (who v)) (k : Other) (x : β) :
    Booked reg who (t.insert k x) (b.insert k v) := by
  intro o ho
  by_cases heq : o = k
  · exact ⟨v, hv, heq ▸ mem_cons_self⟩
  · rw [get_insert, if_neg heq] at ho
    obtain ⟨u, hu, hmem⟩ := h o ho
    exact ⟨u, hu, .tail _ (mem_remove.mpr ⟨hmem, heq⟩)⟩

theorem Booked.remove (h : Booked reg who t b) (k : Other) :
    Booked reg who (t.remove k) (b.remove k) := by
  intro o ho
  rw [get_remove] at ho
  split at ho
  · cases ho
  · obtain ⟨v, hv, hmem⟩ := h o ho
    exact ⟨v, hv, mem_remove.mpr ⟨hmem, ‹_›⟩⟩

theorem Booked.filter (h : Booked reg who t b) {k : γ → Bool}
    (hdrop : ∀ o v, (o, v) ∈ b → k v = false → t.get o = none)
    (hreg : ∀ v, k v → reg (who v) → reg' (who v)) : Booked reg' who t (b.filter fun p => k p.2) := by
  intro o ho
  obtain ⟨v, hv, hmem⟩ := h o ho
  cases hkeep : k v with
  | false =>
    rw [hdrop o v hmem hkeep] at ho
    cases ho
  | true => exact ⟨v, hreg v hkeep hv, mem_filter.mpr ⟨hmem, hkeep⟩⟩

end

structure Sound (s : Stateids) : Prop where
  opens : Booked s.Registered id s.state.opens s.held.opens
  locks : Booked s.Registered Prod.fst s.state.locks s.held.locks
  delegations : ∀ d ∈ s.state.delegations,
    ∃ c, s.Registered c ∧ (d.2.stateidOther, c) ∈ s.held.delegations
  distinct : ∀ d ∈ s.state.delegations, ∀ e ∈ s.state.delegations,
    d.2.stateidOther = e.2.stateidOther → d.1 = e.1

variable {s s' : Stateids}

theorem Sound.cleared {clients : Table UInt64 Client} {b : Held} :
    Sound ⟨{ s.state with clients, opens := [], locks := [], delegations := [] }, b⟩ :=
  ⟨nofun, nofun, nofun, nofun⟩

theorem Sound.exchange (h : s.Sound) {owner verifier : List UInt8}
    (htidy : s.Tidy (.exchangeId owner verifier)) :
    Sound ⟨exchanged s.state owner verifier,
      (rebooted s.state owner verifier).elim s.held s.held.drop⟩ := by
  have hinsert : ∀ {t : Table UInt64 Client} {k : UInt64} {new : Client} {c : UInt64},
      (t.get c).isSome → ((t.insert k new).get c).isSome := by
    intro t k new c hc
    rw [get_insert]
    split
    · rfl
    · exact hc
  simp only [Tidy, rebooted] at htidy
  unfold exchanged rebooted OpState.exchangeId
  cases hfind : (s.state.clients.find? fun p => p.2.owner = owner).map Prod.snd with
  | none => exact ⟨fun o ho => (h.opens o ho).imp fun _ => .imp_left hinsert,
      fun l hl => (h.locks l hl).imp fun _ => .imp_left hinsert,
      fun d hd => (h.delegations d hd).imp fun _ => .imp_left hinsert, h.distinct⟩
  | some old =>
    by_cases hsame : old.verifier = verifier
    · simpa [hsame, Option.filter] using h
    simp only [hsame, if_false, ne_eq, not_false_eq_true, decide_true, Option.filter_some, if_true,
      Option.map_some, Option.elim_some]
    refine { Sound.cleared (s := s) with
      locks := h.locks.filter (k := fun v => v.1 ≠ old.clientid) (fun l v hmem hkeep => ?_)
        fun v hkeep hreg => hinsert ?_ }
    · have hold : v.1 = old.clientid := by simpa using hkeep
      exact htidy _ hmem (by simp [hfind, hsame, hold])
    · rw [get_remove, if_neg (by simpa using hkeep)]
      exact hreg

theorem Sound.granted (h : s.Sound) {client : UInt64} (hreg : s.Registered client) {other : Other}
    (hnew : ∀ d ∈ s.state.delegations, d.2.stateidOther ≠ other) (node : NodeKey) (next : UInt64) :
    Sound ⟨{ s.state with
        delegations := s.state.delegations.insert node ⟨other, false⟩, nextOther := next },
      { s.held with delegations := s.held.delegations.insert other client }⟩ := by
  refine { h with delegations := fun d hd => ?_, distinct := fun d hd e he heq => ?_ }
  · rcases mem_cons.mp hd with rfl | hd
    · exact ⟨client, hreg, .head _⟩
    · obtain ⟨c, hc, hmem⟩ := h.delegations d (mem_remove.mp hd).1
      exact ⟨c, hc, .tail _ (mem_remove.mpr ⟨hmem, hnew d (mem_remove.mp hd).1⟩)⟩
  · rcases mem_cons.mp hd with rfl | hd <;> rcases mem_cons.mp he with rfl | he
    · rfl
    · exact absurd heq.symm (hnew e (mem_remove.mp he).1)
    · exact absurd heq (hnew d (mem_remove.mp hd).1)
    · exact h.distinct d (mem_remove.mp hd).1 e (mem_remove.mp he).1 heq

theorem Sound.ungrant (h : s.Sound) {node : NodeKey} {d : Delegation}
    (hd : (node, d) ∈ s.state.delegations) :
    Sound ⟨{ s.state with delegations := s.state.delegations.remove node },
      { s.held with delegations := s.held.delegations.remove d.stateidOther }⟩ := by
  refine { h with
    delegations := fun e he => ?_
    distinct := fun e he f hf => h.distinct e (mem_remove.mp he).1 f (mem_remove.mp hf).1 }
  obtain ⟨he, hne⟩ := mem_remove.mp he
  obtain ⟨c, hc, hmem⟩ := h.delegations e he
  exact ⟨c, hc, mem_remove.mpr ⟨hmem, fun heq => hne (h.distinct e he _ hd heq)⟩⟩

theorem Sound.step {a : Action} (h : s.Sound) (htidy : s.Tidy a) (hstep : s.step a = some s') :
    s'.Sound := by
  cases a with
  | exchangeId owner verifier =>
    cases hstep
    exact h.exchange htidy
  | destroyClientid client =>
    obtain ⟨-, rfl⟩ := Option.ite_some_none_eq_some.mp hstep
    exact .cleared
  | openFile client node owner shareAccess =>
    cases hstep
    unfold registerOpen
    split
    · exact { h with opens := h.opens.insert (v := client) htidy _ _ }
    · exact { h with opens := h.opens.insert (v := client) htidy _ _ }
  | grant client node shareAccess created =>
    cases hstep
    unfold maybeGrantDelegation
    split
    · exact h
    · split
      · exact h
      · exact h.granted htidy.1 htidy.2 _ _
  | close other =>
    obtain ⟨-, rfl⟩ := Option.ite_some_none_eq_some.mp hstep
    exact { h with
      opens := h.opens.remove other
      locks := h.locks.filter (k := fun v => v.2 ≠ other)
        (fun l v hmem hkeep => htidy _ hmem (by simpa using hkeep)) fun _ _ => id }
  | lock client openOther =>
    obtain ⟨o, -, hs⟩ := Option.bind_eq_some_iff.mp hstep
    cases hs
    exact { h with locks := h.locks.insert (v := (client, openOther)) htidy _ _ }
  | freeStateid other =>
    cases hstep
    exact { h with opens := h.opens.remove other, locks := h.locks.remove other }
  | delegreturn other =>
    cases hstep
    unfold delegreturn
    split
    · rename_i node d hfind
      obtain rfl : d.stateidOther = other := by simpa using find?_some hfind
      exact h.ungrant (mem_of_find?_eq_some hfind)
    rename_i hnone
    refine { h with delegations := fun d hd => ?_ }
    obtain ⟨c, hc, hmem⟩ := h.delegations d hd
    exact ⟨c, hc, mem_remove.mpr ⟨hmem, by simpa using find?_eq_none.mp hnone d hd⟩⟩
  | revoke node =>
    obtain ⟨d, hd, hs⟩ := Option.bind_eq_some_iff.mp hstep
    cases hs
    exact h.ungrant (mem_of_get hd)

def start (st : State) : Stateids :=
  ⟨{ st with clients := [], opens := [], locks := [], delegations := [] }, ⟨[], [], []⟩⟩

theorem stateid_lifetime (st : State) (h : Runs.Reaches step Tidy (start st) s) (seq : UInt32)
    (other : Other) (hspecial : other ≠ anonymous ∧ other ≠ bypass)
    (hok : s.state.stateidOk seq other) : s.Live other := by
  have hsound : s.Sound :=
    h.inv (.cleared (s := start st)) fun _ _ _ hs htidy hstep => hs.step htidy hstep
  simp only [stateidOk, hspecial.1, hspecial.2, if_false, decide_false, Bool.false_or,
    Bool.or_eq_true, any_eq_true, decide_eq_true_eq] at hok
  rcases hok with (ho | hl) | ⟨d, hd, rfl⟩
  · exact (hsound.opens other ho).imp fun _ => .imp_right .inl
  · obtain ⟨v, hv, hmem⟩ := hsound.locks other hl
    exact ⟨v.1, hv, .inr (.inl ⟨v.2, hmem⟩)⟩
  · exact (hsound.delegations d hd).imp fun _ => .imp_right fun hmem => .inr (.inr hmem)

def locking : List Action :=
  [.exchangeId [109] [1], .openFile 1 ⟨7, 1⟩ [1] 1, .lock 1 (be64 1 ++ [1, 0, 0, 0])]

theorem not_live (h : s.held.opens = [] ∧ s.held.locks = [] ∧ s.held.delegations = [])
    (other : Other) : ¬ s.Live other := by
  rintro ⟨c, -, hmem⟩
  simp [h] at hmem

/-- After a further action the server takes the lock's stateid, which is no client's. -/
def Outlived (a : Action) : Prop :=
  ∃ s, (locking ++ [a]).foldlM step (start RecallServer.fresh.state) = some s ∧
    s.state.stateidOk 1 (be64 2 ++ [3, 0, 0, 0]) ∧ ¬ s.Live (be64 2 ++ [3, 0, 0, 0])

theorem Outlived.of_run {a : Action}
    (hrun : ((locking ++ [a]).foldlM step (start RecallServer.fresh.state)).any fun s =>
      s.state.stateidOk 1 (be64 2 ++ [3, 0, 0, 0]) ∧
        s.held.opens = [] ∧ s.held.locks = [] ∧ s.held.delegations = []) : Outlived a := by
  obtain ⟨s, hs, hp⟩ := (Option.any_eq_true ..).mp hrun
  obtain ⟨hok, hempty⟩ := of_decide_eq_true hp
  exact ⟨s, hs, hok, not_live hempty _⟩

/-- The lock is good after the CLOSE of its open, and after its client rebooted. -/
theorem lock_outlives :
    Outlived (.close (be64 1 ++ [1, 0, 0, 0])) ∧ Outlived (.exchangeId [109] [2]) :=
  ⟨.of_run (by decide +kernel), .of_run (by decide +kernel)⟩

theorem stateid_lifetime_locking : ∃ s, Runs.Reaches step Tidy (start RecallServer.fresh.state) s ∧
    s.state.stateidOk 1 (be64 2 ++ [3, 0, 0, 0]) ∧ s.Live (be64 2 ++ [3, 0, 0, 0]) :=
  Runs.Reaches.exists_imp (fun s => s.state.stateidOk 1 (be64 2 ++ [3, 0, 0, 0])) locking
    (by decide +kernel) fun _ hs hok =>
      ⟨hok, stateid_lifetime RecallServer.fresh.state hs 1 _ (by decide) hok⟩

end Stateids

end Mist.Nfs
