import Mist.Hostd.Inflight

/-! What a full COMMIT owes: every write acknowledged before it is in the guest, and an fdatasync
was issued after that. -/

namespace Mist

open List Option Runs WritePhase WriteCall

/-- What a full COMMIT has seen to, for each of the writes it covers. -/
def Call.Fulfilled (writes : List WriteCall) (call : Call) : Prop :=
  call.req.full → ∀ i ∈ call.covers, ∀ w, writes[i]? = some w →
    (call.phase = .syncing → w.outcome = .applied) ∧
    (call.phase = .answered ∨ call.phase = .returned none → w.synced)

namespace WriteBehind

def isDirty (s : WriteBehind) : Bool := s.current.any fun p => p.2.dirty

def Answers (s : WriteBehind) (a : Action) : Prop :=
  a.failedWrite = none ∧ ∀ x ∈ s.stepping a, x.2.phase = .syncing → a.failedCall = none
  deriving Decidable

/-- How a call uses the flag: a full COMMIT swaps it when the writes it stands for are in the guest,
and finds it clear when no other COMMIT is about to sync. -/
def FlagUse (s : WriteBehind) (call : Call) : Prop :=
  call.req.full ∧ call.phase = .drained →
    if s.isDirty then
      ∀ w ∈ s.writes, s.entry = some w.queue ∧ WritePhase.marked.rank ≤ w.phase.rank →
        w.outcome = .applied
    else ∀ other ∈ s.calls, ¬ (other.req.full ∧ other.phase = .syncing)
  deriving Decidable

/-- Every call uses the flag so, and a queue is dropped neither dirty nor in use. -/
def FlagKept (s : WriteBehind) (a : Action) : Prop :=
  (∀ x ∈ s.stepping a, s.FlagUse x.2) ∧ (s.drops a → s.NoneCounting ∧ ¬ s.isDirty)
  deriving Decidable

def CommitsDurable (s : WriteBehind) : Prop :=
  ∀ call ∈ s.calls, call.req.full → call.phase = .returned none →
    ∀ i ∈ call.covers, s.writes[i]?.any fun w => w.outcome = .applied && w.synced

instance (s : WriteBehind) : Decidable s.CommitsDurable :=
  inferInstanceAs (Decidable (∀ call ∈ s.calls, _))

abbrev Flagged (s : WriteBehind) (q : Nat) : Prop := s.Has NodeWrites.dirty q

def Syncing (s : WriteBehind) : Prop := ∃ call ∈ s.calls, call.req.full ∧ call.phase = .syncing

/-- A write that has marked its queue is synced, or the flag stands for it, or a COMMIT is about to
sync it. -/
def AllFlagged (s : WriteBehind) : Prop :=
  ∀ w ∈ s.writes, WritePhase.marked.rank ≤ w.phase.rank →
    w.synced ∨ s.Flagged w.queue ∨ (w.outcome = .applied ∧ s.Syncing)

structure Committing (s : WriteBehind) : Prop extends Tracked s, Covered s where
  applied : ∀ w ∈ s.writes, w.synced → w.outcome = .applied
  flagged : s.AllFlagged
  calls : ∀ call ∈ s.calls, call.Fulfilled s.writes

theorem start_committing : Committing start :=
  ⟨start_tracked, start_covered, by simp [start], by simp [AllFlagged, start], by simp [start]⟩

section

variable {s s' t : WriteBehind} {i : Nat} {w w' : WriteCall} {res : Option NfsError}

theorem isDirty_eq_true : s.isDirty ↔ ∃ q, s.Flagged q := any_current

variable {a : Action} {nw nw' : NodeWrites}

section

variable {now : Nat} (h : w.advance nw i now res = some (w', nw'))
include h

theorem advance_dirty
    (hd : nw.dirty ∨ w.phase = .counted) : nw'.dirty := by
  unfold advance at h
  cases hphase : w.phase <;>
    simp only [hphase, reduceCtorEq, some.injEq, Prod.mk.injEq, or_false] at h hd <;>
    obtain ⟨-, rfl⟩ := h <;> first | exact hd | rfl | (split <;> exact hd)

theorem advance_applied (hout : w.outcome = .pending ↔ w.phase.rank ≤ 7)
    (hw : w.outcome = .applied) : w'.outcome = .applied := by
  rw [(advance_grows h hout).outcome (by simp [hw]), hw]

end

section

variable (h : Committing s)
include h

/-- What the client and the guest know only grows, so a call that stays in its phase keeps what it has
seen to. -/
theorem Committing.fulfilled (hstep : s.step a = some s') {call : Call}
    (hcall : call ∈ s.calls) : call.Fulfilled s'.writes := by
  intro hfull i hi w' hw'
  obtain ⟨w, hw, -⟩ := h.covers call hcall i hi
  obtain ⟨w₁, hw₁, hg⟩ := h.toTracked.grows hstep hw
  obtain rfl : w₁ = w' := mem_unique hw₁ hw'
  obtain ⟨happ, hsynced⟩ := h.calls call hcall hfull i hi w hw
  refine ⟨fun hphase => ?_, fun hphase => hg.synced (hsynced hphase)⟩
  rw [hg.outcome (by simp [happ hphase]), happ hphase]

theorem Committing.applied_step (hstep : s.step a = some s') :
    ∀ w ∈ s'.writes, w.synced → w.outcome = .applied := by
  intro w' hw' hsynced
  obtain ⟨j, hj⟩ := getElem?_of_mem hw'
  cases hold : s.writes[j]? with
  | none => simp [(step_write_new hstep hold hj).2.2.2] at hsynced
  | some w =>
    obtain ⟨w₁, hw₁, hch⟩ := step_write hstep hold
    obtain rfl : w₁ = w' := mem_unique hw₁ hj
    have hmem := mem_of_getElem? hold
    cases hch with
    | advance _ _ hadv =>
      rw [(advance_frame hadv).2.2.1] at hsynced
      exact advance_applied hadv (h.outcome w hmem) (h.applied w hmem hsynced)
    | synced =>
      rcases Bool.or_eq_true_iff.mp hsynced with hs | happ
      · exact h.applied w hmem hs
      · simpa using happ
    | _ => exact h.applied w hmem hsynced

theorem Committing.flagged_got (hcalls : t.calls = s.calls)
    (hqs : t.queues = s.nodeWrites.2) (hent : t.entry = some s.nodeWrites.1)
    (hwrites : t.writes = s.writes.set i { w with phase := .got, queue := s.nodeWrites.1 }) :
    t.AllFlagged := by
  intro w₁ hw₁ hrank
  rw [hwrites] at hw₁
  rcases mem_or_eq_of_mem_set hw₁ with hold | rfl
  · have hsyncing : s.Syncing → t.Syncing := fun hs => by rwa [Syncing, hcalls]
    exact (h.flagged w₁ hold hrank).imp_right (Or.imp (·.got hent hqs) (And.imp_right hsyncing))
  · simp [rank] at hrank

theorem Committing.flagged_advance
    (hw : s.writes[i]? = some w) (hnw : s.queues[w.queue]? = some nw)
    (hadv : w.advance nw i s.now res = some (w', nw')) (hcalls : t.calls = s.calls)
    (hent : t.entry = s.entry) (hqs : t.queues = s.queues.set w.queue nw')
    (hwrites : t.writes = s.writes.set i w') : t.AllFlagged := by
  have hmem : w ∈ s.writes := mem_of_getElem? hw
  obtain ⟨hqueue, -, hsync, hnext, hpos⟩ := advance_frame hadv
  have hflag : ∀ q, s.Flagged q → t.Flagged q := fun q hf =>
    hf.set hnw hent hqs fun _ hd => advance_dirty hadv (.inl hd)
  have hsyncing : s.Syncing → t.Syncing := fun hs => by rwa [Syncing, hcalls]
  intro w₁ hw₁ hrank
  rw [hwrites] at hw₁
  rcases mem_or_eq_of_mem_set hw₁ with hold | rfl
  · exact (h.flagged w₁ hold hrank).imp_right (Or.imp (hflag _) (And.imp_right hsyncing))
  rw [hqueue, hsync]
  by_cases hcounted : w.phase = .counted
  · -- the write has the map's queue, and marks it
    right; left
    have hheld := h.held w hmem ⟨hpos, by simp [hcounted, rank]⟩
    refine ⟨nw', current_eq_some.mpr ⟨hent ▸ hheld, ?_⟩, advance_dirty hadv (.inr hcounted)⟩
    rw [hqs, getElem?_set_self (lt_length hnw)]
  · have hmarked : marked.rank ≤ w.phase.rank := by
      have hne : w.phase.rank ≠ 3 := fun he => hcounted (rank_injective he)
      change 4 ≤ _ at hrank ⊢
      omega
    rcases h.flagged w hmem hmarked with hs | hf | ⟨happ, hs⟩
    · exact .inl hs
    · exact .inr (.inl (hflag _ hf))
    · exact .inr (.inr ⟨advance_applied hadv (h.outcome w hmem) happ, hsyncing hs⟩)

/-- An fdatasync settles the writes a full COMMIT was about to sync. -/
theorem Committing.flagged_fdatasync (hwrites : t.writes = s.fdatasync.writes)
    (hent : t.entry = s.entry) (hqs : t.queues = s.queues) : t.AllFlagged := by
  intro w hw hrank
  rw [hwrites] at hw
  obtain ⟨w₀, hw₀, rfl⟩ := mem_map.mp hw
  rcases h.flagged w₀ hw₀ hrank with hs | hf | ⟨happ, -⟩
  · exact .inl (by simp [hs])
  · exact .inr (.inl (hf.congr hent hqs))
  · exact .inl (by simp [happ])

theorem Committing.flagged_same (hent : t.entry = s.entry)
    (hqs : t.queues = s.queues) (hsyncing : s.Syncing → t.Syncing)
    (hwrites : ∀ w ∈ t.writes, marked.rank ≤ w.phase.rank →
      ∃ acked, { w with acked } ∈ s.writes) : t.AllFlagged := by
  intro w hw hrank
  obtain ⟨acked, hold⟩ := hwrites w hw hrank
  exact (h.flagged _ hold hrank).imp_right (Or.imp (·.congr hent hqs) (And.imp_right hsyncing))

end

section

variable {c : Nat} {call : Call} {phase : CallPhase}

theorem Syncing.set (h : s.Syncing) (hcall : s.calls[c]? = some call)
    (hphase : ¬ (call.req.full ∧ call.phase = .syncing))
    (hcalls : t.calls = s.calls.set c { call with phase }) : t.Syncing := by
  obtain ⟨other, hother, hsyncing⟩ := h
  obtain ⟨d, hd⟩ := getElem?_of_mem hother
  have hcd : c ≠ d := by
    rintro rfl
    obtain rfl : call = other := mem_unique hcall hd
    exact hphase hsyncing
  refine ⟨other, ?_, hsyncing⟩
  rw [hcalls]
  exact mem_of_getElem? (by rw [getElem?_set_ne hcd, hd])

theorem Committing.flagged_call (h : Committing s) (hcall : s.calls[c]? = some call)
    (hphase : ¬ (call.req.full ∧ call.phase = .syncing)) (hwrites : t.writes = s.writes)
    (hcalls : t.calls = s.calls.set c { call with phase })
    (hflag : ∀ w ∈ s.writes, marked.rank ≤ w.phase.rank → s.Flagged w.queue →
      t.Flagged w.queue ∨ (w.outcome = .applied ∧ t.Syncing)) : t.AllFlagged := by
  intro w hw hrank
  rw [hwrites] at hw
  rcases h.flagged w hw hrank with hs | hf | ⟨happ, hsyncing⟩
  · exact .inl hs
  · exact .inr (hflag w hw hrank hf)
  · exact .inr (.inr ⟨happ, hsyncing.set hcall hphase hcalls⟩)

theorem Committing.clean (h : Committing s) (hclear : ¬ s.isDirty) (hnone : ¬ s.Syncing)
    (hw : w ∈ s.writes) (hacked : w.acked) : w.synced := by
  rcases h.flagged w hw (Nat.le_trans (by decide) (h.acked w hw hacked)) with hs | hf | ⟨-, hsyncing⟩
  · exact hs
  · exact absurd (isDirty_eq_true.mpr ⟨_, hf⟩) hclear
  · exact absurd hsyncing hnone

theorem Committing.swapped (h : Committing s)
    (happ : ∀ w ∈ s.writes, s.entry = some w.queue ∧ marked.rank ≤ w.phase.rank →
      w.outcome = .applied) (hw : w ∈ s.writes) (hacked : w.acked) : w.outcome = .applied := by
  have hrank : marked.rank ≤ w.phase.rank := Nat.le_trans (by decide) (h.acked w hw hacked)
  rcases h.flagged w hw hrank with hs | hf | ⟨ha, -⟩
  · exact h.applied w hw hs
  · exact happ w hw ⟨hf.entry, hrank⟩
  · exact ha

end

theorem Committing.callStep {c : Nat} {call : Call} {phase : CallPhase} (h : Committing s)
    (hans : s.Answers (.call c res)) (hok : s.FlagUse call) (hcall : s.calls[c]? = some call)
    (hcs : CallStep s call res phase t) :
    ({ t with calls := t.calls.set c { call with phase } } : WriteBehind).AllFlagged ∧
      Call.Fulfilled t.writes { call with phase } := by
  have hmem := mem_of_getElem? hcall
  have hful : call.Fulfilled s.writes := h.calls call hmem
  have hacked : ∀ i ∈ call.covers, ∀ w, s.writes[i]? = some w → w ∈ s.writes ∧ w.acked := by
    intro i hi w hw
    obtain ⟨w₁, hw₁, hacked⟩ := h.covers call hmem i hi
    obtain rfl : w₁ = w := mem_unique hw₁ hw
    exact ⟨mem_of_getElem? hw, hacked⟩
  have hkeep : ∀ {phase}, ¬ (call.req.full ∧ call.phase = .syncing) →
      ({ s with calls := s.calls.set c { call with phase } } : WriteBehind).AllFlagged :=
    fun hphase => h.flagged_call hcall hphase rfl rfl fun w _ _ hf => .inl (hf.congr rfl rfl)
  cases hcs with
  | take hp hnw _ =>
    exact ⟨h.flagged_call hcall (by simp [hp]) rfl rfl
      fun w _ _ hf => .inl (hf.set hnw rfl rfl fun _ hd => hd), by simp [Call.Fulfilled]⟩
  | other hp hreq =>
    have hnot : ¬ call.req.full := by
      cases hr : call.req with
      | commit off len => exact absurd hr (hreq off len)
      | _ => simp [Request.full]
    exact ⟨hkeep (by simp [hp]),
      fun hfull => absurd hfull hnot⟩
  | @swap q nw hp hfull hcur hdirty =>
    have hd : s.isDirty := isDirty_eq_true.mpr ⟨q, nw, hcur, hdirty⟩
    have happ := hok ⟨hfull, hp⟩
    rw [if_pos hd] at happ
    refine ⟨h.flagged_call hcall (by simp [hp]) rfl rfl fun w hw hrank hf => ?_,
      fun _ i hi w hw => ⟨fun _ => ?_, by simp⟩⟩
    · -- the flag is gone, and this COMMIT is about to sync
      exact .inr ⟨happ w hw ⟨hf.entry, hrank⟩, { call with phase := .syncing },
        mem_set (lt_length hcall) _, hfull, rfl⟩
    · obtain ⟨hw, hack⟩ := hacked i hi w hw
      exact h.swapped happ hw hack
  | clean hp hfull hclear =>
    have hnot : ¬ s.isDirty := by
      intro hd
      obtain ⟨q, nw, hcur, hdirty⟩ := isDirty_eq_true.mp hd
      exact absurd hdirty (by simp [hclear q nw hcur])
    have hnone : ¬ s.Syncing := by
      rintro ⟨other, hother, hsyncing⟩
      have hclean := hok ⟨hfull, hp⟩
      rw [if_neg hnot] at hclean
      exact hclean other hother hsyncing
    refine ⟨hkeep (by simp [hp]),
      fun _ i hi w hw => ⟨by simp, fun _ => ?_⟩⟩
    obtain ⟨hw, hack⟩ := hacked i hi w hw
    exact h.clean hnot hnone hw hack
  | ranged hp hnot =>
    exact ⟨hkeep (by simp [hnot]),
      fun hfull => absurd hfull hnot⟩
  | sync hp _ =>
    by_cases hfull : call.req.full
    · rw [if_pos hfull]
      refine ⟨h.flagged_fdatasync rfl rfl rfl, fun _ i hi w hw => ⟨by simp, fun _ => ?_⟩⟩
      obtain ⟨w₀, hw₀, rfl⟩ : ∃ w₀, s.writes[i]? = some w₀ ∧
          { w₀ with synced := w₀.synced || w₀.outcome = .applied } = w := by
        simpa [WriteBehind.fdatasync] using hw
      simp [(hful hfull i hi w₀ hw₀).1 hp]
    · rw [if_neg hfull]
      exact ⟨hkeep (by simp [hfull]),
        fun hf => absurd hf hfull⟩
  | refused hp hres =>
    rw [show res = none from hans.2 _ (stepping_call res hcall) hp] at hres
    cases hres
  | redirty hp hcur =>
    exact ⟨h.flagged_call hcall (by simp [hp]) rfl rfl fun w _ _ hf =>
      .inl (hf.set (current_eq_some.mp hcur).2 rfl rfl fun _ _ => rfl), by simp [Call.Fulfilled]⟩
  | answer hp =>
    exact ⟨hkeep (by simp [hp]),
      fun hfull i hi w hw => ⟨by simp, fun _ => (hful hfull i hi w hw).2 (.inl hp)⟩⟩
  | _ hp =>
    exact ⟨hkeep (by simp [hp]),
      by simp [Call.Fulfilled]⟩

theorem Committing.flagged_drop (h : Committing s) (hok : s.FlagKept a)
    (hent : t.entry = (s.dropEntry a).entry) (hqs : t.queues = s.queues)
    (hcalls : t.calls = s.calls) (hwrites : t.writes = s.writes) : t.AllFlagged := by
  intro w hw hrank
  have hsyncing : s.Syncing → t.Syncing := fun hs => by rwa [Syncing, hcalls]
  refine (h.flagged w (hwrites ▸ hw) hrank).imp_right (Or.imp (fun hf => ?_) (And.imp_right hsyncing))
  have hkept : ¬ s.drops a := fun hdrop => (hok.2 hdrop).2 (isDirty_eq_true.mpr ⟨_, hf⟩)
  exact hf.congr (by rw [hent, WriteBehind.dropEntry, if_neg hkept]) hqs

theorem Committing.step (h : Committing s) (hans : s.Answers a) (hok : s.FlagKept a)
    (hstep : s.step a = some s') : Committing s' := by
  have htracked : Tracked s' := h.toTracked.step (fun hd => (hok.2 hd).1) hstep
  have hcovered : Covered s' := h.toCovered.step h.toTracked hstep
  have hold : ∀ call ∈ s.calls, call.Fulfilled s'.writes := fun call hcall => h.fulfilled hstep hcall
  suffices hrest : s'.AllFlagged ∧ ∀ call ∈ s'.calls, call.Fulfilled s'.writes from
    ⟨htracked, hcovered, h.applied_step hstep, hrest.1, hrest.2⟩
  cases a with
  | tick ms =>
    cases hstep
    exact ⟨h.flagged_same rfl rfl id fun w hw _ => ⟨w.acked, hw⟩, hold⟩
  | recvWrite off len =>
    obtain ⟨-, rfl⟩ := step_recvWrite hstep
    exact ⟨h.flagged_same rfl rfl id (forall_concat (fun w hw _ => ⟨w.acked, hw⟩)
      fun hrank => by simp [rank] at hrank), hold⟩
  | write i res =>
    obtain ⟨w, hw, ⟨hphase, rfl⟩ | ⟨nw, w', nw', hnw, hadv, -, rfl⟩⟩ := stepWrite_cases hstep
    · exact ⟨h.flagged_got rfl rfl rfl rfl, hold⟩
    · exact ⟨h.flagged_advance hw hnw hadv rfl rfl rfl rfl, hold⟩
  | ack i =>
    obtain ⟨w, hw, -, rfl⟩ := step_ack hstep
    exact ⟨h.flagged_same rfl rfl id (forall_set (fun w₁ hw₁ _ => ⟨w₁.acked, hw₁⟩)
      fun _ => ⟨w.acked, mem_of_getElem? hw⟩), hold⟩
  | presync i =>
    obtain rfl := step_presync hstep
    exact ⟨h.flagged_fdatasync rfl rfl rfl, hold⟩
  | recv req =>
    cases hstep
    refine ⟨h.flagged_same rfl rfl (fun hs => ?_) fun w hw _ => ⟨w.acked, hw⟩,
      forall_concat hold (by simp [Call.Fulfilled])⟩
    obtain ⟨call, hcall, hsyncing⟩ := hs
    exact ⟨call, mem_append_left _ hcall, hsyncing⟩
  | call c res =>
    obtain ⟨call, phase, t, hcall, hcs, rfl⟩ := stepCall_cases hstep
    obtain ⟨hflagged, hful⟩ := h.callStep hans (hok.1 _ (stepping_call res hcall)) hcall hcs
    exact ⟨hflagged, forall_set (hcs.calls ▸ hold) hful⟩
  | cleanup | reap =>
    obtain ⟨_, rfl⟩ := step_drop rfl hstep
    obtain ⟨hqs, hcalls, hwrites⟩ := dropEntry_keeps s _
    exact ⟨h.flagged_drop hok rfl hqs hcalls hwrites, fun call hcall => hold call (hcalls ▸ hcall)⟩

end

/-- As long as no RPC fails and the dirty flag is kept, a full COMMIT that succeeds has every write
acknowledged before it synced. -/
theorem commit_durable {s : WriteBehind}
    (h : Runs.Reaches WriteBehind.step (fun s a => s.Answers a ∧ s.FlagKept a) start s) :
    s.CommitsDurable := by
  have hinv : Committing s :=
    h.inv start_committing fun t a u ht hok hstep => ht.step hok.1 hok.2 hstep
  intro call hcall hfull hphase i hi
  obtain ⟨w, hw, -⟩ := hinv.covers call hcall i hi
  have hs : w.synced := (hinv.calls call hcall hfull i hi w hw).2 (.inr hphase)
  simp [hw, hs, hinv.applied w (mem_of_getElem? hw) hs]

/-- Write `i` from its call to the end of its task, acknowledged as soon as the task is spawned. -/
def wholeWrite (i : Nat) : List Action :=
  List.replicate 7 (.write i none) ++ [.ack i] ++ List.replicate 4 (.write i none)

def writeCommitTwice : List Action :=
  [.recvWrite 0 10] ++ wholeWrite 0 ++ [.recv (.commit 0 0)] ++ List.replicate 4 (.call 0 none) ++
    [.tick 9000, .recvWrite 10 10] ++ wholeWrite 1 ++ [.recv (.commit 0 0)] ++
    List.replicate 4 (.call 1 none)

theorem commit_durable_twice : ∃ s,
    Runs.Reaches WriteBehind.step (fun s a => s.Answers a ∧ s.FlagKept a) start s ∧
      (∃ call ∈ s.calls, call.req.full ∧ call.phase = .returned none ∧ call.covers = [0, 1]) ∧
      s.CommitsDurable :=
  Reaches.exists_of_guarded_and
    writeCommitTwice
    (by decide +kernel) fun _ hs => commit_durable hs

/-- The clean-up of one COMMIT drops the queue with a later write's flag: ten seconds after the first
COMMIT, with the second write applied in the meantime. -/
def writeBeforeCleanup : List Action :=
  [.recvWrite 0 10] ++ wholeWrite 0 ++ [.recv (.commit 0 0)] ++ List.replicate 4 (.call 0 none) ++
    [.tick 9000, .recvWrite 10 10] ++ wholeWrite 1 ++ [.tick 1000, .cleanup 0] ++
    [.recv (.commit 0 0)] ++ List.replicate 2 (.call 1 none)

/-- A full COMMIT returns success, though the write acknowledged before it was never synced. -/
theorem commit_loses_flag_at_cleanup :
    ∃ s, Runs.Reaches WriteBehind.step WriteBehind.Answers start s ∧ ¬ s.CommitsDurable :=
  Reaches.exists_of_guarded writeBeforeCleanup (by decide +kernel)

end WriteBehind

end Mist
