import Mist.Hostd.WriteBehind

/-! What the in-flight counter counts. -/

namespace Mist

open List Runs WritePhase WriteCall Bool

def WriteCall.counts (q : Nat) (w : WriteCall) : Bool :=
  w.queue = q && 3 ≤ w.phase.rank && w.phase.rank ≤ 10

def WriteCall.holds (w : WriteCall) : Prop := 1 ≤ w.phase.rank ∧ w.phase.rank ≤ 10

/-- What is true of a write stays true. -/
structure WriteCall.Grows (w w' : WriteCall) : Prop where
  rank : w.phase.rank ≤ w'.phase.rank
  queue : 1 ≤ w.phase.rank → w'.queue = w.queue
  acked : w.acked → w'.acked
  synced : w.synced → w'.synced
  outcome : w.outcome ≠ .pending → w'.outcome = w.outcome

theorem WriteCall.Grows.refl (w : WriteCall) : w.Grows w :=
  ⟨Nat.le_refl _, fun _ => rfl, id, id, fun _ => rfl⟩

/-- The write but for what the client and the guest's disk know of it. -/
def WriteCall.bare (w : WriteCall) : WriteCall := { w with acked := false, synced := false }

def NodeWrites.bare (nw : NodeWrites) : NodeWrites := { nw with err := none, dirty := false }

namespace WriteBehind

def NoneCounting (s : WriteBehind) : Prop :=
  ∀ w ∈ s.writes, s.entry = some w.queue → w.phase ≠ .got ∧ w.phase ≠ .active

instance (s : WriteBehind) : Decidable s.NoneCounting := by
  unfold NoneCounting
  infer_instance

structure Tracked (s : WriteBehind) : Prop where
  entry : ∀ q, s.entry = some q → q < s.queues.length
  queue : ∀ w ∈ s.writes, 1 ≤ w.phase.rank → w.queue < s.queues.length
  inflight : ∀ q nw, s.queues[q]? = some nw → nw.inflight = s.writes.countP (WriteCall.counts q)
  held : ∀ w ∈ s.writes, w.holds → s.entry = some w.queue
  outcome : ∀ w ∈ s.writes, w.outcome = .pending ↔ w.phase.rank ≤ 7

theorem start_tracked : Tracked start :=
  ⟨by simp [start], by simp [start], by simp [start], by simp [start], by simp [start]⟩

variable {s t : WriteBehind} {nw nw' : NodeWrites} {res : Option NfsError} {i q : Nat}
  {w : WriteCall} {call : Call} {phase : CallPhase}

theorem map_set_of_eq {α β : Type} {l : List α} {f : α → β} {a b : α}
    (h : l[i]? = some a) (hf : f b = f a) : (l.set i b).map f = l.map f := by
  apply ext_getElem?
  intro j
  obtain ⟨hlt, rfl⟩ := List.getElem?_eq_some_iff.mp h
  by_cases hj : i = j
  · subst hj
    simp [hf, hlt]
  · simp [getElem?_set_ne hj]

/-- A step that neither moves a write nor changes a counter or the entry. -/
structure Quiet (s t : WriteBehind) : Prop where
  entry : t.entry = s.entry
  queues : t.queues.map NodeWrites.bare = s.queues.map NodeWrites.bare
  writes : t.writes.map WriteCall.bare = s.writes.map WriteCall.bare

theorem Quiet.refl (s : WriteBehind) : Quiet s s := ⟨rfl, rfl, rfl⟩

theorem Quiet.write (hq : Quiet s t) (hw : t.writes[i]? = some w) :
    ∃ w₀ acked synced, s.writes[i]? = some w₀ ∧ w = { w₀ with acked, synced } := by
  have hmap := congrArg (·[i]?) hq.writes
  simp only [getElem?_map, hw, Option.map_some] at hmap
  obtain ⟨w₀, hw₀, hbare⟩ := Option.map_eq_some_iff.mp hmap.symm
  cases w₀
  cases w
  obtain ⟨rfl, rfl, rfl, rfl, rfl, rfl, rfl⟩ := hbare
  exact ⟨_, _, _, hw₀, rfl⟩

theorem Quiet.queue (hq : Quiet s t) (hnw : t.queues[q]? = some nw) :
    ∃ nw₀ err dirty, s.queues[q]? = some nw₀ ∧ nw = { nw₀ with err, dirty } := by
  have hmap := congrArg (·[q]?) hq.queues
  simp only [getElem?_map, hnw, Option.map_some] at hmap
  obtain ⟨nw₀, hnw₀, hbare⟩ := Option.map_eq_some_iff.mp hmap.symm
  cases nw₀
  cases nw
  obtain ⟨rfl, rfl, rfl, rfl, rfl⟩ := hbare
  exact ⟨_, _, _, hnw₀, rfl⟩

theorem Quiet.tracked (hq : Quiet s t) (h : Tracked s) : Tracked t := by
  have hlen : t.queues.length = s.queues.length := by
    simpa using congrArg length hq.queues
  have hmem : ∀ w ∈ t.writes, ∃ w₀ ∈ s.writes, ∃ acked synced, w = { w₀ with acked, synced } := by
    intro w hw
    obtain ⟨i, hi⟩ := getElem?_of_mem hw
    obtain ⟨w₀, acked, synced, hw₀, rfl⟩ := hq.write hi
    exact ⟨w₀, mem_of_getElem? hw₀, acked, synced, rfl⟩
  have hcount : ∀ q, t.writes.countP (counts q) = s.writes.countP (counts q) := by
    intro q
    have := congrArg (countP (counts q)) hq.writes
    rwa [countP_map, countP_map] at this
  refine ⟨fun q hent => ?_, fun w hw hrank => ?_, fun q nw hnw => ?_, fun w hw hhold => ?_,
    fun w hw => ?_⟩
  · rw [hlen]
    exact h.entry q (hq.entry ▸ hent)
  · obtain ⟨w₀, hw₀, acked, synced, rfl⟩ := hmem w hw
    rw [hlen]
    exact h.queue w₀ hw₀ hrank
  · obtain ⟨nw₀, err, dirty, hnw₀, rfl⟩ := hq.queue hnw
    rw [hcount]
    exact h.inflight q nw₀ hnw₀
  · obtain ⟨w₀, hw₀, acked, synced, rfl⟩ := hmem w hw
    rw [hq.entry]
    exact h.held w₀ hw₀ hhold
  · obtain ⟨w₀, hw₀, acked, synced, rfl⟩ := hmem w hw
    exact h.outcome w₀ hw₀

theorem setQueue_quiet
    (hnw : s.queues[q]? = some nw) (h : nw'.bare = nw.bare) : Quiet s (s.setQueue q nw') :=
  ⟨rfl, map_set_of_eq hnw h, rfl⟩

theorem fdatasync_quiet (s : WriteBehind) : Quiet s s.fdatasync := by
  refine ⟨rfl, rfl, ?_⟩
  simp only [fdatasync, map_map]
  rfl

theorem current_eq_some : s.current = some (q, nw) ↔ s.entry = some q ∧ s.queues[q]? = some nw := by
  simp only [current, Option.bind_eq_some_iff, Option.map_eq_some_iff, Prod.mk.injEq]
  constructor
  · rintro ⟨q', hq', nw', hnw', rfl, rfl⟩
    exact ⟨hq', hnw'⟩
  · rintro ⟨hq, hnw⟩
    exact ⟨q, hq, nw, hnw, rfl, rfl⟩

def Has (s : WriteBehind) (p : NodeWrites → Bool) (q : Nat) : Prop :=
  ∃ nw, s.current = some (q, nw) ∧ p nw

section

variable {s t : WriteBehind} {p : NodeWrites → Bool} {q : Nat}

theorem any_current : (s.current.any fun x => p x.2) ↔ ∃ q, s.Has p q := by
  simp only [Option.any_eq_true, Has, Prod.exists]

theorem Has.entry (h : s.Has p q) : s.entry = some q := by
  obtain ⟨nw, hcur, -⟩ := h
  exact (current_eq_some.mp hcur).1

theorem Has.congr (h : s.Has p q) (hent : t.entry = s.entry) (hqs : t.queues = s.queues) :
    t.Has p q := by
  obtain ⟨nw, hcur, hp⟩ := h
  obtain ⟨he, hq⟩ := current_eq_some.mp hcur
  exact ⟨nw, current_eq_some.mpr ⟨hent ▸ he, hqs ▸ hq⟩, hp⟩

theorem Has.set {q' : Nat} {nw nw' : NodeWrites} (h : s.Has p q) (hnw : s.queues[q']? = some nw)
    (hent : t.entry = s.entry) (hqs : t.queues = s.queues.set q' nw')
    (hp : q = q' → p nw → p nw') : t.Has p q := by
  obtain ⟨nw₁, hcur, hp₁⟩ := h
  obtain ⟨he, hq⟩ := current_eq_some.mp hcur
  by_cases hqq : q' = q
  · subst hqq
    obtain rfl : nw = nw₁ := Option.mem_unique hnw hq
    refine ⟨nw', current_eq_some.mpr ⟨hent ▸ he, ?_⟩, hp rfl hp₁⟩
    rw [hqs, getElem?_set_self (lt_length hq)]
  · refine ⟨nw₁, current_eq_some.mpr ⟨hent ▸ he, ?_⟩, hp₁⟩
    rw [hqs, getElem?_set_ne hqq, hq]

theorem Has.got (h : s.Has p q) (hent : t.entry = some s.nodeWrites.1)
    (hqs : t.queues = s.nodeWrites.2) : t.Has p q := by
  obtain ⟨nw, hcur, hp⟩ := h
  obtain ⟨he, hq⟩ := current_eq_some.mp hcur
  exact ⟨nw, current_eq_some.mpr (by simp [hent, hqs, nodeWrites, he, hq]), hp⟩

end

section

variable (h : CallStep s call res phase t)
include h

theorem CallStep.quiet : Quiet s t := by
  cases h with
  | take _ hnw _ => exact setQueue_quiet hnw rfl
  | swap _ _ hcur _ => exact setQueue_quiet (current_eq_some.mp hcur).2 rfl
  | redirty _ hcur => exact setQueue_quiet (current_eq_some.mp hcur).2 rfl
  | sync _ _ =>
    split
    · exact fdatasync_quiet s
    · exact Quiet.refl s
  | answer _ => exact ⟨rfl, rfl, rfl⟩
  | _ => exact Quiet.refl s

theorem CallStep.calls : t.calls = s.calls := by
  cases h with
  | sync _ _ => split <;> rfl
  | _ => rfl

theorem CallStep.not_returned : ¬ call.phase.isReturned := by
  cases h <;> simp_all [CallPhase.isReturned]

end

section

variable {w' : WriteCall} {now : Nat} (h : w.advance nw i now res = some (w', nw'))
include h

theorem advance_inflight (hpos : w.counts w.queue → 0 < nw.inflight) :
    nw'.inflight = nw.inflight - (if w.counts w.queue then 1 else 0) +
      (if w'.counts w.queue then 1 else 0) := by
  unfold advance at h
  cases hphase : w.phase <;>
    simp only [hphase, reduceCtorEq, Option.some.injEq, Prod.mk.injEq] at h hpos <;>
    obtain ⟨rfl, rfl⟩ := h <;> simp [counts, hphase, rank] at hpos ⊢ <;>
    (try split) <;> (try simp) <;> omega

theorem advance_outcome (hw : w.outcome = .pending ↔ w.phase.rank ≤ 7) :
    w'.outcome = .pending ↔ w'.phase.rank ≤ 7 := by
  unfold advance at h
  cases hphase : w.phase <;>
    simp only [hphase, reduceCtorEq, Option.some.injEq, Prod.mk.injEq] at h hw <;>
    obtain ⟨rfl, -⟩ := h <;> cases res <;> simp_all [rank, Outcome.of]

end

section

variable {s s' : WriteBehind} {i : Nat} {w w' : WriteCall} {res : Option NfsError}

theorem Tracked.pos (h : Tracked s) (hw : w ∈ s.writes) {q : Nat} {nw : NodeWrites}
    (hnw : s.queues[q]? = some nw) (hcounts : w.counts q) : 0 < nw.inflight := by
  rw [h.inflight q nw hnw]
  exact countP_pos_iff.mpr ⟨w, hw, hcounts⟩

theorem Tracked.getQueue (h : Tracked s) (hw : s.writes[i]? = some w) (hphase : w.phase = .received) :
    Tracked { s with
      queues := s.nodeWrites.2
      entry := some s.nodeWrites.1
      writes := s.writes.set i { w with phase := .got, queue := s.nodeWrites.1 } } := by
  obtain ⟨hlt, hwi⟩ := List.getElem?_eq_some_iff.mp hw
  have hcount : ∀ q, (s.writes.set i { w with phase := .got, queue := s.nodeWrites.1 }).countP
      (counts q) = s.writes.countP (counts q) := fun q => by
    rw [countP_set hlt, hwi]
    simp [counts, hphase, rank]
  have houtcome : ∀ w₁ ∈ s.writes.set i { w with phase := .got, queue := s.nodeWrites.1 },
      w₁.outcome = .pending ↔ w₁.phase.rank ≤ 7 := by
    refine forall_set h.outcome ?_
    simpa [hphase, rank] using h.outcome w (mem_of_getElem? hw)
  unfold nodeWrites at hcount houtcome ⊢
  cases hent : s.entry with
  | some q =>
    simp only [hent] at hcount houtcome ⊢
    refine ⟨fun q' hq' => ?_, forall_set h.queue fun _ => h.entry q hent, fun q' nw hnw => ?_,
      forall_set (hent ▸ h.held) fun _ => rfl, houtcome⟩
    · cases hq'
      exact h.entry _ hent
    · rw [hcount]
      exact h.inflight q' nw hnw
  | none =>
    simp only [hent] at hcount houtcome ⊢
    refine ⟨fun q' hq' => ?_, fun w₁ hw₁ hrank => ?_, fun q' nw hnw => ?_, fun w₁ hw₁ hhold => ?_,
      houtcome⟩
    · cases hq'
      simp
    · rw [length_append, length_singleton]
      rcases mem_or_eq_of_mem_set hw₁ with hold | rfl
      · have := h.queue w₁ hold hrank
        omega
      · exact Nat.lt_succ_self _
    · rw [hcount]
      rcases Nat.lt_trichotomy q' s.queues.length with hq' | rfl | hq'
      · rw [getElem?_append_left hq'] at hnw
        exact h.inflight q' nw hnw
      · -- no write has the new queue yet
        rw [getElem?_concat_length, Option.some.injEq] at hnw
        subst hnw
        refine (countP_eq_zero.mpr fun w₁ hw₁ hcounts => ?_).symm
        simp only [counts, and_eq_true, decide_eq_true_eq] at hcounts
        have := h.queue w₁ hw₁ (by omega)
        omega
      · rw [getElem?_eq_none (by simp; omega)] at hnw
        cases hnw
    · rcases mem_or_eq_of_mem_set hw₁ with hold | rfl
      · have := h.held w₁ hold hhold
        rw [hent] at this
        cases this
      · rfl

theorem Tracked.advance (h : Tracked s) {nw nw' : NodeWrites} (hw : s.writes[i]? = some w)
    (hnw : s.queues[w.queue]? = some nw) (hadv : w.advance nw i s.now res = some (w', nw')) :
    Tracked { s with writes := s.writes.set i w', queues := s.queues.set w.queue nw' } := by
  obtain ⟨hlt, hwi⟩ := List.getElem?_eq_some_iff.mp hw
  have hmem : w ∈ s.writes := mem_of_getElem? hw
  obtain ⟨hqueue, -, -, hrank, hpos⟩ := advance_frame hadv
  have hother : ∀ q, q ≠ w.queue → ¬ w.counts q ∧ ¬ w'.counts q := fun q hq => by
    simp [counts, hqueue, Ne.symm hq]
  refine ⟨fun q hq => ?_, fun w₁ hw₁ hr => ?_, fun q nw₁ hnw₁ => ?_, forall_set h.held fun hhold => ?_,
    forall_set h.outcome (advance_outcome hadv (h.outcome w hmem))⟩
  · rw [length_set]
    exact h.entry q hq
  · rw [length_set]
    exact forall_set h.queue (fun _ => hqueue ▸ h.queue w hmem hpos) w₁ hw₁ hr
  · rw [countP_set hlt, hwi]
    by_cases hq : q = w.queue
    · subst hq
      have hset : (s.queues.set w.queue nw')[w.queue]? = some nw' := by
        rw [List.getElem?_set_self (lt_length hnw)]
      obtain rfl : nw' = nw₁ := Option.mem_unique hset hnw₁
      rw [advance_inflight hadv (h.pos hmem hnw), h.inflight _ nw hnw]
    · rw [getElem?_set_ne (Ne.symm hq)] at hnw₁
      rw [if_neg (hother q hq).1, if_neg (hother q hq).2, h.inflight q nw₁ hnw₁]
      rfl
  · rw [hqueue]
    refine h.held w hmem ⟨hpos, ?_⟩
    have := hhold.2
    omega

variable {a : Action}

theorem drops_idle (h : s.drops a) :
    ∃ q nw, s.entry = some q ∧ s.queues[q]? = some nw ∧ nw.inflight = 0 := by
  unfold drops at h
  split at h
  · obtain ⟨⟨q, nw⟩, hcur, hidle⟩ := (Option.any_eq_true ..).mp h
    exact ⟨q, nw, (current_eq_some.mp hcur).1, (current_eq_some.mp hcur).2, by simpa using hidle⟩
  · obtain ⟨⟨q, nw⟩, hcur, hidle⟩ := (Option.any_eq_true ..).mp h
    refine ⟨q, nw, (current_eq_some.mp hcur).1, (current_eq_some.mp hcur).2, ?_⟩
    simp only [NodeWrites.idle, and_eq_true, decide_eq_true_eq] at hidle
    exact hidle.1
  · cases h

theorem Tracked.dropEntry (h : Tracked s) (hok : s.drops a → s.NoneCounting) :
    Tracked (s.dropEntry a) := by
  unfold WriteBehind.dropEntry
  split_ifs with hdrop
  · obtain ⟨q, nw, hent, hnw, hidle⟩ := drops_idle hdrop
    refine { h with entry := by simp, held := fun w hw hhold => ?_ }
    -- a write that has the queue is counted, but nothing is
    have hq := h.held w hw hhold
    obtain rfl : q = w.queue := Option.mem_unique hent hq
    obtain ⟨hgot, hactive⟩ := hok hdrop w hw hq
    have hcounts : w.counts w.queue := by
      obtain ⟨h1, h2⟩ := hhold
      simp only [counts, decide_true, Bool.true_and, Bool.and_eq_true, decide_eq_true_eq]
      have hne1 : w.phase.rank ≠ 1 := fun he => hgot (rank_injective he)
      have hne2 : w.phase.rank ≠ 2 := fun he => hactive (rank_injective he)
      omega
    have := h.pos hw hnw hcounts
    omega
  · exact h

theorem step_quiet (ha : a.isQuiet) (hstep : s.step a = some s') : Quiet s s' := by
  cases a with
  | tick | recv =>
    cases hstep
    exact ⟨rfl, rfl, rfl⟩
  | ack i =>
    obtain ⟨w, hw, -, rfl⟩ := step_ack hstep
    exact ⟨rfl, rfl, map_set_of_eq hw rfl⟩
  | presync i =>
    obtain rfl := step_presync hstep
    exact fdatasync_quiet s
  | call c res =>
    obtain ⟨call, phase, t, -, hcall, rfl⟩ := stepCall_cases hstep
    exact { hcall.quiet with }
  | _ => cases ha

theorem Tracked.step (h : Tracked s) (hok : s.drops a → s.NoneCounting)
    (hstep : s.step a = some s') : Tracked s' := by
  cases a with
  | tick | ack | presync | recv | call => exact (step_quiet rfl hstep).tracked h
  | recvWrite off len =>
    obtain ⟨-, rfl⟩ := step_recvWrite hstep
    refine ⟨h.entry, forall_concat h.queue nofun, fun q nw hnw => ?_,
      forall_concat h.held fun hhold => (nomatch hhold.1), forall_concat h.outcome (by simp [rank])⟩
    rw [countP_append, h.inflight q nw hnw]
    simp [counts, rank]
  | write i res =>
    obtain ⟨w, hw, ⟨hphase, rfl⟩ | ⟨nw, w', nw', hnw, hadv, -, rfl⟩⟩ := stepWrite_cases hstep
    · exact h.getQueue hw hphase
    · exact h.advance hw hnw hadv
  | cleanup | reap =>
    obtain ⟨_, rfl⟩ := step_drop rfl hstep
    exact { h.dropEntry hok with }

end

inductive Changes (s : WriteBehind) (a : Action) (i : Nat) (w : WriteCall) : WriteCall → Prop
  | same : Changes s a i w w
  | got : w.phase = .received → Changes s a i w { w with phase := .got, queue := s.nodeWrites.1 }
  | advance {nw nw' : NodeWrites} {w' : WriteCall} {res : Option NfsError} : a = .write i res →
    s.queues[w.queue]? = some nw → w.advance nw i s.now res = some (w', nw') → Changes s a i w w'
  | acked : WritePhase.waiting.rank ≤ w.phase.rank → Changes s a i w { w with acked := true }
  | synced : Changes s a i w { w with synced := w.synced || w.outcome = .applied }

section

variable {s s' : WriteBehind} {i j : Nat} {w w' w₁ : WriteCall} {res : Option NfsError} {a : Action}

theorem set_changes (hw : s.writes[i]? = some w) (h : s.Changes a i w w')
    (hj : s.writes[j]? = some w₁) :
    ∃ w₂, (s.writes.set i w')[j]? = some w₂ ∧ s.Changes a j w₁ w₂ := by
  by_cases hij : i = j
  · subst hij
    obtain rfl : w = w₁ := Option.mem_unique hw hj
    exact ⟨w', getElem?_set_self (lt_length hj), h⟩
  · exact ⟨w₁, by rw [getElem?_set_ne hij, hj], .same⟩

theorem fdatasync_changes (hj : s.writes[j]? = some w) :
    ∃ w', s.fdatasync.writes[j]? = some w' ∧ s.Changes a j w w' :=
  ⟨_, by simp [fdatasync, hj], .synced⟩

theorem CallStep.changes {t : WriteBehind} {call : Call} {phase : CallPhase}
    (h : CallStep s call res phase t) (hj : s.writes[j]? = some w) :
    ∃ w', t.writes[j]? = some w' ∧ s.Changes a j w w' := by
  cases h with
  | sync _ _ =>
    split
    · exact fdatasync_changes hj
    · exact ⟨w, hj, .same⟩
  | _ => exact ⟨w, hj, .same⟩

theorem dropEntry_keeps (s : WriteBehind) (a : Action) :
    (s.dropEntry a).queues = s.queues ∧ (s.dropEntry a).calls = s.calls ∧
      (s.dropEntry a).writes = s.writes := by
  unfold dropEntry
  split <;> exact ⟨rfl, rfl, rfl⟩

theorem step_write (hstep : s.step a = some s') (hj : s.writes[j]? = some w) :
    ∃ w', s'.writes[j]? = some w' ∧ s.Changes a j w w' := by
  cases a with
  | tick ms =>
    cases hstep
    exact ⟨w, hj, .same⟩
  | recvWrite off len =>
    obtain ⟨-, rfl⟩ := step_recvWrite hstep
    exact ⟨w, by rw [getElem?_append_left (lt_length hj), hj], .same⟩
  | write i res =>
    obtain ⟨w₁, hw₁, ⟨hphase, rfl⟩ | ⟨nw, w', nw', hnw, hadv, -, rfl⟩⟩ := stepWrite_cases hstep
    · exact set_changes hw₁ (.got hphase) hj
    · exact set_changes hw₁ (.advance rfl hnw hadv) hj
  | ack i =>
    obtain ⟨w₁, hw₁, hrank, rfl⟩ := step_ack hstep
    exact set_changes hw₁ (.acked hrank) hj
  | presync i =>
    obtain rfl := step_presync hstep
    exact fdatasync_changes hj
  | recv req =>
    cases hstep
    exact ⟨w, hj, .same⟩
  | call c res =>
    obtain ⟨call, phase, t, -, hcall, rfl⟩ := stepCall_cases hstep
    exact hcall.changes hj
  | cleanup | reap =>
    obtain ⟨_, rfl⟩ := step_drop rfl hstep
    exact ⟨w, by rw [(dropEntry_keeps s _).2.2, hj], .same⟩

theorem step_write_new (hstep : s.step a = some s') (hnone : s.writes[j]? = none)
    (hj : s'.writes[j]? = some w) :
    w.phase = .received ∧ w.outcome = .pending ∧ w.acked = false ∧ w.synced = false ∧
      w.len ≠ 0 := by
  have hlen := getElem?_eq_none_iff.mp hnone
  have hlt := lt_length hj
  cases a with
  | tick | ack | presync | recv | call =>
    have hsame := congrArg length (step_quiet rfl hstep).writes
    rw [length_map, length_map] at hsame
    omega
  | recvWrite off len =>
    obtain ⟨hlen0, rfl⟩ := step_recvWrite hstep
    rw [getElem?_append_right hlen, getElem?_singleton] at hj
    obtain ⟨_, rfl⟩ := Option.ite_some_none_eq_some.mp hj
    exact ⟨rfl, rfl, rfl, rfl, hlen0⟩
  | write i res =>
    obtain ⟨w₁, hw₁, ⟨hphase, rfl⟩ | ⟨nw, w', nw', hnw, hadv, -, rfl⟩⟩ := stepWrite_cases hstep <;>
      exact absurd (length_set ▸ hlt) (by omega)
  | cleanup | reap =>
    obtain ⟨_, rfl⟩ := step_drop rfl hstep
    exact absurd ((dropEntry_keeps s _).2.2 ▸ hlt) (by omega)

theorem advance_grows {nw nw' : NodeWrites} {now : Nat}
    (hadv : w.advance nw i now res = some (w', nw'))
    (hout : w.outcome = .pending ↔ w.phase.rank ≤ 7) : w.Grows w' := by
  obtain ⟨hqueue, hacked, hsynced, hrank, -⟩ := advance_frame hadv
  refine ⟨by omega, fun _ => hqueue, by simp [hacked], by simp [hsynced], fun hne => ?_⟩
  unfold advance at hadv
  cases hphase : w.phase <;>
    simp only [hphase, reduceCtorEq, Option.some.injEq, Prod.mk.injEq] at hadv hout <;>
    obtain ⟨rfl, -⟩ := hadv <;> first | rfl | exact absurd (hout.mpr (by decide)) hne

theorem Changes.grows (h : s.Changes a i w w') (hout : w.outcome = .pending ↔ w.phase.rank ≤ 7) :
    w.Grows w' := by
  cases h with
  | same => exact .refl w
  | got hphase =>
    exact ⟨by simp [hphase, rank], by simp [hphase, rank], id, id, fun _ => rfl⟩
  | advance _ _ hadv => exact advance_grows hadv hout
  | acked _ => exact ⟨Nat.le_refl _, fun _ => rfl, fun _ => rfl, id, fun _ => rfl⟩
  | synced => exact ⟨Nat.le_refl _, fun _ => rfl, id, fun hs => by simp [hs], fun _ => rfl⟩

theorem Tracked.grows (h : Tracked s) (hstep : s.step a = some s') (hj : s.writes[j]? = some w) :
    ∃ w', s'.writes[j]? = some w' ∧ w.Grows w' := by
  obtain ⟨w', hw', hch⟩ := step_write hstep hj
  exact ⟨w', hw', hch.grows (h.outcome w (mem_of_getElem? hj))⟩

theorem applied_of_not_failed (hp : w.outcome ≠ .pending) (hf : ¬ w.outcome.isFailed) :
    w.outcome = .applied := by
  cases h : w.outcome with
  | pending => exact absurd h hp
  | applied => rfl
  | failed e => simp [h, Outcome.isFailed] at hf

structure Covered (s : WriteBehind) : Prop where
  acked : ∀ w ∈ s.writes, w.acked → WritePhase.waiting.rank ≤ w.phase.rank
  covers : ∀ call ∈ s.calls, ∀ i ∈ call.covers, ∃ w, s.writes[i]? = some w ∧ w.acked

theorem start_covered : Covered start := ⟨by simp [start], by simp [start]⟩

theorem step_calls (hstep : s.step a = some s') :
    s'.calls = s.calls ∨
    (∃ req, a = .recv req ∧ s'.writes = s.writes ∧
      s'.calls = s.calls ++ [{ req, phase := .received
                               covers := (range s.writes.length).filter fun i =>
                                 s.writes[i]?.any acked }]) ∨
    ∃ c res call phase t, a = .call c res ∧ s.calls[c]? = some call ∧ CallStep s call res phase t ∧
      s'.calls = s.calls.set c { call with phase } := by
  cases a with
  | tick ms =>
    cases hstep
    exact .inl rfl
  | recvWrite off len =>
    obtain ⟨-, rfl⟩ := step_recvWrite hstep
    exact .inl rfl
  | write i res =>
    obtain ⟨w₁, hw₁, ⟨hphase, rfl⟩ | ⟨nw, w', nw', hnw, hadv, -, rfl⟩⟩ := stepWrite_cases hstep <;>
      exact .inl rfl
  | ack i =>
    obtain ⟨_, -, -, rfl⟩ := step_ack hstep
    exact .inl rfl
  | presync i =>
    obtain rfl := step_presync hstep
    exact .inl rfl
  | recv req =>
    cases hstep
    exact .inr (.inl ⟨req, rfl, rfl, rfl⟩)
  | call c res =>
    obtain ⟨call, phase, t, hcall, hcs, rfl⟩ := stepCall_cases hstep
    exact .inr (.inr ⟨c, res, call, phase, t, rfl, hcall, hcs, by rw [hcs.calls]⟩)
  | cleanup | reap =>
    obtain ⟨_, rfl⟩ := step_drop rfl hstep
    exact .inl (dropEntry_keeps s _).2.1

theorem Covered.step (h : Covered s) (ht : Tracked s) (hstep : s.step a = some s') : Covered s' := by
  have hgrow : ∀ covers : List Nat, (∀ i ∈ covers, ∃ w, s.writes[i]? = some w ∧ w.acked) →
      ∀ i ∈ covers, ∃ w, s'.writes[i]? = some w ∧ w.acked := by
    intro covers hc i hi
    obtain ⟨w, hw, hacked⟩ := hc i hi
    obtain ⟨w', hw', hg⟩ := ht.grows hstep hw
    exact ⟨w', hw', hg.acked hacked⟩
  refine ⟨fun w' hw' hacked => ?_, fun call hcall => ?_⟩
  · obtain ⟨j, hj⟩ := getElem?_of_mem hw'
    cases hold : s.writes[j]? with
    | none => simp [(step_write_new hstep hold hj).2.2.1] at hacked
    | some w =>
      obtain ⟨w₁, hw₁, hch⟩ := step_write hstep hold
      obtain rfl : w₁ = w' := Option.mem_unique hw₁ hj
      have hmem := mem_of_getElem? hold
      have hrank := (hch.grows (ht.outcome w hmem)).rank
      cases hch with
      | acked hw => exact hw
      | advance _ _ hadv =>
        rw [(advance_frame hadv).2.1] at hacked
        exact Nat.le_trans (h.acked w hmem hacked) hrank
      | _ => exact Nat.le_trans (h.acked w hmem hacked) hrank
  · rcases step_calls hstep with
      hsame | ⟨req, -, hwrites, happ⟩ | ⟨c, res, call₀, phase, t, -, hcall₀, -, hset⟩
    · exact hgrow _ (h.covers call (hsame ▸ hcall))
    · rcases mem_append_cases (happ ▸ hcall) with hold | rfl
      · exact hgrow _ (h.covers call hold)
      · intro i hi
        rw [hwrites]
        obtain ⟨w, hw, hacked⟩ := (Option.any_eq_true ..).mp (mem_filter.mp hi).2
        exact ⟨w, hw, hacked⟩
    · rcases mem_or_eq_of_mem_set (hset ▸ hcall) with hold | rfl
      · exact hgrow _ (h.covers call hold)
      · exact hgrow _ (h.covers call₀ (mem_of_getElem? hcall₀))

end

end WriteBehind

end Mist
