import Mist.Hostd.Inflight

/-! The ranges a queue holds while its batches are under way. -/

namespace Mist

open List Option Runs WritePhase WriteCall

section

variable {w w' : WriteCall} {nw nw' : NodeWrites} {i now : Nat} {res : Option NfsError}

variable (h : w.advance nw i now res = some (w', nw'))
include h

theorem advance_batch :
    w'.off = w.off ∧ w'.len = w.len ∧
      (w.phase = .marked → w'.batch = nw.nextBatchId ∧ nw'.nextBatchId = nw.nextBatchId + 1) ∧
      (w.phase ≠ .marked → w'.batch = w.batch ∧ nw'.nextBatchId = nw.nextBatchId) := by
  unfold advance at h
  cases hphase : w.phase <;> simp only [hphase, reduceCtorEq, some.injEq, Prod.mk.injEq] at h <;>
    obtain ⟨rfl, rfl⟩ := h <;> simp
  cases w.outcome <;> rfl

theorem advance_ranges {r : UInt64 × UInt64 × Nat} (hr : r ∈ nw.pendingRanges)
    (hne : w.phase = .recorded → r.2.2 ≠ w.batch) : r ∈ nw'.pendingRanges := by
  unfold advance at h
  cases hphase : w.phase <;> simp only [hphase, reduceCtorEq, some.injEq, Prod.mk.injEq] at h <;>
    obtain ⟨rfl, rfl⟩ := h
  case numbered => exact mem_append_left _ hr
  case written => cases w.outcome <;> exact hr
  case recorded => simpa [hr] using hne hphase
  all_goals exact hr

theorem advance_registers
    (hphase : w.phase = .numbered) : (w.off, w.len, w.batch) ∈ nw'.pendingRanges := by
  simp only [advance, hphase, some.injEq, Prod.mk.injEq] at h
  obtain ⟨-, rfl⟩ := h
  simp

end

namespace WriteBehind

structure Ranged (s : WriteBehind) : Prop where
  numbered : ∀ (i : Nat) (w : WriteCall) (nw : NodeWrites), s.writes[i]? = some w →
    WritePhase.numbered.rank ≤ w.phase.rank → s.queues[w.queue]? = some nw → w.batch < nw.nextBatchId
  unique : ∀ (i j : Nat) (w w' : WriteCall), s.writes[i]? = some w → s.writes[j]? = some w' → i ≠ j →
    WritePhase.numbered.rank ≤ w.phase.rank → WritePhase.numbered.rank ≤ w'.phase.rank →
    w.queue = w'.queue → w.batch ≠ w'.batch
  ranged : ∀ (i : Nat) (w : WriteCall) (nw : NodeWrites), s.writes[i]? = some w →
    WritePhase.ranged.rank ≤ w.phase.rank → w.phase.rank ≤ WritePhase.recorded.rank →
    s.queues[w.queue]? = some nw → (w.off, w.len, w.batch) ∈ nw.pendingRanges

theorem start_ranged : Ranged start := ⟨by simp [start], by simp [start], by simp [start]⟩

section

variable {s s' t : WriteBehind} {i : Nat} {w w' : WriteCall} {res : Option NfsError}

theorem Quiet.ranged (hq : Quiet s t) (h : Ranged s) : Ranged t := by
  refine ⟨fun i w nw hw hrank hnw => ?_, fun i j w w' hw hw' => ?_, fun i w nw hw hlow hhigh hnw => ?_⟩
  · obtain ⟨w₀, acked, synced, hw₀, rfl⟩ := hq.write hw
    obtain ⟨nw₀, err, dirty, hnw₀, rfl⟩ := hq.queue hnw
    exact h.numbered i w₀ nw₀ hw₀ hrank hnw₀
  · obtain ⟨w₀, acked, synced, hw₀, rfl⟩ := hq.write hw
    obtain ⟨w₀', acked', synced', hw₀', rfl⟩ := hq.write hw'
    exact h.unique i j w₀ w₀' hw₀ hw₀'
  · obtain ⟨w₀, acked, synced, hw₀, rfl⟩ := hq.write hw
    obtain ⟨nw₀, err, dirty, hnw₀, rfl⟩ := hq.queue hnw
    exact h.ranged i w₀ nw₀ hw₀ hlow hhigh hnw₀

theorem Ranged.of_kept (h : Ranged s)
    (hwrites : ∀ (i : Nat) (w : WriteCall), t.writes[i]? = some w →
      WritePhase.numbered.rank ≤ w.phase.rank →
      s.writes[i]? = some w ∧ t.queues[w.queue]? = s.queues[w.queue]?) : Ranged t := by
  refine ⟨fun i w nw hw hrank hnw => ?_, fun i j w w' hw hw' hij hr hr' => ?_,
    fun i w nw hw hlow hhigh hnw => ?_⟩
  · obtain ⟨hold, hsame⟩ := hwrites i w hw hrank
    exact h.numbered i w nw hold hrank (hsame ▸ hnw)
  · exact h.unique i j w w' (hwrites i w hw hr).1 (hwrites j w' hw' hr').1 hij hr hr'
  · obtain ⟨hold, hsame⟩ := hwrites i w hw (Nat.le_trans (by decide) hlow)
    exact h.ranged i w nw hold hlow hhigh (hsame ▸ hnw)

theorem Ranged.getQueue (h : Ranged s) (ht : Tracked s) (hqs : t.queues = s.nodeWrites.2)
    (hwrites : t.writes = s.writes.set i { w with phase := .got, queue := s.nodeWrites.1 }) :
    Ranged t := by
  refine h.of_kept fun j w₁ hw₁ hrank => ?_
  rw [hwrites] at hw₁
  rcases getElem?_set_cases hw₁ with ⟨-, rfl⟩ | ⟨-, hold⟩
  · simp [rank] at hrank
  refine ⟨hold, ?_⟩
  rw [hqs, nodeWrites]
  cases s.entry with
  | some q => rfl
  | none =>
    refine getElem?_append_left (ht.queue w₁ (mem_of_getElem? hold) ?_)
    exact Nat.le_trans (by decide) hrank

theorem Ranged.advance (h : Ranged s) {nw nw' : NodeWrites} (hw : s.writes[i]? = some w)
    (hnw : s.queues[w.queue]? = some nw) (hadv : w.advance nw i s.now res = some (w', nw'))
    (hqs : t.queues = s.queues.set w.queue nw') (hwrites : t.writes = s.writes.set i w') :
    Ranged t := by
  obtain ⟨hqueue, -, -, hnext, -⟩ := advance_frame hadv
  obtain ⟨hoff, hlen, hmarked, hother⟩ := advance_batch hadv
  have hmine : t.queues[w.queue]? = some nw' := by
    rw [hqs, getElem?_set_self (lt_length hnw)]
  have hgrow : nw.nextBatchId ≤ nw'.nextBatchId := by
    by_cases hm : w.phase = .marked
    · rw [(hmarked hm).2]
      omega
    · exact Nat.le_of_eq (hother hm).2.symm
  have hnumbered : WritePhase.numbered.rank ≤ w'.phase.rank → w.phase ≠ .marked →
      WritePhase.numbered.rank ≤ w.phase.rank := fun hr hm => by
    have hne : w.phase.rank ≠ 4 := fun he => hm (rank_injective he)
    change 5 ≤ _ at hr ⊢
    omega
  -- the batch that takes its step now, against any other batch of the queue
  have hnew : ∀ (j : Nat) (w₁ : WriteCall), s.writes[j]? = some w₁ → i ≠ j →
      WritePhase.numbered.rank ≤ w'.phase.rank → WritePhase.numbered.rank ≤ w₁.phase.rank →
      w.queue = w₁.queue → w'.batch ≠ w₁.batch := by
    intro j w₁ hw₁ hij hr hr₁ hq
    by_cases hm : w.phase = .marked
    · rw [(hmarked hm).1]
      have := h.numbered j w₁ nw hw₁ hr₁ (hq ▸ hnw)
      omega
    · rw [(hother hm).1]
      exact h.unique i j w w₁ hw hw₁ hij (hnumbered hr hm) hr₁ hq
  refine ⟨fun j w₁ nw₁ hw₁ hrank hnw₁ => ?_, fun j k w₁ w₂ hw₁ hw₂ hjk hr₁ hr₂ hq => ?_,
    fun j w₁ nw₁ hw₁ hlow hhigh hnw₁ => ?_⟩
  · rw [hwrites] at hw₁
    rcases getElem?_set_cases hw₁ with ⟨-, rfl⟩ | ⟨-, hold⟩
    · rw [hqueue, hmine] at hnw₁
      cases hnw₁
      by_cases hm : w.phase = .marked
      · rw [(hmarked hm).1, (hmarked hm).2]
        omega
      · rw [(hother hm).1, (hother hm).2]
        exact h.numbered i w nw hw (hnumbered hrank hm) hnw
    · by_cases hq : w.queue = w₁.queue
      · rw [← hq, hmine] at hnw₁
        cases hnw₁
        exact Nat.lt_of_lt_of_le (h.numbered j w₁ nw hold hrank (hq ▸ hnw)) hgrow
      · rw [hqs, getElem?_set_ne hq] at hnw₁
        exact h.numbered j w₁ nw₁ hold hrank hnw₁
  · rw [hwrites] at hw₁ hw₂
    rcases getElem?_set_cases hw₁ with ⟨rfl, rfl⟩ | ⟨hij, hold₁⟩ <;>
      rcases getElem?_set_cases hw₂ with ⟨rfl, rfl⟩ | ⟨hik, hold₂⟩
    · exact absurd rfl hjk
    · exact hnew k w₂ hold₂ hik hr₁ hr₂ (hqueue ▸ hq)
    · exact (hnew j w₁ hold₁ hij hr₂ hr₁ (hqueue ▸ hq.symm)).symm
    · exact h.unique j k w₁ w₂ hold₁ hold₂ hjk hr₁ hr₂ hq
  · rw [hwrites] at hw₁
    rcases getElem?_set_cases hw₁ with ⟨-, rfl⟩ | ⟨hij, hold⟩
    · rw [hqueue, hmine] at hnw₁
      cases hnw₁
      have hm : w.phase ≠ .marked := by
        rintro hm
        rw [hnext, hm] at hlow
        exact absurd hlow (by decide)
      rw [hoff, hlen, (hother hm).1]
      by_cases hphase : w.phase = .numbered
      · exact advance_registers hadv hphase
      refine advance_ranges hadv (h.ranged i w nw hw ?_ ?_ hnw) fun hrec => ?_
      · have hne : w.phase.rank ≠ 5 := fun he => hphase (rank_injective he)
        have hge := hnumbered (Nat.le_trans (by decide) hlow) hm
        change 6 ≤ _
        change 5 ≤ _ at hge
        omega
      · omega
      · rw [hnext, hrec] at hhigh
        exact absurd hhigh (by decide)
    · by_cases hq : w.queue = w₁.queue
      · rw [← hq, hmine] at hnw₁
        cases hnw₁
        refine advance_ranges hadv (h.ranged j w₁ nw hold hlow hhigh (hq ▸ hnw)) fun hrec => ?_
        refine h.unique j i w₁ w hold hw (Ne.symm hij) (Nat.le_trans (by decide) hlow) ?_ hq.symm
        simp [hrec, rank]
      · rw [hqs, getElem?_set_ne hq] at hnw₁
        exact h.ranged j w₁ nw₁ hold hlow hhigh hnw₁

theorem Ranged.step (h : Ranged s) (ht : Tracked s) {a : Action} (hstep : s.step a = some s') :
    Ranged s' := by
  cases a with
  | tick | ack | presync | recv | call => exact (step_quiet rfl hstep).ranged h
  | recvWrite off len =>
    obtain ⟨-, rfl⟩ := step_recvWrite hstep
    refine h.of_kept fun j w hw hrank => ⟨?_, rfl⟩
    by_cases hj : j < s.writes.length
    · rwa [getElem?_append_left hj] at hw
    · rw [getElem?_append_right (by omega), getElem?_singleton] at hw
      obtain ⟨_, rfl⟩ := ite_some_none_eq_some.mp hw
      simp [rank] at hrank
  | write i res =>
    obtain ⟨w, hw, ⟨hphase, rfl⟩ | ⟨nw, w', nw', hnw, hadv, -, rfl⟩⟩ := stepWrite_cases hstep
    · exact h.getQueue ht rfl rfl
    · exact h.advance hw hnw hadv rfl rfl
  | cleanup | reap =>
    obtain ⟨_, rfl⟩ := step_drop rfl hstep
    obtain ⟨hqs, -, hwrites⟩ := dropEntry_keeps s _
    exact h.of_kept fun j w hw _ => ⟨hwrites ▸ hw, by rw [hqs]⟩

end

/-- As long as no queue is dropped between a write's look-up and its count, a write that is
acknowledged but not through has its count and its range in the map's queue: a drain waits for it. -/
theorem acked_waits {s : WriteBehind}
    (h : Reaches WriteBehind.step (fun s a => s.drops a → s.NoneCounting) start s) {w : WriteCall}
    (hw : w ∈ s.writes) (hacked : w.acked) (hpending : w.outcome = .pending) :
    ∃ nw, s.current = some (w.queue, nw) ∧ 0 < nw.inflight ∧
      (w.off, w.len, w.batch) ∈ nw.pendingRanges := by
  obtain ⟨ht, hc, hr⟩ : Tracked s ∧ Covered s ∧ Ranged s :=
    h.inv (I := fun s => Tracked s ∧ Covered s ∧ Ranged s)
      ⟨start_tracked, start_covered, start_ranged⟩ fun _ _ _ ⟨ht, hc, hr⟩ hok hstep =>
      ⟨ht.step hok hstep, hc.step ht hstep, hr.step ht hstep⟩
  have hlow : 7 ≤ w.phase.rank := hc.acked w hw hacked
  have hhigh := (ht.outcome w hw).mp hpending
  have hent := ht.held w hw ⟨by omega, by omega⟩
  have hnw := getElem?_eq_getElem (ht.entry _ hent)
  obtain ⟨i, hi⟩ := getElem?_of_mem hw
  refine ⟨_, current_eq_some.mpr ⟨hent, hnw⟩, ht.pos hw hnw ?_, hr.ranged i w _ hi ?_ ?_ hnw⟩
  · simp [counts]
    omega
  · exact Nat.le_trans (by decide) hlow
  · exact Nat.le_trans hhigh (by decide)

theorem acked_waits_second : ∃ s,
    Reaches WriteBehind.step (fun s a => s.drops a → s.NoneCounting) start s ∧
      ∃ w ∈ s.writes, w.off = 10 ∧ ∃ nw, s.current = some (w.queue, nw) ∧ 0 < nw.inflight ∧
        (w.off, w.len, w.batch) ∈ nw.pendingRanges :=
  Reaches.exists_imp (fun s => ∃ w ∈ s.writes, w.off = 10 ∧ w.acked ∧ w.outcome = .pending)
    ([.recvWrite 0 10, .recvWrite 10 10] ++ replicate 7 (.write 0 none) ++
      replicate 7 (.write 1 none) ++ [.ack 1])
    (by decide +kernel) fun _ hs ⟨w, hw, hoff, hacked, hpending⟩ =>
      ⟨w, hw, hoff, acked_waits hs hw hacked hpending⟩

end WriteBehind

end Mist
