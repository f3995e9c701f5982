import Mist.Hostd.Ranges

/-! What becomes of a failed write-through. -/

namespace Mist

open List Option WritePhase WriteCall Call Runs

def Call.commits (i : Nat) (call : Call) : Bool := call.req.full && call.covers.contains i

/-- The first full COMMIT received after write `i` was acknowledged. -/
def firstCommit (calls : List Call) (i : Nat) : Option Nat := calls.findIdx? (Call.commits i)

def told (calls : List Call) (i : Nat) : Bool :=
  (firstCommit calls i).any fun c => calls[c]?.any fun call => call.phase.isReturned

namespace WriteBehind

def hasError (s : WriteBehind) : Bool := s.current.any fun p => p.2.err.isSome

/-- What a call meets where it is, for each write: when it looks the queue up, something is in flight
if it is the first COMMIT for the write and the write has failed; in the drain, its range meets that
of the write if this is registered there and it is the first COMMIT for it; when it takes the error,
it is the first COMMIT for the write if this has failed and its first COMMIT has not returned. -/
def SlotUse (s : WriteBehind) (c : Nat) (call : Call) : Prop :=
  ∀ i < s.writes.length, ∀ w ∈ s.writes[i]?,
    (call.phase = .received ∧ firstCommit s.calls i = some c ∧ w.outcome.isFailed →
      s.current.any fun p => 0 < p.2.inflight) ∧
    (call.phase = .draining w.queue ∧ firstCommit s.calls i = some c ∧
        w.phase.rank ≤ WritePhase.recorded.rank →
      blocks call.req.range.1 call.req.range.2 (w.off, w.len, w.batch)) ∧
    (call.phase = .clear w.queue ∧ w.outcome.isFailed ∧
        WritePhase.recorded.rank ≤ w.phase.rank ∧ ¬ told s.calls i →
      firstCommit s.calls i = some c)

/-- Every call uses the slot so, and a queue is dropped neither with an error nor in use. -/
def SlotKept (s : WriteBehind) (a : Action) : Prop :=
  (∀ x ∈ s.stepping a, s.SlotUse x.1 x.2) ∧ (s.drops a → s.NoneCounting ∧ ¬ s.hasError)

instance (s : WriteBehind) (c : Nat) (call : Call) : Decidable (s.SlotUse c call) :=
  inferInstanceAs (Decidable (∀ i < s.writes.length, _))

instance (s : WriteBehind) (a : Action) : Decidable (s.SlotKept a) :=
  inferInstanceAs (Decidable (_ ∧ _))

def ErrorsTold (s : WriteBehind) : Prop :=
  ∀ i < s.writes.length, ∀ w ∈ s.writes[i]?, w.outcome.isFailed →
    ∀ c ∈ firstCommit s.calls i, ∀ call ∈ s.calls[c]?, call.phase ≠ .returned none

instance (s : WriteBehind) : Decidable s.ErrorsTold :=
  inferInstanceAs (Decidable (∀ i < s.writes.length, _))

end WriteBehind

section

variable {calls : List Call} {call : Call} {i c d : Nat} {phase : CallPhase}

theorem firstCommit_commits (h : firstCommit calls i = some c) (hcall : calls[c]? = some call) :
    call.req.full ∧ i ∈ call.covers := by
  obtain ⟨hlt, hc, -⟩ := findIdx?_eq_some_iff_getElem.mp h
  obtain ⟨-, rfl⟩ := List.getElem?_eq_some_iff.mp hcall
  simpa [commits] using hc

theorem firstCommit_set (hcall : calls[c]? = some call) :
    firstCommit (calls.set c { call with phase }) i = firstCommit calls i := by
  have hmap := WriteBehind.map_set_of_eq (f := commits i) (b := { call with phase }) hcall rfl
  have hid : ∀ l : List Call, firstCommit l i = (l.map (commits i)).findIdx? id := fun l => by
    rw [findIdx?_map]
    rfl
  rw [hid, hid, hmap]

theorem firstCommit_append (h : firstCommit calls i = some c) :
    firstCommit (calls ++ [call]) i = some c := by
  rw [firstCommit, findIdx?_append, show calls.findIdx? (commits i) = some c from h]
  rfl

theorem firstCommit_append_inv (h : firstCommit (calls ++ [call]) i = some c)
    (hc : c < calls.length) : firstCommit calls i = some c := by
  rw [firstCommit, findIdx?_append] at h
  cases hold : calls.findIdx? (commits i) with
  | some d => simpa [hold, firstCommit] using h
  | none =>
    simp only [hold, none_or, map_eq_some_iff] at h
    omega

theorem told_iff : told calls i ↔
    ∃ c call, firstCommit calls i = some c ∧ calls[c]? = some call ∧ call.phase.isReturned := by
  simp only [told, Option.any_eq_true, exists_and_left]

theorem told_append (h : told calls i) : told (calls ++ [call]) i := by
  obtain ⟨c, other, hfirst, hc, hret⟩ := told_iff.mp h
  refine told_iff.mpr ⟨c, other, firstCommit_append hfirst, ?_, hret⟩
  rw [getElem?_append_left (lt_length hc), hc]

theorem told_set (h : told calls i) (hcall : calls[c]? = some call)
    (hret : ¬ call.phase.isReturned) : told (calls.set c { call with phase }) i := by
  obtain ⟨d, other, hfirst, hd, hother⟩ := told_iff.mp h
  refine told_iff.mpr ⟨d, other, by rw [firstCommit_set hcall, hfirst], ?_, hother⟩
  have hcd : c ≠ d := by
    rintro rfl
    obtain rfl : call = other := mem_unique hcall hd
    exact hret hother
  rw [getElem?_set_ne hcd, hd]

theorem not_told (hfirst : firstCommit calls i = some c) (hcall : calls[c]? = some call)
    (hret : ¬ call.phase.isReturned) : ¬ told calls i := by
  intro h
  obtain ⟨d, other, hd, hother, hr⟩ := told_iff.mp h
  obtain rfl : c = d := mem_unique hfirst hd
  obtain rfl : call = other := mem_unique hcall hother
  exact hret hr

end

/-- What a COMMIT in this phase knows of a write it is the first COMMIT for. -/
def CallPhase.Sees (w : WriteCall) : CallPhase → Prop
  | .received => True
  | .draining q => w.outcome = .applied ∨ w.queue = q
  | .clear q => w.outcome = .applied ∨ (w.queue = q ∧ WritePhase.unranged.rank ≤ w.phase.rank)
  | .returned (some _) => True
  | _ => w.outcome = .applied

theorem CallPhase.Sees.mono {p : CallPhase} {w w' : WriteCall} (h : p.Sees w) (hg : w.Grows w')
    (hpos : 1 ≤ w.phase.rank) : p.Sees w' := by
  have happ : w.outcome = .applied → w'.outcome = .applied := fun ha => by
    rw [hg.outcome (by simp [ha]), ha]
  unfold Sees at h ⊢
  split at h
  · trivial
  · exact h.imp happ fun hq => (hg.queue hpos).trans hq
  · exact h.imp happ fun ⟨hq, hr⟩ => ⟨(hg.queue hpos).trans hq, Nat.le_trans hr hg.rank⟩
  · trivial
  · exact happ h

section

variable {w w' : WriteCall} {nw nw' : NodeWrites} {i now : Nat} {res : Option NfsError}

variable (h : w.advance nw i now res = some (w', nw'))
include h

/-- The task of a failed write puts its error in the slot, and no other step of a write empties it. -/
theorem advance_err
    (herr : nw.err.isSome ∨ (w.phase = .written ∧ w.outcome.isFailed)) : nw'.err.isSome := by
  unfold advance at h
  cases hphase : w.phase <;> simp only [hphase, reduceCtorEq, some.injEq, Prod.mk.injEq,
    false_and, or_false, true_and] at h herr <;> obtain ⟨-, rfl⟩ := h
  case written =>
    cases hout : w.outcome with
    | failed e => cases nw.err <;> rfl
    | _ => simpa [hout, Outcome.isFailed] using herr
  all_goals exact herr

theorem advance_failed (hfail : w'.outcome.isFailed)
    (hrank : recorded.rank ≤ w'.phase.rank) :
    w.outcome.isFailed ∧ (w.phase = .written ∨ recorded.rank ≤ w.phase.rank) := by
  unfold advance at h
  cases hphase : w.phase <;> simp only [hphase, reduceCtorEq, some.injEq, Prod.mk.injEq] at h <;>
    obtain ⟨rfl, -⟩ := h <;> first
    | exact ⟨hfail, by decide⟩
    | simp [rank] at hrank

end

namespace WriteBehind

abbrev Noted (s : WriteBehind) (q : Nat) : Prop := s.Has (fun nw => nw.err.isSome) q

def AllNoted (s : WriteBehind) : Prop :=
  ∀ (i : Nat) (w : WriteCall), s.writes[i]? = some w → w.outcome.isFailed →
    WritePhase.recorded.rank ≤ w.phase.rank → ¬ told s.calls i → s.Noted w.queue

def AllSeen (s : WriteBehind) : Prop :=
  ∀ (c : Nat) (call : Call) (i : Nat) (w : WriteCall), s.calls[c]? = some call →
    firstCommit s.calls i = some c → s.writes[i]? = some w → call.phase.Sees w

structure Telling (s : WriteBehind) : Prop extends Tracked s, Covered s, Ranged s where
  noted : s.AllNoted
  seen : s.AllSeen

theorem start_telling : Telling start :=
  ⟨start_tracked, start_covered, start_ranged, by simp [AllNoted, start], by simp [AllSeen, start]⟩

section

variable {s s' t : WriteBehind} {i c : Nat} {w w' : WriteCall} {res : Option NfsError} {a : Action}
  {call : Call} {phase : CallPhase}

theorem told_step (hstep : s.step a = some s') (h : told s.calls i) : told s'.calls i := by
  rcases step_calls hstep with
    hsame | ⟨req, -, -, happ⟩ | ⟨c, res, call, phase, t, -, hcall, hcs, hset⟩
  · rwa [hsame]
  · rw [happ]
    exact told_append h
  · rw [hset]
    exact told_set h hcall hcs.not_returned

theorem Telling.covered (h : Telling s) (hcall : s.calls[c]? = some call)
    (hfirst : firstCommit s.calls i = some c) (hw : s.writes[i]? = some w) :
    waiting.rank ≤ w.phase.rank := by
  obtain ⟨w₁, hw₁, hacked⟩ :=
    h.covers call (mem_of_getElem? hcall) i (firstCommit_commits hfirst hcall).2
  obtain rfl : w₁ = w := mem_unique hw₁ hw
  exact h.acked w₁ (mem_of_getElem? hw) hacked

theorem Telling.seen_step (h : Telling s) (hstep : s.step a = some s')
    (hcall : s.calls[c]? = some call) (hfirst : firstCommit s.calls i = some c)
    (hsees : ∀ w, s.writes[i]? = some w → phase.Sees w) (hw' : s'.writes[i]? = some w') :
    phase.Sees w' := by
  obtain ⟨w, hw, -⟩ := h.covers call (mem_of_getElem? hcall) i (firstCommit_commits hfirst hcall).2
  obtain ⟨w₁, hw₁, hg⟩ := h.toTracked.grows hstep hw
  obtain rfl : w₁ = w' := mem_unique hw₁ hw'
  exact (hsees w hw).mono hg (Nat.le_trans (by decide) (h.covered hcall hfirst hw))

theorem Telling.records (h : Telling s) (hw : s.writes[i]? = some w) (hphase : w.phase = .written)
    (hfail : w.outcome.isFailed) (hstep : s.step (.write i res) = some s') : s'.Noted w.queue := by
  have hent := h.held w (mem_of_getElem? hw) (by simp [holds, hphase, rank])
  obtain ⟨w₁, hw₁, ⟨hrec, rfl⟩ | ⟨nw₁, w₁', nw₁', hnw₁, hadv₁, -, rfl⟩⟩ := stepWrite_cases hstep <;>
    obtain rfl : w = w₁ := mem_unique hw hw₁
  · simp [hphase] at hrec
  · refine ⟨nw₁', current_eq_some.mpr ⟨hent, ?_⟩, advance_err hadv₁ (.inr ⟨hphase, hfail⟩)⟩
    exact getElem?_set_self (lt_length hnw₁)

theorem Telling.noted_step (h : Telling s) (hstep : s.step a = some s')
    (hnoted : ∀ (i : Nat) (w : WriteCall), s.writes[i]? = some w → w.outcome.isFailed →
      recorded.rank ≤ w.phase.rank → ¬ told s'.calls i → s.Noted w.queue →
      s'.Noted w.queue) : s'.AllNoted := by
  intro j w' hj hfail hrank hold
  have hnot : ¬ told s.calls j := fun ht => hold (told_step hstep ht)
  cases hwas : s.writes[j]? with
  | none => simp [(step_write_new hstep hwas hj).2.1, Outcome.isFailed] at hfail
  | some w =>
    have hkept : w.outcome.isFailed → recorded.rank ≤ w.phase.rank → s'.Noted w.queue :=
      fun hf hr => hnoted j w hwas hf hr hold (h.noted j w hwas hf hr hnot)
    obtain ⟨w₁, hw₁, hch⟩ := step_write hstep hwas
    obtain rfl : w₁ = w' := mem_unique hw₁ hj
    cases hch with
    | got hphase => simp [rank] at hrank
    | advance ha _ hadv =>
      subst ha
      rw [(advance_frame hadv).1]
      obtain ⟨hf, hwritten | hrec⟩ := advance_failed hadv hfail hrank
      · exact h.records hwas hwritten hf hstep
      · exact hkept hf hrec
    | same => exact hkept hfail hrank
    | acked _ => exact hkept hfail hrank
    | synced => exact hkept hfail hrank

section

variable {q : Nat} {nw : NodeWrites}

section

variable (h : Telling s) (hcall : s.calls[c]? = some call)
  (hfirst : firstCommit s.calls i = some c) (hw : s.writes[i]? = some w)
include h hcall hfirst hw

/-- The queue a COMMIT finds is that of every write it is the first COMMIT for, but for those that are
applied. -/
theorem Telling.look (hret : ¬ call.phase.isReturned) (hcur : s.current = some (q, nw)) :
    w.outcome = .applied ∨ w.queue = q := by
  have hmem := mem_of_getElem? hw
  have hrank := h.covered hcall hfirst hw
  obtain ⟨hent, -⟩ := current_eq_some.mp hcur
  by_cases hlow : w.phase.rank ≤ 10
  · have hheld := h.held w hmem ⟨Nat.le_trans (by decide) hrank, hlow⟩
    exact .inr (mem_unique hheld hent)
  have hdone : w.outcome ≠ .pending := fun hp => absurd ((h.outcome w hmem).mp hp) (by omega)
  by_cases hf : w.outcome.isFailed
  · have hnoted := h.noted i w hw hf (by change 9 ≤ _; omega) (not_told hfirst hcall hret)
    exact .inr (mem_unique hnoted.entry hent)
  · exact .inl (applied_of_not_failed hdone hf)

/-- A COMMIT that finds nothing in flight is the first COMMIT for applied writes only. -/
theorem Telling.idle (hphase : call.phase = .received)
    (hok : s.SlotUse c call) (hidle : ∀ q nw, s.current = some (q, nw) → nw.inflight = 0) :
    w.outcome = .applied := by
  have hmem := mem_of_getElem? hw
  have hrank := h.covered hcall hfirst hw
  change 7 ≤ _ at hrank
  have hlow : ¬ w.phase.rank ≤ 10 := by
    intro hlow
    have hent := h.held w hmem ⟨by omega, hlow⟩
    obtain ⟨nw, hnw⟩ : ∃ nw, s.queues[w.queue]? = some nw :=
      ⟨_, getElem?_eq_getElem (h.entry _ hent)⟩
    have hpos := h.pos hmem hnw (by simp [counts, hlow]; omega)
    rw [hidle _ nw (current_eq_some.mpr ⟨hent, hnw⟩)] at hpos
    omega
  have hdone : w.outcome ≠ .pending := fun hp => absurd ((h.outcome w hmem).mp hp) (by omega)
  refine applied_of_not_failed hdone fun hf => ?_
  have hany := (hok i (lt_length hw) w hw).1 ⟨hphase, hfirst, hf⟩
  obtain ⟨⟨q, nw⟩, hcur, hpos⟩ := (Option.any_eq_true ..).mp hany
  simp [hidle q nw hcur] at hpos

theorem Telling.pass (hphase : call.phase = .draining q) (hok : s.SlotUse c call)
    (hnw : s.queues[q]? = some nw)
    (hclear : ¬ nw.pendingRanges.any (blocks call.req.range.1 call.req.range.2)) :
    w.outcome = .applied ∨ (w.queue = q ∧ unranged.rank ≤ w.phase.rank) := by
  have hsees := h.seen c call i w hcall hfirst hw
  have hrank := h.covered hcall hfirst hw
  rw [hphase] at hsees
  refine hsees.imp_right fun hq => ⟨hq, ?_⟩
  subst hq
  by_contra hlow
  have hreg : w.phase.rank ≤ recorded.rank := Nat.le_of_lt_succ (Nat.not_le.mp hlow)
  have hrange := h.ranged i w nw hw (Nat.le_trans (by decide) hrank) hreg hnw
  have hblocks := (hok i (lt_length hw) w hw).2.1 ⟨hphase, hfirst, hreg⟩
  exact hclear (any_eq_true.mpr ⟨_, hrange, hblocks⟩)

/-- A COMMIT that finds the slot empty is the first COMMIT for applied writes only. -/
theorem Telling.noError (hphase : call.phase = .clear q) (hnw : s.queues[q]? = some nw)
    (herr : nw.err = none) : w.outcome = .applied := by
  have hsees := h.seen c call i w hcall hfirst hw
  rw [hphase] at hsees
  rcases hsees with happ | ⟨hq, hrank⟩
  · exact happ
  change 10 ≤ _ at hrank
  have hmem := mem_of_getElem? hw
  have hdone : w.outcome ≠ .pending := fun hp => absurd ((h.outcome w hmem).mp hp) (by omega)
  refine applied_of_not_failed hdone fun hf => ?_
  have hret : ¬ call.phase.isReturned := by simp [hphase, CallPhase.isReturned]
  obtain ⟨nw₁, hcur, hsome⟩ :=
    h.noted i w hw hf (by change 9 ≤ _; omega) (not_told hfirst hcall hret)
  rw [hq] at hcur
  obtain rfl : nw = nw₁ := some.inj (hnw.symm.trans (current_eq_some.mp hcur).2)
  simp [herr] at hsome

theorem Telling.sees (hok : s.SlotUse c call) (hcs : CallStep s call res phase t) :
    phase.Sees w := by
  have hfull := (firstCommit_commits hfirst hcall).1
  have hsees := h.seen c call i w hcall hfirst hw
  cases hcs with
  | attrOnly _ hreq => simp [hreq, Request.full] at hfull
  | look hp hcur _ => exact h.look hcall hfirst hw (by simp [hp, CallPhase.isReturned]) hcur
  | idle hp hidle => exact h.idle hcall hfirst hw hp hok hidle
  | pass hp hnw hclear => exact h.pass hcall hfirst hw hp hok hnw hclear
  | take _ _ _ => trivial
  | noError hp hnw herr => exact h.noError hcall hfirst hw hp hnw herr
  | other hp hreq =>
    cases hr : call.req with
    | commit off len => exact absurd hr (hreq off len)
    | _ => simp [hr, Request.full] at hfull
  | clean hp _ _ =>
    rw [hp] at hsees
    cases res with
    | none => exact hsees
    | some e => trivial
  | redirty _ _ => trivial
  | dropped _ _ => trivial
  | _ hp =>
    rw [hp] at hsees
    exact hsees

end

theorem noted_call (hcall : s.calls[c]? = some call) (hok : s.SlotUse c call)
    (hcs : CallStep s call res phase t) (hw : s.writes[i]? = some w) (hf : w.outcome.isFailed)
    (hrank : recorded.rank ≤ w.phase.rank)
    (hnot : ¬ told (t.calls.set c { call with phase }) i) (hnoted : s.Noted w.queue) :
    ({ t with calls := t.calls.set c { call with phase } } : WriteBehind).Noted w.queue := by
  have hmine := lt_length hcall
  cases hcs with
  | @take q nw e hp hnw _ =>
    refine hnoted.set hnw rfl rfl fun hq _ => ?_
    have hret : ¬ call.phase.isReturned := by simp [hp, CallPhase.isReturned]
    have hfirst := (hok i (lt_length hw) w hw).2.2
      ⟨hq ▸ hp, hf, hrank, fun ht => hnot (told_set ht hcall hret)⟩
    refine absurd (told_iff.mpr ⟨c, _, ?_, getElem?_set_self hmine, rfl⟩) hnot
    rw [← hfirst]
    exact firstCommit_set hcall
  | swap _ _ hcur _ => exact hnoted.set (current_eq_some.mp hcur).2 rfl rfl fun _ he => he
  | redirty _ hcur => exact hnoted.set (current_eq_some.mp hcur).2 rfl rfl fun _ he => he
  | sync _ _ =>
    split
    · exact hnoted.congr rfl rfl
    · exact hnoted.congr rfl rfl
  | _ => exact hnoted.congr rfl rfl

end

theorem Telling.allSeen_step (h : Telling s) (hok : s.SlotKept a) (hstep : s.step a = some s') :
    s'.AllSeen := by
  have hold : ∀ (c : Nat) (call : Call) (i : Nat) (w' : WriteCall), s.calls[c]? = some call →
      firstCommit s.calls i = some c → s'.writes[i]? = some w' → call.phase.Sees w' :=
    fun c call i w' hcall hfirst hw' =>
      h.seen_step hstep hcall hfirst (fun w hw => h.seen c call i w hcall hfirst hw) hw'
  intro c call i w' hcall hfirst hw'
  rcases step_calls hstep with
    hsame | ⟨req, -, -, happ⟩ | ⟨d, res, call₀, phase, t, rfl, hcall₀, hcs, hset⟩
  · rw [hsame] at hcall hfirst
    exact hold c call i w' hcall hfirst hw'
  · rw [happ] at hcall hfirst
    by_cases hc : c < s.calls.length
    · rw [getElem?_append_left hc] at hcall
      exact hold c call i w' hcall (firstCommit_append_inv hfirst hc) hw'
    · rw [getElem?_append_right (by omega), getElem?_singleton] at hcall
      obtain ⟨_, rfl⟩ := ite_some_none_eq_some.mp hcall
      trivial
  · rw [hset, firstCommit_set hcall₀] at hfirst
    rw [hset] at hcall
    rcases getElem?_set_cases hcall with ⟨rfl, rfl⟩ | ⟨-, hcall⟩
    · exact h.seen_step hstep hcall₀ hfirst
        (fun w hw => h.sees hcall₀ hfirst hw (hok.1 _ (stepping_call res hcall₀)) hcs) hw'
    · exact hold c call i w' hcall hfirst hw'

theorem Telling.step (h : Telling s) (hok : s.SlotKept a) (hstep : s.step a = some s') :
    Telling s' := by
  suffices hnoted : ∀ (i : Nat) (w : WriteCall), s.writes[i]? = some w → w.outcome.isFailed →
      recorded.rank ≤ w.phase.rank → ¬ told s'.calls i → s.Noted w.queue →
      s'.Noted w.queue from
    ⟨h.toTracked.step (fun hd => (hok.2 hd).1) hstep, h.toCovered.step h.toTracked hstep,
      h.toRanged.step h.toTracked hstep, h.noted_step hstep hnoted, h.allSeen_step hok hstep⟩
  intro j w hw hfail hrank hnot hnoted
  -- the map's queue is not dropped with an error in its slot
  have hkept : (s.dropEntry a).entry = s.entry := by
    rw [dropEntry, if_neg fun hd => (hok.2 hd).2 (any_current.mpr ⟨_, hnoted⟩)]
  cases a with
  | tick ms =>
    cases hstep
    exact hnoted.congr rfl rfl
  | recvWrite off len =>
    obtain ⟨-, rfl⟩ := step_recvWrite hstep
    exact hnoted.congr rfl rfl
  | write i res =>
    obtain ⟨w₁, hw₁, ⟨-, rfl⟩ | ⟨nw, w', nw', hnw, hadv, -, rfl⟩⟩ := stepWrite_cases hstep
    · exact hnoted.got rfl rfl
    · exact hnoted.set hnw rfl rfl fun _ he => advance_err hadv (.inl he)
  | ack i =>
    obtain ⟨_, -, -, rfl⟩ := step_ack hstep
    exact hnoted.congr rfl rfl
  | presync i =>
    obtain rfl := step_presync hstep
    exact hnoted.congr rfl rfl
  | recv req =>
    cases hstep
    exact hnoted.congr rfl rfl
  | call c res =>
    obtain ⟨call, phase, t, hcall, hcs, rfl⟩ := stepCall_cases hstep
    exact noted_call hcall (hok.1 _ (stepping_call res hcall)) hcs hw hfail hrank hnot hnoted
  | cleanup | reap =>
    obtain ⟨_, rfl⟩ := step_drop rfl hstep
    exact hnoted.congr hkept (dropEntry_keeps s _).1

end

/-- In every run that keeps the error slot, the first full COMMIT received after the acknowledgement
of a write whose write-through fails does not return success. -/
theorem failed_write_told {s : WriteBehind}
    (h : Runs.Reaches WriteBehind.step WriteBehind.SlotKept start s) : s.ErrorsTold := by
  have hinv : Telling s := h.inv start_telling fun t a u ht hok hstep => ht.step hok hstep
  intro i _ w hw hfail c hfirst call hcall hphase
  have hsees := hinv.seen c call i w hcall hfirst hw
  rw [hphase] at hsees
  have happ : w.outcome = .applied := hsees
  simp [happ, Outcome.isFailed] at hfail

/-- Two writes are acknowledged; the first fails while a COMMIT waits for both. -/
def failDuringCommit : List Action :=
  [.recvWrite 0 10, .recvWrite 10 10] ++ List.replicate 7 (.write 0 none) ++
    List.replicate 7 (.write 1 none) ++ [.ack 0, .ack 1, .recv (.commit 0 0), .call 0 none] ++
    [.write 0 (some .io)] ++ List.replicate 3 (.write 0 none) ++ List.replicate 4 (.write 1 none) ++
    List.replicate 2 (.call 0 none)

theorem failed_write_told_duringCommit : ∃ s,
    Runs.Reaches WriteBehind.step WriteBehind.SlotKept start s ∧
      ((∃ w ∈ s.writes, w.outcome = .failed .io) ∧
        ∃ call ∈ s.calls, call.req.full ∧ call.phase = .returned (some .io)) ∧ s.ErrorsTold :=
  Runs.Reaches.exists_of_guarded_and
    failDuringCommit
    (by decide +kernel) fun _ hs => failed_write_told hs

/-- A write fails, and its task is done before the next COMMIT looks: nothing is in flight, so the
COMMIT does not look at the slot, syncs and returns. -/
def failBeforeCommit : List Action :=
  [.recvWrite 0 10] ++ List.replicate 7 (.write 0 none) ++ [.ack 0, .write 0 (some .io)] ++
    List.replicate 3 (.write 0 none) ++ [.recv (.commit 0 0)] ++ List.replicate 4 (.call 0 none)

/-- The first full COMMIT after a failed write returns success. -/
theorem failed_write_lost_when_idle : ∃ s,
    Runs.Reaches WriteBehind.step (fun _ _ => True) start s ∧ ¬ s.ErrorsTold :=
  Runs.Reaches.exists_of_guarded failBeforeCommit (by decide +kernel)

end WriteBehind

end Mist
