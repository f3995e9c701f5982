import Mist.Hostd.Ranges

/-! Write verifiers across restarts.  A client that sees the same verifier twice takes it that the
server did not restart in between. -/

namespace Mist

open List Option Runs

/-- The verifier of PROC_WRITE and PROC_COMMIT, `MIST-wv1`. -/
def WRITE_VERF : List UInt8 := [0x4d, 0x49, 0x53, 0x54, 0x2d, 0x77, 0x76, 0x31]

def Request.commitRange : Request → Option (UInt64 × UInt64)
  | .commit off len => some (off, len)
  | _ => none

/-- The queue whose error slot a call looks at next. -/
def CallPhase.slot : CallPhase → Option Nat
  | .clear q => some q
  | _ => none

/-- The write is in the range of a COMMIT; a length of zero is to the end of the file. -/
def WriteCall.meets (w : WriteCall) (r : UInt64 × UInt64) : Prop :=
  r.1.toNat < w.off.toNat + w.len.toNat ∧ (r.2 = 0 ∨ w.off.toNat < r.1.toNat + r.2.toNat)
  deriving Decidable

/-- A COMMIT's range is looked at alone, not as one of all ranges. -/
instance (priority := high) decidableForallRange (o : Option (UInt64 × UInt64))
    (p : UInt64 × UInt64 → Prop) [DecidablePred p] : Decidable (∀ r ∈ o, p r) :=
  Option.decidableForallMem o

namespace WriteBehind

/-- The writes at a crash.  Of the batches that wait no more for the previous one, those in `sent` are
on their way to the guest already. -/
def lose (s : WriteBehind) (sent : List Nat) : List WriteCall :=
  s.writes.mapIdx fun i w =>
    if i ∈ sent ∧ w.phase = .waiting ∧ s.signalled w.prev then { w with outcome := .applied } else w

/-- What a COMMIT meets at its checks, for each write in its range that was acknowledged before it: a
COMMIT that finds nothing in flight finds no write that has failed; the end of a write that is still
registered in the queue it drains does not wrap; and if the write has failed, an error is in the slot
that the COMMIT looks at. -/
def CommitUse (s : WriteBehind) (call : Call) : Prop :=
  ∀ r ∈ call.req.commitRange, ∀ i ∈ call.covers, ∀ w ∈ s.writes[i]?, w.meets r →
    (call.phase = .received ∧ w.outcome.isFailed → s.current.any fun p => 0 < p.2.inflight) ∧
    (call.phase = .draining w.queue ∧ w.phase.rank ≤ WritePhase.recorded.rank →
      w.off.toNat + w.len.toNat < 18446744073709551616) ∧
    ∀ q ∈ call.phase.slot, w.outcome.isFailed → s.queues[q]?.any fun nw => nw.err.isSome
  deriving Decidable

end WriteBehind

namespace Restart

/-- The instances of the server: the writes of those that crashed, in order, and the one that runs. -/
structure State where
  gone : List (List WriteCall)
  live : WriteBehind

def State.start : State := ⟨[], .start⟩

inductive Action where
  | serve (a : Mist.Action)
  | crash (sent : List Nat)

def verf (_instance : Nat) : List UInt8 := WRITE_VERF

namespace State

def step (s : State) : Action → Option State
  | .serve a => (s.live.step a).map fun live => { s with live }
  | .crash sent => some ⟨s.gone ++ [s.live.lose sent], .start⟩

def lost (s : State) (k : Nat) (r : UInt64 × UInt64) : List WriteCall :=
  ((s.gone[k]?).getD []).filter fun w => w.acked ∧ w.meets r

/-- What was acknowledged before a COMMIT that returned success, in its range and with its verifier,
is in the guest. -/
def Reached (s : State) : Prop :=
  ∀ call ∈ s.live.calls, call.phase = .returned none → ∀ r ∈ call.req.commitRange,
    (∀ i ∈ call.covers, ∀ w ∈ s.live.writes[i]?, w.meets r → w.outcome = .applied) ∧
    ∀ k < s.gone.length, verf k = verf s.gone.length → ∀ w ∈ s.lost k r, w.outcome = .applied

instance (s : State) : Decidable s.Reached := inferInstanceAs (Decidable (∀ call ∈ s.live.calls, _))

/-- COMMITs meet their writes as in `CommitUse`, a queue that is dropped is not in use, and a crash
leaves no acknowledged write behind. -/
def Calm (s : State) : Action → Prop
  | .serve a => (∀ x ∈ s.live.stepping a, s.live.CommitUse x.2) ∧
      (s.live.drops a → s.live.NoneCounting)
  | .crash sent => ∀ w ∈ s.live.lose sent, w.acked → w.outcome = .applied

instance (s : State) : (a : Action) → Decidable (s.Calm a)
  | .serve _ => inferInstanceAs (Decidable ((∀ x ∈ _, _) ∧ (_ → _)))
  | .crash _ => inferInstanceAs (Decidable (∀ w ∈ _, _ → _))

end State

end Restart

/-- What a COMMIT in this phase knows of a write in its range that was acknowledged before it. -/
def CallPhase.Waited (w : WriteCall) : CallPhase → Prop
  | .received | .failed _ | .returned (some _) => True
  | .draining q => w.outcome ≠ .pending ∨ w.queue = q
  | .clear _ => w.outcome ≠ .pending
  | _ => w.outcome = .applied

theorem CallPhase.Waited.mono {p : CallPhase} {w w' : WriteCall} (h : p.Waited w) (hg : w.Grows w')
    (hpos : 1 ≤ w.phase.rank) : p.Waited w' := by
  have hdone : w.outcome ≠ .pending → w'.outcome ≠ .pending := fun hne => by
    rwa [hg.outcome hne]
  unfold Waited at h ⊢
  split at h
  · trivial
  · trivial
  · trivial
  · exact h.imp hdone fun hq => (hg.queue hpos).trans hq
  · exact hdone h
  · rw [hg.outcome (by simp [h]), h]

namespace WriteBehind

section

variable {s s' t : WriteBehind} {i c : Nat} {w w' : WriteCall} {a : Action} {call : Call}
  {phase : CallPhase} {res : Option NfsError} {r : UInt64 × UInt64} {q : Nat} {nw : NodeWrites}

theorem Changes.range (h : s.Changes a i w w') : w'.off = w.off ∧ w'.len = w.len := by
  cases h with
  | advance _ _ hadv =>
    obtain ⟨hoff, hlen, -⟩ := advance_batch hadv
    exact ⟨hoff, hlen⟩
  | _ => exact ⟨rfl, rfl⟩

theorem blocks_of_meets {off len : UInt64} (hmeets : w.meets (off, len)) (hlen : w.len ≠ 0)
    (hfin : w.off.toNat + w.len.toNat < 18446744073709551616) :
    blocks (Request.commit off len).range.1 (Request.commit off len).range.2
      (w.off, w.len, w.batch) := by
  obtain ⟨hlow, hhigh⟩ : off.toNat < w.off.toNat + w.len.toNat ∧
      (len = 0 ∨ w.off.toNat < off.toNat + len.toNat) := hmeets
  have hpos : 0 < w.len.toNat := Nat.pos_of_ne_zero fun h => hlen (UInt64.toNat_inj.mp h)
  have hsum : (w.off + w.len).toNat = w.off.toNat + w.len.toNat := by
    rw [UInt64.toNat_add]
    omega
  have hbound : w.off.toNat < (saturatingAdd off (if len = 0 then u64Max else len)).toNat := by
    rw [saturatingAdd_toNat]
    split_ifs with hzero
    · have hmax : u64Max.toNat = 18446744073709551615 := rfl
      omega
    · have hend := hhigh.resolve_left hzero
      omega
  simp only [blocks, Request.range, Bool.and_eq_true, decide_eq_true_eq, UInt64.lt_iff_toNat_lt, hsum]
  exact ⟨hbound, hlow⟩

structure Vouched (s : WriteBehind) : Prop extends Tracked s, Covered s, Ranged s where
  filled : ∀ w ∈ s.writes, w.len ≠ 0
  waited : ∀ call ∈ s.calls, ∀ r ∈ call.req.commitRange, ∀ i ∈ call.covers, ∀ w ∈ s.writes[i]?,
    w.meets r → call.phase.Waited w

theorem start_vouched : Vouched start :=
  ⟨start_tracked, start_covered, start_ranged, by simp [start], by simp [start]⟩

theorem Vouched.tasked (h : Vouched s) (hcall : call ∈ s.calls) (hi : i ∈ call.covers)
    (hw : s.writes[i]? = some w) : WritePhase.waiting.rank ≤ w.phase.rank := by
  obtain ⟨w₁, hw₁, hacked⟩ := h.covers call hcall i hi
  obtain rfl : w₁ = w := mem_unique hw₁ hw
  exact h.acked w₁ (mem_of_getElem? hw) hacked

theorem Vouched.settled (h : Vouched s) (hw : s.writes[i]? = some w) (hrank : 8 ≤ w.phase.rank) :
    w.outcome ≠ .pending := fun hp =>
  absurd ((h.outcome w (mem_of_getElem? hw)).mp hp) (by omega)

theorem Vouched.callStep (h : Vouched s) (hcall : call ∈ s.calls) (hok : s.CommitUse call)
    (hcs : CallStep s call res phase t) (hr : r ∈ call.req.commitRange) (hi : i ∈ call.covers)
    (hw : s.writes[i]? = some w) (hmeets : w.meets r) : phase.Waited w := by
  have hmem := mem_of_getElem? hw
  have hrank : 7 ≤ w.phase.rank := h.tasked hcall hi hw
  have hwaited := h.waited call hcall r hr i hi w hw hmeets
  obtain ⟨hidle, hwrap, hslot⟩ := hok r hr i hi w hw hmeets
  cases hcs with
  | attrOnly _ hreq => simp [hreq, Request.commitRange] at hr
  | look hp hcur _ =>
    by_cases hlow : w.phase.rank ≤ 10
    · have hheld := h.held w hmem ⟨by omega, hlow⟩
      exact .inr (some.inj (hheld.symm.trans (current_eq_some.mp hcur).1))
    · exact .inl (h.settled hw (by omega))
  | idle hp hnone =>
    have hlow : ¬ w.phase.rank ≤ 10 := by
      intro hlow
      have hent := h.held w hmem ⟨by omega, hlow⟩
      obtain ⟨nw, hnw⟩ : ∃ nw, s.queues[w.queue]? = some nw :=
        ⟨_, getElem?_eq_getElem (h.entry _ hent)⟩
      have hpos := h.pos hmem hnw (by simp [WriteCall.counts, hlow]; omega)
      rw [hnone _ nw (current_eq_some.mpr ⟨hent, hnw⟩)] at hpos
      omega
    refine applied_of_not_failed (h.settled hw (by omega)) fun hf => ?_
    obtain ⟨⟨q, nw⟩, hcur, hpos⟩ := (Option.any_eq_true ..).mp (hidle ⟨hp, hf⟩)
    simp [hnone q nw hcur] at hpos
  | @pass q nw hp hnw hclear =>
    rw [hp] at hwaited
    rcases hwaited with hdone | rfl
    · exact hdone
    refine h.settled hw (Nat.le_of_not_lt fun hlow => ?_)
    have hrec : w.phase.rank ≤ WritePhase.recorded.rank := by
      change _ ≤ 9
      omega
    have hrange := h.ranged i w nw hw (by change 6 ≤ _; omega) hrec hnw
    cases hreq : call.req with
    | commit off len =>
      rw [hreq] at hr hclear
      cases hr
      exact hclear (any_eq_true.mpr ⟨_, hrange,
        blocks_of_meets hmeets (h.filled w hmem) (hwrap ⟨hp, hrec⟩)⟩)
    | _ => simp [hreq, Request.commitRange] at hr
  | noError hp hnw herr =>
    rw [hp] at hwaited
    refine applied_of_not_failed hwaited fun hf => ?_
    have hsome := hslot _ (by rw [hp]; rfl) hf
    simp [hnw, herr] at hsome
  | other hp hreq =>
    cases hreq' : call.req with
    | commit off len => exact absurd hreq' (hreq off len)
    | _ => simp [hreq', Request.commitRange] at hr
  | clean hp _ _ =>
    rw [hp] at hwaited
    cases res with
    | none => exact hwaited
    | some e => trivial
  | take _ _ _ => trivial
  | refused _ _ => trivial
  | redirty _ _ => trivial
  | dropped _ _ => trivial
  | _ hp =>
    rw [hp] at hwaited
    exact hwaited

theorem Vouched.step (h : Vouched s) (hok : ∀ x ∈ s.stepping a, s.CommitUse x.2)
    (hdrop : s.drops a → s.NoneCounting) (hstep : s.step a = some s') : Vouched s' := by
  have hfilled : ∀ w ∈ s'.writes, w.len ≠ 0 := by
    intro w' hw'
    obtain ⟨j, hj⟩ := getElem?_of_mem hw'
    cases hold : s.writes[j]? with
    | none => exact (step_write_new hstep hold hj).2.2.2.2
    | some w =>
      obtain ⟨w₁, hw₁, hch⟩ := step_write hstep hold
      obtain rfl : w₁ = w' := mem_unique hw₁ hj
      rw [hch.range.2]
      exact h.filled w (mem_of_getElem? hold)
  -- what is known of a write stays known
  have hkeep : ∀ call ∈ s.calls, ∀ phase : CallPhase, ∀ r ∈ call.req.commitRange,
      ∀ i ∈ call.covers, (∀ w ∈ s.writes[i]?, w.meets r → phase.Waited w) →
      ∀ w' ∈ s'.writes[i]?, w'.meets r → phase.Waited w' := by
    intro call hcall phase r hr i hi hwaited w' hw' hmeets
    obtain ⟨w, hw, -⟩ := h.covers call hcall i hi
    obtain ⟨w₁, hw₁, hch⟩ := step_write hstep hw
    obtain rfl : w₁ = w' := mem_unique hw₁ hw'
    have hpos : 1 ≤ w.phase.rank := Nat.le_trans (by decide) (h.tasked hcall hi hw)
    have hsame : w.meets r := by
      rw [WriteCall.meets, hch.range.1, hch.range.2] at hmeets
      exact hmeets
    exact (hwaited w hw hsame).mono (hch.grows (h.outcome w (mem_of_getElem? hw))) hpos
  have hold : ∀ call ∈ s.calls, ∀ r ∈ call.req.commitRange, ∀ i ∈ call.covers,
      ∀ w ∈ s'.writes[i]?, w.meets r → call.phase.Waited w := fun call hcall r hr i hi =>
    hkeep call hcall call.phase r hr i hi (h.waited call hcall r hr i hi)
  refine ⟨h.toTracked.step hdrop hstep, h.toCovered.step h.toTracked hstep,
    h.toRanged.step h.toTracked hstep, hfilled, fun call hcall => ?_⟩
  rcases step_calls hstep with
    hsame | ⟨req, -, -, happ⟩ | ⟨d, res, call₀, phase, t, rfl, hcall₀, hcs, hset⟩
  · exact hold call (hsame ▸ hcall)
  · rcases mem_append_cases (happ ▸ hcall) with hcall | rfl
    · exact hold call hcall
    · intro r _ i _ w _ _
      trivial
  · rcases mem_or_eq_of_mem_set (hset ▸ hcall) with hcall | rfl
    · exact hold call hcall
    · have hmem := mem_of_getElem? hcall₀
      intro r hr i hi
      exact hkeep call₀ hmem phase r hr i hi fun w hw hmeets =>
        h.callStep hmem (hok _ (stepping_call res hcall₀)) hcs hr hi hw hmeets

end

end WriteBehind

namespace Restart

/-- The instance that runs keeps its word, and those that crashed left nothing behind. -/
structure Kept (s : State) : Prop where
  live : s.live.Vouched
  gone : ∀ ws ∈ s.gone, ∀ w ∈ ws, w.acked → w.outcome = .applied

theorem Kept.step {s s' : State} {a : Action} (h : Kept s) (hok : s.Calm a)
    (hstep : s.step a = some s') : Kept s' := by
  cases a with
  | serve a =>
    obtain ⟨live, hlive, rfl⟩ := map_eq_some_iff.mp hstep
    exact ⟨h.live.step hok.1 hok.2 hlive, h.gone⟩
  | crash sent =>
    cases hstep
    exact ⟨WriteBehind.start_vouched, forall_concat h.gone hok⟩

/-- With crashes that leave no acknowledged write behind, a COMMIT that returns success has what was
acknowledged under its verifier in the guest. -/
theorem commit_reached {s : State}
    (h : Runs.Reaches State.step State.Calm .start s) : s.Reached := by
  have hstart : Kept .start := ⟨WriteBehind.start_vouched, nofun⟩
  have hkept : Kept s := h.inv hstart fun t a u ht hok hu => ht.step hok hu
  intro call hcall hphase r hr
  refine ⟨fun i hi w hw hmeets => ?_, fun k hk _ w hw => ?_⟩
  · have hwaited := hkept.live.waited call hcall r hr i hi w hw hmeets
    rw [hphase] at hwaited
    exact hwaited
  · obtain ⟨hmem, hacked⟩ := mem_filter.mp hw
    rw [getElem?_eq_getElem hk, getD_some] at hmem
    exact hkept.gone _ (getElem_mem hk) w hmem (of_decide_eq_true hacked).1

def writeAcked : List Action :=
  .serve (.recvWrite 0 10) :: List.replicate 7 (.serve (.write 0 none)) ++ [.serve (.ack 0)]

/-- A crash after the task is done, and one while the batch is on its way; then a COMMIT. -/
theorem commit_reached_twice : ∃ s, Runs.Reaches State.step State.Calm .start s ∧
    (s.gone.length = 2 ∧ ∃ call ∈ s.live.calls, call.phase = .returned none) ∧ s.Reached :=
  Reaches.exists_of_guarded_and
    (writeAcked ++ replicate 4 (.serve (.write 0 none)) ++ [.crash []] ++ writeAcked ++
      [.crash [0], .serve (.recv (.commit 0 0)), .serve (.call 0 none), .serve (.call 0 none)])
    (by decide +kernel) fun _ hs => commit_reached hs

/-- A crash loses an acknowledged write, and a COMMIT to the next instance succeeds with the same
verifier. -/
theorem commit_after_crash :
    ∃ s, Runs.Reaches State.step (fun _ _ => True) .start s ∧ ¬ s.Reached :=
  Reaches.exists_of_guarded
    (writeAcked ++
      [.crash [], .serve (.recv (.commit 0 0)), .serve (.call 0 none), .serve (.call 0 none)])
    (by decide +kernel)

end Restart

end Mist
