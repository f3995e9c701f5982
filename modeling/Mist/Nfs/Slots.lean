import Mathlib.Data.List.Nodup
import Mist.Nfs.Compound
import Mist.Runs

/-! The slots of one NFSv4.1 session under concurrent compounds. -/

namespace Mist.Nfs

open List Runs UInt32

structure Running where
  slot : UInt32
  seqid : UInt32
  cachethis : Bool

/-- The slots of a session, the compounds past their SEQUENCE that have still to write their slot,
and slot and sequence id of every compound whose operations were executed. -/
structure SlotTable where
  slots : List Slot
  running : List Running
  executed : List (UInt32 × UInt32)

namespace SlotTable

/-- `sequence`: the SEQUENCE of a compound on any connection; `finish`: the end of one, with its
results. -/
inductive Action where
  | sequence (slot seqid : UInt32) (cachethis : Bool)
  | finish (i : Nat) (nres : UInt32) (body : List UInt8)

def start : SlotTable := ⟨List.replicate FORE_SLOTS.toNat .default, [], []⟩

def enter (s : SlotTable) (slot seqid : UInt32) (cachethis : Bool) : SlotTable :=
  { s with
    running := s.running ++ [⟨slot, seqid, cachethis⟩]
    executed := s.executed ++ [(slot, seqid)] }

def step (s : SlotTable) : Action → Option SlotTable
  | .sequence slot seqid cachethis =>
    match s.slots[slot.toNat]? with
    | none => some s
    | some v => if v.check seqid = .fresh then some (s.enter slot seqid cachethis) else some s
  | .finish i nres body =>
    match s.running[i]? with
    | none => none
    | some r =>
      some { s with
        slots := s.slots.set r.slot.toNat (Slot.finished r.seqid r.cachethis nres body)
        running := s.running.eraseIdx i }

def on (s : SlotTable) (slot : UInt32) : List UInt32 :=
  (s.executed.filter fun e => e.1 = slot).map Prod.snd

/-- No compound with the same slot and sequence id is past its SEQUENCE and not finished. -/
def Alone (s : SlotTable) : Action → Prop
  | .sequence slot seqid _ => ∀ r ∈ s.running, ¬ (r.slot = slot ∧ r.seqid = seqid)
  | .finish .. => True

instance (s : SlotTable) (a : Action) : Decidable (s.Alone a) :=
  match a with
  | .sequence .. => inferInstanceAs (Decidable (∀ r ∈ s.running, ¬ _))
  | .finish .. => .isTrue trivial

/-- The sequence ids on a slot are 1, 2, 3 and so on; the slot has the last one that is finished, and
at most the next one is being executed. -/
structure Orderly (s : SlotTable) : Prop where
  single : (s.running.map Running.slot).Nodup
  numbered : ∀ slot, s.on slot = (List.range (s.on slot).length).map fun i => .ofNat (i + 1)
  idle : ∀ slot v, s.slots[slot.toNat]? = some v → (∀ r ∈ s.running, r.slot ≠ slot) →
    v.seqid = .ofNat (s.on slot).length
  busy : ∀ r ∈ s.running, r.seqid = .ofNat (s.on r.slot).length ∧
    ∀ v, s.slots[r.slot.toNat]? = some v → v.seqid + 1 = r.seqid

variable {s t : SlotTable} {slot seqid : UInt32} {cachethis : Bool} {v : Slot} {i : Nat} {r : Running}

theorem check_fresh (h : v.check seqid = .fresh) : seqid = v.seqid + 1 := by
  unfold Slot.check at h
  split at h
  · split at h <;> cases h
  split at h
  · cases h
  · rename_i hne
    exact not_not.mp hne

theorem on_enter_self : (s.enter slot seqid cachethis).on slot = s.on slot ++ [seqid] := by
  simp [on, enter]

theorem on_enter_of_ne {other : UInt32} (h : slot ≠ other) :
    (s.enter slot seqid cachethis).on other = s.on other := by
  simp [on, enter, h]

namespace Orderly

theorem start : start.Orderly := by
  refine ⟨.nil, fun slot => rfl, fun slot v hv _ => ?_, nofun⟩
  obtain rfl : v = .default := eq_of_mem_replicate (mem_of_getElem? hv)
  rfl

section

variable (h : s.Orderly)
include h

theorem free (hslot : s.slots[slot.toNat]? = some v) (hfresh : v.check seqid = .fresh)
    (halone : s.Alone (.sequence slot seqid cachethis)) : ∀ r ∈ s.running, r.slot ≠ slot := by
  rintro r hr rfl
  refine halone r hr ⟨rfl, ?_⟩
  rw [check_fresh hfresh]
  exact ((h.busy r hr).2 v hslot).symm

theorem enter (hslot : s.slots[slot.toNat]? = some v)
    (hfresh : v.check seqid = .fresh) (halone : s.Alone (.sequence slot seqid cachethis)) :
    (s.enter slot seqid cachethis).Orderly := by
  have hfree := h.free hslot hfresh halone
  have hseqid : seqid = .ofNat ((s.on slot).length + 1) := by
    rw [check_fresh hfresh, h.idle slot v hslot hfree]
    simp
  refine ⟨?_, fun other => ?_, fun other v' hv' hother => ?_, fun r hr => ?_⟩
  · simp only [SlotTable.enter, map_append, map_cons, map_nil]
    refine h.single.append (nodup_singleton _) ?_
    simpa [disjoint_singleton] using hfree
  · by_cases heq : slot = other
    · subst heq
      rw [on_enter_self, length_append, length_singleton, range_succ, map_append,
        ← h.numbered slot, hseqid]
      rfl
    · rw [on_enter_of_ne heq]
      exact h.numbered other
  · have hne : slot ≠ other := hother _ (mem_append_right _ (mem_singleton_self _))
    rw [on_enter_of_ne hne]
    exact h.idle other v' hv' fun r hr => hother r (mem_append_left _ hr)
  · rcases mem_append_cases hr with hr | rfl
    · rw [on_enter_of_ne (hfree r hr).symm]
      exact h.busy r hr
    · refine ⟨?_, fun v' hv' => ?_⟩
      · rw [on_enter_self, length_append]
        exact hseqid
      · obtain rfl : v = v' := Option.mem_unique hslot hv'
        exact (check_fresh hfresh).symm

theorem others (hi : s.running[i]? = some r) {r' : Running} :
    r' ∈ s.running.eraseIdx i ↔ r' ∈ s.running ∧ r'.slot ≠ r.slot := by
  obtain ⟨hlt, hget⟩ := List.getElem?_eq_some_iff.mp hi
  have hsplit : s.running = s.running.take i ++ r :: s.running.drop (i + 1) := by
    rw [← hget, getElem_cons_drop, take_append_drop]
  have hnodup := h.single
  rw [hsplit, map_append, map_cons, nodup_middle, nodup_cons, ← map_append,
    ← eraseIdx_eq_take_drop_succ] at hnodup
  constructor
  · intro hr'
    exact ⟨mem_of_mem_eraseIdx hr', fun heq => hnodup.1 (heq ▸ mem_map_of_mem hr')⟩
  rintro ⟨hr', hne⟩
  rw [hsplit] at hr'
  rw [eraseIdx_eq_take_drop_succ]
  rcases mem_append.mp hr' with hr' | hr'
  · exact mem_append_left _ hr'
  · rcases mem_cons.mp hr' with rfl | hr'
    · exact absurd rfl hne
    · exact mem_append_right _ hr'

theorem finish (hi : s.running[i]? = some r) (nres : UInt32) (body : List UInt8) :
    ({ s with
      slots := s.slots.set r.slot.toNat (Slot.finished r.seqid r.cachethis nres body)
      running := s.running.eraseIdx i } : SlotTable).Orderly := by
  have hr : r ∈ s.running := mem_of_getElem? hi
  have hother : ∀ {slot : UInt32} {v : Slot}, slot ≠ r.slot →
      (s.slots.set r.slot.toNat (Slot.finished r.seqid r.cachethis nres body))[slot.toNat]? = some v →
      s.slots[slot.toNat]? = some v := fun {slot v} hne hv => by
    rwa [getElem?_set_ne fun heq => hne (UInt32.toNat_inj.mp heq).symm] at hv
  refine ⟨h.single.sublist ((eraseIdx_sublist _ _).map _), h.numbered, fun slot v hv hnone => ?_,
    fun r' hr' => ?_⟩
  · by_cases heq : slot = r.slot
    · subst heq
      have hseqid : v.seqid = r.seqid := by
        rcases getElem?_set_cases hv with ⟨-, rfl⟩ | ⟨hne, -⟩
        · unfold Slot.finished
          split <;> rfl
        · exact absurd rfl hne
      rw [hseqid]
      exact (h.busy r hr).1
    · refine h.idle slot v (hother heq hv) fun r' hr' hslot => ?_
      exact hnone r' ((h.others hi).mpr ⟨hr', fun hs => heq (hslot.symm.trans hs)⟩) hslot
  · obtain ⟨hold, hne⟩ := (h.others hi).mp hr'
    exact ⟨(h.busy r' hold).1, fun v hv => (h.busy r' hold).2 v (hother hne hv)⟩

theorem step {a : Action} (halone : s.Alone a) (hstep : s.step a = some t) : t.Orderly := by
  cases a with
  | sequence slot seqid cachethis =>
    simp only [SlotTable.step] at hstep
    split at hstep
    · cases hstep
      exact h
    rename_i v hv
    split_ifs at hstep with hfresh
    · cases hstep
      exact h.enter hv hfresh halone
    · cases hstep
      exact h
  | finish i nres body =>
    simp only [SlotTable.step] at hstep
    split at hstep
    · cases hstep
    · rename_i r hr
      cases hstep
      exact h.finish hr nres body

theorem nodup (hwrap : (s.on slot).length < 4294967296) : (s.on slot).Nodup := by
  rw [h.numbered slot]
  refine Nodup.map_on (fun i hi j hj hij => ?_) nodup_range
  have hi := mem_range.mp hi
  have hj := mem_range.mp hj
  have := congrArg toNat hij
  simp only [toNat_ofNat'] at this
  omega

end

end Orderly

/-- Until the sequence id of a slot wraps, no two requests with the same slot and sequence id are
executed, if one is let through only while no other is being executed. -/
theorem executed_once {s : SlotTable} (h : Runs.Reaches step Alone start s) (slot : UInt32)
    (hwrap : (s.on slot).length < 4294967296) : (s.on slot).Nodup :=
  (h.inv Orderly.start fun _ _ _ ho hok hstep => ho.step hok hstep).nodup hwrap

/-- A request is sent again on another connection while the first is still being executed: both are
let through. -/
theorem executed_twice :
    ∃ s, Runs.Reaches step (fun _ _ => True) start s ∧ (s.on 0).length < 4294967296 ∧
      s.executed = [(0, 1), (0, 1)] ∧ ¬ (s.on 0).Nodup :=
  Reaches.exists_of_guarded [.sequence 0 1 true, .sequence 0 1 true] (by decide +kernel)

theorem executed_once_again :
    ∃ s, Runs.Reaches step Alone start s ∧ s.executed = [(0, 1), (0, 2)] ∧ (s.on 0).Nodup :=
  Reaches.exists_imp
    (fun s => s.executed = [(0, 1), (0, 2)] ∧ (s.on 0).length < 4294967296)
    [.sequence 0 1 true, .finish 0 1 [], .sequence 0 1 true, .sequence 0 2 false] (by decide +kernel)
    fun _ hs ⟨hexec, hwrap⟩ => ⟨hexec, executed_once hs 0 hwrap⟩

end SlotTable

end Mist.Nfs
