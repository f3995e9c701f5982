import Mist.Runs
import Mist.Hostd.Assembler
import Mist.Replica.Attrs

/-! Guest updates of a live share against the Mac's own. -/

namespace Mist

open ShareReplica

/-- Where the reader is with a record: before it looks for an echo, before it applies the record,
before it gives the directories a new mtime. -/
inductive RecPhase where
  | check
  | apply (echo : Bool)
  | bump (echo : Bool)
  deriving DecidableEq

/-- A live share.  `todo` is what is left of the batch that the reader has. -/
structure LiveShare where
  share : ShareId
  now : Nat
  macDirty : MacDirty
  replica : ShareReplica
  seq : Option UInt64
  busy : Bool
  todo : List Rec
  phase : RecPhase
  needResync : Bool
  owed : List Rec

namespace LiveShare

/-- `mac` applies a mutation of the Mac to the replica, `note` marks its node. -/
inductive Action where
  | tick (ms : Nat)
  | note (node : NodeKey)
  | mac (rec : Rec)
  | deliver (b : JournalBatch)
  | record
  | finish
  deriving DecidableEq

def start (share : ShareId) (replica : ShareReplica) (seq : UInt64) : LiveShare where
  share := share
  now := 0
  macDirty := []
  replica := replica
  seq := some seq
  busy := false
  todo := []
  phase := .check
  needResync := false
  owed := []

def isDirty (s : LiveShare) (node : NodeKey) : Bool := isMacDirty s.macDirty s.now s.share node

/-- The updates left after a change of the nodes that `p` picks. -/
def leftOf (owed : List Rec) (p : NodeKey → Bool) : List Rec := owed.filter fun o => !o.subject.any p

/-- The updates after a record: the reader has one more, if it is an update. -/
def owe (owed : List Rec) (rec : Rec) : List Rec :=
  leftOf owed (fun k => rec.touches k) ++ if rec.isAttr then [rec] else []

def stepRecord (s : LiveShare) (rec : Rec) (rest : List Rec) : LiveShare :=
  match s.phase with
  | .check => { s with phase := .apply ((s.replica.conflictedNode rec).any s.isDirty) }
  | .apply echo =>
    if echo && rec.isAttr then
      { s with todo := rest, phase := .check, owed := owe s.owed rec }
    else
      { s with
        replica := (s.replica.applyRec rec).1
        needResync := s.needResync || (s.replica.applyRec rec).2 = .needResync
        phase := .bump echo
        owed := owe s.owed rec }
  | .bump echo =>
    { s with
      replica := (ShareReplica.parents s.isDirty echo rec).foldl ShareReplica.bumpDirAttr s.replica
      todo := rest
      phase := .check
      owed := leftOf s.owed fun k => (ShareReplica.parents s.isDirty echo rec).contains k }

def step (s : LiveShare) : Action → Option LiveShare
  | .tick ms => some { s with now := s.now + ms }
  | .note node => some { s with macDirty := noteMacDirty s.macDirty s.now s.share node }
  | .mac rec =>
    some { s with
      replica := (s.replica.applyRec rec).1
      owed := leftOf s.owed fun k => rec.touches k }
  | .deliver b =>
    match s.seq with
    | some expected =>
      if ¬ s.busy ∧ s.replica.state = .live ∧ (expected = seqAdopt ∨ b.firstSeq = expected) then
        some { s with busy := true, todo := b.records, phase := .check, seq := some b.fin }
      else none
    | none => none
  | .record =>
    match s.todo with
    | rec :: rest => some (s.stepRecord rec rest)
    | [] => none
  | .finish =>
    if s.busy ∧ s.todo = [] then
      some { s with
        busy := false
        needResync := false
        seq := if s.needResync then none else s.seq }
    else none

/-- The reader looks at an update when the Mac has not written the node within the window. -/
def Fenced (s : LiveShare) (a : Action) : Prop :=
  a = .record ∧ s.phase = .check → ∀ rec ∈ s.todo.head?, rec.isAttr → ¬ rec.subject.any s.isDirty
  deriving Decidable

/-- Every update that nothing later has changed is in the replica. -/
def Reflected (s : LiveShare) : Prop := ∀ rec ∈ s.owed, s.replica.Reflects rec

section

variable {r r' : ShareReplica} {owed : List Rec} {s s' : LiveShare} {a : Action}

section

variable (h : ∀ rec ∈ owed, r.Reflects rec)
include h

theorem leftOf_reflected {p : NodeKey → Bool}
    (hcalm : ∀ k, ¬ p k → Calm k r r') : ∀ rec ∈ leftOf owed p, r'.Reflects rec := by
  intro rec hrec
  obtain ⟨hmem, hnot⟩ := List.mem_filter.mp hrec
  refine Calm.reflects (fun k hk => hcalm k ?_) (h rec hmem)
  simpa [hk] using hnot

theorem owe_reflected (rec : Rec) : ∀ o ∈ owe owed rec, (r.applyRec rec).1.Reflects o := by
  intro o ho
  rcases List.mem_append.mp ho with hold | hnew
  · exact leftOf_reflected h (fun k hk => r.applyRec_calm (mt Rec.touches_of_carries hk)) o hold
  split at hnew
  · obtain rfl := List.mem_singleton.mp hnew
    exact applyRec_reflects r o
  · cases hnew

theorem bump_reflected (dirs : List NodeKey) :
    ∀ o ∈ leftOf owed fun k => dirs.contains k, (dirs.foldl bumpDirAttr r).Reflects o := by
  refine leftOf_reflected h fun k hk => foldl_calm (fun r d hd => ?_) r
  refine bumpDirAttr_calm r fun hdk => hk ?_
  simpa [← hdk] using hd

end

theorem conflictedNode_of_isAttr {rec : Rec} (h : rec.isAttr) :
    r.conflictedNode rec = rec.subject := by
  cases rec <;> first | rfl | cases h

/-- The replica has what it owes, and an update is not taken for an echo. -/
structure Keeping (s : LiveShare) : Prop where
  reflected : s.Reflected
  noEcho : ∀ rec ∈ s.todo.head?, rec.isAttr → s.phase ≠ .apply true

theorem start_keeping (share : ShareId) (replica : ShareReplica) (seq : UInt64) :
    Keeping (start share replica seq) := ⟨by simp [Reflected, start], by simp [start]⟩

theorem Keeping.record {rec : Rec} {rest : List Rec} (h : Keeping s) (hok : s.Fenced .record)
    (htodo : s.todo = rec :: rest) : Keeping (s.stepRecord rec rest) := by
  unfold stepRecord
  split
  · rename_i hphase
    refine ⟨h.reflected, fun rec' hrec' hattr hecho => ?_⟩
    obtain rfl : rec = rec' := by simpa [htodo] using hrec'
    have hclean := hok ⟨rfl, hphase⟩ rec (by simp [htodo]) hattr
    rw [← conflictedNode_of_isAttr (r := s.replica) hattr] at hclean
    exact hclean (RecPhase.apply.inj hecho)
  · rename_i echo hphase
    split_ifs with hdrop
    · obtain ⟨hecho, hattr⟩ := Bool.and_eq_true_iff.mp hdrop
      exact absurd (hecho ▸ hphase) (h.noEcho rec (by simp [htodo]) hattr)
    · exact ⟨owe_reflected h.reflected rec, by simp⟩
  · exact ⟨bump_reflected h.reflected _, by simp⟩

theorem Keeping.step (h : Keeping s) (hok : s.Fenced a) (hstep : s.step a = some s') :
    Keeping s' := by
  cases a with
  | tick ms =>
    cases hstep
    exact { h with }
  | note node =>
    cases hstep
    exact { h with }
  | mac rec =>
    cases hstep
    exact ⟨leftOf_reflected h.reflected fun k hk =>
      s.replica.applyRec_calm (mt Rec.touches_of_carries hk), h.noEcho⟩
  | deliver b =>
    simp only [LiveShare.step] at hstep
    split at hstep
    · split at hstep <;> cases hstep
      exact ⟨h.reflected, by simp⟩
    · cases hstep
  | record =>
    simp only [LiveShare.step] at hstep
    split at hstep
    · rename_i rec rest htodo
      cases hstep
      exact h.record hok htodo
    · cases hstep
  | finish =>
    simp only [LiveShare.step] at hstep
    split at hstep <;> cases hstep
    exact { h with }

end

/-- If no update is looked at within the window of its node, the replica has every update that
nothing later has changed. -/
theorem guest_updates_reflected {share : ShareId} {replica : ShareReplica} {seq : UInt64}
    {s : LiveShare}
    (h : Runs.Reaches LiveShare.step LiveShare.Fenced (start share replica seq) s) : s.Reflected :=
  (h.inv (start_keeping share replica seq) fun _ _ _ ht hok hstep => ht.step hok hstep).reflected

def fileKey : NodeKey := ⟨2, 0⟩

def oneFile : ShareReplica :=
  let r := ShareReplica.new ⟨⟨0⟩, ⟨1, 0⟩⟩
  let r := r.upsertNode ⟨1, 0⟩ (placeholderAttr .dir) ⟨1, 0⟩
  { (r.applyRec (.created ⟨1, 0⟩ (.letter 'f') fileKey (some (placeholderAttr .reg)))).1 with
    state := .live }

def guestWrite : JournalBatch := ⟨⟨0⟩, 1, [.content fileKey 7 10 ⟨100, 0⟩ false]⟩

def readBatch : List Action := [.deliver guestWrite, .record, .record, .record, .finish]

theorem guest_updates_reflected_afterWindow : ∃ s,
    Runs.Reaches LiveShare.step LiveShare.Fenced (start ⟨0⟩ oneFile 1) s ∧
      (s.owed = guestWrite.records ∧ s.busy = false ∧
        (s.replica.getattr fileKey).toOption.map Attr.size = some 10) ∧ s.Reflected :=
  Runs.Reaches.exists_of_guarded_and
    ([.note fileKey, .tick 5000] ++ readBatch)
    (by decide +kernel) fun _ hs => guest_updates_reflected hs

/-- A second after the Mac wrote the file, the guest's update of it is dropped. -/
theorem guest_update_lost_in_window : ∃ s,
    Runs.Reaches LiveShare.step (fun _ _ => True) (start ⟨0⟩ oneFile 1) s ∧ s.busy = false ∧
      ¬ s.Reflected := by
  refine Runs.Reaches.exists_imp (fun s => s.owed = guestWrite.records ∧ s.busy = false ∧
      (s.replica.getattr fileKey).toOption.map Attr.size = some 0)
    ([.note fileKey, .tick 1000] ++ [.deliver guestWrite, .record, .record, .finish])
    (by decide +kernel) ?_
  rintro s - ⟨howed, hidle, hsize⟩
  refine ⟨hidle, fun hrefl => ?_⟩
  obtain ⟨a, ha, hzero⟩ := Option.map_eq_some_iff.mp hsize
  have hten := (hrefl (.content fileKey 7 10 ⟨100, 0⟩ false) (by simp [howed, guestWrite]) a ha).1
  rw [hten] at hzero
  exact absurd hzero (by decide)

end LiveShare

end Mist
