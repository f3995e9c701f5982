import Mist.Runs
import Mist.Hostd.Assembler
import Mist.Replica.Attrs

/-! Gaps in the journal of one share, across any number of seeds.  `received` are all batches of the
share in the session and `asked` is how many of them there were when a resync was last requested. -/

namespace Mist

open Assembler
open List Option Runs UInt64

/-- The batch ends below `u64::MAX`, so its numbers do not wrap. -/
def JournalBatch.Fits (b : JournalBatch) : Prop :=
  b.firstSeq.toNat + b.records.length < u64Max.toNat

instance (b : JournalBatch) : Decidable b.Fits := inferInstanceAs (Decidable (_ < _))

/-- Each batch starts where the one before it ends, and none reports a loss. -/
def Intact (bs : List JournalBatch) : Prop :=
  bs.IsChain (fun a b => b.firstSeq = a.fin) ∧ ∀ b ∈ bs, Rec.overflow ∉ b.records
  deriving Decidable

def seqAfter (bs : List JournalBatch) : UInt64 := (bs.getLast?.map JournalBatch.fin).getD seqAdopt

section

variable {b : JournalBatch} {bs : List JournalBatch}

theorem JournalBatch.Fits.toNat_fin (h : b.Fits) :
    b.fin.toNat = b.firstSeq.toNat + b.records.length := by
  have hmax : u64Max.toNat = 18446744073709551615 := rfl
  have : b.firstSeq.toNat + b.records.length < 18446744073709551615 := hmax ▸ h
  rw [JournalBatch.fin, UInt64.toNat_add]
  simp only [Nat.toUInt64_eq, toNat_ofNat', Nat.add_mod_mod]
  omega

theorem JournalBatch.Fits.fin_ne (h : b.Fits) : b.fin ≠ seqAdopt := by
  intro heq
  have hlt : b.fin.toNat < u64Max.toNat := h.toNat_fin ▸ h
  rw [heq] at hlt
  exact absurd hlt (lt_irrefl _)

theorem JournalBatch.Fits.firstSeq_le (h : b.Fits) : b.firstSeq ≤ b.fin := by
  rw [le_iff_toNat_le, h.toNat_fin]
  omega

@[simp] theorem seqAfter_append (bs : List JournalBatch) (b : JournalBatch) :
    seqAfter (bs ++ [b]) = b.fin := by
  simp [seqAfter]

theorem Intact.append (h : Intact bs) (hb : seqAfter bs = seqAdopt ∨ b.firstSeq = seqAfter bs)
    (hfits : ∀ a ∈ bs, a.Fits) (hover : Rec.overflow ∉ b.records) : Intact (bs ++ [b]) := by
  refine ⟨isChain_append.mpr ⟨h.1, .singleton b, ?_⟩, forall_concat h.2 hover⟩
  intro a ha c hc
  obtain rfl : b = c := by simpa using hc
  have hafter : seqAfter bs = a.fin := by
    rw [mem_def] at ha
    simp [seqAfter, ha]
  rw [hafter] at hb
  exact hb.resolve_left (hfits a (mem_of_getLast? ha)).fin_ne

theorem nextSeq_eq (h : Intact bs) (hfits : ∀ b ∈ bs, b.Fits) : nextSeq bs = seqAfter bs := by
  induction bs using reverseRecOn with
  | nil => rfl
  | append_singleton bs b ih =>
    obtain ⟨hchain, hlast⟩ := h
    obtain ⟨hbs, -, hnext⟩ := isChain_append.mp hchain
    have hih := ih ⟨hbs, fun a ha => hlast a (mem_append_left _ ha)⟩
      fun a ha => hfits a (mem_append_left _ ha)
    have hb : b.Fits := hfits b (by simp)
    have hfold : nextSeq (bs ++ [b]) =
        if nextSeq bs = seqAdopt then b.fin else max (nextSeq bs) b.fin := by
      rw [nextSeq, foldl_append]
      rfl
    rw [hfold, hih, seqAfter_append]
    split_ifs with hne
    · rfl
    cases hg : bs.getLast? with
    | none => simp [seqAfter, hg] at hne
    | some a =>
      have hafter : seqAfter bs = b.firstSeq := by
        simp [seqAfter, hg, hnext a hg b (by simp)]
      rw [hafter]
      exact if_pos hb.firstSeq_le

end

namespace ShareReplica

variable (r : ShareReplica) (dirty : NodeKey → Bool)

theorem onRec_state (rec : Rec) : (r.onRec dirty rec).1.state = r.state := by
  unfold onRec
  dsimp only
  split
  · rfl
  · exact (foldl_same state (fun r k => modifyNode_state r k _) _ _).trans (applyRec_state r rec)

theorem onRecs_state (recs : List Rec) : (r.onRecs dirty recs).1.state = r.state := by
  induction recs generalizing r with
  | nil => rfl
  | cons rec recs ih => exact (ih _).trans (onRec_state r dirty rec)

theorem onRec_needResync (rec : Rec) : (r.onRec dirty rec).2 = decide (rec = .overflow) := by
  unfold onRec
  dsimp only
  split_ifs with hecho
  · cases rec <;> simp_all [Rec.isAttr]
  · exact decide_eq_decide.mpr (applyRec_needResync r rec)

theorem onRecs_needResync (recs : List Rec) :
    (r.onRecs dirty recs).2 = decide (Rec.overflow ∈ recs) := by
  induction recs generalizing r with
  | nil => rfl
  | cons rec recs ih =>
    simp only [onRecs, ih, onRec_needResync, mem_cons, Bool.decide_or, eq_comm]

end ShareReplica

/-- What a batch does: a resync is requested, or the batch is not for the share, or it is buffered,
or dropped because the share is not live, or applied in sequence. -/
theorem Assembler.onJournal_cases (s : Assembler) (b : JournalBatch) (snapId : UInt64) :
    (∃ s₁ : Assembler, s₁.info = s.info ∧ s₁.requested = s.requested ∧
      s.onJournal b snapId = s₁.requestResync snapId) ∨
    (b.share ≠ s.info.id ∧ s.onJournal b snapId = s) ∨
    (∃ st, b.share = s.info.id ∧ s.staging = some st ∧ s.onJournal b snapId =
      { s with staging := some { st with journalBuf := st.journalBuf ++ [b] } }) ∨
    (s.staging = none ∧ (s.replica.state ≠ .live ∨ s.seq = none) ∧ s.onJournal b snapId = s) ∨
    (∃ expected r, b.share = s.info.id ∧ s.staging = none ∧ s.seq = some expected ∧
      (expected = seqAdopt ∨ b.firstSeq = expected) ∧ Rec.overflow ∉ b.records ∧
      r.state = s.replica.state ∧
      s.onJournal b snapId = { s with replica := r, seq := some b.fin }) := by
  unfold onJournal
  split
  · exact .inl ⟨s, rfl, rfl, rfl⟩
  split
  · rename_i hne
    exact .inr (.inl ⟨hne, rfl⟩)
  rename_i hshare
  have hshare : b.share = s.info.id := not_not.mp hshare
  split
  · rename_i st hst
    exact .inr (.inr (.inl ⟨st, hshare, hst, rfl⟩))
  rename_i hst
  split_ifs with hlive
  · exact .inr (.inr (.inr (.inl ⟨hst, .inl hlive, rfl⟩)))
  split
  · rename_i hseq
    exact .inr (.inr (.inr (.inl ⟨hst, .inr hseq, rfl⟩)))
  rename_i expected hseq
  split
  · exact .inl ⟨s, rfl, rfl, rfl⟩
  rename_i hnext
  unfold applyBatch
  dsimp only
  rw [ShareReplica.onRecs_needResync]
  split
  · let r := (s.replica.onRecs (isMacDirty s.macDirty s.now s.info.id) b.records).1
    exact .inl ⟨{ s with replica := r, seq := some b.fin }, rfl, rfl, rfl⟩
  rename_i hover
  refine .inr (.inr (.inr (.inr ⟨expected, _, hshare, hst, hseq, ?_, by simpa using hover,
    ShareReplica.onRecs_state .., rfl⟩)))
  by_cases hadopt : expected = seqAdopt
  · exact .inl hadopt
  · exact .inr (not_not.mp fun hne => hnext ⟨hadopt, hne⟩)

/-- A share's session from the request of its first snapshot on. -/
structure Session where
  asm : Assembler
  received : List JournalBatch
  asked : Nat

namespace Session

inductive Action where
  | tick (ms : Nat)
  | note (node : NodeKey)
  | snapDir (d : SnapDir)
  | snapDone (done : SnapDone)
  | journal (b : JournalBatch) (snapId : UInt64)

def start (asm : Assembler) (snapId : UInt64) : Session := ⟨asm.begin snapId, [], 0⟩

def onJournal (s : Session) (b : JournalBatch) (snapId : UInt64) : Session :=
  let received := if b.share = s.asm.info.id then s.received ++ [b] else s.received
  { asm := s.asm.onJournal b snapId
    received
    asked := if (s.asm.onJournal b snapId).requested = s.asm.requested then s.asked
      else received.length }

def step (s : Session) : Action → Option Session
  | .tick ms => some { s with asm := { s.asm with now := s.asm.now + ms } }
  | .note node =>
    some { s with asm := { s.asm with
      macDirty := noteMacDirty s.asm.macDirty s.asm.now s.asm.info.id node } }
  | .snapDir d => some { s with asm := s.asm.onSnapDir d }
  | .snapDone done => some { s with asm := s.asm.finishSeed done }
  | .journal b snapId => some (s.onJournal b snapId)

def Action.batch : Action → Option JournalBatch
  | .journal b _ => some b
  | _ => none

/-- What a batch that is buffered during a snapshot keeps to: it goes on where the one before it
ends and reports no loss. -/
def Buffers (st : Staging) (b : JournalBatch) : Prop :=
  Rec.overflow ∉ b.records ∧ ∀ a ∈ st.journalBuf.getLast?, b.firstSeq = a.fin
  deriving Decidable

/-- A batch of the share has numbers that fit and, during a snapshot, is intact with the buffer. -/
def Orderly (s : Session) (a : Action) : Prop :=
  ∀ b ∈ a.batch, b.share = s.asm.info.id → b.Fits ∧ ∀ st ∈ s.asm.staging, Buffers st b
  deriving Decidable

def unanswered (s : Session) : List JournalBatch := s.received.drop s.asked

structure Seeded (s : Session) : Prop where
  asked : s.asked ≤ s.received.length
  fits : ∀ b ∈ s.received, b.Fits
  intact : Intact s.unanswered
  staged : ∀ st, s.asm.staging = some st → st.journalBuf = s.unanswered
  live : s.asm.staging = none →
    s.asm.replica.state = .live ∧ s.asm.seq = some (seqAfter s.unanswered)

section

variable {s s' : Session} {a : Action}

theorem Seeded.congr (h : s.Seeded) {asm : Assembler} (hst : asm.staging = s.asm.staging)
    (hseq : asm.seq = s.asm.seq) (hstate : asm.replica.state = s.asm.replica.state) :
    Seeded { s with asm := asm } where
  asked := h.asked
  fits := h.fits
  intact := h.intact
  staged st heq := h.staged st (hst ▸ heq)
  live hnone := by
    obtain ⟨hlive, hnext⟩ := h.live (hst ▸ hnone)
    exact ⟨hstate.trans hlive, hseq.trans hnext⟩

theorem Seeded.onSnapDir (h : s.Seeded) (d : SnapDir) :
    Seeded { s with asm := s.asm.onSnapDir d } := by
  unfold Assembler.onSnapDir
  split
  · rename_i st hst
    split
    · split
      · refine ⟨h.asked, h.fits, h.intact, fun st' hst' => ?_, fun hnone => ?_⟩
        · cases hst'
          exact h.staged st hst
        · cases hnone
      · exact h
    · exact h
  · exact h

theorem Seeded.finishSeed (h : s.Seeded) (done : SnapDone) :
    Seeded { s with asm := s.asm.finishSeed done } := by
  unfold Assembler.finishSeed
  split
  · rename_i st hst
    split
    · refine ⟨h.asked, h.fits, h.intact, nofun, fun _ => ⟨rfl, ?_⟩⟩
      change some (nextSeq st.journalBuf) = some (seqAfter s.unanswered)
      rw [h.staged st hst, nextSeq_eq h.intact fun b hb => h.fits b (mem_of_mem_drop hb)]
    · exact h
  · exact h

theorem Seeded.of_requestResync {asm : Assembler} {received : List JournalBatch} (snapId : UInt64)
    (hfits : ∀ b ∈ received, b.Fits) :
    Seeded ⟨asm.requestResync snapId, received, received.length⟩ where
  asked := le_rfl
  fits := hfits
  intact := by
    simp only [unanswered, drop_length]
    exact ⟨.nil, nofun⟩
  staged st hst := by
    cases hst
    simp [unanswered]
  live hst := by cases hst

theorem Seeded.onJournal (h : s.Seeded) {b : JournalBatch} {snapId : UInt64}
    (hok : s.Orderly (.journal b snapId)) : (s.onJournal b snapId).Seeded := by
  have hunanswered : (s.received ++ [b]).drop s.asked = s.unanswered ++ [b] :=
    drop_append_of_le_length h.asked
  have hsince : ∀ a ∈ s.unanswered, a.Fits := fun a ha => h.fits a (mem_of_mem_drop ha)
  have hfits : b.share = s.asm.info.id → ∀ a ∈ s.received ++ [b], a.Fits := fun hshare =>
    forall_concat h.fits (hok b rfl hshare).1
  unfold Session.onJournal
  dsimp only
  rcases s.asm.onJournal_cases b snapId with ⟨asm, hinfo, hreq, heq⟩ | ⟨hshare, heq⟩ |
    ⟨st, hshare, hst, heq⟩ | ⟨hst, hdrop, -⟩ |
    ⟨expected, r, hshare, hst, hseq, hnext, hover, hstate, heq⟩
  · rw [heq]
    have hne : (asm.requestResync snapId).requested ≠ s.asm.requested := by
      simp [requestResync, hreq]
    rw [if_neg hne]
    refine .of_requestResync snapId ?_
    split_ifs with hshare
    · exact hfits hshare
    · exact h.fits
  · rw [heq, if_neg hshare, if_pos rfl]
    exact h
  · rw [heq, if_pos hshare, if_pos rfl]
    obtain ⟨hover, hgoes⟩ := (hok b rfl hshare).2 st hst
    have hnext : seqAfter s.unanswered = seqAdopt ∨ b.firstSeq = seqAfter s.unanswered := by
      rw [← h.staged st hst, seqAfter]
      cases hlast : st.journalBuf.getLast? with
      | none => exact .inl rfl
      | some a => exact .inr (hgoes a hlast)
    refine ⟨h.asked.trans (by simp), hfits hshare, ?_, fun st' hst' => ?_, fun hnone => ?_⟩
    · rw [unanswered, hunanswered]
      exact h.intact.append hnext hsince hover
    · cases hst'
      rw [unanswered, hunanswered, ← h.staged st hst]
    · cases hnone
  · obtain ⟨hlive, hseq⟩ := h.live hst
    rcases hdrop with hdead | hnone
    · exact absurd hlive hdead
    · rw [hnone] at hseq
      cases hseq
  · rw [heq, if_pos hshare, if_pos rfl]
    obtain ⟨hlive, hafter⟩ := h.live hst
    obtain rfl : expected = seqAfter s.unanswered := mem_unique hseq hafter
    refine ⟨h.asked.trans (by simp), hfits hshare, ?_, fun st' hst' => ?_, fun _ => ?_⟩
    · rw [unanswered, hunanswered]
      exact h.intact.append hnext hsince hover
    · rw [show s.asm.staging = some st' from hst'] at hst
      cases hst
    · refine ⟨hstate.trans hlive, ?_⟩
      rw [unanswered, hunanswered, seqAfter_append]

theorem Seeded.step (h : s.Seeded) (hok : s.Orderly a) (hs' : s.step a = some s') : s'.Seeded := by
  cases a with
  | tick ms => obtain rfl := some.inj hs'; exact h.congr rfl rfl rfl
  | note node => obtain rfl := some.inj hs'; exact h.congr rfl rfl rfl
  | snapDir d => obtain rfl := some.inj hs'; exact h.onSnapDir d
  | snapDone done => obtain rfl := some.inj hs'; exact h.finishSeed done
  | journal b snapId => obtain rfl := some.inj hs'; exact h.onJournal hok

end

/-- A resync was requested after each `Overflow`, and after the batch before each gap: by the batch
that shows the gap, unless a snapshot was asked for between the two. -/
def Answered (s : Session) : Prop :=
  (∀ i b, s.received[i]? = some b → Rec.overflow ∈ b.records → i < s.asked) ∧
  ∀ i a b, s.received[i]? = some a → s.received[i + 1]? = some b → b.firstSeq ≠ a.fin → i < s.asked

theorem Seeded.answered {s : Session} (h : s.Seeded) : s.Answered := by
  have hget : ∀ i, s.asked ≤ i → s.unanswered[i - s.asked]? = s.received[i]? := fun i hi => by
    rw [unanswered, getElem?_drop, Nat.add_sub_cancel' hi]
  refine ⟨fun i b hb hover => ?_, fun i a b ha hb hgap => ?_⟩
  · by_contra hle
    refine h.intact.2 b (mem_of_getElem? (i := i - s.asked) ?_) hover
    rw [hget i (by omega), hb]
  by_contra hle
  have ha' : s.unanswered[i - s.asked]? = some a := by rw [hget i (by omega), ha]
  have hb' : s.unanswered[i - s.asked + 1]? = some b := by
    rw [← hb, ← hget (i + 1) (by omega)]
    congr 1
    omega
  obtain ⟨hlt, rfl⟩ := List.getElem?_eq_some_iff.mp hb'
  obtain ⟨_, rfl⟩ := List.getElem?_eq_some_iff.mp ha'
  exact hgap (isChain_iff_getElem.mp h.intact.1 _ hlt)

end Session

end Mist
