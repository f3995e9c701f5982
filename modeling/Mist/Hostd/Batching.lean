import Mist.Hostd.Contiguity
import Mist.Mistd.Journal

/-! From the guest's channel to the host's record loop. -/

namespace Mist

open JournalEngine Assembler

open List Option Runs UInt64

/-- The batcher of a share; `put` is all that was put into the channel. -/
structure Batcher where
  share : ShareId
  chan : List Rec
  batch : List Rec
  bytes : Nat
  seq : UInt64
  stream : List JournalBatch
  put : List Rec

namespace Batcher

/-- A record is put into the channel; the batcher receives one, before its linger timeout if it has
some already; it sends its batch, because it is full or the timeout has come. -/
inductive Action where
  | put (rec : Rec)
  | recv
  | flush

def start (share : ShareId) : Batcher := ⟨share, [], [], 0, 1, [], []⟩

def step (s : Batcher) : Action → Option Batcher
  | .put rec => some { s with chan := s.chan ++ [rec], put := s.put ++ [rec] }
  | .recv =>
    match s.chan with
    | [] => none
    | rec :: chan =>
      if s.batch = [] then some { s with chan, batch := [rec], bytes := 64 }
      else if s.batch.length < maxRecords ∧ s.bytes < maxBatchBytes then
        some { s with chan, batch := s.batch ++ [rec], bytes := s.bytes + approxSize rec }
      else none
  | .flush =>
    if s.batch = [] then none
    else
      some { s with
        batch := []
        seq := s.seq + s.batch.length.toUInt64
        stream := s.stream ++ [⟨s.share, s.seq, s.batch⟩] }

end Batcher

def JournalEngine.batcher (s : JournalEngine) (put : List Rec) : Batcher :=
  ⟨s.share, s.chan, s.batch, s.bytes, s.seq, s.stream, put⟩

theorem JournalEngine.batcher_step {s t : JournalEngine} {a : Action}
    (h : s.step a = some t) (put : List Rec) :
    t.batcher put = s.batcher put ∨ ∃ b put', (s.batcher put).step b = some (t.batcher put') := by
  cases a with
  | read =>
    obtain ⟨-, ⟨⟩⟩ := ite_none_right_eq_some.mp h
    exact .inl rfl
  | event ev now =>
    simp only [step] at h
    obtain ⟨-, ⟨⟩⟩ := ite_none_right_eq_some.mp h
    left
    unfold onEvent lose
    split
    · rfl
    · split <;> rfl
  | send =>
    simp only [step] at h
    split at h
    · cases h
    rename_i rec rest _
    split at h
    · cases h
      exact .inr ⟨.put rec, put ++ [rec], rfl⟩
    · cases h
      exact .inl rfl
  | notify =>
    obtain ⟨-, ⟨⟩⟩ := ite_none_right_eq_some.mp h
    by_cases hroom : s.chan.length < channelDepth
    · refine .inr ⟨.put .overflow, put ++ [.overflow], ?_⟩
      simp only [batcher, if_pos hroom]
      rfl
    · simp only [batcher, if_neg hroom]
      exact .inl trivial
  | recv =>
    refine .inr ⟨.recv, put, ?_⟩
    simp only [step] at h
    split at h
    · cases h
    rename_i rec chan hchan
    simp only [Batcher.step, batcher, hchan]
    split at h
    · rename_i hempty
      cases h
      rw [if_pos hempty]
    · rename_i hsome
      obtain ⟨hroom, rfl⟩ := ite_some_none_eq_some.mp h
      rw [if_neg hsome, if_pos hroom]
  | flush =>
    refine .inr ⟨.flush, put, ?_⟩
    simp only [step] at h
    split at h
    · cases h
    · rename_i hsome
      cases h
      exact if_neg hsome

def recordsOf (bs : List JournalBatch) : List Rec := bs.flatMap JournalBatch.records

def startOf (bs : List JournalBatch) (n : Nat) : UInt64 :=
  .ofNat (1 + (recordsOf (bs.take n)).length)

namespace Batcher

structure Transparent (share : ShareId) (s : Batcher) : Prop where
  id : s.share = share
  records : recordsOf s.stream ++ s.batch ++ s.chan = s.put
  batch : s.batch.length ≤ 512
  size : ∀ b ∈ s.stream, b.share = share ∧ b.records ≠ [] ∧ b.records.length ≤ 512
  seq : s.seq = startOf s.stream s.stream.length
  number : ∀ (n : Nat) (b : JournalBatch), s.stream[n]? = some b → b.firstSeq = startOf s.stream n

variable {s t : Batcher} {share : ShareId}

theorem Transparent.start (share : ShareId) : Transparent share (.start share) := by
  refine ⟨rfl, rfl, Nat.zero_le _, fun b hb => ?_, rfl, fun n b hb => ?_⟩
  · cases hb
  · cases hb

theorem Transparent.flush (hs : Transparent share s) (hsome : s.batch ≠ []) :
    Transparent share { s with
      batch := []
      seq := s.seq + s.batch.length.toUInt64
      stream := s.stream ++ [⟨s.share, s.seq, s.batch⟩] } := by
  have hlen : (s.stream ++ [JournalBatch.mk s.share s.seq s.batch]).length = s.stream.length + 1 :=
    length_append
  refine ⟨hs.id, ?_, Nat.zero_le _, forall_concat hs.size ⟨hs.id, hsome, hs.batch⟩, ?_,
    fun n b hb => ?_⟩
  · rw [← hs.records]
    simp [recordsOf]
  · simp only [startOf, take_length, hs.seq]
    simp only [recordsOf, flatMap_append, length_append, flatMap_singleton]
    rw [← Nat.add_assoc, ofNat_add (1 + _), Nat.toUInt64_eq]
  rw [startOf]
  rcases Nat.lt_or_ge n s.stream.length with hlt | hge
  · rw [take_append_of_le_length (by omega)]
    rw [getElem?_append_left hlt] at hb
    exact hs.number n b hb
  have hn : n = s.stream.length := by
    have hlt : n < (s.stream ++ [JournalBatch.mk s.share s.seq s.batch]).length :=
      (lt_length hb)
    omega
  subst hn
  rw [getElem?_concat_length] at hb
  cases hb
  rw [take_left]
  simpa only [startOf, take_length] using hs.seq

theorem Transparent.step {a : Action} (hs : Transparent share s) (h : s.step a = some t) :
    Transparent share t := by
  cases a with
  | put rec =>
    cases h
    refine { hs with records := ?_ }
    rw [← hs.records, append_assoc _ s.chan]
  | recv =>
    simp only [Batcher.step] at h
    split at h
    · cases h
    rename_i rec chan hchan
    split at h
    · rename_i hempty
      cases h
      refine { hs with records := ?_, batch := Nat.le_of_ble_eq_true rfl }
      rw [← hs.records, hempty, hchan]
      simp
    · obtain ⟨hroom, rfl⟩ := ite_some_none_eq_some.mp h
      refine { hs with records := ?_, batch := ?_ }
      · rw [← hs.records, hchan]
        simp
      · rw [length_append]
        exact hroom.1
  | flush =>
    simp only [Batcher.step] at h
    split at h
    · cases h
    · rename_i hsome
      cases h
      exact hs.flush hsome

end Batcher

namespace Assembler

def isLive (s : Assembler) (b : JournalBatch) : Bool :=
  b.share ≠ allShares && b.share = s.info.id && s.staging.isNone && s.replica.state = .live

def hands (s : Assembler) (b : JournalBatch) : Bool :=
  s.isLive b && s.seq.any fun e => e = seqAdopt || b.firstSeq = e

def findsGap (s : Assembler) (b : JournalBatch) : Bool :=
  s.isLive b && s.seq.any fun e => e ≠ seqAdopt && b.firstSeq ≠ e

structure Expects (s : Assembler) (share : ShareId) (e : UInt64) : Prop where
  id : s.info.id = share
  staging : s.staging = none
  live : s.replica.state = .live
  seq : s.seq = some e

variable {s : Assembler} {share : ShareId} {e : UInt64} {b : JournalBatch} (h : s.Expects share e)
  (hb : b.share = share) (hshare : share ≠ allShares)
include h hb hshare

theorem Expects.isLive : s.isLive b := by
  simp [Assembler.isLive, hb, hshare, h.id, h.staging, h.live]

theorem Expects.hands : s.hands b ↔ e = seqAdopt ∨ b.firstSeq = e := by
  simp [Assembler.hands, h.isLive hb hshare, h.seq]

theorem Expects.findsGap : s.findsGap b ↔ e ≠ seqAdopt ∧ b.firstSeq ≠ e := by
  simp [Assembler.findsGap, h.isLive hb hshare, h.seq]

theorem Expects.onJournal (snapId : UInt64) : s.onJournal b snapId =
      if e ≠ seqAdopt ∧ b.firstSeq ≠ e then s.requestResync snapId else s.applyBatch b snapId := by
  rw [Assembler.onJournal, if_neg (hb ▸ hshare), if_neg (not_not.mpr (hb.trans h.id.symm))]
  simp only [h.staging, h.live, ne_eq, not_true_eq_false, if_false, h.seq]

theorem Expects.next (hseq : e = seqAdopt ∨ b.firstSeq = e) (hover : Rec.overflow ∉ b.records)
    (snapId : UInt64) :
    (s.onJournal b snapId).Expects share b.fin := by
  rw [h.onJournal hb hshare, if_neg fun hgap => hseq.elim hgap.1 hgap.2, applyBatch]
  simp only [ShareReplica.onRecs_needResync, decide_eq_true_eq, if_neg hover]
  exact ⟨h.id, h.staging, (ShareReplica.onRecs_state ..).trans h.live, rfl⟩

end Assembler

/-- The host of a share, the records that came to its record loop and the batches it took for ones
after a gap. -/
structure Reception where
  host : Assembler
  handed : List Rec
  gaps : List JournalBatch

namespace Reception

/-- A batch arrives, or something else goes on: time passes, the Mac writes. -/
inductive Action where
  | batch (b : JournalBatch) (snapId : UInt64)
  | elsewhere (now : Nat) (macDirty : MacDirty) (replica : ShareReplica)

def step (f : Reception) : Action → Reception
  | .batch b snapId =>
    { host := f.host.onJournal b snapId
      handed := if f.host.hands b then f.handed ++ b.records else f.handed
      gaps := if f.host.findsGap b then f.gaps ++ [b] else f.gaps }
  | .elsewhere now macDirty replica =>
    { f with
      host := { f.host with
        now, macDirty
        replica := { replica with state := f.host.replica.state } } }

def run (f : Reception) (as : List Action) : Reception := as.foldl step f

def Action.batch? : Action → Option JournalBatch
  | .batch b _ => some b
  | .elsewhere .. => none

def delivered (as : List Action) : List JournalBatch := as.filterMap Action.batch?

end Reception

/-- Batches of the share, the first of which has number `e` or comes where any is adopted, and each
other one the number behind the one before. -/
def InOrder (share : ShareId) : UInt64 → List JournalBatch → Prop
  | _, [] => True
  | e, b :: bs => b.share = share ∧ (e = seqAdopt ∨ b.firstSeq = e) ∧ InOrder share b.fin bs

namespace Reception

variable {f : Reception} {as : List Action} {share : ShareId} {e : UInt64}

theorem expects_elsewhere (h : f.host.Expects share e) (now : Nat) (macDirty : MacDirty)
    (replica : ShareReplica) : (f.step (.elsewhere now macDirty replica)).host.Expects share e :=
  { h with }

theorem run_undelivered (f : Reception) (h : delivered as = []) :
    (f.run as).handed = f.handed ∧ (f.run as).gaps = f.gaps ∧
      (f.host.Expects share e → (f.run as).host.Expects share e) := by
  induction as generalizing f with
  | nil => exact ⟨rfl, rfl, id⟩
  | cons a as ih =>
    cases a with
    | batch b snapId => cases h
    | elsewhere now macDirty replica =>
      obtain ⟨hhanded, hgaps, hexp⟩ := ih (f.step (.elsewhere now macDirty replica)) h
      exact ⟨hhanded, hgaps, fun h => hexp (expects_elsewhere h now macDirty replica)⟩

theorem run_inOrder (hshare : share ≠ allShares) (h : f.host.Expects share e)
    (horder : InOrder share e (delivered as))
    (hover : ∀ b ∈ (delivered as).dropLast, Rec.overflow ∉ b.records) :
    (f.run as).handed = f.handed ++ recordsOf (delivered as) ∧ (f.run as).gaps = f.gaps ∧
      ((∀ b ∈ delivered as, Rec.overflow ∉ b.records) →
        (f.run as).host.Expects share (((delivered as).getLast?.map JournalBatch.fin).getD e)) := by
  induction as generalizing f e with
  | nil => exact ⟨(append_nil _).symm, rfl, fun _ => h⟩
  | cons a as ih =>
    cases a with
    | elsewhere now macDirty replica =>
      exact ih (expects_elsewhere h now macDirty replica) horder hover
    | batch b snapId =>
      have hd : delivered (.batch b snapId :: as) = b :: delivered as := rfl
      rw [hd] at horder hover ⊢
      obtain ⟨hb, hseq, hrest⟩ := horder
      have hgap : ¬ f.host.findsGap b := fun hgap =>
        have := (h.findsGap hb hshare).mp hgap
        hseq.elim this.1 this.2
      have hhanded : (f.step (.batch b snapId)).handed = f.handed ++ b.records :=
        if_pos ((h.hands hb hshare).mpr hseq)
      have hgaps : (f.step (.batch b snapId)).gaps = f.gaps := if_neg hgap
      have hnext : Rec.overflow ∉ b.records →
          (f.step (.batch b snapId)).host.Expects share b.fin := fun hhead =>
        h.next hb hshare hseq hhead snapId
      cases hlater : delivered as with
      | nil =>
        -- Nothing arrives any more.
        obtain ⟨h1, h2, h3⟩ := run_undelivered (f.step (.batch b snapId)) hlater
        refine ⟨h1.trans (hhanded.trans ?_), h2.trans hgaps, fun hall => h3 (hnext (hall b (.head _)))⟩
        simp [recordsOf]
      | cons c cs =>
        rw [hlater] at hover
        obtain ⟨h1, h2, h3⟩ := ih (hnext (hover b (.head _))) hrest fun d hd =>
          hover d (.tail _ (hlater ▸ hd))
        rw [hlater] at h1 h3
        refine ⟨h1.trans ?_, h2.trans hgaps, fun hall => ?_⟩
        · rw [hhanded, append_assoc]
          rfl
        · exact h3 fun d hd => hall d (.tail _ hd)

end Reception

section

variable {share : ShareId} {t : Batcher} {n j k : Nat} {b : JournalBatch} {e : UInt64}

theorem recordsOf_take_succ (bs : List JournalBatch) (hb : bs[n]? = some b) :
    (recordsOf (bs.take (n + 1))).length = (recordsOf (bs.take n)).length + b.records.length := by
  rw [take_add_one, hb]
  simp [recordsOf]

theorem recordsOf_take_mono (bs : List JournalBatch) (h : n ≤ k) :
    (recordsOf (bs.take n)).length ≤ (recordsOf (bs.take k)).length := by
  obtain ⟨d, rfl⟩ := Nat.exists_eq_add_of_le h
  rw [take_add]
  simp [recordsOf]

variable (h : t.Transparent share)
include h

theorem fin_eq_startOf (hb : t.stream[n]? = some b) :
    b.fin = startOf t.stream (n + 1) := by
  rw [JournalBatch.fin, h.number n b hb, startOf, startOf, recordsOf_take_succ _ hb, Nat.toUInt64_eq,
    ← Nat.add_assoc, ofNat_add (1 + _)]

theorem toNat_startOf (hput : t.put.length < 18446744073709551614) (n : Nat) :
    (startOf t.stream n).toNat = 1 + (recordsOf (t.stream.take n)).length ∧
    startOf t.stream n ≠ seqAdopt := by
  have hle : (recordsOf (t.stream.take n)).length ≤ t.put.length := by
    rw [← h.records]
    conv_rhs => rw [← take_append_drop n t.stream]
    simp only [recordsOf, flatMap_append, length_append]
    omega
  have hnat : (startOf t.stream n).toNat = 1 + (recordsOf (t.stream.take n)).length := by
    rw [startOf, toNat_ofNat']
    omega
  refine ⟨hnat, fun heq => ?_⟩
  have hmax : seqAdopt.toNat = 18446744073709551615 := rfl
  rw [heq, hmax] at hnat
  omega

theorem number_ne (hput : t.put.length < 18446744073709551614)
    (hb : t.stream[j]? = some b) (hjn : j ≠ n) : b.firstSeq ≠ startOf t.stream n := by
  intro heq
  rw [h.number j b hb] at heq
  have hnat := congrArg toNat heq
  rw [(toNat_startOf h hput j).1, (toNat_startOf h hput n).1] at hnat
  have hpos : ∀ (i : Nat) (c : JournalBatch), t.stream[i]? = some c → 0 < c.records.length :=
    fun i c hc => length_pos_iff.mpr (h.size c (mem_of_getElem? hc)).2.1
  rcases Nat.lt_or_gt_of_ne hjn with hlt | hgt
  · have := recordsOf_take_mono t.stream (Nat.succ_le_of_lt hlt)
    rw [recordsOf_take_succ _ hb] at this
    have := hpos j b hb
    omega
  · have hlt : n < t.stream.length := Nat.lt_trans hgt (lt_length hb)
    have hc := getElem?_eq_getElem hlt
    have := recordsOf_take_mono t.stream (Nat.succ_le_of_lt hgt)
    rw [recordsOf_take_succ _ hc] at this
    have := hpos n _ hc
    omega

theorem inOrder_of (he : e = seqAdopt ∨ e = startOf t.stream k) (n : Nat) :
    InOrder share e ((t.stream.drop k).take n) := by
  induction n generalizing k e with
  | zero => exact trivial
  | succ n ih =>
    cases hb : t.stream[k]? with
    | none =>
      rw [drop_eq_nil_of_le (getElem?_eq_none_iff.mp hb)]
      exact trivial
    | some b =>
      obtain ⟨hlt, hget⟩ := List.getElem?_eq_some_iff.mp hb
      rw [drop_eq_getElem_cons hlt, hget, take_succ_cons]
      refine ⟨(h.size b (mem_of_getElem? hb)).1, he.imp_right fun he => ?_, ih (.inr ?_)⟩
      · rw [he]
        exact h.number k b hb
      · exact fin_eq_startOf h hb

theorem getLast?_part (hn : 1 ≤ n) (hle : k + n ≤ t.stream.length) :
    (((t.stream.drop k).take n).getLast?.map JournalBatch.fin).getD e = startOf t.stream (k + n) := by
  obtain ⟨m, rfl⟩ := Nat.exists_eq_add_of_le' hn
  have hlt : k + m < t.stream.length := by omega
  have hb := getElem?_eq_getElem hlt
  have hlast : ((t.stream.drop k).take (m + 1)).getLast? = some t.stream[k + m] := by
    rw [getLast?_eq_getElem?, length_take, length_drop,
      Nat.min_eq_left (by omega), Nat.add_sub_cancel, getElem?_take_of_lt (by omega),
      getElem?_drop]
    exact hb
  rw [hlast, map_some, getD_some]
  exact fin_eq_startOf h hb

end

/-- The batches are non-empty, bounded, numbered from 1 on and in order; a live share that receives
them brings each record to its record loop once, up to an `Overflow`, and takes any batch but the
next for one after a gap. -/
theorem batching_transparent {share : ShareId} {t : Batcher}
    (h : Runs.Reaches Batcher.step (fun _ _ => True) (.start share) t) :
    (∀ b ∈ t.stream, b.share = share ∧ b.records ≠ [] ∧ b.records.length ≤ 512) ∧
    (∀ (n : Nat) (b : JournalBatch), t.stream[n]? = some b → b.firstSeq = startOf t.stream n) ∧
    recordsOf t.stream ++ t.batch ++ t.chan = t.put ∧
    (share ≠ allShares → t.put.length < 18446744073709551614 →
      ∀ (f : Reception) (e : UInt64) (k n : Nat) (as : List Reception.Action), f.host.Expects share e →
        e = seqAdopt ∨ e = startOf t.stream k → k + n ≤ t.stream.length →
        Reception.delivered as = (t.stream.drop k).take n →
        ((∀ b ∈ ((t.stream.drop k).take n).dropLast, Rec.overflow ∉ b.records) →
          (f.run as).handed = f.handed ++ recordsOf ((t.stream.drop k).take n) ∧
          (f.run as).gaps = f.gaps) ∧
        (1 ≤ n → (∀ b ∈ (t.stream.drop k).take n, Rec.overflow ∉ b.records) →
          ∀ (j : Nat) (b : JournalBatch) (snapId : UInt64), t.stream[j]? = some b → j ≠ k + n →
            (f.run as).host.findsGap b ∧ ¬ (f.run as).host.hands b ∧
            (f.run as).host.onJournal b snapId = (f.run as).host.requestResync snapId)) := by
  have ht : t.Transparent share := h.inv (.start share) fun _ _ _ hs _ hstep => hs.step hstep
  refine ⟨ht.size, ht.number, ht.records,
    fun hshare hput f e k n as hexp he hle hdel => ⟨fun hover => ?_, fun hn hover j b snapId hb hj => ?_⟩⟩
  · have horder := inOrder_of ht he n
    rw [← hdel] at horder hover ⊢
    obtain ⟨hhanded, hgaps, -⟩ := Reception.run_inOrder hshare hexp horder hover
    exact ⟨hhanded, hgaps⟩
  have horder := inOrder_of ht he n
  rw [← hdel] at horder hover
  have hend := (Reception.run_inOrder hshare hexp horder fun b hb =>
    hover b (mem_of_mem_dropLast hb)).2.2 hover
  rw [hdel, getLast?_part ht hn hle] at hend
  have hb' := (ht.size b (mem_of_getElem? hb)).1
  have hne := number_ne ht hput hb hj
  have hgap := And.intro (toNat_startOf ht hput (k + n)).2 hne
  refine ⟨(hend.findsGap hb' hshare).mpr hgap, fun hhands => ?_, ?_⟩
  · exact ((hend.hands hb' hshare).mp hhands).elim hgap.1 hgap.2
  · rw [hend.onJournal hb' hshare, if_pos hgap]

def seededShare : Reception :=
  { host :=
      { info := ⟨⟨1⟩, ⟨2, 0⟩⟩
        now := 0
        macDirty := []
        staging := none
        seq := some seqAdopt
        replica := { ShareReplica.new ⟨⟨1⟩, ⟨2, 0⟩⟩ with state := .live }
        requested := [] }
    handed := []
    gaps := [] }

def singly (recs : List Rec) : List Batcher.Action :=
  recs.flatMap fun rec => [.put rec, .recv, .flush]

/-- Three batches: the second and the third arrive, then the second again. -/
theorem batching_transparent_repeated : ∃ t,
    Runs.Reaches Batcher.step (fun _ _ => True) (.start ⟨1⟩) t ∧
    t.stream = [⟨⟨1⟩, 1, [.selfRemoved ⟨7, 0⟩]⟩, ⟨⟨1⟩, 2, [.selfRemoved ⟨8, 0⟩]⟩,
      ⟨⟨1⟩, 3, [.selfRemoved ⟨9, 0⟩]⟩] ∧
    (seededShare.run ((t.stream.drop 1).map fun b => .batch b 5)).handed =
      [.selfRemoved ⟨8, 0⟩, .selfRemoved ⟨9, 0⟩] ∧
    (seededShare.run ((t.stream.drop 1).map fun b => .batch b 5)).host.findsGap
      ⟨⟨1⟩, 2, [.selfRemoved ⟨8, 0⟩]⟩ := by
  obtain ⟨t, ht, hstream, hput⟩ : ∃ t, Reaches Batcher.step (fun _ _ => True) (.start ⟨1⟩) t ∧
      t.stream = [⟨⟨1⟩, 1, [.selfRemoved ⟨7, 0⟩]⟩, ⟨⟨1⟩, 2, [.selfRemoved ⟨8, 0⟩]⟩,
        ⟨⟨1⟩, 3, [.selfRemoved ⟨9, 0⟩]⟩] ∧ t.put.length = 3 :=
    Reaches.exists_of_guarded
      (singly [.selfRemoved ⟨7, 0⟩, .selfRemoved ⟨8, 0⟩, .selfRemoved ⟨9, 0⟩]) (by decide +kernel)
  have hdel : Reception.delivered ((t.stream.drop 1).map fun b => .batch b 5) =
      (t.stream.drop 1).take 2 := by
    rw [hstream]
    rfl
  have hexp : seededShare.host.Expects ⟨1⟩ seqAdopt := ⟨rfl, rfl, rfl, rfl⟩
  obtain ⟨-, -, -, hhost⟩ := batching_transparent ht
  obtain ⟨hhanded, hgap⟩ := hhost (by decide) (by rw [hput]; decide) seededShare seqAdopt 1 2 _ hexp
    (.inl rfl) (by rw [hstream]; decide) hdel
  refine ⟨t, ht, hstream, (hhanded ?_).1.trans ?_, (hgap (by decide) ?_ 1 _ 5 ?_ (by decide)).1⟩
  · rw [hstream]
    decide
  · rw [hstream]
    rfl
  · rw [hstream]
    decide
  · rw [hstream]
    rfl

/-- Behind an `Overflow` a record does not come to the record loop. -/
theorem overflow_ends_handing : ∃ t, Runs.Reaches Batcher.step (fun _ _ => True) (.start ⟨1⟩) t ∧
    (t.put = [.overflow, .selfRemoved ⟨7, 0⟩] ∧ recordsOf t.stream = t.put ∧
      (seededShare.run (t.stream.map fun b => .batch b 5)).handed ≠ recordsOf t.stream) :=
  Reaches.exists_of_guarded (singly [.overflow, .selfRemoved ⟨7, 0⟩]) (by decide +kernel)

end Mist
