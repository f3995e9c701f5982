import Mist.Convergence.Live
import Mist.Hostd.Batching

/-! The guest's operations on their way to the host: the reader's channel, the batcher, the stream, and
a live share that receives it. -/

namespace Mist

open List ShareReplica Runs

/-- A batch arrives at the host, with the time and the nodes that the Mac has written; `snapId` is
drawn in case a resync is asked for. -/
structure Arrival where
  now : Nat
  macDirty : MacDirty
  batch : JournalBatch
  snapId : UInt64

def Assembler.arrive (s : Assembler) (a : Arrival) : Assembler :=
  onJournal { s with now := a.now, macDirty := a.macDirty } a.batch a.snapId

namespace Mirrors

variable {r : ShareReplica} {T : Tree}

/-- An attribute record that is dropped as an echo, and the times of the directories, are not part of
the tree. -/
theorem onRec (h : Mirrors r T) (hT : T.WF) {op : Op} (hv : T.Valid op) (dirty : NodeKey → Bool) :
    Mirrors (r.onRec dirty op.record).1 (T.apply op) := by
  unfold ShareReplica.onRec
  dsimp only
  split
  · rename_i hecho
    have hattr := (Bool.and_eq_true_iff.mp hecho).2
    cases op with
    | write k version size mtime inProgress =>
      exact h.sameTree (.of_shards rfl rfl) rfl (T.kind_write ..) rfl
    | chmod k a => exact h.sameTree (.of_shards rfl rfl) rfl (T.kind_update hv.2) rfl
    | _ => cases hattr
  · refine foldlRecOn _ _ (motive := (Mirrors · _)) (h.step hT hv) fun r' h' d _ =>
      h'.sameTree ?_ rfl rfl rfl
    exact modifyNode_same r' d fun n => by split <;> exact ⟨rfl, rfl⟩

theorem onRecs {ops rest : List Op} (h : Mirrors r T) (hT : T.WF) (hv : T.ValidRun (ops ++ rest))
    (dirty : NodeKey → Bool) : Mirrors (r.onRecs dirty (ops.map Op.record)).1 (T.run ops) ∧
      (T.run ops).WF ∧ (T.run ops).ValidRun rest := by
  induction ops generalizing r T with
  | nil => exact ⟨h, hT, hv⟩
  | cons op ops ih => exact ih (h.onRec hT hv.1 dirty) (hT.apply hv.1) hv.2

theorem arrive {s : Assembler} {as : List Arrival} {ops : List Op} {share : ShareId} {e : UInt64}
    (hshare : share ≠ allShares) (hs : s.Expects share e) (hm : Mirrors s.replica T) (hT : T.WF)
    (hv : T.ValidRun ops) (horder : InOrder share e (as.map Arrival.batch))
    (hrecs : recordsOf (as.map Arrival.batch) = ops.map Op.record) :
    Mirrors (as.foldl Assembler.arrive s).replica (T.run ops) ∧
      (as.foldl Assembler.arrive s).requested = s.requested := by
  induction as generalizing s T ops e with
  | nil =>
    obtain rfl : ops = [] := map_eq_nil_iff.mp hrecs.symm
    exact ⟨hm, rfl⟩
  | cons a as ih =>
    obtain ⟨hb, hseq, hrest⟩ := horder
    obtain ⟨first, later, rfl, hfirst, hlater⟩ := map_eq_append_iff.mp hrecs.symm
    have hs' : Assembler.Expects { s with now := a.now, macDirty := a.macDirty } share e := { hs with }
    have hover : Rec.overflow ∉ a.batch.records := by
      rw [← hfirst]
      intro hmem
      obtain ⟨op, -, hop⟩ := mem_map.mp hmem
      cases op <;> cases hop
    have hnext : (s.arrive a).Expects share a.batch.fin := hs'.next hb hshare hseq hover a.snapId
    have harrive : s.arrive a = _ := hs'.onJournal hb hshare a.snapId
    rw [if_neg fun hgap => hseq.elim hgap.1 hgap.2, Assembler.applyBatch] at harrive
    simp only [onRecs_needResync, decide_eq_true_eq, if_neg hover] at harrive
    obtain ⟨hm', hT', hv'⟩ := hm.onRecs hT hv (isMacDirty a.macDirty a.now s.info.id)
    have hreplica : Mirrors (s.arrive a).replica (T.run first) := by
      rw [harrive, ← hfirst]
      exact hm'
    obtain ⟨hend, hreq⟩ := ih hnext hreplica hT' hv' hrest hlater.symm
    rw [Tree.run, foldl_append]
    exact ⟨hend, hreq.trans (by rw [harrive])⟩

end Mirrors

/-- From the reader's channel to the replica, over any run of the engine: while what it has broadcast
are the records of a run of guest operations, a live share that shows the tree before them, and has
received the first batches, shows the tree after the operations in these and asks for no resync. -/
theorem stream_converges {share : ShareId} {pid : Int32} {e : JournalEngine}
    (h : Reaches JournalEngine.step (fun _ _ => True) (.start share pid) e) (hshare : share ≠ allShares)
    {T : Tree} (hT : T.WF) {ops : List Op} (hv : T.ValidRun ops)
    (hops : recordsOf e.stream <+: ops.map Op.record) {s : Assembler} {n : UInt64}
    (hs : s.Expects share n) (hn : n = seqAdopt ∨ n = 1) (hm : Mirrors s.replica T) (as : List Arrival)
    (has : as.map Arrival.batch <+: e.stream) :
    Mirrors (as.foldl Assembler.arrive s).replica
        (T.run (ops.take (recordsOf (as.map Arrival.batch)).length)) ∧
      (as.foldl Assembler.arrive s).requested = s.requested := by
  obtain ⟨put, ht⟩ : ∃ put, (e.batcher put).Transparent share := by
    refine h.inv (I := fun e => ∃ put, (e.batcher put).Transparent share) ⟨[], .start share⟩ ?_
    rintro e a e' ⟨put, ht⟩ - hstep
    rcases e.batcher_step hstep put with hsame | ⟨b, put', hb⟩
    · exact ⟨put, hsame ▸ ht⟩
    · exact ⟨put', ht.step hb⟩
  have hpre : recordsOf (as.map Arrival.batch) <+: ops.map Op.record := by
    obtain ⟨rest, hrest⟩ := has
    refine IsPrefix.trans ⟨recordsOf rest, ?_⟩ hops
    rw [← hrest, recordsOf, recordsOf, recordsOf, flatMap_append]
  refine hm.arrive hshare hs hT (hv.take _) ?_ ?_
  · rw [prefix_iff_eq_take.mp has]
    exact inOrder_of ht (k := 0) hn _
  · rw [map_take]
    exact prefix_iff_eq_take.mp hpre

theorem stream_converges_created :
    let T := Tree.emptyShare ⟨1, 0⟩ (placeholderAttr .dir)
    let op : Op := .create ⟨1, 0⟩ (.letter 'a') ⟨5, 0⟩ (placeholderAttr .reg)
    let b : JournalBatch := ⟨⟨0⟩, 1, [op.record]⟩
    ∃ (e : JournalEngine) (s : Assembler),
      Reaches JournalEngine.step (fun _ _ => True) (.start ⟨0⟩ 7) e ∧ e.stream = [b] ∧
      Mirrors (s.arrive ⟨0, [], b, 5⟩).replica (T.apply op) := by
  intro T op b
  let now : ShareNow :=
    ⟨false, fun _ _ => some (⟨5, 0⟩, placeholderAttr .reg), fun _ => none, fun _ => true⟩
  obtain ⟨e, he, hstream⟩ : ∃ e, Reaches JournalEngine.step (fun _ _ => True) (.start ⟨0⟩ 7) e ∧
      e.stream = [b] :=
    Reaches.exists_of_guarded
      [.event { JournalEngine.unlinkEvent with mask := FAN_CREATE } now, .send, .recv, .flush]
      (by decide +kernel)
  obtain ⟨r, -, hr⟩ := seededRoot_mirrors ⟨⟨0⟩, ⟨1, 0⟩⟩ (a := placeholderAttr .dir) rfl 1
  have hv : T.ValidRun [op] := ⟨⟨.inl rfl, rfl, rfl, by simp [T, Tree.emptyShare]⟩, trivial⟩
  have hpre : [b] <+: e.stream := hstream ▸ prefix_rfl
  let s : Assembler := ⟨⟨⟨0⟩, ⟨1, 0⟩⟩, 0, [], none, some 1, { r with state := .live }, []⟩
  have hm : Mirrors s.replica T := hr.sameTree (.of_shards rfl rfl) rfl rfl rfl
  exact ⟨e, s, he, hstream, (stream_converges he (by decide) (Tree.emptyShare_wf _ rfl) hv
    (by rw [hstream]; exact prefix_rfl) ⟨rfl, rfl, rfl, rfl⟩ (.inr rfl) hm [⟨0, [], b, 5⟩] hpre).1⟩

end Mist
