import Mist.Compact.Records
import Mist.Convergence.Live

/-! Whole runs of the compact replica: it answers as the list model, and shows the guest's tree. -/

namespace Mist.Compact

open Returns

variable {hash : List UInt8 → UInt64} {c : ShareReplica} {r : Mist.ShareReplica}

theorem Simulates.feeds (h : Simulates hash 0 c r) {share : ShareId} (fs : List Feed)
    (hvalid : ∀ f ∈ fs, f.valid share) :
    Meets (· = Stop.limit) (c.run hash (fs.map .feed)) fun c' =>
      ∃ r', fs.foldlM Mist.ShareReplica.feed r = some r' ∧ Simulates hash 0 c' r' := by
  induction fs generalizing c r with
  | nil => exact ⟨r, rfl, h⟩
  | cons f fs ih =>
    refine (h.feed (hvalid f (.head _))).bind fun c₁ ⟨r₁, hr₁, h₁⟩ => ?_
    rw [List.foldlM_cons, hr₁]
    exact ih h₁ fun f hf => hvalid f (.tail _ hf)

theorem Simulates.replay (h : Simulates hash 0 c r) (ops : List Op) :
    Meets (· = Stop.limit) (c.run hash (ops.map fun op => .feed (.record op.record)))
      (Simulates hash 0 · (r.replay (ops.map Op.record))) := by
  induction ops generalizing c r with
  | nil => exact h
  | cons op ops ih =>
    refine Meets.bind (q := (Simulates hash 0 · (r.applyRec op.record).1)) ?_ fun c₁ h₁ => ih h₁
    exact (h.applyRec op.record).bind fun u hu => hu.1

namespace ShareReplica

/-- After every list of valid records the compact replica stands at the limit of its name storage, or
answers every read as the list model that was fed with the same records. -/
theorem run_answers (hash : List UInt8 → UInt64) (info : ShareInfo) (fs : List Feed)
    (hvalid : ∀ f ∈ fs, f.valid info.id) :
    (new info).run hash (fs.map .feed) = .error .limit ∨
      ∃ c r, (new info).run hash (fs.map .feed) = .ok c ∧
        fs.foldlM Mist.ShareReplica.feed (Mist.ShareReplica.new info) = some r ∧
        (∀ k, c.getattr k = r.getattr k) ∧
        (∀ d x, c.lookup hash d (Name.bytes x) = .ok (r.lookup d x)) ∧
        ∀ d cookie max, c.readdir d cookie max = .ok (r.readdir d cookie max) := by
  refine ((Simulates.new hash info).feeds fs hvalid).stops_or.imp_right ?_
  rintro ⟨c, hrun, r, hr, hsim⟩
  exact ⟨c, r, hrun, hr, hsim.getattr_eq, hsim.lookup_eq, hsim.readdir_eq⟩

theorem run_answers_listed :
    let fs : List Feed := [.listing ⟨1⟩ ⟨2, 1⟩ ⟨2, 1⟩ [(.letter 'f', ⟨3, 1⟩, .reg)]]
    ∃ c r, (new ⟨⟨1⟩, ⟨2, 1⟩⟩).run (fun _ => 0) (fs.map .feed) = .ok c ∧
      fs.foldlM Mist.ShareReplica.feed (.new ⟨⟨1⟩, ⟨2, 1⟩⟩) = some r ∧
      ∀ k, c.getattr k = r.getattr k := by
  intro fs
  rcases run_answers (fun _ => 0) ⟨⟨1⟩, ⟨2, 1⟩⟩ fs (by decide) with h | ⟨c, r, hc, hr, h, -⟩
  · have hok : ((new ⟨⟨1⟩, ⟨2, 1⟩⟩).run (fun _ => 0) (fs.map .feed)).isOk := by decide +kernel
    rw [h] at hok
    cases hok
  · exact ⟨c, r, hc, hr, h⟩

/-- Every valid run of operations on an empty share, from the record of its root: the compact replica
stands at its limit, or has exact statistics and shows the guest's tree. -/
theorem run_converges (hash : List UInt8 → UInt64) (info : ShareInfo) {a : Attr} (ha : a.kind = .dir)
    (snapId : UInt64) {ops : List Op} (hv : (Tree.emptyShare info.root a).ValidRun ops) :
    let calls := .feed (.snap ⟨snapId, info.id, info.root, a, info.root, [], true⟩) ::
      ops.map fun op => .feed (.record op.record)
    let T := (Tree.emptyShare info.root a).run ops
    (new info).run hash calls = .error .limit ∨
      ∃ c, (new info).run hash calls = .ok c ∧ c.Exact ∧ (∀ k, c.live k ↔ T.Reach T.root k) ∧
        ∀ d, T.Live d → T.kind d = .dir → ∀ x, ∃ found, c.lookup hash d (Name.bytes x) = .ok found ∧
          found.map Prod.fst = (T.entry d x).elim (.error .noEnt) .ok := by
  intro calls T
  have hwf := Tree.emptyShare_wf info.root ha
  obtain ⟨r₀, hr₀, hroot⟩ := seededRoot_mirrors info ha snapId
  obtain ⟨r₁, hr₁, rfl⟩ := Option.map_eq_some_iff.mp hr₀
  -- the recount at the end of a snapshot changes no node
  have hm : Mirrors r₁ _ := hroot.sameTree (.of_shards rfl rfl) rfl rfl rfl
  obtain ⟨hend, hT⟩ := hm.run hwf hv
  have hrun : Meets (· = Stop.limit) ((new info).run hash calls) fun c =>
      ∃ r, Simulates hash 0 c r ∧ Mirrors r T := by
    refine ((Simulates.new hash info).applySnapDir ha).bind fun c₁ ⟨r, hr, h₁⟩ => ?_
    obtain rfl := Option.mem_unique hr₁ hr
    exact (h₁.replay ops).mono fun c hc => ⟨_, hc, hend⟩
  refine hrun.stops_or.imp_right ?_
  rintro ⟨c, hc, r, hsim, hm⟩
  refine ⟨c, hc, hsim.statistics, fun k => ?_,
    fun d hd hdir x => ⟨_, hsim.lookup_eq d x, hm.lookup_eq hd hdir x⟩⟩
  rw [hsim.live, hm.live, hT.live_iff_reach]

theorem run_converges_moveOutAndRemove :
    let calls := .feed (.snap ⟨1, ⟨1⟩, ⟨2, 1⟩, placeholderAttr .dir, ⟨2, 1⟩, [], true⟩) ::
      moveOutAndRemove.map fun op => .feed (.record op.record)
    ∃ c, (new ⟨⟨1⟩, ⟨2, 1⟩⟩).run (fun _ => 0) calls = .ok c ∧ c.Exact := by
  intro calls
  rcases run_converges (fun _ => 0) ⟨⟨1⟩, ⟨2, 1⟩⟩ rfl 1 moveOutAndRemove_valid with h | ⟨c, hc, h, -⟩
  · have hok : ((new ⟨⟨1⟩, ⟨2, 1⟩⟩).run (fun _ => 0) calls).isOk := by decide +kernel
    rw [h] at hok
    cases hok
  · exact ⟨c, hc, h⟩

end ShareReplica

end Mist.Compact
