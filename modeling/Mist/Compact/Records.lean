import Mist.Compact.Refines

/-! The records and the read calls of the replica over compact tables, and what holds of every run
of them. -/

namespace Mist.Compact

open List Option Compact.ShareReplica Compact.DirState Except Attr

open Returns (Meets)

variable {hash : List UInt8 → UInt64}

namespace Represents

variable {d : DirState} {t : Mist.DirState}

variable (h : Represents hash d t)
include h

theorem length : d.live.length = t.ents.length := by
  have := congrArg List.length h.image
  rwa [length_map, length_map] at this

theorem setComplete : Represents hash { d with complete := true } { t with complete := true } :=
  { h with complete := rfl }

theorem find_returns (b : List UInt8) : ∃ found, d.find hash b = .ok found := by
  rcases h.findIdx_cases b with ⟨hidx, -⟩ | ⟨i, e, hidx, hi, -, -⟩
  · exact ⟨none, by rw [find, hidx]; rfl⟩
  refine ⟨some (e.node, e.kind), ?_⟩
  rw [find, hidx]
  show (entAt d.ents i >>= fun e => _) = _
  rw [entAt_eq hi]
  rfl

end Represents

namespace Simulates

variable {extra : Int} {c : ShareReplica} {r : Mist.ShareReplica} {k : NodeKey} {d d' : DirState}
  {t t' : Mist.DirState}

section

variable (h : Simulates hash extra c r)
include h

theorem dirOf_none (hd : c.dirOf k = none) : r.dirOf k = none := by
  rw [dirOf] at hd
  cases hk : c.shards.lookup k with
  | none => rw [Mist.ShareReplica.dirOf, h.absent hk]; rfl
  | some n =>
    obtain ⟨m, hm, hsim⟩ := h.known hk
    rw [hk] at hd
    rw [Mist.ShareReplica.dirOf, hm]
    exact hsim.tableless hd

theorem dirOf_some (hd : c.dirOf k = some d) : ∃ t, r.dirOf k = some t ∧ Represents hash d t := by
  obtain ⟨n, hk, hn⟩ := bind_eq_some_iff.mp hd
  obtain ⟨m, hm, hsim⟩ := h.known hk
  obtain ⟨t, ht, hrep⟩ := hsim.tabled hn
  exact ⟨t, bind_eq_some_iff.mpr ⟨m, hm, ht⟩, hrep⟩

theorem setDir (hd : c.dirOf k = some d) (hrep : Represents hash d' t') :
    Simulates hash (extra + d.live.length - d'.live.length) (c.setDir k d') (r.setDir k t') := by
  obtain ⟨n, hk, hn⟩ := bind_eq_some_iff.mp hd
  obtain ⟨m, hm, hsim⟩ := h.known hk
  have hput := h.put hk (hsim.setTable (.some hrep)) c.dirs
    (by rw [Node.tables, Node.tables, hn]; rfl) r.dirs
  have hlive : n.live = d.live := by rw [Node.live, hn]; rfl
  rw [hlive] at hput
  rw [ShareReplica.setDir, ShareReplica.modifyNode, hk, Mist.ShareReplica.setDir,
    Mist.ShareReplica.modifyNode, hm]
  exact hput

theorem markDirComplete (k : NodeKey) :
    Simulates hash extra (c.markDirComplete k) (r.markDirComplete k) := by
  rw [ShareReplica.markDirComplete, ShareReplica.modifyNode, Mist.ShareReplica.markDirComplete,
    Mist.ShareReplica.modifyNode]
  cases hk : c.shards.lookup k with
  | none =>
    rw [h.absent hk]
    exact h
  | some n =>
    obtain ⟨m, hm, hsim⟩ := h.known hk
    rw [hm]
    have htable : Rel (Represents hash) (n.dir.map fun t => { t with complete := true })
        (m.dir.map fun t => { t with complete := true }) := by
      cases hn : n.dir with
      | none =>
        rw [hsim.tableless hn]
        exact .none
      | some d =>
        obtain ⟨t, ht, hrep⟩ := hsim.tabled hn
        rw [ht]
        exact .some hrep.setComplete
    have hput := h.put hk (hsim.setTable htable) c.dirs
      (by cases hn : n.dir <;> simp [Node.tables, hn]) r.dirs
    have hlive : Node.live { n with dir := n.dir.map fun t => { t with complete := true } } =
        n.live := by
      cases hn : n.dir <;> simp [Node.live, DirState.live, hn]
    rw [hlive, Int.add_sub_cancel] at hput
    exact hput

end

theorem upsertDir {α : Type} (h : Simulates hash 0 c r) (hd : c.dirOf k = some d)
    (hrep : Represents hash d t) (x : Name) (node : NodeKey) (kind : Kind)
    {f : ShareReplica → UpsertResult → Except Stop α} {post : α → Prop}
    (hf : ∀ c', Simulates hash 0 c' ((r.setDir k (t.upsert x node kind).1).entriesAdd
        (t.upsert x node kind).2.dentryDelta) →
      Meets (· = Stop.limit) (f c' (t.upsert x node kind).2) post) :
    Meets (· = Stop.limit) (do
      let u ← d.upsert hash x node kind
      let c ← (c.setDir k u.1).entriesAdd u.2.dentryDelta
      f c u.2) post := by
  refine (hrep.upsert x node kind).bind fun u hu => ?_
  obtain ⟨hnonneg, hlen⟩ := t.length_upsert x node kind
  have hset := h.setDir hd hu.1
  have hextra : (0 : Int) + d.live.length - u.1.live.length = - u.2.dentryDelta := by
    rw [hrep.length, hu.1.length, hu.2]
    omega
  rw [hextra] at hset
  obtain ⟨c', hadd, -, hc'⟩ := hset.entriesAdd u.2.dentryDelta (by omega)
  rw [hadd, hu.2]
  rw [Int.add_left_neg] at hc'
  exact hf c' (hc'.recount _)

theorem shrinkDir (h : Simulates hash 0 c r) (hd : c.dirOf k = some d) (hrep : Represents hash d t)
    (hrep' : Represents hash d' t') (hlen : t'.ents.length + 1 = t.ents.length) :
    ∃ c', (c.setDir k d').entriesAdd (-1) = .ok c' ∧
      Simulates hash 0 c' ((r.setDir k t').entriesAdd (-1)) := by
  have hset := h.setDir hd hrep'
  have hextra : (0 : Int) + d.live.length - d'.live.length = 1 := by
    rw [hrep.length, hrep'.length]
    omega
  rw [hextra] at hset
  obtain ⟨c', hadd, -, hc'⟩ := hset.entriesAdd (-1) (by decide)
  exact ⟨c', hadd, hc'.recount _⟩

section

variable (h : Simulates hash 0 c r) (p : NodeKey) (x : Name)
include h

theorem dentrySet (k : NodeKey) (kind : Kind) :
    Meets (· = Stop.limit) (c.dentrySet hash p x k kind) fun c' =>
      Simulates hash 0 c' (r.dentrySet p x k kind) := by
  rw [ShareReplica.dentrySet, Mist.ShareReplica.dentrySet]
  cases hd : c.dirOf p with
  | none =>
    rw [h.dirOf_none hd]
    exact h
  | some d =>
    obtain ⟨t, ht, hrep⟩ := h.dirOf_some hd
    rw [ht]
    refine h.upsertDir hd hrep x k kind (f := fun c u => do
      let c ← if u.gainedLink then c.linkInc k else .ok c
      u.displaced.toList.foldlM ShareReplica.linkDec c) fun c₁ h₁ => ?_
    dsimp only
    split
    · exact (h₁.linkInc k).bind fun c₂ h₂ => h₂.foldlM_linkDec _
    · exact h₁.foldlM_linkDec _

theorem dentryRelink (k : NodeKey) (kind : Kind) :
    Meets (· = Stop.limit) (c.dentryRelink hash p x k kind) fun c' =>
      Simulates hash 0 c' (r.dentryRelink p x k kind) := by
  rw [ShareReplica.dentryRelink, Mist.ShareReplica.dentryRelink]
  cases hd : c.dirOf p with
  | none =>
    rw [h.dirOf_none hd]
    exact h
  | some d =>
    obtain ⟨t, ht, hrep⟩ := h.dirOf_some hd
    rw [ht]
    refine h.upsertDir hd hrep x k kind (f := fun c u => do
      let c ← u.displaced.toList.foldlM ShareReplica.linkDec c
      return c.setParent k p) fun c₁ h₁ => ?_
    exact (h₁.foldlM_linkDec _).bind fun c₂ h₂ => h₂.setParent k p

theorem dentryRemove :
    Meets (· = Stop.limit) (c.dentryRemove hash p x) fun c' =>
      Simulates hash 0 c' (r.dentryRemove p x) := by
  rw [ShareReplica.dentryRemove, Mist.ShareReplica.dentryRemove]
  cases hd : c.dirOf p with
  | none =>
    rw [h.dirOf_none hd]
    exact h
  | some d =>
    obtain ⟨t, ht, hrep⟩ := h.dirOf_some hd
    rw [ht]
    rcases hrep.remove x with ⟨hrem, hrem'⟩ | ⟨node, d', t', hrem, hrem', hrep'⟩
    · show Meets _ (d.remove hash x.bytes >>= fun _ => _) _
      rw [hrem, bind_some, hrem']
      exact h
    obtain ⟨c₁, hadd, h₁⟩ := h.shrinkDir hd hrep hrep' (Mist.DirState.length_remove hrem')
    show Meets _ (d.remove hash x.bytes >>= fun _ => _) _
    rw [hrem, bind_some, hrem']
    show Meets _ (ShareReplica.entriesAdd _ _ >>= fun c => _) _
    rw [hadd]
    exact (h₁.linkDec (Int.le_refl 0) node).mono fun c₂ h₂ => h₂.1

theorem dentryTake :
    (c.dentryTake hash p x = .ok none ∧ r.dentryTake p x = none) ∨
      ∃ nk c' r', c.dentryTake hash p x = .ok (some (nk, c')) ∧
        r.dentryTake p x = some (nk, r') ∧ Simulates hash 0 c' r' := by
  cases hd : c.dirOf p with
  | none =>
    refine .inl ⟨by rw [ShareReplica.dentryTake, hd], ?_⟩
    rw [Mist.ShareReplica.dentryTake, h.dirOf_none hd]
    rfl
  | some d =>
    obtain ⟨t, ht, hrep⟩ := h.dirOf_some hd
    rw [ShareReplica.dentryTake, hd, Mist.ShareReplica.dentryTake, ht]
    dsimp only
    rw [hrep.find_eq x]
    cases hfind : t.find x with
    | none =>
      refine .inl ⟨rfl, ?_⟩
      show (t.find x).bind _ = _
      rw [hfind]
      rfl
    | some found =>
      rcases hrep.remove x with ⟨-, hrem⟩ | ⟨node, d', t', hrem, hrem', hrep'⟩
      · rw [Mist.DirState.remove_eq_none.mp hrem] at hfind
        cases hfind
      obtain ⟨c₁, hadd, h₁⟩ := h.shrinkDir hd hrep hrep' (Mist.DirState.length_remove hrem')
      refine .inr ⟨(node, found.2), c₁, _, ?_, ?_, h₁⟩
      · rw [hrem]
        show (ShareReplica.entriesAdd _ _ >>= fun c => _) = _
        rw [hadd]
        rfl
      · show (t.find x).bind _ = _
        rw [hfind]
        rw [hrem']
        rfl

theorem created (k : NodeKey) (attr : Option Attr) :
    Meets (· = Stop.limit) (c.created hash p x k attr) fun c' =>
      Simulates hash 0 c' (r.applyRec (.created p x k attr)).1 := by
  have hset : ∀ c₁ r₁, Simulates hash 0 c₁ r₁ → Meets (· = Stop.limit)
      ((if (attr.map kind).getD .reg = .dir then c₁.markDirComplete k else c₁).dentrySet hash p x
        k ((attr.map kind).getD .reg)) fun c' => Simulates hash 0 c'
      ((if (attr.map kind).getD .reg = .dir then r₁.markDirComplete k else r₁).dentrySet p x
        k ((attr.map kind).getD .reg)) := by
    intro c₁ r₁ h₁
    split
    · exact (h₁.markDirComplete k).dentrySet p x k _
    · exact h₁.dentrySet p x k _
  cases attr with
  | some a => exact hset _ _ ((h.upsertNode k a p).drainPending k)
  | none =>
    have hlive := h.live k
    by_cases hk : r.live k
    · simpa [ShareReplica.created, Mist.ShareReplica.applyRec, hk, hlive] using hset _ _ h
    · have hk' : c.live k = false := by simpa [hlive] using hk
      simpa [ShareReplica.created, Mist.ShareReplica.applyRec, hk, hk'] using
        hset _ _ (h.upsertNode k (placeholderAttr .reg) p)

end

theorem applyRec (h : Simulates hash 0 c r) (rec : Rec) :
    Meets (· = Stop.limit) (c.applyRec hash rec) fun c' =>
      Simulates hash 0 c'.1 (r.applyRec rec).1 ∧ c'.2 = (r.applyRec rec).2 := by
  cases rec with
  | created p x k attr =>
    exact (h.created p x k attr).bind fun c' h' => ⟨h', rfl⟩
  | createdBatch p es =>
    have hbatch : Meets (· = Stop.limit)
        (es.foldlM (fun c e => c.created hash p e.name e.node (some e.attr)) c) fun c' =>
          Simulates hash 0 c' (r.applyRec (.createdBatch p es)).1 := by
      induction es generalizing c r with
      | nil => exact h
      | cons e es ih =>
        exact (h.created p e.name e.node (some e.attr)).bind fun c' h' => ih h'
    exact hbatch.bind fun c' h' => ⟨h', rfl⟩
  | removed p x => exact (h.dentryRemove p x).bind fun c' h' => ⟨h', rfl⟩
  | renamed p x q y =>
    rw [ShareReplica.applyRec, Mist.ShareReplica.applyRec]
    rcases h.dentryTake p x with ⟨hc, hr⟩ | ⟨⟨node, kind⟩, c₁, r₁, hc, hr, h₁⟩
    · rw [hc, hr]
      exact ⟨h, rfl⟩
    · rw [hc, hr]
      exact (h₁.dentryRelink q y node kind).bind fun c' h' => ⟨h', rfl⟩
  | attrChanged k a =>
    rw [ShareReplica.applyRec, Mist.ShareReplica.applyRec]
    refine ⟨?_, rfl⟩
    have hknown : (c.updateAttr k a).2 = (r.updateAttr k a).2 := (h.noteSide k a).live k
    have hup := h.updateAttr k a
    dsimp only
    rw [hknown]
    split
    · exact hup
    · exact hup.stashPending k _
  | content k version size mtime inProgress =>
    rw [ShareReplica.applyRec, Mist.ShareReplica.applyRec]
    refine ⟨?_, rfl⟩
    have hknown : (c.updateContent k version size mtime).2 = (r.updateContent k version size mtime).2 :=
      h.live k
    have hup := h.updateContent k version size mtime
    dsimp only
    rw [hknown]
    split
    · exact hup
    · exact hup.stashPending k _
  | selfRemoved k =>
    have hroot : c.info.root = r.root := congrArg ShareInfo.root h.info
    rw [ShareReplica.applyRec, Mist.ShareReplica.applyRec, h.live k, hroot]
    split_ifs with hk
    · obtain ⟨n, hn⟩ : ∃ n, c.shards.lookup k = some n :=
        isSome_iff_exists.mp ((h.live k).trans hk.1)
      exact (h.forceRemove hn).bind fun c' h' => ⟨h', rfl⟩
    · exact ⟨h, rfl⟩
  | overflow => exact ⟨h, rfl⟩
  | echoMarker tag => exact ⟨h, rfl⟩

theorem filling {f : Filling} (hextra : 0 ≤ extra)
    (h : Simulates hash extra f.replica r) (hrep : Represents hash f.table t) (es : List SnapEntry) :
    Meets (· = Stop.limit) (es.foldlM (Filling.add hash) f) fun f' =>
      Represents hash f'.table (t.fill es).table ∧
        f'.toLink = f.toLink ++ (t.fill es).toLink ∧
        f'.toUnlink = f.toUnlink ++ (t.fill es).toUnlink ∧
        f'.replica.shards = f.replica.shards ∧
        Simulates hash (extra + (t.fill es).delta) f'.replica r := by
  induction es generalizing f t extra with
  | nil =>
    refine ⟨hrep, (append_nil _).symm, (append_nil _).symm, rfl, ?_⟩
    rw [Mist.DirState.fill, Int.add_zero]
    exact h
  | cons e es ih =>
    obtain ⟨hnonneg, -⟩ := t.length_upsert e.name e.node e.attr.kind
    have hadd : Meets (· = Stop.limit) (f.add hash e) fun f' =>
        ∃ c', f' = ⟨c', f'.table,
            f.toLink ++ (if (t.upsert e.name e.node e.attr.kind).2.gainedLink then [e.node] else []),
            f.toUnlink ++ (t.upsert e.name e.node e.attr.kind).2.displaced.toList⟩ ∧
          Represents hash f'.table (t.upsert e.name e.node e.attr.kind).1 ∧
          c'.shards = f.replica.shards ∧
          Simulates hash (extra + (t.upsert e.name e.node e.attr.kind).2.dentryDelta) c' r := by
      refine (hrep.upsert e.name e.node e.attr.kind).bind fun u hu => ?_
      obtain ⟨c', hadd, hshards, hc'⟩ := h.entriesAdd u.2.dentryDelta (by rw [hu.2]; omega)
      rw [hadd]
      rw [hu.2] at hc'
      exact ⟨c', by rw [hu.2], hu.1, hshards, hc'⟩
    refine hadd.bind fun f' hf' => ?_
    obtain ⟨c', hf', hrep', hshards, hc'⟩ := hf'
    rw [hf']
    refine (ih (f := ⟨c', f'.table, _, _⟩) (by omega) hc' hrep').mono fun f'' hf'' => ?_
    obtain ⟨h1, h2, h3, h4, h5⟩ := hf''
    refine ⟨h1, ?_, ?_, h4.trans hshards, ?_⟩
    · rw [h2, Mist.DirState.fill, append_assoc]
      split <;> rfl
    · rw [h3, Mist.DirState.fill, append_assoc]
    · rw [Int.add_assoc] at h5
      exact h5

theorem foldl_upsertNode (h : Simulates hash extra c r) (es : List SnapEntry) (p : NodeKey) :
    Simulates hash extra (es.foldl (fun c e => c.upsertNode e.node e.attr p) c)
      (es.foldl (fun r e => r.upsertNode e.node e.attr p) r) :=
  foldl_rel (r := Simulates hash extra) h fun e _ _ _ h => h.upsertNode e.node e.attr p

theorem applySnapDir (h : Simulates hash 0 c r) {d : SnapDir} (hkind : d.dirAttr.kind = .dir) :
    Meets (· = Stop.limit) (c.applySnapDir hash d) fun c' =>
      ∃ r', r.applySnapDir d = some r' ∧ Simulates hash 0 c' r' := by
  have hnodes := (h.upsertNode d.dir d.dirAttr d.parent).foldl_upsertNode d.entries d.dir
  obtain ⟨t, ht⟩ := r.snapNodes_table hkind
  cases hd : (d.entries.foldl (fun c e => c.upsertNode e.node e.attr d.dir)
      (c.upsertNode d.dir d.dirAttr d.parent)).dirOf d.dir with
  | none =>
    have hnone : (r.snapNodes d).dirOf d.dir = none := hnodes.dirOf_none hd
    rw [ht] at hnone
    cases hnone
  | some table =>
    obtain ⟨t', ht', hrep⟩ := hnodes.dirOf_some hd
    obtain rfl : t = t' := mem_unique ht ht'
    obtain ⟨n, hk, hn⟩ := bind_eq_some_iff.mp hd
    rw [ShareReplica.applySnapDir, hk]
    dsimp only
    rw [hn]
    refine (filling (f := ⟨_, table, [], []⟩) (Int.le_refl 0) hnodes hrep d.entries).bind fun f hf => ?_
    obtain ⟨htable, hlink, hunlink, hshards, hsim⟩ := hf
    have hold : f.replica.dirOf d.dir = some table := by
      rw [dirOf, hshards]
      exact hd
    have hnew : Represents hash (if d.last then { f.table with complete := true } else f.table)
        (Mist.ShareReplica.snapTable d t) := by
      rw [Mist.ShareReplica.snapTable]
      split
      · exact htable.setComplete
      · exact htable
    have hset := hsim.setDir hold hnew
    have hextra : (0 : Int) + (t.fill d.entries).delta + table.live.length -
        (if d.last then { f.table with complete := true } else f.table : DirState).live.length = 0 := by
      rw [hrep.length, hnew.length, Mist.ShareReplica.snapTable_ents]
      have := t.length_fill d.entries
      omega
    rw [hextra] at hset
    rw [hlink, hunlink, nil_append, nil_append]
    refine ((hset.recount (t.fill d.entries).delta).foldlM_linkInc _).bind fun c₁ h₁ => ?_
    refine (h₁.foldlM_linkDec _).mono fun c₂ h₂ => ⟨_, Mist.ShareReplica.applySnapDir_eq ht, h₂⟩

section

variable (h : Simulates hash extra c r)
include h

section

variable (k : NodeKey)

theorem graftSide (hasSide : Bool) (a : Attr) :
    c.graftSide k hasSide a = r.graftSide k hasSide a := by
  rw [ShareReplica.graftSide, Mist.ShareReplica.graftSide, h.symlinks, h.rdevs]

theorem getattr_eq : c.getattr k = r.getattr k := by
  rw [getattr, Mist.ShareReplica.getattr]
  cases hk : c.shards.lookup k with
  | none => rw [h.absent hk]
  | some n =>
    obtain ⟨m, hm, hsim⟩ := h.known hk
    have hattr : m.attr = n.attr := congrArg Mist.Node.attr hsim.fields
    rw [hm]
    dsimp only
    rw [h.graftSide, hsim.hasSide, hattr]

theorem lookup_eq (x : Name) : c.lookup hash k x.bytes = .ok (r.lookup k x) := by
  rw [ShareReplica.lookup, Mist.ShareReplica.lookup]
  cases hk : c.shards.lookup k with
  | none => rw [h.absent hk]
  | some n =>
    obtain ⟨m, hm, hsim⟩ := h.known hk
    rw [hm]
    dsimp only
    cases hn : n.dir with
    | none => rw [hsim.tableless hn]
    | some d =>
      obtain ⟨t, ht, hrep⟩ := hsim.tabled hn
      rw [ht]
      dsimp only
      rw [hrep.find_eq x]
      cases t.find x with
      | none => rfl
      | some found =>
        show ok ((c.getattr found.1).map _) = _
        rw [h.getattr_eq]
        rfl

theorem lookup_returns (b : List UInt8) :
    ∃ answer, c.lookup hash k b = .ok answer := by
  rw [ShareReplica.lookup]
  cases hk : c.shards.lookup k with
  | none => exact ⟨_, rfl⟩
  | some n =>
    dsimp only
    cases hn : n.dir with
    | none => exact ⟨_, rfl⟩
    | some d =>
      obtain ⟨m, -, hsim⟩ := h.known hk
      obtain ⟨t, -, hrep⟩ := hsim.tabled hn
      obtain ⟨found, hfind⟩ := hrep.find_returns b
      show ∃ answer, (d.find hash b >>= fun _ => _) = _
      rw [hfind]
      cases found with
      | none => exact ⟨_, rfl⟩
      | some nk => exact ⟨_, rfl⟩

end

end

end Simulates

section

variable {d : DirState} {t : Mist.DirState} (h : Represents hash d t)
include h

theorem pageEntry_eq {e : CEnt}
    (he : e ∈ d.live) {a : Mist.CEnt} (ha : image d.arena e = a.image) : pageEntry d e = .ok a := by
  have hrange := h.range e (Represents.mem_live.mp he).1
  obtain ⟨hcookie, hname, hnode, hkind⟩ :
      e.cookie = a.cookie ∧ text d.arena e = a.name.bytes ∧ e.node = a.node ∧ e.kind = a.kind := by
    simpa [image, Mist.CEnt.image] using ha
  have hnew : Name.new a.name.bytes = .ok a.name := by
    rw [Name.new]
    split
    · rfl
    · rename_i err herr
      rw [a.name.valid] at herr
      cases herr
  rw [pageEntry, DirState.nameOf, slice_eq hrange, hname, hcookie, hnode, hkind]
  simp only [bind, Except.bind, hnew]
  rfl

theorem mapM_pageEntry {es : List CEnt}
    {as : List Mist.CEnt} (hlive : ∀ e ∈ es, e ∈ d.live)
    (himage : es.map (image d.arena) = as.map Mist.CEnt.image) :
    es.mapM (pageEntry d) = .ok as := by
  induction es generalizing as with
  | nil =>
    obtain rfl : as = [] := map_eq_nil_iff.mp himage.symm
    rfl
  | cons e es ih =>
    cases as with
    | nil => cases himage
    | cons a as =>
      obtain ⟨hhead, htail⟩ := cons_eq_cons.mp himage
      rw [mapM_cons, pageEntry_eq h (hlive e (.head _)) hhead,
        ih (fun e' he' => hlive e' (.tail _ he')) htail]
      rfl

end

variable {c : ShareReplica} {r : Mist.ShareReplica}

theorem Simulates.readdir_eq {extra : Int} (h : Simulates hash extra c r) (k : NodeKey)
    (cookie max : Nat) : c.readdir k cookie max = .ok (r.readdir k cookie max) := by
  rw [readdir, Mist.ShareReplica.readdir]
  cases hk : c.shards.lookup k with
  | none => rw [h.absent hk]
  | some n =>
    obtain ⟨m, hm, hsim⟩ := h.known hk
    rw [hm]
    dsimp only
    cases hn : n.dir with
    | none => rw [hsim.tableless hn]
    | some d =>
      obtain ⟨t, ht, hrep⟩ := hsim.tabled hn
      rw [ht]
      dsimp only
      rw [hrep.complete]
      split
      · obtain ⟨es, hes, hlive, himage⟩ := hrep.rangeAfter cookie
        have hdead : d.dead ≤ d.ents.length := by
          have := hrep.dead
          omega
        rw [liveLen, if_pos hdead, hes]
        have hpage : (es.take max).mapM (pageEntry d) =
            .ok ((t.rangeAfter cookie).take max) := by
          refine mapM_pageEntry hrep (fun e he => hlive e (mem_of_mem_take he)) ?_
          rw [map_take, himage, map_take]
        have hlen : es.length = (t.rangeAfter cookie).length := by
          simpa using congrArg length himage
        show ((es.take max).mapM (pageEntry d) >>= fun entries => _) = _
        rw [hpage, hlen, hrep.dirgen]
        rfl
      · rfl

/-- A valid record does to the compact replica what it does to the list model. -/
theorem Simulates.feed (h : Simulates hash 0 c r)
    {share : ShareId} {f : Feed} (hvalid : f.valid share) :
    Meets (· = Stop.limit) (c.call hash (.feed f)) fun c' =>
      ∃ r', r.feed f = some r' ∧ Simulates hash 0 c' r' := by
  cases f with
  | snap d => exact h.applySnapDir (SnapDir.dir_of_validate (Bool.and_eq_true_iff.mp hvalid).2)
  | record rec => exact (h.applyRec rec).bind fun u hu => ⟨_, rfl, hu.1⟩

section

variable {c : ShareReplica} {r : Mist.ShareReplica} {P : Mist.ShareReplica → Prop} {share : ShareId}

theorem Simulates.call (h : Simulates hash 0 c r) (hr : P r)
    (hfeed : ∀ {r r' f}, P r → Mist.ShareReplica.feed r f = some r' → P r')
    {call : ShareReplica.Call} (hvalid : call.valid share) :
    Meets (· = Stop.limit) (c.call hash call) fun c' => ∃ r', P r' ∧ Simulates hash 0 c' r' := by
  cases call with
  | feed f => exact (h.feed hvalid).mono fun c' ⟨r', hr', hc'⟩ => ⟨r', hfeed hr hr', hc'⟩
  | lookup dir name =>
    obtain ⟨answer, hanswer⟩ := h.lookup_returns dir name
    refine Returns.Meets.of_eq (a := c) ?_ ⟨r, hr, h⟩
    show (c.lookup hash dir name >>= fun _ => _) = _
    rw [hanswer]
    rfl
  | readdir dir cookie max =>
    refine Returns.Meets.of_eq (a := c) ?_ ⟨r, hr, h⟩
    show (c.readdir dir cookie max >>= fun _ => _) = _
    rw [h.readdir_eq]
    rfl

/-- What every record keeps of the list model holds after a run. -/
theorem Simulates.run (h : Simulates hash 0 c r) (hr : P r)
    (hfeed : ∀ {r r' f}, P r → Mist.ShareReplica.feed r f = some r' → P r')
    {calls : List ShareReplica.Call} (hvalid : ∀ call ∈ calls, call.valid share) :
    Meets (· = Stop.limit) (c.run hash calls) fun c' => ∃ r', P r' ∧ Simulates hash 0 c' r' := by
  induction calls generalizing c r with
  | nil => exact ⟨r, hr, h⟩
  | cons call calls ih =>
    refine (h.call hr hfeed (hvalid call (.head _))).bind fun c₁ ⟨r₁, hr₁, h₁⟩ => ?_
    exact ih h₁ hr₁ fun call hc => hvalid call (.tail _ hc)

end

namespace ShareReplica

structure Exact (c : ShareReplica) : Prop where
  nodes : c.nodes = c.shards.total fun _ => 1
  dirs : c.dirs = c.shards.total Node.tables
  entries : c.entries = c.shards.total fun n => n.live.length

end ShareReplica

theorem Simulates.statistics (h : Simulates hash 0 c r) : c.Exact where
  nodes := h.nodes
  dirs := h.dirs
  entries := by
    have := h.entries
    exact Int.ofNat_inj.mp this

namespace ShareReplica

/-- Valid records in any order, with reads between them: no call stops, unless at a limit, the
statistics are exact, and the root stays. -/
theorem run_robust (hash : List UInt8 → UInt64) (info : ShareInfo) (before after : List Call)
    (hvalid : ∀ call ∈ before ++ after, call.valid info.id) :
    (new info).run hash (before ++ after) = .error .limit ∨
      ∃ c₀ c, (new info).run hash before = .ok c₀ ∧ (new info).run hash (before ++ after) = .ok c ∧
        c.Exact ∧ (c₀.live info.root → c.live info.root) := by
  have hsplit : (new info).run hash (before ++ after) =
      (new info).run hash before >>= fun c => c.run hash after := foldlM_append
  have hbefore := (Simulates.new hash info).run (Mist.ShareReplica.Keeps.refl _)
    (fun h hf => h.trans (Mist.ShareReplica.feed_keeps hf))
    fun call hc => hvalid call (mem_append_left _ hc)
  cases h₀ : (new info).run hash before with
  | error stop =>
    rw [h₀] at hbefore hsplit
    obtain rfl : stop = .limit := hbefore
    exact .inl hsplit
  | ok c₀ =>
    rw [h₀] at hbefore hsplit
    obtain ⟨r₀, hkeeps₀, hsim₀⟩ := hbefore
    have hafter := hsim₀.run (Mist.ShareReplica.Keeps.refl _)
      (fun h hf => h.trans (Mist.ShareReplica.feed_keeps hf))
      fun call hc => hvalid call (mem_append_right _ hc)
    have hrun : (new info).run hash (before ++ after) = c₀.run hash after := hsplit
    rw [hrun]
    cases h₁ : c₀.run hash after with
    | error stop =>
      rw [h₁] at hafter
      obtain rfl : stop = .limit := hafter
      exact .inl rfl
    | ok c =>
      rw [h₁] at hafter
      obtain ⟨r, hkeeps, hsim⟩ := hafter
      refine .inr ⟨c₀, c, rfl, rfl, hsim.statistics, fun hroot => ?_⟩
      have hinfo₀ : r₀.root = info.root := congrArg ShareInfo.root hkeeps₀.info
      have hinfo : r.root = info.root := (congrArg ShareInfo.root hkeeps.info).trans hinfo₀
      rw [hsim.live, ← hinfo]
      refine hkeeps.root ?_
      rw [hinfo₀, ← hsim₀.live]
      exact hroot

/-- A directory below itself, which loses its name outside. -/
theorem run_robust_cycle :
    let info : ShareInfo := ⟨⟨1⟩, ⟨2, 1⟩⟩
    let before : List Call :=
      [.feed (.listing ⟨1⟩ ⟨2, 1⟩ ⟨2, 1⟩ [(.letter 'a', ⟨3, 1⟩, .dir), (.letter 'f', ⟨4, 1⟩, .reg)]),
       .feed (.listing ⟨1⟩ ⟨3, 1⟩ ⟨2, 1⟩ [(.letter 'b', ⟨3, 1⟩, .dir), (.letter 'r', ⟨2, 1⟩, .dir)])]
    let after : List Call :=
      [.readdir ⟨2, 1⟩ 0 10, .feed (.record (.removed ⟨2, 1⟩ (.letter 'a'))),
       .feed (.record (.removed ⟨3, 1⟩ (.letter 'b'))), .lookup ⟨2, 1⟩ [102]]
    ∃ c, (new info).run (fun b => b.length.toUInt64) (before ++ after) = .ok c ∧
      (c.nodes, c.dirs, c.entries) = (2, 1, 1) ∧ c.Exact ∧ c.live info.root := by
  intro info before after
  have hrun : ∃ c, (new info).run (fun b => b.length.toUInt64) (before ++ after) = .ok c ∧
      decide ((c.nodes, c.dirs, c.entries) = (2, 1, 1) ∧ c.live info.root) :=
    Returns.exists_ok (by decide +kernel)
  obtain ⟨c, hc, heval⟩ := hrun
  obtain ⟨hstats, hlive⟩ := of_decide_eq_true heval
  rcases run_robust (fun b => b.length.toUInt64) info before after (by decide) with
    h | ⟨_, c', _, h, hexact, _⟩
  · rw [hc] at h
    cases h
  · obtain rfl : c = c' := ok.inj (hc.symm.trans h)
    exact ⟨c, hc, hstats, hexact, hlive⟩

end ShareReplica

end Mist.Compact
