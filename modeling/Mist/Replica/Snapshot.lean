import Mist.Replica.Dentry

/-! What a snapshot record does to a replica whose table of that directory it does not contradict.
-/

namespace Mist

open List DirState Runs

namespace DirState

theorem count_fill (t : DirState) (es : List SnapEntry) (j : NodeKey) :
    (t.fill es).table.children.count j + (t.fill es).toUnlink.count j =
      t.children.count j + (t.fill es).toLink.count j := by
  induction es generalizing t with
  | nil => simp [fill]
  | cons e es ih =>
    have h1 := ih (t.upsert e.name e.node e.attr.kind).1
    have h2 := t.count_upsert e.name e.node e.attr.kind j
    simp only [fill, count_append]
    split at h2 <;> rename_i hg <;>
      simp only [hg, if_true, if_false, Bool.false_eq_true, count_nil] at h2 ⊢
    · rw [← singleton_append (l := Filled.toLink _), count_append]
      omega
    · omega

theorem length_fill (t : DirState) (es : List SnapEntry) :
    ((t.fill es).table.ents.length : Int) = t.ents.length + (t.fill es).delta := by
  induction es generalizing t with
  | nil => simp [fill]
  | cons e es ih =>
    have h1 := ih (t.upsert e.name e.node e.attr.kind).1
    have h2 := (t.length_upsert e.name e.node e.attr.kind).2
    simp only [fill]
    omega

variable {t : DirState} {es : List SnapEntry}

theorem mem_toLink_fill {k : NodeKey} (h : k ∈ (t.fill es).toLink) : ∃ e ∈ es, e.node = k := by
  induction es generalizing t with
  | nil => simp [fill] at h
  | cons e es ih =>
    have hrest : k ∈ ((t.upsert e.name e.node e.attr.kind).1.fill es).toLink →
        ∃ e' ∈ e :: es, e'.node = k := fun h => by
      obtain ⟨e', he', hk⟩ := ih h
      exact ⟨e', .tail _ he', hk⟩
    simp only [fill] at h
    split at h
    · rcases mem_cons.mp h with heq | h
      · exact ⟨e, .head _, heq.symm⟩
      · exact hrest h
    · exact hrest h

theorem find_fill_of_notMem {x : Name} (h : ∀ e ∈ es, e.name ≠ x) :
    (t.fill es).table.find x = t.find x := by
  induction es generalizing t with
  | nil => rfl
  | cons e es ih =>
    rw [fill, ih fun e' he' => h e' (.tail _ he'), find_upsert, if_neg (Ne.symm (h e (.head _)))]

theorem find_fill_of_mem {x : Name} (h : ∃ e ∈ es, e.name = x) :
    ∃ e ∈ es, e.name = x ∧ (t.fill es).table.find x = some (e.node, e.attr.kind) := by
  induction es generalizing t with
  | nil =>
    obtain ⟨e, he, -⟩ := h
    cases he
  | cons e es ih =>
    by_cases hlater : ∃ e' ∈ es, e'.name = x
    · obtain ⟨e', he', hx, hfind⟩ := ih (t := (t.upsert e.name e.node e.attr.kind).1) hlater
      exact ⟨e', .tail _ he', hx, hfind⟩
    obtain ⟨e', he', hx⟩ := h
    rcases mem_cons.mp he' with rfl | he'
    · refine ⟨e', .head _, hx, ?_⟩
      rw [fill, find_fill_of_notMem fun e₁ he₁ heq => hlater ⟨e₁, he₁, heq⟩, find_upsert, if_pos hx.symm]
    · exact absurd ⟨e', he', hx⟩ hlater

theorem fill_agreeing {listing : Name → Option NodeKey} (t : DirState) (es : List SnapEntry)
    (ht : ∀ x k kind, t.find x = some (k, kind) → listing x = some k)
    (hes : ∀ e ∈ es, listing e.name = some e.node) :
    (t.fill es).toUnlink = [] ∧
      ∀ x, ((t.fill es).table.find x).map Prod.fst =
        if ∃ e ∈ es, e.name = x then listing x else (t.find x).map Prod.fst := by
  induction es generalizing t with
  | nil => simp [fill]
  | cons e es ih =>
    have he := hes e mem_cons_self
    have hnext : ∀ x k kind, (t.upsert e.name e.node e.attr.kind).1.find x = some (k, kind) →
        listing x = some k := by
      intro x k kind hx
      rw [find_upsert] at hx
      split_ifs at hx with heq
      · simp only [Option.some.injEq, Prod.mk.injEq] at hx
        rw [heq, he, hx.1]
      · exact ht x k kind hx
    obtain ⟨hun, hfind⟩ := ih _ hnext fun e' he' => hes e' (.tail _ he')
    have hdis : (t.upsert e.name e.node e.attr.kind).2.displaced = none := by
      rw [displaced_upsert]
      cases hf : t.find e.name with
      | none => rfl
      | some nk =>
        have := ht e.name nk.1 nk.2 hf
        rw [he, Option.some.injEq] at this
        simp [Option.filter, this]
    refine ⟨by simp [fill, hun, hdis], fun x => ?_⟩
    have hrest := hfind x
    simp only [fill, mem_cons, exists_eq_or_imp]
    rw [hrest]
    by_cases hlater : ∃ e' ∈ es, e'.name = x
    · simp [hlater]
    rw [if_neg hlater, find_upsert]
    by_cases hx : x = e.name
    · simp [hx, he]
    · simp [hlater, hx, Ne.symm hx]

end DirState

namespace ShareReplica

variable {d : SnapDir} {exempt : NodeKey → Prop} {r : ShareReplica}

theorem foldl_linkInc_counts {slack : NodeKey → Nat} {l : List NodeKey} {todo : List NodeKey} (hl : ∀ k ∈ l, r.live k)
    (h : r.Counts slack exempt l todo) :
    (l.foldl linkInc r).Counts slack exempt [] todo := by
  induction l generalizing r with
  | nil => exact h
  | cons k l ih =>
    refine ih (fun j hj => ?_) (linkInc_counts (hl k (.head _)) h)
    rw [view_live (linkInc_view r k)]
    exact hl j (.tail _ hj)

theorem isDir_upsertNode (r : ShareReplica) (k : NodeKey) (a : Attr) (p j : NodeKey) :
    (r.upsertNode k a p).isDir j ↔ (j = k ∧ a.kind = .dir) ∨ r.isDir j := by
  show (r.upsertNode k a p).view.dir j ↔ _
  rw [upsertNode_view]
  rfl

theorem foldl_upsertNode (es : List SnapEntry) (p : NodeKey) (r : ShareReplica) :
    let r' := es.foldl (fun r e => r.upsertNode e.node e.attr p) r
    r'.info = r.info ∧ (∀ k, r'.live k ↔ r.live k ∨ ∃ e ∈ es, e.node = k) ∧
      (∀ k, r'.isDir k ↔ r.isDir k ∨ ∃ e ∈ es, e.node = k ∧ e.attr.kind = .dir) ∧
      ∀ d x, r'.entry d x = r.entry d x := by
  induction es generalizing r with
  | nil => simp
  | cons e es ih =>
    have hview := upsertNode_view r e.node e.attr p
    obtain ⟨hinfo, hlive, hdir, hentry⟩ := ih (r.upsertNode e.node e.attr p)
    refine ⟨hinfo.trans (upsertNode_info ..), fun k => ?_, fun k => ?_, fun d x => ?_⟩
    · rw [foldl_cons, hlive, view_live hview]
      simp only [View.upsert, view, mem_cons, exists_eq_or_imp, eq_comm (a := k)]
      tauto
    · rw [foldl_cons, hdir, isDir_upsertNode]
      simp only [mem_cons, exists_eq_or_imp, eq_comm (a := k)]
      tauto
    · rw [foldl_cons, hentry, view_entry hview]
      rfl

theorem foldl_upsertNode_counts {slack : NodeKey → Nat} (es : List SnapEntry) (p : NodeKey)
    (r : ShareReplica) (hslack : ∀ k, slack k = 0) (h : r.Counts slack exempt [] []) :
    (es.foldl (fun r e => r.upsertNode e.node e.attr p) r).Counts slack
      (fun k => exempt k ∨ ∃ e ∈ es, e.node = k) [] [] := by
  induction es generalizing r exempt with
  | nil => simpa using h
  | cons e es ih =>
    refine (ih _ (upsertNode_counts e.node e.attr p h fun _ => hslack _)).mono fun k hk => ?_
    simp only [mem_cons, exists_eq_or_imp, eq_comm (a := e.node)]
    tauto

/-- What a replica is after a snapshot record: the counts are kept, the record's directory and
children are known, and the record's names lead where `listing` says. -/
structure Listed (r r' : ShareReplica) (d : SnapDir) (listing : Name → Option NodeKey) : Prop where
  info : r'.info = r.info
  counts : r'.Counts (fun _ => 0) (fun _ => True) [] []
  live : ∀ k, r'.live k ↔ r.live k ∨ k = d.dir ∨ ∃ e ∈ d.entries, e.node = k
  dir : ∀ k, r'.isDir k ↔ r.isDir k ∨ k = d.dir ∨ ∃ e ∈ d.entries, e.node = k ∧ e.attr.kind = .dir
  entry : ∀ p x, r'.entry p x =
    if p = d.dir ∧ ∃ e ∈ d.entries, e.name = x then listing x else r.entry p x

/-- The replica once a snapshot record's directory and its children are known nodes. -/
def snapNodes (r : ShareReplica) (d : SnapDir) : ShareReplica :=
  d.entries.foldl (fun r e => r.upsertNode e.node e.attr d.dir)
    (r.upsertNode d.dir d.dirAttr d.parent)

theorem snapNodes_listed (r : ShareReplica) (hkind : d.dirAttr.kind = .dir) :
    (r.snapNodes d).info = r.info ∧
      (∀ k, (r.snapNodes d).live k ↔ r.live k ∨ k = d.dir ∨ ∃ e ∈ d.entries, e.node = k) ∧
      (∀ k, (r.snapNodes d).isDir k ↔
        r.isDir k ∨ k = d.dir ∨ ∃ e ∈ d.entries, e.node = k ∧ e.attr.kind = .dir) ∧
      ∀ p x, (r.snapNodes d).entry p x = r.entry p x := by
  have hview := upsertNode_view r d.dir d.dirAttr d.parent
  obtain ⟨hinfo, hlive, hdir, hentry⟩ :=
    foldl_upsertNode d.entries d.dir (r.upsertNode d.dir d.dirAttr d.parent)
  refine ⟨hinfo.trans (upsertNode_info ..), fun k => ?_, fun k => ?_, fun p x => ?_⟩
  · have hlive₁ : (r.upsertNode d.dir d.dirAttr d.parent).live k ↔ k = d.dir ∨ r.live k :=
      view_live hview k
    rw [snapNodes, hlive, hlive₁, or_comm (a := k = d.dir), or_assoc]
  · have hdir₁ : (r.upsertNode d.dir d.dirAttr d.parent).isDir k ↔ k = d.dir ∨ r.isDir k := by
      rw [isDir_upsertNode, and_iff_left hkind]
    rw [snapNodes, hdir, hdir₁, or_comm (a := k = d.dir), or_assoc]
  · rw [snapNodes, hentry, view_entry hview]
    rfl

theorem snapNodes_counts (d : SnapDir) (h : r.Counts (fun _ => 0) exempt [] []) :
    (r.snapNodes d).Counts (fun _ => 0)
      (fun k => (exempt k ∨ k = d.dir) ∨ ∃ e ∈ d.entries, e.node = k) [] [] :=
  foldl_upsertNode_counts d.entries d.dir _ (fun _ => rfl)
    (upsertNode_counts d.dir d.dirAttr d.parent h fun _ => rfl)

theorem snapNodes_table (r : ShareReplica) (hkind : d.dirAttr.kind = .dir) :
    ∃ t, (r.snapNodes d).dirOf d.dir = some t := by
  obtain ⟨-, -, hdir, -⟩ := r.snapNodes_listed hkind
  exact Option.isSome_iff_exists.mp ((hdir d.dir).mpr (.inr (.inl rfl)))

/-- The table that is stored: the filled one, marked complete by the directory's last record. -/
def snapTable (d : SnapDir) (t : DirState) : DirState :=
  if d.last then { (t.fill d.entries).table with complete := true } else (t.fill d.entries).table

/-- The replica with the entries in the table and their links counted, before the nodes that lost a
name are dropped. -/
def filled (r : ShareReplica) (p : NodeKey) (t : DirState) (f : DirState.Filled) : ShareReplica :=
  f.toLink.foldl linkInc ((r.setDir p t).entriesAdd f.delta)

section

variable {r : ShareReplica} {p : NodeKey} {t t' : DirState}

theorem foldl_linkInc_lookup (l : List NodeKey) (r : ShareReplica) (j : NodeKey) :
    (l.foldl linkInc r).shards.lookup j =
      (r.shards.lookup j).map fun n => { n with links := n.links + l.count j } := by
  induction l generalizing r with
  | nil =>
    exact (Option.map_id' ..).symm
  | cons k l ih =>
    rw [foldl_cons, ih, linkInc, lookup_modifyNode, count_cons]
    split
    · rename_i hjk
      rw [Option.map_map, if_pos (beq_iff_eq.mpr hjk.symm)]
      refine congrArg (Option.map · _) (funext fun n => ?_)
      show { n with links := n.links + 1 + l.count j } = { n with links := n.links + (l.count j + 1) }
      rw [Nat.add_right_comm, Nat.add_assoc]
    · rename_i hjk
      rw [if_neg fun h => hjk (beq_iff_eq.mp h).symm]
      rfl

theorem filled_lookup (r : ShareReplica) (p : NodeKey) (t : DirState) (f : Filled)
    (j : NodeKey) :
    (r.filled p t f).shards.lookup j = (r.shards.lookup j).map fun n =>
      { n with links := n.links + f.toLink.count j, dir := if j = p then some t else n.dir } := by
  rw [filled, foldl_linkInc_lookup, entriesAdd_shards, setDir, lookup_modifyNode]
  split
  · rw [Option.map_map]
    rfl
  · rfl

theorem filled_info (r : ShareReplica) (p : NodeKey) (t : DirState) (f : Filled) :
    (r.filled p t f).info = r.info := by
  rw [filled, foldl_same info linkInc_info, entriesAdd_info, setDir_info]

theorem filled_live (r : ShareReplica) (p : NodeKey) (t : DirState) (f : Filled)
    (j : NodeKey) : (r.filled p t f).live j = r.live j := by
  rw [live, filled_lookup, Option.isSome_map, live]

theorem filled_dirOf (hp : r.dirOf p = some t) (f : Filled) (j : NodeKey) :
    (r.filled p t' f).dirOf j = if j = p then some t' else r.dirOf j := by
  rw [dirOf, filled_lookup]
  split_ifs with hj
  · obtain ⟨n, hn, -⟩ := dirOf_eq_some.mp hp
    rw [hj, hn]
    rfl
  · rw [dirOf]
    cases r.shards.lookup j <;> rfl

end

/-- The replica with a snapshot record's table stored and its new links counted. -/
def snapStored (r : ShareReplica) (d : SnapDir) (t : DirState) : ShareReplica :=
  (t.fill d.entries).toLink.foldl linkInc
    ((r.setDir d.dir (snapTable d t)).entriesAdd (t.fill d.entries).delta)

section

variable {r : ShareReplica} {d : SnapDir} {t : DirState}

theorem snapTable_ents (d : SnapDir) (t : DirState) :
    (snapTable d t).ents = (t.fill d.entries).table.ents := by
  unfold snapTable
  split <;> rfl

theorem snapStored_info (r : ShareReplica) (d : SnapDir) (t : DirState) :
    (r.snapStored d t).info = r.info :=
  filled_info ..

theorem live_setDir (r : ShareReplica) (p : NodeKey) (t : DirState) (k : NodeKey) :
    (r.setDir p t).live k = r.live k := by
  rw [live, setDir, lookup_modifyNode]
  split
  · rw [Option.isSome_map]; rfl
  · rfl

theorem snapStored_live (r : ShareReplica) (d : SnapDir) (t : DirState) (k : NodeKey) :
    (r.snapStored d t).live k = r.live k :=
  filled_live ..

section

variable (ht : r.dirOf d.dir = some t)
include ht

theorem snapStored_dirOf (k : NodeKey) :
    (r.snapStored d t).dirOf k = if k = d.dir then some (snapTable d t) else r.dirOf k :=
  filled_dirOf ht ..

theorem snapStored_isDir (k : NodeKey) :
    (r.snapStored d t).isDir k ↔ r.isDir k := by
  rw [isDir, snapStored_dirOf ht]
  split_ifs with hk
  · simp [isDir, hk, ht]
  · rfl

theorem snapStored_entry (p : NodeKey) (x : Name) :
    (r.snapStored d t).entry p x = if p = d.dir then
      ((t.fill d.entries).table.find x).map Prod.fst else r.entry p x := by
  rw [entry, snapStored_dirOf ht]
  split
  · simp only [Option.bind_some, find, findEnt, snapTable_ents]
  · rfl

theorem snapStored_counts {slack : NodeKey → Nat} {exempt : NodeKey → Prop} (hlive : ∀ e ∈ d.entries, r.live e.node)
    (h : r.Counts slack exempt [] []) :
    (r.snapStored d t).Counts slack exempt [] (t.fill d.entries).toUnlink := by
  have hlink : ∀ k ∈ (t.fill d.entries).toLink, r.live k := by
    intro k hk
    obtain ⟨e, he, rfl⟩ := mem_toLink_fill hk
    exact hlive e he
  refine foldl_linkInc_counts (fun k hk => ?_) ?_
  · rw [live, entriesAdd_shards]
    exact (live_setDir ..).trans (hlink k hk)
  rw [Counts, entriesAdd_shards]
  have hset : (r.setDir d.dir (snapTable d t)).Counts slack exempt
      ((t.fill d.entries).toLink ++ []) ((t.fill d.entries).toUnlink ++ []) := by
    refine setDir_counts ht h (fun j => ?_) hlink
    rw [← t.count_fill d.entries j, children, children, snapTable_ents]
  rwa [append_nil, append_nil] at hset

end

/-- A snapshot record stores its nodes, its table and the new links, then drops the displaced. -/
theorem applySnapDir_eq (ht : (r.snapNodes d).dirOf d.dir = some t) :
    r.applySnapDir d =
      some ((t.fill d.entries).toUnlink.foldl linkDec ((r.snapNodes d).snapStored d t)) := by
  have hnodes : d.entries.foldl (fun r e => r.upsertNode e.node e.attr d.dir)
      (r.upsertNode d.dir d.dirAttr d.parent) = r.snapNodes d := rfl
  simp only [applySnapDir, hnodes, ht, Option.map_some, snapStored, snapTable]

end

/-- What is left after a snapshot record of any kind: of the nodes known before and those of the
record, with the record's names in its directory. -/
structure Snapped (r r' : ShareReplica) (d : SnapDir) : Prop where
  info : r'.info = r.info
  root : r.live r.root ∨ d.dir = r.root → r'.live r'.root
  live : ∀ k, r'.live k → r.live k ∨ k = d.dir ∨ ∃ e ∈ d.entries, e.node = k
  dir : ∀ k, r'.live k → (r'.isDir k ↔
    r.isDir k ∨ k = d.dir ∨ ∃ e ∈ d.entries, e.node = k ∧ e.attr.kind = .dir)
  listed : r'.live d.dir → ∀ x, (∃ e ∈ d.entries, e.name = x) →
    ∃ e ∈ d.entries, e.name = x ∧ r'.entry d.dir x = some e.node
  other : ∀ k, r'.live k → ∀ x, (k = d.dir → ∀ e ∈ d.entries, e.name ≠ x) →
    r'.entry k x = r.entry k x

theorem applySnapDir_snapped (r : ShareReplica) (hkind : d.dirAttr.kind = .dir) :
    ∃ r', r.applySnapDir d = some r' ∧ Snapped r r' d := by
  obtain ⟨hinfo, hlive, hdir, hentry⟩ := r.snapNodes_listed hkind
  obtain ⟨t, ht⟩ := r.snapNodes_table hkind
  have hstored := ((r.snapNodes d).snapStored_info d t).trans hinfo
  have hleft := foldl_linkDec_left (t.fill d.entries).toUnlink ((r.snapNodes d).snapStored d t)
  have hkeeps := foldl_linkDec_keeps (t.fill d.entries).toUnlink ((r.snapNodes d).snapStored d t)
  refine ⟨_, applySnapDir_eq ht, hkeeps.info.trans hstored, fun hroot => hkeeps.root ?_, fun k hk => ?_,
    fun k hk => ?_, fun hk x hx => ?_, fun k hk x hx => ?_⟩
  · rw [root, hstored, snapStored_live]
    exact (hlive _).mpr (hroot.imp id fun h => .inl h.symm)
  · have := hleft.live k hk
    rw [← hlive, ← snapStored_live (r.snapNodes d) d t k]
    exact this
  · rw [hleft.dir k hk, ← hdir, ← snapStored_isDir ht]
    rfl
  · obtain ⟨e, he, hname, hfind⟩ := find_fill_of_mem (t := t) hx
    refine ⟨e, he, hname, ?_⟩
    rw [hleft.entry _ hk]
    exact (snapStored_entry ht d.dir x).trans (by rw [if_pos rfl, hfind, Option.map_some])
  · rw [hleft.entry _ hk]
    refine (snapStored_entry ht k x).trans ?_
    split_ifs with hdir'
    · rw [find_fill_of_notMem (hx hdir'), ← hentry, entry, hdir', ht]
      rfl
    · exact hentry k x

/-- A snapshot record whose names agree with `listing`, as the names listed before it do, is taken. -/
theorem applySnapDir_listed (listing : Name → Option NodeKey)
    (hkind : d.dirAttr.kind = .dir) (hes : ∀ e ∈ d.entries, listing e.name = some e.node)
    (hold : ∀ x k, r.entry d.dir x = some k → listing x = some k)
    (h : r.Counts (fun _ => 0) (fun _ => True) [] []) :
    ∃ r', r.applySnapDir d = some r' ∧ Listed r r' d listing := by
  obtain ⟨hinfo, hlive, hdir, hentry⟩ := r.snapNodes_listed hkind
  have hcounts := snapNodes_counts d h
  obtain ⟨t, ht⟩ := r.snapNodes_table hkind
  have htable : ∀ x k kind, t.find x = some (k, kind) → listing x = some k := fun x k kind hx => by
    refine hold x k ?_
    rw [← hentry]
    exact entry_eq_some.mpr ⟨t, kind, ht, hx⟩
  obtain ⟨hun, hfind⟩ := t.fill_agreeing d.entries htable hes
  refine ⟨(r.snapNodes d).snapStored d t, ?_, ?_, ?_, fun k => ?_, fun k => ?_, fun p x => ?_⟩
  · rw [applySnapDir_eq ht, hun]
    rfl
  · rw [snapStored_info, hinfo]
  · have hstored := snapStored_counts ht (fun e he => (hlive _).mpr (.inr (.inr ⟨e, he, rfl⟩))) hcounts
    rw [hun] at hstored
    exact hstored.mono fun _ _ => trivial
  · rw [snapStored_live, hlive]
  · rw [snapStored_isDir ht, hdir]
  rw [snapStored_entry ht, hfind]
  by_cases hp : p = d.dir
  · have hfound : (t.find x).map Prod.fst = r.entry p x := by
      rw [← hentry, entry, hp, ht]
      rfl
    rw [if_pos hp, hfound]
    simp only [hp, true_and]
  · rw [if_neg hp, if_neg (fun hh => hp hh.1), hentry]

end ShareReplica

end Mist
