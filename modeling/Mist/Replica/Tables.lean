import Mist.Paging
import Mist.Replica.Attrs
import Mist.Replica.Feed

/-! What a record does to the table of a directory: it sets or takes one entry at most, or goes on
entry by entry. -/

namespace Mist

open List Option Prod Runs

def CEnt.link (e : CEnt) : Name × NodeKey := (e.name, e.node)

namespace DirState

def listing (t : DirState) : Paging.Listing CEnt.cookie where
  items := t.ents
  next := t.nextCookie
  sorted := t.sorted
  below := t.below

/-- One entry at most was set or taken.  The other parts of the table may be any. -/
inductive Edit (t t' : DirState) : Prop
  | same (h : t'.listing = t.listing)
  | upsert (x : Name) (k : NodeKey) (kind : Kind) (h : t'.listing = (t.upsert x k kind).1.listing)
  | remove (x : Name) (k : NodeKey) (u : DirState) (hu : t.remove x = some (k, u))
      (h : t'.listing = u.listing)

variable {t t' : DirState} {n m : Nat} {l : Name × NodeKey}

theorem has_unique (h : t.listing.Has CEnt.link n l) (h' : t.listing.Has CEnt.link m l) : n = m := by
  obtain ⟨e, he, rfl, hl⟩ := h
  obtain ⟨e', he', rfl, hl'⟩ := h'
  rw [t.ent_unique he he' (congrArg fst (hl.trans hl'.symm))]

variable {x : Name} {u : DirState}

theorem has_kill (h : (t.kill x).listing.Has CEnt.link n l) :
    t.listing.Has CEnt.link n l ∧ l.1 ≠ x := by
  obtain ⟨e, he, hn, rfl⟩ := h
  obtain ⟨hmem, hx⟩ := mem_filter.mp he
  exact ⟨⟨e, hmem, hn, rfl⟩, of_decide_eq_true hx⟩

theorem has_setKind {kind : Kind} (h : (t.setKind x kind).listing.Has CEnt.link n l) :
    t.listing.Has CEnt.link n l := by
  obtain ⟨e, he, hn, hl⟩ := h
  obtain ⟨e', he', rfl⟩ := mem_map.mp he
  refine ⟨e', he', ?_, ?_⟩
  · rw [← hn]
    split <;> rfl
  · rw [← hl]
    split <;> rfl

/-- An upsert rewrites the entry that leads to the node already, or puts a new one at the end. -/
theorem upsert_cases (t : DirState) (x : Name) (k : NodeKey) (kind : Kind) :
    (∃ e, t.findEnt x = some e ∧ e.node = k ∧ (t.upsert x k kind).1 = t.setKind x kind) ∨
      (∀ e, t.findEnt x = some e → e.node ≠ k) ∧
        (t.upsert x k kind).1.ents = (t.kill x).ents ++ [⟨t.nextCookie, x, k, kind⟩] ∧
        (t.upsert x k kind).1.nextCookie = t.nextCookie + 1 := by
  unfold upsert
  split
  · rename_i e he
    rw [he]
    split_ifs with hk
    · exact .inl ⟨e, rfl, hk, rfl⟩
    refine .inr ⟨fun e' he' => ?_, rfl, rfl⟩
    rw [← some.inj he']
    exact hk
  · rename_i he
    refine .inr ⟨fun e' he' => ?_, ?_, rfl⟩
    · rw [he] at he'
      cases he'
    have hall : (t.kill x).ents = t.ents := by
      refine filter_eq_self.mpr fun e hmem => decide_eq_true fun hx => ?_
      exact findEnt_eq_none.mp he (mem_map.mpr ⟨e, hmem, hx⟩)
    rw [hall]
    rfl

theorem has_upsert {k : NodeKey} {kind : Kind}
    (h : (t.upsert x k kind).1.listing.Has CEnt.link n l) :
    t.listing.Has CEnt.link n l ∨
      n = t.nextCookie ∧ l = (x, k) ∧ ∀ m, ¬ t.listing.Has CEnt.link m (x, k) := by
  rcases t.upsert_cases x k kind with ⟨e, -, -, heq⟩ | ⟨hother, hents, -⟩
  · rw [heq] at h
    exact .inl (has_setKind h)
  obtain ⟨e, he, hn, hl⟩ := h
  have hmem : e ∈ (t.kill x).ents ++ [⟨t.nextCookie, x, k, kind⟩] := hents ▸ he
  rcases mem_append.mp hmem with hmem | hmem
  · exact .inl (has_kill ⟨e, hmem, hn, hl⟩).1
  rw [mem_singleton.mp hmem] at hn hl
  refine .inr ⟨hn.symm, hl.symm, ?_⟩
  rintro m ⟨e', he', -, hlink⟩
  exact hother e' (findEnt_eq_some.mpr ⟨he', congrArg fst hlink⟩) (congrArg snd hlink)

theorem le_nextCookie_upsert (t : DirState) (x : Name) (k : NodeKey) (kind : Kind) :
    t.nextCookie ≤ (t.upsert x k kind).1.nextCookie := by
  rcases t.upsert_cases x k kind with ⟨e, -, -, heq⟩ | ⟨-, -, hnext⟩
  · rw [heq]
    exact Nat.le_refl _
  · omega

theorem listing_congr (hents : u.ents = t.ents) (hnext : u.nextCookie = t.nextCookie) :
    u.listing = t.listing := by
  simp only [listing, hents, hnext]

section

variable (h : u.listing = t.listing)
include h

theorem upsert_listing (x : Name) (k : NodeKey)
    (kind : Kind) : (u.upsert x k kind).1.listing = (t.upsert x k kind).1.listing := by
  have hents : u.ents = t.ents := congrArg Paging.Listing.items h
  have hnext : u.nextCookie = t.nextCookie := congrArg Paging.Listing.next h
  have hfind : u.findEnt x = t.findEnt x := by rw [findEnt, hents, findEnt]
  rcases u.upsert_cases x k kind with ⟨e, he, hk, heq⟩ | ⟨hother, hu, hnu⟩
  · rw [hfind] at he
    rcases t.upsert_cases x k kind with ⟨e', -, -, heq'⟩ | ⟨hother, -⟩
    · rw [heq, heq']
      exact listing_congr (by simp only [setKind, hents]) hnext
    · exact absurd hk (hother e he)
  · rw [hfind] at hother
    rcases t.upsert_cases x k kind with ⟨e', he', hk', -⟩ | ⟨-, ht, hnt⟩
    · exact absurd hk' (hother e' he')
    · have hkill : (u.kill x).ents = (t.kill x).ents := by simp only [kill, hents]
      exact listing_congr (by rw [hu, ht, hkill, hnext]) (by rw [hnu, hnt, hnext])

theorem remove_listing {w : DirState} {k : NodeKey}
    (hw : u.remove x = some (k, w)) : ∃ w', t.remove x = some (k, w') ∧ w.listing = w'.listing := by
  have hents : u.ents = t.ents := congrArg Paging.Listing.items h
  have hfind : u.findEnt x = t.findEnt x := by rw [findEnt, hents, findEnt]
  obtain ⟨e, he, hkw⟩ := map_eq_some_iff.mp hw
  obtain ⟨rfl, rfl⟩ := Prod.mk.inj hkw
  refine ⟨_, map_eq_some_iff.mpr ⟨e, hfind ▸ he, rfl⟩, ?_⟩
  exact listing_congr (by simp only [kill, hents]) (congrArg Paging.Listing.next h)

theorem Edit.of_listing (he : Edit u t') : Edit t t' := by
  cases he with
  | same h' => exact .same (h'.trans h)
  | upsert x k kind h' => exact .upsert x k kind (h'.trans (upsert_listing h x k kind))
  | remove x k w hw h' =>
    obtain ⟨w', hw', heq⟩ := remove_listing h hw
    exact .remove x k w' hw' (h'.trans heq)

end

/-- After one edit every entry keeps its cookie, and a new entry has a new one. -/
theorem Edit.follows (h : Edit t t') : Paging.Follows CEnt.link t.listing t'.listing := by
  cases h with
  | same h =>
    rw [h]
    exact ⟨Nat.le_refl _, fun ha _ => ha, fun ha hb => has_unique ha hb⟩
  | upsert x k kind h =>
    rw [h]
    refine ⟨t.le_nextCookie_upsert x k kind, fun ha hn => ?_, fun ha hb => ?_⟩
    · rcases has_upsert ha with ha | ⟨rfl, -⟩
      · exact ha
      · exact absurd hn (Nat.lt_irrefl _)
    · rcases has_upsert ha with ha | ⟨-, rfl, hnone⟩
      · exact has_unique ha hb
      · exact absurd hb (hnone _)
  | remove x k u hu h =>
    obtain ⟨e, -, he⟩ := map_eq_some_iff.mp hu
    have hlisting : u.listing = (t.kill x).listing := by rw [← (Prod.mk.inj he).2]; rfl
    rw [h, hlisting]
    exact ⟨Nat.le_refl _, fun ha _ => (has_kill ha).1, fun ha hb => has_unique (has_kill ha).1 hb⟩

def Real (t : DirState) : Prop := firstCookie ≤ t.nextCookie ∧ ∀ e ∈ t.ents, firstCookie ≤ e.cookie

theorem Real.new : Real .new := ⟨Nat.le_refl _, fun _ h => absurd h not_mem_nil⟩

theorem Real.edit (hr : Real t) (h : Edit t t') : Real t' := by
  have hnext := h.follows.next
  refine ⟨hr.1.trans hnext, fun e he => ?_⟩
  by_cases hlt : e.cookie < t.nextCookie
  · obtain ⟨e', he', hn, -⟩ := h.follows.old ⟨e, he, rfl, rfl⟩ hlt
    exact hn ▸ hr.2 e' he'
  · exact hr.1.trans (by omega)

end DirState

namespace ShareReplica

section

variable {r : ShareReplica} {p d k : NodeKey} {x : Name} {kind : Kind} {t t' : DirState}

theorem dirOf_modifyNode {f : Node → Node} (hf : ∀ n, (f n).dir = n.dir) (r : ShareReplica)
    (k j : NodeKey) : (r.modifyNode k f).dirOf j = r.dirOf j := by
  rw [dirOf, lookup_modifyNode]
  split
  · rw [dirOf, bind_map]
    exact congrArg (bind _) (funext hf)
  · rfl

theorem dirOf_updateAttr (r : ShareReplica) (k : NodeKey) (a : Attr) (j : NodeKey) :
    (r.updateAttr k a).1.dirOf j = r.dirOf j := by
  refine Eq.trans ?_ (rfl : (r.noteSide k a).1.dirOf j = r.dirOf j)
  exact dirOf_modifyNode (by intro n; rfl) ..

theorem dirOf_updateContent (r : ShareReplica) (k : NodeKey) (version size : UInt64) (mtime : Ts)
    (j : NodeKey) : (r.updateContent k version size mtime).1.dirOf j = r.dirOf j := by
  exact dirOf_modifyNode (by intro n; rfl) ..

theorem dirOf_drainPending (r : ShareReplica) (k j : NodeKey) :
    (r.drainPending k).dirOf j = r.dirOf j := by
  have happly : ∀ (r : ShareReplica) (p : Pending), (r.applyPending k p).dirOf j = r.dirOf j := by
    intro r p
    cases p with
    | attr a => exact dirOf_updateAttr ..
    | content version size mtime => exact dirOf_updateContent ..
  unfold drainPending
  split
  · rfl
  · exact foldl_same (dirOf · j) happly _ _

theorem dirOf_markDirComplete
    (h : r.dirOf k = some t) : (r.markDirComplete k).dirOf k = some { t with complete := true } := by
  obtain ⟨n, hn, ht⟩ := dirOf_eq_some.mp h
  rw [dirOf, markDirComplete, lookup_modifyNode, if_pos rfl, hn, map_some, bind_some, ht]
  rfl

theorem foldl_linkDec_dirOf {l : List NodeKey} (hk : (l.foldl linkDec r).live k) :
    (l.foldl linkDec r).dirOf k = r.dirOf k := by
  obtain ⟨n', hn'⟩ := live_iff.mp hk
  have hshards := hn'
  rw [foldl_linkDec_shards] at hshards
  obtain ⟨n, hn, heq⟩ := Counting.collect_frame _ _ hshards
  rw [dirOf, hn', dirOf, hn, heq]
  rfl

theorem live_of_dirOf (h : r.dirOf k = some t) : r.live k := by
  obtain ⟨n, hn, -⟩ := dirOf_eq_some.mp h
  exact live_iff.mpr ⟨n, hn⟩

end

def Edited (r r' : ShareReplica) : Prop :=
  ∀ d t', r'.dirOf d = some t' → ((r.dirOf d).getD .new).Edit t'

structure Retained (r r' : ShareReplica) : Prop where
  kept : ∀ d, r.isDir d → r'.isDir d
  table : ∀ d t', r'.dirOf d = some t' → t'.listing = ((r.dirOf d).getD .new).listing

section

variable {r r' r'' : ShareReplica} {p k : NodeKey} {x : Name} {kind : Kind} {t t' : DirState}

theorem Retained.edited (h : Retained r r') : Edited r r' := fun d t' ht' => .same (h.table d t' ht')

theorem Retained.of_dirOf (h : ∀ d, r'.dirOf d = r.dirOf d) : Retained r r' where
  kept d hd := by rw [isDir, h d]; exact hd
  table d t' ht' := by
    rw [h d] at ht'
    rw [ht']
    rfl

theorem Retained.listing (h : Retained r r') (d : NodeKey) :
    ((r'.dirOf d).getD .new).listing = ((r.dirOf d).getD .new).listing := by
  cases ht' : r'.dirOf d with
  | some t' => exact h.table d t' ht'
  | none =>
    cases ht : r.dirOf d with
    | none => rfl
    | some t =>
      have := h.kept d (by rw [isDir, ht]; rfl)
      rw [isDir, ht'] at this
      cases this

theorem Retained.trans (h : Retained r r') (h' : Retained r' r'') : Retained r r'' where
  kept d hd := h'.kept d (h.kept d hd)
  table d t'' ht'' := (h'.table d t'' ht'').trans (h.listing d)

theorem Retained.then_edited (h : Retained r r') (h' : Edited r' r'') : Edited r r'' :=
  fun d t'' ht'' => .of_listing (h.listing d) (h' d t'' ht'')

theorem upsertNode_retained (r : ShareReplica) (k : NodeKey) (a : Attr) (p : NodeKey) :
    Retained r (r.upsertNode k a p) where
  kept d hd := (isDir_upsertNode ..).mpr (.inr hd)
  table d t' ht' := by
    rw [dirOf_upsertNode] at ht'
    split at ht'
    · rename_i hd
      subst hd
      cases ht : r.dirOf d with
      | some t =>
        rw [ht] at ht'
        cases ht'
        rfl
      | none =>
        rw [ht, none_or] at ht'
        obtain ⟨_, rfl⟩ := ite_some_none_eq_some.mp ht'
        rfl
    · rw [ht']
      rfl

theorem markDirComplete_retained (r : ShareReplica) (k : NodeKey) :
    Retained r (r.markDirComplete k) := by
  have hdir : ∀ d, (r.markDirComplete k).dirOf d = if d = k
      then (r.dirOf k).map (fun t => { t with complete := true }) else r.dirOf d := by
    intro d
    rw [markDirComplete, dirOf, lookup_modifyNode]
    split_ifs with hd
    · rw [hd, dirOf]
      cases r.shards.lookup k with
      | none => rfl
      | some n => rfl
    · rfl
  constructor
  · intro d hd
    rw [isDir, hdir]
    split_ifs with hk
    · rw [isSome_map, ← hk]
      exact hd
    · exact hd
  · intro d t' ht'
    rw [hdir] at ht'
    split_ifs at ht' with hk
    · obtain ⟨t, ht, rfl⟩ := map_eq_some_iff.mp ht'
      rw [hk, ht]
      rfl
    · rw [ht']
      rfl

theorem Edited.linkDec (h : Edited r r') (l : List NodeKey) : Edited r (l.foldl linkDec r') := by
  intro d t' ht'
  rw [foldl_linkDec_dirOf (live_of_dirOf ht')] at ht'
  exact h d t' ht'

theorem placed_edited (ht : r.dirOf p = some t) : Edited r (r.placed p t x k kind) := by
  intro d t' ht'
  rw [placed, dirOf, entriesAdd_shards, ← dirOf, dirOf_setDir ht] at ht'
  split_ifs at ht' with hd
  · rw [hd, ht]
    exact .upsert x k kind (congrArg DirState.listing (some.inj ht').symm)
  · rw [ht']
    exact .same rfl

theorem dentrySet_edited (r : ShareReplica) (p : NodeKey) (x : Name) (k : NodeKey) (kind : Kind) :
    Edited r (r.dentrySet p x k kind) := by
  cases ht : r.dirOf p with
  | none =>
    rw [show r.dentrySet p x k kind = r by simp only [dentrySet, ht]]
    exact (Retained.of_dirOf fun _ => rfl).edited
  | some t =>
    rw [dentrySet_eq ht]
    refine Edited.linkDec ?_ _
    unfold linked
    split
    · intro d t' ht'
      rw [linkInc, dirOf_modifyNode (by intro n; rfl)] at ht'
      exact placed_edited ht d t' ht'
    · exact placed_edited ht

theorem dentryRelink_edited (r : ShareReplica) (p : NodeKey) (x : Name) (k : NodeKey) (kind : Kind) :
    Edited r (r.dentryRelink p x k kind) := by
  cases ht : r.dirOf p with
  | none =>
    rw [show r.dentryRelink p x k kind = r by simp only [dentryRelink, ht]]
    exact (Retained.of_dirOf fun _ => rfl).edited
  | some t =>
    rw [dentryRelink_eq ht]
    intro d t' ht'
    rw [setParent, dirOf_modifyNode (by intro n; rfl)] at ht'
    exact (placed_edited ht).linkDec _ d t' ht'

theorem shrunk_edited (ht : r.dirOf p = some t) (hrem : t.remove x = some (k, t')) :
    Edited r ((r.setDir p t').entriesAdd (-1)) := by
  intro d u hu
  rw [dirOf, entriesAdd_shards, ← dirOf, dirOf_setDir ht] at hu
  split_ifs at hu with hd
  · rw [hd, ht]
    exact .remove x k t' hrem (congrArg DirState.listing (some.inj hu).symm)
  · rw [hu]
    exact .same rfl

theorem dentryRemove_edited (r : ShareReplica) (p : NodeKey) (x : Name) :
    Edited r (r.dentryRemove p x) := by
  cases hx : r.entry p x with
  | none =>
    rw [dentryRemove_of_none hx]
    exact (Retained.of_dirOf fun _ => rfl).edited
  | some k =>
    obtain ⟨t, t', ht, hrem, heq⟩ := dentryRemove_eq hx
    rw [heq]
    exact (shrunk_edited ht hrem).linkDec _

theorem dentryTake_edited {nk : NodeKey × Kind} (h : r.dentryTake p x = some (nk, r')) :
    Edited r r' := by
  obtain ⟨t, ht, h⟩ := bind_eq_some_iff.mp h
  obtain ⟨found, -, h⟩ := bind_eq_some_iff.mp h
  obtain ⟨⟨node, t'⟩, hrem, h⟩ := bind_eq_some_iff.mp h
  obtain rfl : (r.setDir p t').entriesAdd (-1) = r' := (Prod.mk.inj (some.inj h)).2
  exact shrunk_edited ht hrem

/-- The node of a `Created` record, known but without its dentry. -/
def entered (r : ShareReplica) (p k : NodeKey) (attr : Option Attr) : ShareReplica :=
  let kind := (attr.map Attr.kind).getD .reg
  let r := match attr with
    | some a => r.createNode k a p
    | none => if r.live k then r else r.upsertNode k (placeholderAttr kind) p
  if kind = .dir then r.markDirComplete k else r

section

variable (r : ShareReplica)

theorem entered_retained (p k : NodeKey) (attr : Option Attr) :
    Retained r (r.entered p k attr) := by
  have hmark : ∀ (r' : ShareReplica) (kind : Kind), Retained r r' →
      Retained r (if kind = .dir then r'.markDirComplete k else r') := by
    intro r' kind h
    split
    · exact h.trans (markDirComplete_retained r' k)
    · exact h
  cases attr with
  | some a =>
    refine hmark _ _ ((upsertNode_retained r k a p).trans ?_)
    exact .of_dirOf fun d => dirOf_drainPending ..
  | none =>
    refine hmark (if r.live k then r else r.upsertNode k (placeholderAttr .reg) p) .reg ?_
    split
    · exact .of_dirOf fun _ => rfl
    · exact upsertNode_retained ..

theorem created_edited (p : NodeKey) (x : Name) (k : NodeKey)
    (attr : Option Attr) : Edited r (r.applyRec (.created p x k attr)).1 := by
  exact (entered_retained r p k attr).then_edited (dentrySet_edited _ p x k _)

theorem forceRemove_edited (k : NodeKey) : Edited r (r.forceRemove k) := by
  have hzero : Retained r (r.modifyNode k fun n => { n with links := 0 }) :=
    .of_dirOf fun d => dirOf_modifyNode (by intro n; rfl) ..
  refine hzero.then_edited fun d t' ht' => ?_
  unfold forceRemove removeNode at ht'
  split at ht'
  · rw [ht']
    exact .same rfl
  rw [dirOf, settle_shards] at ht'
  obtain ⟨n', hn', hdir⟩ := bind_eq_some_iff.mp ht'
  obtain ⟨m, hm, heq⟩ := Counting.collect_frame _ _ hn'
  rw [KeyMap.lookup_erase_ite] at hm
  split at hm
  · cases hm
  have hsame : m.dir = some t' := by
    rw [← hdir, heq]
    rfl
  rw [dirOf, hm, bind_some, hsame]
  exact .same rfl

/-- A journal record that is no batch and no rename edits one table at most. -/
theorem applyRec_edited {rec : Rec} (hbatch : ∀ p es, rec ≠ .createdBatch p es)
    (hrename : ∀ p x q y, rec ≠ .renamed p x q y) : Edited r (r.applyRec rec).1 := by
  cases rec with
  | created p x k attr => exact created_edited r p x k attr
  | createdBatch p es => exact absurd rfl (hbatch p es)
  | removed p x => exact dentryRemove_edited r p x
  | renamed p x q y => exact absurd rfl (hrename p x q y)
  | attrChanged k a =>
    refine (Retained.of_dirOf fun d => ?_).edited
    dsimp only [applyRec]
    split <;> exact dirOf_updateAttr ..
  | content k version size mtime inProgress =>
    refine (Retained.of_dirOf fun d => ?_).edited
    dsimp only [applyRec]
    split <;> exact dirOf_updateContent ..
  | selfRemoved k =>
    dsimp only [applyRec]
    split
    · exact forceRemove_edited r k
    · exact (Retained.of_dirOf fun _ => rfl).edited
  | overflow => exact (Retained.of_dirOf fun _ => rfl).edited
  | echoMarker tag => exact (Retained.of_dirOf fun _ => rfl).edited

end

end

theorem readdir_eq {r : ShareReplica} {dir : NodeKey} {t : DirState} (ht : r.dirOf dir = some t)
    (hcomplete : t.complete) (cookie max : Nat) :
    r.readdir dir cookie max =
      .ok ⟨(t.listing.after cookie).take max, (t.listing.after cookie).length ≤ max, t.dirgen⟩ := by
  obtain ⟨n, hn, hdir⟩ := dirOf_eq_some.mp ht
  rw [readdir, hn]
  dsimp only
  rw [hdir]
  dsimp only
  rw [if_pos hcomplete]
  rfl

theorem readdir_ok {r : ShareReplica} {dir : NodeKey} {cookie max : Nat} {p : ReadDirPage}
    (h : r.readdir dir cookie max = .ok p) : ∃ t, r.dirOf dir = some t ∧ t.complete ∧
      p = ⟨(t.listing.after cookie).take max, (t.listing.after cookie).length ≤ max, t.dirgen⟩ := by
  rw [readdir] at h
  cases hn : r.shards.lookup dir with
  | none =>
    rw [hn] at h
    cases h
  | some n =>
    rw [hn] at h
    dsimp only at h
    cases hd : n.dir with
    | none =>
      rw [hd] at h
      cases h
    | some t =>
      rw [hd] at h
      dsimp only at h
      split at h
      · rename_i hcomplete
        exact ⟨t, dirOf_eq_some.mpr ⟨n, hn, hd⟩, hcomplete, (Except.ok.inj h).symm⟩
      · cases h

def Tables (P : DirState → Prop) (r : ShareReplica) : Prop := ∀ d t, r.dirOf d = some t → P t

section

variable {P : DirState → Prop} {r r' : ShareReplica}

theorem Edited.tables (h : Edited r r') (hnew : P .new) (hedit : ∀ t t', P t → t.Edit t' → P t')
    (hr : r.Tables P) : r'.Tables P := by
  intro d t' ht'
  refine hedit _ _ ?_ (h d t' ht')
  cases ht : r.dirOf d with
  | none => exact hnew
  | some t => exact hr d t ht

theorem fill_edits (hedit : ∀ t t', P t → t.Edit t' → P t') {t : DirState} (ht : P t)
    (es : List SnapEntry) : P (t.fill es).table := by
  induction es generalizing t with
  | nil => exact ht
  | cons e es ih => exact ih (hedit _ _ ht (.upsert e.name e.node e.attr.kind rfl))

theorem feed_tables (hnew : P .new) (hedit : ∀ t t', P t → t.Edit t' → P t') (hr : r.Tables P)
    {f : Feed} (hf : r.feed f = some r') : r'.Tables P := by
  cases f with
  | snap d =>
    have hnodes : (r.snapNodes d).Tables P := by
      exact foldlRecOn d.entries _ ((upsertNode_retained ..).edited.tables hnew hedit hr)
        fun _ h _ _ => (upsertNode_retained ..).edited.tables hnew hedit h
    obtain ⟨t, ht, -⟩ := map_eq_some_iff.mp hf
    replace ht : (r.snapNodes d).dirOf d.dir = some t := ht
    obtain rfl := some.inj ((applySnapDir_eq ht).symm.trans hf)
    intro k t' ht'
    rw [foldl_linkDec_dirOf (live_of_dirOf ht'), snapStored_dirOf ht] at ht'
    split at ht'
    · cases ht'
      refine hedit _ _ (fill_edits hedit (hnodes _ t ht) d.entries) (.same ?_)
      unfold snapTable
      split <;> rfl
    · exact hnodes k t' ht'
  | record rec =>
    obtain rfl : (r.applyRec rec).1 = r' := some.inj hf
    cases rec with
    | createdBatch p es =>
      rw [createdBatch_eq]
      exact foldlRecOn es _ hr fun r h _ _ => (created_edited r p _ _ _).tables hnew hedit h
    | renamed p x q y =>
      rw [applyRec]
      cases htake : r.dentryTake p x with
      | none => exact hr
      | some taken =>
        exact (dentryRelink_edited _ q y _ _).tables hnew hedit
          ((dentryTake_edited htake).tables hnew hedit hr)
    | _ => exact (applyRec_edited r (by simp) (by simp)).tables hnew hedit hr

theorem new_real (info : ShareInfo) : (ShareReplica.new info).Tables DirState.Real := by
  intro k t ht
  cases ht

theorem feed_real {f : Feed} (hr : r.Tables DirState.Real) (hf : r.feed f = some r') :
    r'.Tables DirState.Real :=
  feed_tables .new (fun _ _ h => h.edit) hr hf

end

end ShareReplica

end Mist
