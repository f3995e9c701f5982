import Mist.Convergence.Live
import Mist.Mistd.Fanotify
import Mist.Replica.Version

/-! What the records of one event bring to a replica.  The kernel merges the changes of one object,
or of one entry, into one event, and `synthesize` answers the first bit it looks for. -/

namespace Mist

open Option ShareReplica ParsedEvent

namespace ParsedEvent

def object (ev : ParsedEvent) : Option NodeKey := ev.fid.bind FidName.node

def dirEntry (ev : ParsedEvent) : Option (NodeKey × Name) :=
  (ev.dfidName.bind FidName.node).bind fun parent => (ev.dfidName.bind nameOf).map (parent, ·)

def objectBits : UInt64 := FAN_MODIFY ||| FAN_CLOSE_WRITE ||| FAN_ATTRIB ||| FAN_DELETE_SELF

def entryBits : UInt64 := FAN_CREATE ||| FAN_DELETE ||| FAN_MOVED_FROM ||| FAN_MOVED_TO

structure Merged (ev : ParsedEvent) (share : ShareNow) : Prop where
  rename : ¬ ev.has FAN_RENAME
  one : ¬ ev.has entryBits ∨ ¬ ev.has objectBits
  gone : ev.has FAN_DELETE_SELF → ∀ node ∈ ev.object, share.statNode node = none

/-- The mask holds a creation together with a deletion or a move of the entry, or a move to the
entry together with a change that takes it away. -/
def Recreates (ev : ParsedEvent) : Prop :=
  ev.has FAN_CREATE ∧ ev.has (FAN_DELETE ||| FAN_MOVED_FROM ||| FAN_MOVED_TO) ∨
    ev.has FAN_MOVED_TO ∧ ev.has (FAN_DELETE ||| FAN_MOVED_FROM)

instance decidableRecreates (ev : ParsedEvent) : Decidable ev.Recreates :=
  inferInstanceAs (Decidable (_ ∨ _))

/-- Whether the directory an event names is inside the share, with the state after the test. -/
def inside (ev : ParsedEvent) (share : ShareNow) (vs : VersionState) : Bool × VersionState :=
  match ev.dirEntry with
  | some e => vs.contains share e.1
  | none => (true, vs)

/-- Whether the engine takes an event of an object to be about the share. -/
def heard (ev : ParsedEvent) (share : ShareNow) (vs : VersionState) (node : NodeKey) : Bool :=
  (ev.inside share vs).1 && ((ev.inside share vs).2.contains share node).1

end ParsedEvent

namespace VersionState

/-- The counter the next content version of a node is one above: it starts again when a million
nodes have one. -/
def counter (vs : VersionState) (node : NodeKey) : UInt64 :=
  if vs.versions.keys.card > 1000000 then 0 else (vs.versions.lookup node).getD 0

end VersionState

namespace ParsedEvent

variable {ev : ParsedEvent} {share : ShareNow} {vs : VersionState} {node : NodeKey}

end ParsedEvent

section

open ParsedEvent VersionState

variable {ev : ParsedEvent} {share : ShareNow} {vs : VersionState} {node : NodeKey} {p : NodeKey}
  {x : Name}

variable (hrename : ¬ ev.has FAN_RENAME)
include hrename

/-- A creation hides the other changes of its entry, and a leave hides a move to it. -/
theorem synthesize_entry (hchange : ev.Recreates) (hentry : ev.dirEntry = some (p, x)) :
    (synthesize ev share vs).1 =
      if (vs.contains share p).1 then
        if ev.has FAN_CREATE then createdRec share p x else [.removed p x]
      else [] := by
  obtain ⟨parent, hparent, hmap⟩ := bind_eq_some_iff.mp hentry
  obtain ⟨nm, hname, heq⟩ := map_eq_some_iff.mp hmap
  obtain ⟨rfl, rfl⟩ := Prod.mk.injEq .. ▸ heq
  unfold synthesize
  rw [if_neg hrename]
  simp only [hparent, hname]
  cases hin : (vs.contains share parent).1 with
  | false => rfl
  | true =>
    by_cases hcreate : ev.has FAN_CREATE
    · simp [hcreate]
    have hleave : ev.has (FAN_DELETE ||| FAN_MOVED_FROM) := by
      rcases hchange with h | h
      · exact absurd h.1 hcreate
      · exact h.2
    simp [hcreate, hleave]

end

namespace ShareReplica

variable {r r' : ShareReplica} {k p : NodeKey} {x : Name} {a b : Attr}

section

variable (hb : r.getattr k = .ok b)
include hb

end

/-- Some depth grows along every name: no directory is below itself. -/
def Layered (r : ShareReplica) : Prop :=
  ∃ depth : NodeKey → Nat, ∀ d x k, r.entry d x = some k → depth d < depth k

theorem live_foldl_linkDec {P : NodeKey → Prop} {l : List NodeKey} (hl : ∀ j ∈ l, P j)
    (hrefs : ∀ d x j, P d → r.entry d x = some j → P j) (hk : ¬ P k) (hlive : r.live k) :
    (l.foldl linkDec r).live k := by
  rw [live, foldl_linkDec_shards, Counting.collect_outside r.shards l hl ?_ hk]
  · exact hlive
  · intro d n hd hn j hj
    obtain ⟨x, hx⟩ := mem_targets.mp ⟨n, hn, hj⟩
    exact hrefs d x j hd hx

theorem created_entry (hr : r.Layered) (hp : r.isDir p) (x : Name) (k : NodeKey) (a : Attr) :
    (r.applyRec (.created p x k (some a))).1.entry p x = some k := by
  obtain ⟨depth, hdepth⟩ := hr
  obtain ⟨r₁, heq, hsame⟩ := created_eq r p x k a
  have hview : r₁.view = r.view.upsert k a p := hsame.view.trans (upsertNode_view ..)
  have hdir : r₁.isDir p := by
    show r₁.view.dir p
    rw [hview]
    exact .inr hp
  obtain ⟨t, ht⟩ := isSome_iff_exists.mp hdir
  have hentry : ∀ d y, r₁.entry d y = r.entry d y := fun d y => congrFun (congrFun
    (congrArg View.entry hview) d) y
  have hset : Left (r₁.dentrySet p x k a.kind) (r₁.view.set p x (some k)) := dentrySet_left ht
  have hstays : (r₁.dentrySet p x k a.kind).live p := by
    rw [dentrySet_eq ht]
    have hlinked := linked_view ht x k a.kind
    refine live_foldl_linkDec (P := fun j => depth p < depth j) ?_ ?_ (by omega) ?_
    · intro j hj
      rw [DirState.displaced_upsert, mem_toList, filter_eq_some_iff] at hj
      refine hdepth p x j ((hentry p x).symm.trans ?_)
      rw [entry, ht]
      exact hj.1
    · intro d y j hd hj
      have hne : d ≠ p := fun h => Nat.lt_irrefl _ (h ▸ hd)
      rw [view_entry hlinked] at hj
      simp only [View.set, hne, false_and, if_false] at hj
      exact Nat.lt_trans hd (hdepth d y j ((hentry d y).symm.trans hj))
    · rw [view_live hlinked]
      exact live_of_isDir hdir
  rw [heq, hset.entry p hstays x]
  exact if_pos ⟨rfl, rfl⟩

theorem removed_entry (r : ShareReplica) (p : NodeKey) (x : Name) :
    (r.applyRec (.removed p x)).1.entry p x = none := by
  by_cases hlive : (r.dentryRemove p x).live p
  · exact ((dentryRemove_left r p x).entry p hlive x).trans (if_pos ⟨rfl, rfl⟩)
  · exact entry_of_not_dir (fun h => hlive (live_of_isDir h)) x

end ShareReplica

/-- What `after` shows of the changes of an event is as it is in the guest: the attributes, or the
size, the mtime and a new content version, of an object that `before` knew, and the entry in a
directory that it knew. -/
structure Current (ev : ParsedEvent) (share : ShareNow) (before after : ShareReplica) : Prop where
  attrs : ev.has FAN_ATTRIB → ∀ node ∈ ev.object, ∀ a ∈ share.statNode node, ∀ b,
    before.getattr node = .ok b → ∃ c, after.getattr node = .ok c ∧ c.agrees a
  written : ev.has (FAN_MODIFY ||| FAN_CLOSE_WRITE) → ∀ node ∈ ev.object,
    ∀ a ∈ share.statNode node, ∀ b, before.getattr node = .ok b → ∃ c,
      after.getattr node = .ok c ∧ c.size = a.size ∧ c.mtime = a.mtime ∧
      b.contentVersion < c.contentVersion
  entry : ev.Recreates → ∀ e ∈ ev.dirEntry, before.isDir e.1 →
    after.entry e.1 e.2 = (share.statEntry e.1 e.2).map Prod.fst

namespace ParsedEvent

variable {ev : ParsedEvent} {share : ShareNow} {vs : VersionState} {r : ShareReplica}
  {node p : NodeKey} {x : Name} {a b : Attr}

theorem entry_iff (hmerged : ev.Merged share) (hr : r.Layered) (hchange : ev.Recreates)
    (hentry : ev.dirEntry = some (p, x)) (hp : r.isDir p) :
    (r.replay (synthesize ev share vs).1).entry p x = (share.statEntry p x).map Prod.fst ↔
      ((vs.contains share p).1 → ev.has FAN_CREATE → share.statEntry p x = none →
        r.entry p x = none) ∧
      ((vs.contains share p).1 → ¬ ev.has FAN_CREATE → share.statEntry p x = none) ∧
      (¬ (vs.contains share p).1 → r.entry p x = (share.statEntry p x).map Prod.fst) := by
  rw [synthesize_entry hmerged.rename hchange hentry]
  by_cases hin : (vs.contains share p).1
  · by_cases hcreate : ev.has FAN_CREATE
    · cases hnow : share.statEntry p x with
      | none =>
        have hrec : createdRec share p x = [] := by simp only [createdRec, hnow]
        simp [hin, hcreate, hrec, replay]
      | some e =>
        have hrec : createdRec share p x = [.created p x e.1 (some e.2)] := by
          simp only [createdRec, hnow]
        have hset := created_entry hr hp x e.1 e.2
        simp [hin, hcreate, hrec, replay, hset]
    · have hgone := removed_entry r p x
      cases hnow : share.statEntry p x with
      | none => simp [hin, hcreate, replay, hgone]
      | some e => simp [hin, hcreate, replay, hgone]
  · simp [hin, replay]

end ParsedEvent

def loneKey : NodeKey := ⟨11, 0⟩

def loneName : Name := .letter 'f'

/-- The guest as it is now: the file, if it is there, with attributes `a`. -/
def holding (present : Bool) (a : Attr) : ShareNow where
  subtree := false
  statEntry p x := if present ∧ p = ⟨2, 0⟩ ∧ x = loneName then some (loneKey, a) else none
  statNode k := if present ∧ k = loneKey then some a else none
  belowMount _ := true

end Mist
