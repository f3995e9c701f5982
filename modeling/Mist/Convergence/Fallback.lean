import Mist.Convergence.Complete
import Mist.Replica.Version

/-! One history, reported by a kernel that has rename events and by one that reports a rename as a
removal and a new entry. -/

namespace Mist

open ShareReplica Option ParsedEvent Mist.Tree

/-- What happens in the guest: an operation, or the end of a node without a name. -/
inductive Turn where
  | act (op : Op)
  | gone (k : NodeKey)

namespace Turn

noncomputable def tree (T : Tree) : Turn → Tree
  | .act op => T.apply op
  | .gone _ => T

def Valid (T : Tree) : Turn → Prop
  | .act op => T.Valid op
  | .gone k => T.born k ∧ ¬ T.Live k

end Turn

/-- The directory and name that come with an event about an object, if they come at all. -/
def Tree.Locates (T : Tree) (dfidName : Option FidName) : Prop :=
  dfidName = none ∨ ∃ p x, T.Live p ∧ dfidName = some ⟨some p, some (Name.bytes x)⟩

/-- The events of a turn, read while the guest's tree is `T`: `renames` tells a kernel that has
`FAN_RENAME`. -/
inductive Noted (renames : Bool) (T : Tree) : Turn → List ParsedEvent → Prop
  | naming {op : Op} {ev : ParsedEvent} : (∀ d x e y, op ≠ .rename d x e y) → op.Notice ev →
    Noted renames T (.act op) [ev]
  | renamed {d e : NodeKey} {x y : Name} {ev : ParsedEvent} : renames = true →
    (Op.rename d x e y).Notice ev → Noted renames T (.act (.rename d x e y)) [ev]
  | moved {d e : NodeKey} {x y : Name} (isDir : Bool) (pid : Int32) (fid fid' : Option FidName) :
    renames = false →
    Noted renames T (.act (.rename d x e y))
      [{ mask := FAN_MOVED_FROM ||| onDir isDir, pid, fid,
         dfidName := some ⟨some d, some x.bytes⟩ },
       { mask := FAN_MOVED_TO ||| onDir isDir, pid, fid := fid',
         dfidName := some ⟨some e, some y.bytes⟩ }]
  | write {k : NodeKey} {version size : UInt64} {mtime : Ts} {inProgress : Bool} (pid : Int32)
    (name : Option (List UInt8)) {dfidName : Option FidName} : T.Locates dfidName →
    Noted renames T (.act (.write k version size mtime inProgress))
      [{ mask := if inProgress then FAN_MODIFY else FAN_CLOSE_WRITE, pid,
         fid := some ⟨some k, name⟩, dfidName }]
  | chmod {k : NodeKey} {a : Attr} (isDir : Bool) (pid : Int32) (name : Option (List UInt8))
    {dfidName : Option FidName} : T.Locates dfidName →
    Noted renames T (.act (.chmod k a))
      [{ mask := FAN_ATTRIB ||| onDir isDir, pid, fid := some ⟨some k, name⟩, dfidName }]
  | gone {k : NodeKey} {ev : ParsedEvent} : SelfEvent k ev → Noted renames T (.gone k) [ev]

/-- The event reader of the guest and the replica its records go to. -/
structure Watcher where
  replica : ShareReplica
  versions : VersionState

namespace Watcher

def read (share : ShareNow) (s : Watcher) (ev : ParsedEvent) : Watcher :=
  let out := synthesize ev share s.versions
  ⟨s.replica.replay out.1, out.2⟩

def drain (share : ShareNow) (s : Watcher) (evs : List ParsedEvent) : Watcher :=
  evs.foldl (read share) { s with versions := { s.versions with modifySeen := ∅ } }

noncomputable def watch (subtree : Bool) : Tree → Watcher → List (Turn × List ParsedEvent) → Watcher
  | _, s, [] => s
  | T, s, (t, evs) :: rest =>
    watch subtree (t.tree T) (s.drain ((t.tree T).shareNow subtree []) evs) rest

end Watcher

/-- The history is valid, and its events are those of a kernel with or without rename events. -/
def Stream (renames : Bool) : Tree → List (Turn × List ParsedEvent) → Prop
  | _, [] => True
  | T, (t, evs) :: rest =>
    t.Valid T ∧ Noted renames (t.tree T) t evs ∧ Stream renames (t.tree T) rest

/-- The cache of the subtree test denies no node of the share. -/
def Trusted (T : Tree) (vs : VersionState) : Prop :=
  ∀ k, T.Live k ∨ ¬ T.born k → vs.contain.lookup k ≠ some false

/-- The records of a turn, when the guest's tree is `T` after it. -/
inductive Recorded (renames : Bool) (T : Tree) (vs vs' : VersionState) : Turn → List Rec → Prop
  | create {d k : NodeKey} {x : Name} {a : Attr} : vs'.versions = vs.versions →
    Recorded renames T vs vs' (.act (.create d x k a)) [.created d x k (some (T.statx k))]
  | link {d k : NodeKey} {x : Name} {a : Attr} : vs'.versions = vs.versions →
    Recorded renames T vs vs' (.act (.link d x k a)) [.created d x k (some (T.statx k))]
  | unlink {d : NodeKey} {x : Name} : vs'.versions = vs.versions →
    Recorded renames T vs vs' (.act (.unlink d x)) [.removed d x]
  | renamed {d e : NodeKey} {x y : Name} : renames = true → vs'.versions = vs.versions →
    Recorded renames T vs vs' (.act (.rename d x e y)) [.renamed d x e y]
  | moved {d e k : NodeKey} {x y : Name} : renames = false → vs'.versions = vs.versions →
    T.entry e y = some k →
    Recorded renames T vs vs' (.act (.rename d x e y))
      [.removed d x, .created e y k (some (T.statx k))]
  | write {k : NodeKey} {version size : UInt64} {mtime : Ts} {inProgress : Bool} :
    vs'.versions = (vs.bump k).2.versions →
    Recorded renames T vs vs' (.act (.write k version size mtime inProgress))
      [.content k (vs.bump k).1 (T.attr k).size (T.attr k).mtime inProgress]
  | chmod {k : NodeKey} {a : Attr} : vs'.versions = vs.versions →
    Recorded renames T vs vs' (.act (.chmod k a)) [.attrChanged k (T.statx k)]
  | gone {k : NodeKey} {recs : List Rec} : vs'.versions = vs.versions →
    recs = [] ∨ recs = [.selfRemoved k] → Recorded renames T vs vs' (.gone k) recs

section

variable {T : Tree} {vs : VersionState} {subtree : Bool} {d e k : NodeKey} {x y : Name}

theorem belowMount_root (hT : T.WF) : (T.shareNow subtree []).belowMount k = true ↔ T.Live k := by
  rw [hT.live_iff_reach]
  classical
  refine decide_eq_true_iff.trans ⟨?_, fun h => ⟨T.root, rfl, h⟩⟩
  rintro ⟨q, hq, h⟩
  cases hq
  exact h

theorem contains_trusted (hT : T.WF) (h : Trusted T vs) (subtree : Bool) (hk : T.born k) :
    ∃ b vs', vs.contains (T.shareNow subtree []) k = (b, vs') ∧ (T.Live k → b = true) ∧
      Trusted T vs' ∧ vs'.versions = vs.versions ∧ vs'.modifySeen = vs.modifySeen := by
  cases subtree with
  | false => exact ⟨true, vs, contains_whole rfl vs k, fun _ => rfl, h, rfl, rfl⟩
  | true =>
    cases hc : vs.contain.lookup k with
    | some b =>
      refine ⟨b, vs, by simp [VersionState.contains, shareNow, hc], fun hlive => ?_, h, rfl, rfl⟩
      cases b with
      | true => rfl
      | false => exact absurd hc (h k (.inl hlive))
    | none =>
      have heq : vs.contains (T.shareNow true []) k =
          ((T.shareNow true []).belowMount k, { vs with
            contain := (if vs.contain.keys.card > 65536 then ∅ else vs.contain).insert k
              ((T.shareNow true []).belowMount k) }) := by
        have hsub : (T.shareNow true []).subtree = true := rfl
        rw [VersionState.contains, if_pos hsub, hc]
      refine ⟨_, _, heq, fun hlive => ?_, ?_, rfl, rfl⟩
      · exact (belowMount_root hT).mpr hlive
      intro j hj hfalse
      rw [KeyMap.lookup_insert_ite] at hfalse
      split at hfalse
      · rename_i hjk
        subst hjk
        have hlive := hj.resolve_right fun hborn => hborn hk
        rw [(belowMount_root hT).mpr hlive] at hfalse
        cases hfalse
      · split at hfalse
        · simp at hfalse
        · exact h j hj hfalse

theorem createdRec_now (subtree : Bool) (h : T.entry d x = some k) :
    createdRec (T.shareNow subtree []) d x = [.created d x k (some (T.statx k))] := by
  simp only [createdRec, shareNow, h, map_some]

/-- The mask reports that a name was filled. -/
def Fills (mask : UInt64) : Prop :=
  mask &&& FAN_RENAME = 0 ∧ (mask &&& FAN_CREATE ≠ 0 ∨
    mask &&& (FAN_DELETE ||| FAN_MOVED_FROM) = 0 ∧ mask &&& FAN_MOVED_TO ≠ 0)
  deriving Decidable

def Frees (mask : UInt64) : Prop :=
  mask &&& FAN_RENAME = 0 ∧ mask &&& FAN_CREATE = 0 ∧ mask &&& (FAN_DELETE ||| FAN_MOVED_FROM) ≠ 0
  deriving Decidable

/-- The mask reports nothing about a name. -/
def Nameless (mask : UInt64) : Prop :=
  mask &&& FAN_RENAME = 0 ∧ mask &&& FAN_CREATE = 0 ∧
    mask &&& (FAN_DELETE ||| FAN_MOVED_FROM) = 0 ∧ mask &&& FAN_MOVED_TO = 0
  deriving Decidable

variable {mask : UInt64}

theorem synthesize_filled (subtree : Bool) (hT : T.WF) (h : Trusted T vs) (hx : T.entry d x = some k)
    (hmask : Fills mask) (pid : Int32) (fid : Option FidName) :
    ∃ vs', synthesize { mask, pid, fid, dfidName := some ⟨some d, some x.bytes⟩ }
        (T.shareNow subtree []) vs = ([.created d x k (some (T.statx k))], vs') ∧
      Trusted T vs' ∧ vs'.versions = vs.versions := by
  have hlive : T.Live d := hT.live_iff_reach.mpr (hT.rooted hx)
  obtain ⟨b, vs', heq, hb, htrust, hvers, -⟩ := contains_trusted hT h subtree (hT.live_born hlive)
  refine ⟨vs', ?_, htrust, hvers⟩
  have hrec := createdRec_now subtree hx
  rw [hb hlive] at heq
  rcases hmask with ⟨hren, hcr | ⟨hdel, hto⟩⟩
  · simp [synthesize, has, hren, hcr, nameOf_name, heq, hrec]
  · by_cases hcr : mask &&& FAN_CREATE = 0
    · simp [synthesize, has, hren, hcr, hdel, hto, nameOf_name, heq, hrec]
    · simp [synthesize, has, hren, hcr, nameOf_name, heq, hrec]

theorem synthesize_freed (subtree : Bool) (hT : T.WF) (h : Trusted T vs) (hd : T.Live d)
    (hmask : Frees mask) (pid : Int32) (fid : Option FidName) :
    ∃ vs', synthesize { mask, pid, fid, dfidName := some ⟨some d, some x.bytes⟩ }
        (T.shareNow subtree []) vs = ([.removed d x], vs') ∧
      Trusted T vs' ∧ vs'.versions = vs.versions := by
  obtain ⟨b, vs', heq, hb, htrust, hvers, -⟩ := contains_trusted hT h subtree (hT.live_born hd)
  refine ⟨vs', ?_, htrust, hvers⟩
  rw [hb hd] at heq
  obtain ⟨hren, hcr, hdel⟩ := hmask
  simp [synthesize, has, hren, hcr, hdel, nameOf_name, heq]

theorem synthesize_moved (hT : T.WF) (h : Trusted T vs) (hd : T.Live d) (he : T.Live e)
    {ev : ParsedEvent} (hev : (Op.rename d x e y).Notice ev) :
    ∃ vs', synthesize ev (T.shareNow subtree []) vs = ([.renamed d x e y], vs') ∧
      Trusted T vs' ∧ vs'.versions = vs.versions := by
  cases hev with
  | event hev =>
    cases hev with
    | rename isDir pid fid dfidName =>
      obtain ⟨b, vs₁, hfrom, hb, htrust, hvers, -⟩ :=
        contains_trusted hT h subtree (hT.live_born hd)
      obtain ⟨c, vs₂, hto, hc, htrust', hvers', -⟩ :=
        contains_trusted hT htrust subtree (hT.live_born he)
      rw [hb hd] at hfrom
      rw [hc he] at hto
      refine ⟨vs₂, ?_, htrust', hvers'.trans hvers⟩
      simp [synthesize, synthesizeRename, has, mask_rename, nameOf_name, hfrom, hto]

theorem synthesize_located (subtree : Bool) (hT : T.WF) (h : Trusted T vs) {dfidName : Option FidName}
    (hmask : Nameless mask) (hloc : T.Locates dfidName) (pid : Int32) (fid : Option FidName) :
    ∃ vs', synthesize { mask, pid, fid, dfidName } (T.shareNow subtree []) vs =
        synthesizeObject { mask, pid, fid, dfidName } (T.shareNow subtree []) vs' ∧
      Trusted T vs' ∧ vs'.versions = vs.versions ∧ vs'.modifySeen = vs.modifySeen := by
  rw [Nameless] at hmask
  rcases hloc with rfl | ⟨p, z, hp, rfl⟩
  · exact ⟨vs, by simp [synthesize, has, hmask], h, rfl, rfl⟩
  obtain ⟨b, vs', heq, hb, htrust, hvers, hseen⟩ := contains_trusted hT h subtree (hT.live_born hp)
  rw [hb hp] at heq
  refine ⟨vs', ?_, htrust, hvers, hseen⟩
  simp [synthesize, has, hmask, nameOf_name, heq]

theorem contentRec_now (hk : T.Live k) (inProgress : Bool) :
    contentRec (T.shareNow subtree []) k vs inProgress =
      ([.content k (vs.bump k).1 (T.attr k).size (T.attr k).mtime inProgress], (vs.bump k).2) := by
  simp only [contentRec, shareNow, if_pos hk]
  rfl

theorem attrRec_now (hk : T.Live k) :
    attrRec (T.shareNow subtree []) k = [.attrChanged k (T.statx k)] := by
  simp only [attrRec, shareNow, if_pos hk]

theorem bump_versions {vs' : VersionState} (h : vs'.versions = vs.versions) (k : NodeKey) :
    (vs'.bump k).1 = (vs.bump k).1 ∧ (vs'.bump k).2.versions = (vs.bump k).2.versions := by
  simp [VersionState.bump, h]

theorem live_unlink (hT : T.WF) (hv : T.Valid (.unlink d x)) : (T.apply (.unlink d x)).Live d := by
  obtain ⟨k, hk, -⟩ := hv
  rcases hT.live_iff_reach.mpr (hT.rooted hk) with hroot | ⟨p, w, hw⟩
  · exact .inl hroot
  refine .inr ⟨p, w, ?_⟩
  have hne : ¬ (p = d ∧ w = x) := by
    rintro ⟨rfl, rfl⟩
    exact hT.entry_ne_self hw
  simp only [apply, entry_set, if_neg hne, hw]

theorem live_rename (hT : T.WF) (hv : T.Valid (.rename d x e y)) :
    (T.apply (.rename d x e y)).Live d := by
  obtain ⟨k, hk, -, -, -, hother⟩ := hv
  rcases hT.live_iff_reach.mpr (hT.rooted hk) with hroot | ⟨p, w, hw⟩
  · exact .inl hroot
  refine .inr ⟨p, w, ?_⟩
  have hsource : ¬ (p = d ∧ w = x) := by
    rintro ⟨rfl, rfl⟩
    exact hT.entry_ne_self hw
  have htarget : ¬ (p = e ∧ w = y) := by
    rintro ⟨rfl, rfl⟩
    rw [(hother d hw).2.2 x] at hk
    cases hk
  simp only [apply, entry_set, if_neg hsource, if_neg htarget, hw]

theorem live_target (hT : T.WF) (hv : T.Valid (.rename d x e y)) :
    (T.apply (.rename d x e y)).Live e := by
  have hT' := hT.apply hv
  obtain ⟨k, hk, -⟩ := hv
  exact hT'.live_iff_reach.mpr (hT'.rooted ((entry_set_self ..).trans hk))

end

variable {T : Tree} {t : Turn}

theorem Turn.wf (hT : T.WF) (hv : t.Valid T) : (t.tree T).WF := by
  cases t with
  | act op => exact hT.apply hv
  | gone k => exact hT

theorem Trusted.turn {vs : VersionState} (h : Trusted T vs) (hv : t.Valid T) :
    Trusted (t.tree T) { vs with modifySeen := ∅ } := by
  intro k hk
  refine h k ?_
  cases t with
  | gone j => exact hk
  | act op =>
    by_cases hborn : T.born k
    · refine .inl (by_contra fun hdead => ?_)
      rcases hk with hlive | hnew
      · exact dead_apply hv hborn hdead hlive
      · exact hnew (born_apply hborn op)
    · exact .inr hborn

section

variable {T : Tree} {s : Watcher} {subtree renames : Bool} {share : ShareNow} {vs : VersionState}
  {ev : ParsedEvent} {k : NodeKey} {dfidName : Option FidName}

section

variable {recs : List Rec} {vs' : VersionState} (h : synthesize ev share { s.versions with modifySeen := ∅ } = (recs, vs'))
include h

theorem Watcher.drain_one : s.drain share [ev] = ⟨s.replica.replay recs, vs'⟩ := by
  simp [drain, read, h]

theorem Watcher.drain_two {ev' : ParsedEvent} {recs' : List Rec} {vs'' : VersionState}
    (h' : synthesize ev' share vs' = (recs', vs'')) :
    s.drain share [ev, ev'] = ⟨s.replica.replay (recs ++ recs'), vs''⟩ := by
  simp [drain, read, h, h', replay, List.foldl_append]

end

theorem naming_recorded {op : Op} (hT : T.WF) (hv : T.Valid op) (h : Trusted (T.apply op) { vs with modifySeen := ∅ })
    (hname : ∀ d x e y, op ≠ .rename d x e y) (hev : op.Notice ev) :
    ∃ recs vs', synthesize ev ((T.apply op).shareNow subtree []) { vs with modifySeen := ∅ } =
        (recs, vs') ∧
      Recorded renames (T.apply op) vs vs' (.act op) recs ∧ Trusted (T.apply op) vs' := by
  have hT' := hT.apply hv
  have hcreate : ∀ b, Fills (FAN_CREATE ||| onDir b) := by decide
  have hdelete : ∀ b, Frees (FAN_DELETE ||| onDir b) := by decide
  cases hev with
  | link pid fid =>
    obtain ⟨vs', heq, htrust, hvers⟩ :=
      synthesize_filled subtree hT' h (entry_set_self ..) (hcreate false) pid fid
    exact ⟨_, vs', heq, .link hvers, htrust⟩
  | event hev =>
    cases hev with
    | create isDir pid fid =>
      obtain ⟨vs', heq, htrust, hvers⟩ :=
        synthesize_filled subtree hT' h (entry_set_self ..) (hcreate isDir) pid fid
      exact ⟨_, vs', heq, .create hvers, htrust⟩
    | unlink isDir pid fid =>
      obtain ⟨vs', heq, htrust, hvers⟩ :=
        synthesize_freed subtree hT' h (live_unlink hT hv) (hdelete isDir) pid fid
      exact ⟨_, vs', heq, .unlink hvers, htrust⟩
    | @rename d x e y isDir pid fid dfidName => exact absurd rfl (hname d x e y)

theorem synthesize_inside (subtree : Bool) (hT : T.WF) (hk : T.Live k)
    (h : Trusted T { vs with modifySeen := ∅ }) (mask : UInt64)
    (hmask : Nameless mask) (hself : mask &&& FAN_DELETE_SELF = 0) (hloc : T.Locates dfidName)
    (pid : Int32) (name : Option (List UInt8)) :
    ∃ vs', synthesize { mask, pid, fid := some ⟨some k, name⟩, dfidName } (T.shareNow subtree [])
          { vs with modifySeen := ∅ } =
        (if mask &&& FAN_CLOSE_WRITE ≠ 0 then contentRec (T.shareNow subtree []) k vs' false
        else if mask &&& FAN_ATTRIB ≠ 0 then (attrRec (T.shareNow subtree []) k, vs')
        else if mask &&& FAN_MODIFY ≠ 0 then
          contentRec (T.shareNow subtree []) k
            { vs' with modifySeen := vs'.modifySeen.insert k () } true
        else ([], vs')) ∧
      Trusted T vs' ∧ vs'.versions = vs.versions := by
  obtain ⟨vs₁, hobj, htrust₁, hvers₁, hseen₁⟩ :=
    synthesize_located subtree hT h hmask hloc pid (some ⟨some k, name⟩)
  obtain ⟨b, vs₂, hin, hb, htrust₂, hvers₂, hseen₂⟩ :=
    contains_trusted hT htrust₁ subtree (hT.live_born hk)
  rw [hb hk] at hin
  have hfree : vs₂.modifySeen.lookup k = none := by
    rw [hseen₂, hseen₁]
    exact Finmap.lookup_empty k
  refine ⟨vs₂, ?_, htrust₂, hvers₂.trans hvers₁⟩
  rw [hobj]
  simp [synthesizeObject, has, hin, hself, hfree]

theorem write_recorded {version size : UInt64} {mtime : Ts} {inProgress : Bool}
    (hT : T.WF) (hk : T.Live k) (h : Trusted T { vs with modifySeen := ∅ }) (hloc : T.Locates dfidName) (pid : Int32)
    (name : Option (List UInt8)) :
    ∃ recs vs', synthesize
        { mask := if inProgress then FAN_MODIFY else FAN_CLOSE_WRITE, pid,
          fid := some ⟨some k, name⟩, dfidName }
        (T.shareNow subtree []) { vs with modifySeen := ∅ } = (recs, vs') ∧
      Recorded renames T vs vs' (.act (.write k version size mtime inProgress)) recs ∧
      Trusted T vs' := by
  cases inProgress with
  | false =>
    obtain ⟨vs', heq, htrust, hvers⟩ := synthesize_inside subtree hT hk h
      FAN_CLOSE_WRITE (by decide) (by decide) hloc pid name
    obtain ⟨hversion, hcounters⟩ := bump_versions hvers k
    rw [if_pos (by decide), contentRec_now hk, hversion] at heq
    exact ⟨_, _, heq, .write hcounters, htrust⟩
  | true =>
    obtain ⟨vs', heq, htrust, hvers⟩ := synthesize_inside subtree hT hk h
      FAN_MODIFY (by decide) (by decide) hloc pid name
    have hseen : ({ vs' with modifySeen := vs'.modifySeen.insert k () } : VersionState).versions =
        vs.versions := hvers
    obtain ⟨hversion, hcounters⟩ := bump_versions hseen k
    rw [if_neg (by decide), if_neg (by decide), if_pos (by decide), contentRec_now hk,
      hversion] at heq
    exact ⟨_, _, heq, .write hcounters, htrust⟩

theorem chmod_recorded {a : Attr} (hT : T.WF) (hk : T.Live k)
    (h : Trusted T { vs with modifySeen := ∅ })
    (hloc : T.Locates dfidName) (isDir : Bool) (pid : Int32) (name : Option (List UInt8)) :
    ∃ recs vs', synthesize
        { mask := FAN_ATTRIB ||| onDir isDir, pid, fid := some ⟨some k, name⟩, dfidName }
        (T.shareNow subtree []) { vs with modifySeen := ∅ } = (recs, vs') ∧
      Recorded renames T vs vs' (.act (.chmod k a)) recs ∧ Trusted T vs' := by
  have hmask : ∀ b, Nameless (FAN_ATTRIB ||| onDir b) ∧
      (FAN_ATTRIB ||| onDir b) &&& FAN_DELETE_SELF = 0 ∧
      (FAN_ATTRIB ||| onDir b) &&& FAN_CLOSE_WRITE = 0 ∧
      (FAN_ATTRIB ||| onDir b) &&& FAN_ATTRIB ≠ 0 := by decide
  obtain ⟨hplace, hself, hclose, hattrib⟩ := hmask isDir
  obtain ⟨vs', heq, htrust, hvers⟩ := synthesize_inside subtree hT hk h _ hplace hself hloc pid name
  rw [if_neg (not_not.mpr hclose), if_pos hattrib, attrRec_now hk] at heq
  exact ⟨_, vs', heq, .chmod hvers, htrust⟩

theorem gone_recorded (hT : T.WF) (hk : T.born k) (h : Trusted T { vs with modifySeen := ∅ }) (hev : SelfEvent k ev) :
    ∃ recs vs', synthesize ev (T.shareNow subtree []) { vs with modifySeen := ∅ } = (recs, vs') ∧
      Recorded renames T vs vs' (.gone k) recs ∧ Trusted T vs' := by
  cases hev with
  | mk isDir pid name dfidName hname =>
    obtain ⟨b, vs', hin, -, htrust, hvers, -⟩ := contains_trusted hT h subtree hk
    cases b with
    | false =>
      refine ⟨[], vs', ?_, .gone hvers (.inl rfl), htrust⟩
      simp [synthesize, synthesizeObject, has, mask_deleteSelf, hname, hin]
    | true =>
      refine ⟨[.selfRemoved k], vs', ?_, .gone hvers (.inr rfl), htrust⟩
      simp [synthesize, synthesizeObject, has, mask_deleteSelf, hname, hin]

end

theorem Watcher.drain_recorded (subtree : Bool) (hT : T.WF) {s : Watcher}
    (h : Trusted T s.versions) {renames : Bool} {evs : List ParsedEvent} (hv : t.Valid T)
    (hevs : Noted renames (t.tree T) t evs) :
    ∃ recs vs', s.drain ((t.tree T).shareNow subtree []) evs = ⟨s.replica.replay recs, vs'⟩ ∧
      Recorded renames (t.tree T) s.versions vs' t recs ∧ Trusted (t.tree T) vs' := by
  have htrust := h.turn hv
  have hT' := Turn.wf hT hv
  cases hevs with
  | naming hname hev =>
    obtain ⟨recs, vs', heq, hrec, htrust'⟩ := naming_recorded hT hv htrust hname hev
    exact ⟨recs, vs', drain_one heq, hrec, htrust'⟩
  | renamed hren hev =>
    obtain ⟨vs', heq, htrust', hvers⟩ :=
      synthesize_moved hT' htrust (live_rename hT hv) (live_target hT hv) hev
    exact ⟨_, vs', drain_one heq, .renamed hren hvers, htrust'⟩
  | @moved d e x y isDir pid fid fid' hren =>
    have hfrom : ∀ b, Frees (FAN_MOVED_FROM ||| onDir b) := by decide
    have hto : ∀ b, Fills (FAN_MOVED_TO ||| onDir b) := by decide
    obtain ⟨k, hy⟩ : ∃ k, (T.apply (.rename d x e y)).entry e y = some k := by
      obtain ⟨k, hk, -⟩ := hv
      exact ⟨k, (entry_set_self ..).trans hk⟩
    obtain ⟨vs₁, heq₁, htrust₁, hvers₁⟩ := synthesize_freed subtree (x := x)
      hT' htrust (live_rename hT hv) (hfrom isDir) pid fid
    obtain ⟨vs₂, heq₂, htrust₂, hvers₂⟩ := synthesize_filled subtree
      hT' htrust₁ hy (hto isDir) pid fid'
    exact ⟨_, vs₂, drain_two heq₁ heq₂, .moved hren (hvers₂.trans hvers₁) hy, htrust₂⟩
  | @write k version size mtime inProgress pid name _ hloc =>
    have hlive : ((Turn.act (.write k version size mtime inProgress)).tree T).Live k := hv
    obtain ⟨recs, vs', heq, hrec, htrust'⟩ := write_recorded hT' hlive htrust hloc pid name
    exact ⟨recs, vs', drain_one heq, hrec, htrust'⟩
  | @chmod k a isDir pid name _ hloc =>
    have hlive : ((Turn.act (.chmod k a)).tree T).Live k := hv.1
    obtain ⟨recs, vs', heq, hrec, htrust'⟩ := chmod_recorded hT' hlive htrust hloc isDir pid name
    exact ⟨recs, vs', drain_one heq, hrec, htrust'⟩
  | gone hev =>
    obtain ⟨recs, vs', heq, hrec, htrust'⟩ := gone_recorded hT hv.1 htrust hev
    exact ⟨recs, vs', drain_one heq, hrec, htrust'⟩

namespace Mirrors

variable {r : ShareReplica} {T T' : Tree} {d e k : NodeKey} {x y : Name} {a : Attr}

variable (h : Mirrors r T)
include h

theorem create_statx (hT : T.WF) (hv : T.Valid (.create d x k a)) :
    Mirrors (r.applyRec (.created d x k (some ((T.apply (.create d x k a)).statx k)))).1
      (T.apply (.create d x k a)) :=
  h.create hT hv (by simp [statx, apply])

theorem link_statx (hT : T.WF) (hv : T.Valid (.link d x k a)) :
    Mirrors (r.applyRec (.created d x k (some ((T.apply (.link d x k a)).statx k)))).1
      (T.apply (.link d x k a)) :=
  h.link hT hv (by simp [statx, apply])

theorem moved (hT : T.WF) (hv : T.Valid (.rename d x e y))
    (hx : T.entry d x = some k) (hempty : ∀ z, T.entry k z = none) (ha : a.kind = T.kind k) :
    Mirrors ((r.applyRec (.removed d x)).1.applyRec (.created e y k (some a))).1
      (T.apply (.rename d x e y)) := by
  have hT' := hT.rename hv
  have hfirst := h.unlink hT ⟨k, hx, hempty⟩
  obtain ⟨k', hk', he, hdir, hout, -⟩ := hv
  obtain rfl : k = k' := mem_unique hx hk'
  have hlive : (T.apply (.unlink d x)).Live e := by
    rcases he with hroot | ⟨p, w, hw⟩
    · exact .inl hroot
    refine .inr ⟨p, w, ?_⟩
    have hne : ¬ (p = d ∧ w = x) := by
      rintro ⟨rfl, rfl⟩
      obtain rfl := mem_unique hx hw
      exact hout .refl
    simp only [apply, entry_set, if_neg hne, hw]
  refine hfirst.placed hT' rfl ?_ hlive hdir (fun _ _ => rfl) ha
  simp only [apply, hx]

end Mirrors

/-- Two replicas with the same tree and the same content versions, with nothing kept for later. -/
structure Alike (T : Tree) (r s : ShareReplica) : Prop where
  left : Mirrors r T
  right : Mirrors s T
  content : ∀ k, r.contentVersion k = s.contentVersion k
  drained : ∀ k, r.pending.lookup k = none ∧ s.pending.lookup k = none

/-- A rename that loses nothing when it is reported as two events: nothing is below the node, and it
keeps another name or was never written. -/
def Movable (T : Tree) (s : ShareReplica) : Turn → Prop
  | .act (.rename d x _ _) => ∀ k, T.entry d x = some k → (∀ z, T.entry k z = none) ∧
    (s.contentVersion k = some 0 ∨ ∃ p w, (p, w) ≠ (d, x) ∧ T.entry p w = some k)
  | _ => True

namespace Alike

variable {T T' : Tree} {r s r' s' : ShareReplica} {d e k : NodeKey} {x y : Name} {a : Attr}

theorem of_live (hleft : Mirrors r' T') (hright : Mirrors s' T')
    (h : ∀ k, r'.live k → s'.live k → r'.contentVersion k = s'.contentVersion k)
    (hdrained : ∀ k, r'.pending.lookup k = none ∧ s'.pending.lookup k = none) : Alike T' r' s' := by
  refine ⟨hleft, hright, fun k => ?_, hdrained⟩
  by_cases hk : T'.Live k
  · exact h k ((hleft.live k).mpr hk) ((hright.live k).mpr hk)
  · rw [contentVersion_of_not_live fun hl => hk ((hleft.live k).mp hl),
      contentVersion_of_not_live fun hl => hk ((hright.live k).mp hl)]

section

variable (h : Alike T r s)
include h

theorem created (hleft : Mirrors (r.applyRec (.created d x k (some a))).1 T')
    (hright : Mirrors (s.applyRec (.created d x k (some a))).1 T') :
    Alike T' (r.applyRec (.created d x k (some a))).1 (s.applyRec (.created d x k (some a))).1 := by
  refine of_live hleft hright (fun j hr hs => ?_) fun j => ?_
  · by_cases hj : j = k
    · subst hj
      rw [created_version hr, created_version hs, (h.drained j).1, (h.drained j).2, h.content]
    · rw [(created_calm r x a hj).version hr, (created_calm s x a hj).version hs, h.content]
  · rw [created_pending, created_pending, (h.drained j).1, (h.drained j).2]
    simp

theorem removed (hleft : Mirrors (r.applyRec (.removed d x)).1 T')
    (hright : Mirrors (s.applyRec (.removed d x)).1 T') :
    Alike T' (r.applyRec (.removed d x)).1 (s.applyRec (.removed d x)).1 := by
  refine of_live hleft hright (fun j hr hs => ?_) fun j => ?_
  · rw [(removed_calm r d x).version hr, (removed_calm s d x).version hs, h.content]
  · rw [removed_pending, removed_pending]
    exact h.drained j

theorem moved (hT : T.WF) (hv : T.Valid (.rename d x e y))
    (hmov : Movable T s (.act (.rename d x e y))) (hx : T.entry d x = some k)
    (ha : a.kind = T.kind k) (hzero : a.contentVersion = 0) :
    Alike (T.apply (.rename d x e y)) (r.applyRec (.renamed d x e y)).1
      ((s.applyRec (.removed d x)).1.applyRec (.created e y k (some a))).1 := by
  obtain ⟨hempty, hkept⟩ := hmov k hx
  refine of_live (h.left.rename hT hv) (h.right.moved hT hv hx hempty ha) (fun j hr hs => ?_)
    fun j => ?_
  · rw [(renamed_calm r d x e y).version hr, h.content]
    by_cases hj : j = k
    · subst hj
      have hpend : (s.applyRec (.removed d x)).1.pending.lookup j = none := by
        rw [removed_pending]
        exact (h.drained j).2
      rw [created_version hs, hpend]
      by_cases hlive : (s.applyRec (.removed d x)).1.live j
      · -- another name kept the node
        obtain ⟨v, hver⟩ := contentVersion_of_live hlive
        rw [hver, ← (removed_calm s d x).version hlive]
        exact hver
      · rw [contentVersion_of_not_live hlive]
        rcases hkept with hver | ⟨p, w, hne, hw⟩
        · rw [hver, ← hzero]
          rfl
        · refine absurd ((h.right.unlink hT ⟨j, hx, hempty⟩).live j |>.mpr (.inr ⟨p, w, ?_⟩)) hlive
          have hother : ¬ (p = d ∧ w = x) := fun ⟨h1, h2⟩ => hne (by rw [h1, h2])
          simp only [apply, entry_set, if_neg hother, hw]
    · have hcalm := created_calm (s.applyRec (.removed d x)).1 y a hj (d := e)
      rw [hcalm.version hs, (removed_calm s d x).version (hcalm.live hs)]
  · rw [renamed_pending, created_pending, removed_pending]
    refine ⟨(h.drained j).1, ?_⟩
    split
    · rfl
    · exact (h.drained j).2

theorem written (hk : T.Live k) (version size : UInt64) (mtime : Ts)
    (inProgress : Bool) (hleft : Mirrors (r.applyRec (.content k version size mtime inProgress)).1 T')
    (hright : Mirrors (s.applyRec (.content k version size mtime inProgress)).1 T') :
    Alike T' (r.applyRec (.content k version size mtime inProgress)).1
      (s.applyRec (.content k version size mtime inProgress)).1 := by
  have hkr := (h.left.live k).mpr hk
  have hks := (h.right.live k).mpr hk
  refine of_live hleft hright (fun j hr hs => ?_) fun j => ?_
  · by_cases hj : j = k
    · subst hj
      rw [content_version hkr, content_version hks]
    · rw [(content_calm r _ _ _ _ hj).version hr, (content_calm s _ _ _ _ hj).version hs, h.content]
  · rw [content_pending hkr, content_pending hks]
    exact h.drained j

theorem chmodded (hk : T.Live k) (hleft : Mirrors (r.applyRec (.attrChanged k a)).1 T')
    (hright : Mirrors (s.applyRec (.attrChanged k a)).1 T') :
    Alike T' (r.applyRec (.attrChanged k a)).1 (s.applyRec (.attrChanged k a)).1 := by
  refine of_live hleft hright (fun j _ _ => ?_) fun j => ?_
  · rw [attrChanged_version, attrChanged_version, h.content]
  · rw [attrChanged_pending ((h.left.live k).mpr hk), attrChanged_pending ((h.right.live k).mpr hk)]
    exact h.drained j

theorem step {vs vs₁ vs₂ ws : VersionState} {t : Turn} {recs recs' : List Rec}
    (hT : T.WF) (hv : t.Valid T) (hmov : Movable T s t) (hvers : vs.versions = ws.versions)
    (hleft : Recorded true (t.tree T) vs vs₁ t recs)
    (hright : Recorded false (t.tree T) ws vs₂ t recs') :
    Alike (t.tree T) (r.replay recs) (s.replay recs') ∧ vs₁.versions = vs₂.versions := by
  cases hleft with
  | create hkeep =>
    cases hright with
    | create hkeep' =>
      exact ⟨h.created (h.left.create_statx hT hv) (h.right.create_statx hT hv),
        hkeep.trans (hvers.trans hkeep'.symm)⟩
  | link hkeep =>
    cases hright with
    | link hkeep' =>
      exact ⟨h.created (h.left.link_statx hT hv) (h.right.link_statx hT hv),
        hkeep.trans (hvers.trans hkeep'.symm)⟩
  | unlink hkeep =>
    cases hright with
    | unlink hkeep' =>
      exact ⟨h.removed (h.left.unlink hT hv) (h.right.unlink hT hv),
        hkeep.trans (hvers.trans hkeep'.symm)⟩
  | moved hren => cases hren
  | @renamed d e x y hren hkeep =>
    cases hright with
    | renamed hren' => cases hren'
    | moved hren' hkeep' hy =>
      have hx : T.entry d x = some _ := (entry_set_self ..).symm.trans hy
      exact ⟨h.moved hT hv hmov hx rfl rfl, hkeep.trans (hvers.trans hkeep'.symm)⟩
  | @write k version size mtime inProgress hkeep =>
    cases hright with
    | write hkeep' =>
      obtain ⟨hnext, hcounters⟩ := bump_versions hvers k
      rw [← hnext]
      have hkind := T.kind_write k version size mtime inProgress
      refine ⟨h.written hv _ _ _ _ (h.left.sameTree (content_same ..) rfl hkind rfl)
        (h.right.sameTree (content_same ..) rfl hkind rfl), hkeep.trans (hcounters.trans hkeep'.symm)⟩
  | @chmod k a hkeep =>
    cases hright with
    | chmod hkeep' =>
      have hkind := T.kind_update hv.2
      exact ⟨h.chmodded hv.1 (h.left.sameTree (attrChanged_same ..) rfl hkind rfl)
        (h.right.sameTree (attrChanged_same ..) rfl hkind rfl), hkeep.trans (hvers.trans hkeep'.symm)⟩
  | @gone k recs hkeep hrecs =>
    cases hright with
    | gone hkeep' hrecs' =>
      -- the replicas do not have the node, so its record does nothing
      have hnone : ∀ {q : ShareReplica}, Mirrors q T → ∀ {l : List Rec},
          l = [] ∨ l = [.selfRemoved k] → q.replay l = q := by
        rintro q hq l (rfl | rfl)
        · rfl
        · have hdead : ¬ q.live k := fun hl => hv.2 ((hq.live k).mp hl)
          simp [replay, applyRec, hdead]
      rw [hnone h.left hrecs, hnone h.right hrecs']
      exact ⟨h, hkeep.trans (hvers.trans hkeep'.symm)⟩

end

end Alike

/-- Every rename of a history finds its node so, in the replica of the stream without renames. -/
def AllMovable (subtree : Bool) : Tree → Watcher → List (Turn × List ParsedEvent) → Prop
  | _, _, [] => True
  | T, s, (t, evs) :: rest =>
    Movable T s.replica t ∧
      AllMovable subtree (t.tree T) (s.drain ((t.tree T).shareNow subtree []) evs) rest

/-- Two watchers of one history. -/
theorem Alike.run {subtree : Bool} {s s' : Watcher}
    {l l' : List (Turn × List ParsedEvent)} (hT : T.WF) (h : Alike T s.replica s'.replica)
    (hvers : s.versions.versions = s'.versions.versions) (htrust : Trusted T s.versions)
    (htrust' : Trusted T s'.versions) (hsame : l.map Prod.fst = l'.map Prod.fst)
    (hl : Stream true T l) (hl' : Stream false T l') (hmov : AllMovable subtree T s' l') :
    ∃ T', Alike T' (s.watch subtree T l).replica (s'.watch subtree T l').replica := by
  induction l generalizing T s s' l' with
  | nil =>
    obtain rfl : l' = [] := List.map_eq_nil_iff.mp hsame.symm
    exact ⟨T, h⟩
  | cons p l ih =>
    cases l' with
    | nil => cases hsame
    | cons p' l' =>
      obtain ⟨t', evs'⟩ := p'
      obtain ⟨rfl, hrest⟩ := List.cons.inj hsame
      obtain ⟨hv, hevs, hl⟩ := hl
      obtain ⟨-, hevs', hl'⟩ := hl'
      obtain ⟨recs, vs, hdrain, hrec, hvs⟩ := Watcher.drain_recorded subtree hT htrust hv hevs
      obtain ⟨recs', vs', hdrain', hrec', hvs'⟩ :=
        Watcher.drain_recorded subtree hT htrust' hv hevs'
      obtain ⟨hmov, hmovs⟩ := hmov
      obtain ⟨hnext, hversions⟩ := h.step hT hv hmov hvers hrec hrec'
      rw [Watcher.watch, Watcher.watch]
      rw [hdrain'] at hmovs ⊢
      rw [hdrain]
      exact ih (Turn.wf hT hv) hnext hversions hvs hvs' hrest hl hl' hmovs

structure SameReplica (r s : ShareReplica) : Prop where
  entry : ∀ d x, r.entry d x = s.entry d x
  live : ∀ k, r.live k = s.live k
  isDir : ∀ k, r.isDir k ↔ s.isDir k
  linkCount : ∀ k, r.linkCount k = s.linkCount k
  contentVersion : ∀ k, r.contentVersion k = s.contentVersion k

theorem Alike.same {r s : ShareReplica} (h : Alike T r s) : SameReplica r s where
  entry d x := (h.left.entry d x).trans (h.right.entry d x).symm
  live k := Bool.eq_iff_iff.mpr ((h.left.live k).trans (h.right.live k).symm)
  isDir _ := h.left.isDir_iff.trans h.right.isDir_iff.symm
  linkCount k := by
    have hcount := (h.left.linkCount_eq k).symm.trans (h.right.linkCount_eq k)
    exact_mod_cast hcount
  contentVersion := h.content

theorem seededRoot_drained {info : ShareInfo} {a : Attr} {snapId : UInt64} {r : ShareReplica}
    (h : seededRoot info a snapId = some r) (k : NodeKey) : r.pending.lookup k = none := by
  rw [seededRoot, map_eq_some_iff] at h
  obtain ⟨r₁, h₁, rfl⟩ := h
  rw [applySnapDir, map_eq_some_iff] at h₁
  obtain ⟨t, -, rfl⟩ := h₁
  simp [finishSnapshot, DirState.fill, setDir, ShareReplica.new]

/-- One history told with rename events and without: the replicas are the same as long as every
rename without them finds its node movable. -/
theorem rename_fallback (info : ShareInfo) (a : Attr) (ha : a.kind = .dir) (snapId : UInt64)
    (subtree : Bool) (l l' : List (Turn × List ParsedEvent)) (hsame : l.map Prod.fst = l'.map Prod.fst)
    (hl : Stream true (Tree.emptyShare info.root a) l)
    (hl' : Stream false (Tree.emptyShare info.root a) l') :
    ∃ r, seededRoot info a snapId = some r ∧
      (AllMovable subtree (Tree.emptyShare info.root a) ⟨r, .new⟩ l' → SameReplica
          ((⟨r, .new⟩ : Watcher).watch subtree (Tree.emptyShare info.root a) l).replica
          ((⟨r, .new⟩ : Watcher).watch subtree (Tree.emptyShare info.root a) l').replica) := by
  obtain ⟨r, hr, hmirrors⟩ := seededRoot_mirrors info ha snapId
  refine ⟨r, hr, fun hmov => ?_⟩
  have hdrained := seededRoot_drained hr
  have hstart : Alike (emptyShare info.root a) r r :=
    ⟨hmirrors, hmirrors, fun _ => rfl, fun k => ⟨hdrained k, hdrained k⟩⟩
  have htrust : Trusted (emptyShare info.root a) .new := fun k _ => by
    simp [VersionState.new]
  let w : Watcher := ⟨r, .new⟩
  obtain ⟨T', h⟩ := Alike.run (emptyShare_wf info.root ha)
    (show Alike _ w.replica w.replica from hstart) rfl htrust htrust hsame hl hl' hmov
  exact h.same

def nameEvent (mask : UInt64) (d : NodeKey) (x : Name) : ParsedEvent :=
  { mask, pid := 7, dfidName := some ⟨some d, some x.bytes⟩ }

def moveEvents (renames isDir : Bool) (x y : Name) : List ParsedEvent :=
  if renames then
    [{ mask := FAN_RENAME ||| onDir isDir, pid := 7, old := some ⟨some ⟨2, 1⟩, some x.bytes⟩,
       new := some ⟨some ⟨2, 1⟩, some y.bytes⟩ }]
  else
    [nameEvent (FAN_MOVED_FROM ||| onDir isDir) ⟨2, 1⟩ x,
     nameEvent (FAN_MOVED_TO ||| onDir isDir) ⟨2, 1⟩ y]

theorem moveEvents_noted (renames isDir : Bool) (x y : Name) (T : Tree) :
    Noted renames T (.act (.rename ⟨2, 1⟩ x ⟨2, 1⟩ y)) (moveEvents renames isDir x y) := by
  cases renames with
  | true => exact .renamed rfl (.event (.rename isDir 7 none none))
  | false => exact .moved isDir 7 none none rfl

def movesLinked (renames : Bool) : List (Turn × List ParsedEvent) :=
  [(.act (.create ⟨2, 1⟩ (.letter 'f') ⟨11, 1⟩ (placeholderAttr .reg)),
    [nameEvent (FAN_CREATE ||| onDir false) ⟨2, 1⟩ (.letter 'f')]),
   (.act (.link ⟨2, 1⟩ (.letter 'g') ⟨11, 1⟩ (placeholderAttr .reg)),
    [nameEvent (FAN_CREATE ||| onDir false) ⟨2, 1⟩ (.letter 'g')]),
   (.act (.write ⟨11, 1⟩ 1 5 ⟨0, 0⟩ false),
    [{ mask := FAN_CLOSE_WRITE, pid := 7, fid := some ⟨some ⟨11, 1⟩, none⟩ }]),
   (.act (.rename ⟨2, 1⟩ (.letter 'f') ⟨2, 1⟩ (.letter 'h')),
    moveEvents renames false (.letter 'f') (.letter 'h'))]

theorem movesLinked_stream (renames : Bool) :
    Stream renames (emptyShare ⟨2, 1⟩ (placeholderAttr .dir)) (movesLinked renames) := by
  let T₀ := emptyShare ⟨2, 1⟩ (placeholderAttr .dir)
  let create := Op.create ⟨2, 1⟩ (.letter 'f') ⟨11, 1⟩ (placeholderAttr .reg)
  let link := Op.link ⟨2, 1⟩ (.letter 'g') ⟨11, 1⟩ (placeholderAttr .reg)
  let write := Op.write ⟨11, 1⟩ 1 5 ⟨0, 0⟩ false
  have hcreate : T₀.Valid create := ⟨.inl rfl, rfl, rfl, (by simp [T₀, emptyShare])⟩
  have hlink : (T₀.apply create).Valid link :=
    ⟨.inl rfl, rfl, rfl, .inr ⟨⟨2, 1⟩, .letter 'f', rfl⟩, (fun h => by cases h), rfl⟩
  have hwrite : ((T₀.apply create).apply link).Valid write := .inr ⟨⟨2, 1⟩, .letter 'f', rfl⟩
  have hT := ((emptyShare_wf ⟨2, 1⟩ rfl).apply hcreate).apply hlink |>.apply hwrite
  have hrename : (((T₀.apply create).apply link).apply write).Valid (.rename ⟨2, 1⟩ (.letter 'f') ⟨2, 1⟩ (.letter 'h')) :=
    ⟨⟨11, 1⟩, rfl, .inl rfl, rfl, hT.not_reach_root (by decide), fun m hm => (by cases hm)⟩
  exact ⟨hcreate, .naming (by simp) (.event (.create false 7 none)), hlink,
    .naming (by simp) (.link 7 none), hwrite, .write 7 none (.inl rfl), hrename,
    moveEvents_noted .., trivial⟩

theorem rename_fallback_linked :
    ∃ r, seededRoot ⟨⟨1⟩, ⟨2, 1⟩⟩ (placeholderAttr .dir) 1 = some r ∧
      SameReplica
        ((⟨r, .new⟩ : Watcher).watch false (Tree.emptyShare ⟨2, 1⟩ (placeholderAttr .dir))
          (movesLinked true)).replica
        ((⟨r, .new⟩ : Watcher).watch false (Tree.emptyShare ⟨2, 1⟩ (placeholderAttr .dir))
          (movesLinked false)).replica := by
  obtain ⟨r, hr, hsame⟩ := rename_fallback ⟨⟨1⟩, ⟨2, 1⟩⟩ (placeholderAttr .dir) rfl 1 false
    (movesLinked true) (movesLinked false) rfl (movesLinked_stream true) (movesLinked_stream false)
  refine ⟨r, hr, hsame ⟨trivial, trivial, trivial, fun k hk => ⟨fun z => ?_, .inr ?_⟩, trivial⟩⟩
  · obtain rfl : (⟨11, 1⟩ : NodeKey) = k := some.inj hk
    rfl
  · obtain rfl : (⟨11, 1⟩ : NodeKey) = k := some.inj hk
    exact ⟨⟨2, 1⟩, .letter 'g', by decide, rfl⟩

def movesFull (renames : Bool) : List (Turn × List ParsedEvent) :=
  [(.act (.create ⟨2, 1⟩ (.letter 'd') ⟨10, 1⟩ (placeholderAttr .dir)),
    [nameEvent (FAN_CREATE ||| onDir true) ⟨2, 1⟩ (.letter 'd')]),
   (.act (.create ⟨10, 1⟩ (.letter 'f') ⟨11, 1⟩ (placeholderAttr .reg)),
    [nameEvent (FAN_CREATE ||| onDir false) ⟨10, 1⟩ (.letter 'f')]),
   (.act (.rename ⟨2, 1⟩ (.letter 'd') ⟨2, 1⟩ (.letter 'e')),
    moveEvents renames true (.letter 'd') (.letter 'e'))]

theorem movesFull_stream (renames : Bool) :
    Stream renames (emptyShare ⟨2, 1⟩ (placeholderAttr .dir)) (movesFull renames) := by
  let T₀ := emptyShare ⟨2, 1⟩ (placeholderAttr .dir)
  let dir := Op.create ⟨2, 1⟩ (.letter 'd') ⟨10, 1⟩ (placeholderAttr .dir)
  let file := Op.create ⟨10, 1⟩ (.letter 'f') ⟨11, 1⟩ (placeholderAttr .reg)
  have hdir : T₀.Valid dir := ⟨.inl rfl, rfl, rfl, (by simp [T₀, emptyShare])⟩
  have hfile : (T₀.apply dir).Valid file :=
    ⟨.inr ⟨⟨2, 1⟩, .letter 'd', rfl⟩, rfl, rfl, (by simp [dir, T₀, apply, emptyShare])⟩
  have hT := ((emptyShare_wf ⟨2, 1⟩ rfl).apply hdir).apply hfile
  have hrename : ((T₀.apply dir).apply file).Valid (.rename ⟨2, 1⟩ (.letter 'd') ⟨2, 1⟩ (.letter 'e')) :=
    ⟨⟨10, 1⟩, rfl, .inl rfl, rfl, hT.not_reach_root (by decide), fun m hm => (by cases hm)⟩
  exact ⟨hdir, .naming (by simp) (.event (.create true 7 none)), hfile,
    .naming (by simp) (.event (.create false 7 none)), hrename, moveEvents_noted .., trivial⟩

/-- Without rename events the file in the directory is lost. -/
theorem rename_fallback_loses :
    ∃ r, seededRoot ⟨⟨1⟩, ⟨2, 1⟩⟩ (placeholderAttr .dir) 1 = some r ∧
      (movesFull true).map Prod.fst = (movesFull false).map Prod.fst ∧
      Stream true (Tree.emptyShare ⟨2, 1⟩ (placeholderAttr .dir)) (movesFull true) ∧
      Stream false (Tree.emptyShare ⟨2, 1⟩ (placeholderAttr .dir)) (movesFull false) ∧
      ¬ SameReplica
        ((⟨r, .new⟩ : Watcher).watch false (Tree.emptyShare ⟨2, 1⟩ (placeholderAttr .dir))
          (movesFull true)).replica
        ((⟨r, .new⟩ : Watcher).watch false (Tree.emptyShare ⟨2, 1⟩ (placeholderAttr .dir))
          (movesFull false)).replica := by
  have hlost : (seededRoot ⟨⟨1⟩, ⟨2, 1⟩⟩ (placeholderAttr .dir) 1).any fun r =>
      ((⟨r, .new⟩ : Watcher).watch false (emptyShare ⟨2, 1⟩ (placeholderAttr .dir))
          (movesFull true)).replica.entry ⟨10, 1⟩ (.letter 'f') = some ⟨11, 1⟩ ∧
        ((⟨r, .new⟩ : Watcher).watch false (emptyShare ⟨2, 1⟩ (placeholderAttr .dir))
          (movesFull false)).replica.entry ⟨10, 1⟩ (.letter 'f') = none := by
    decide +kernel
  obtain ⟨r, hr, hr'⟩ := (any_eq_true ..).mp hlost
  obtain ⟨hkept, hgone⟩ := of_decide_eq_true hr'
  refine ⟨r, hr, rfl, movesFull_stream true, movesFull_stream false, fun h => ?_⟩
  rw [h.entry, hgone] at hkept
  cases hkept

end Mist
