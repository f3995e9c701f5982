import Mist.Hostd.MacEcho
import Mist.Nfs.Attrs

/-! The timestamps of a directory whose listing the guest changes. -/

namespace Mist

open Attr
def Ts.next (t : Ts) : Ts := if t.nsec ≥ 999999999 then ⟨t.sec + 1, 0⟩ else ⟨t.sec, t.nsec + 1⟩

def Attr.bumped (a : Attr) : Attr :=
  if a.kind = .dir then { a with mtime := a.mtime.next, ctime := a.mtime.next } else a

/-- The directories a record enters a name into or takes one from. -/
def Rec.dirs : Rec → List NodeKey
  | .created parent _ _ _ => [parent]
  | .createdBatch parent _ => [parent]
  | .removed parent _ => [parent]
  | .renamed fromParent _ toParent _ => [fromParent, toParent]
  | _ => []

theorem Ts.next_ne (t : Ts) : t.next ≠ t := by
  intro h
  have hnsec := congrArg Ts.nsec h
  unfold next at hnsec
  split at hnsec <;> grind

theorem Ts.next_next_ne (t : Ts) : t.next.next ≠ t := by
  intro h
  have hsec := congrArg Ts.sec h
  have hnsec := congrArg Ts.nsec h
  unfold next at hsec hnsec
  split at hnsec <;> split at hnsec <;> grind

namespace ShareReplica

variable {r : ShareReplica} {k : NodeKey} {a b : Attr} {rec : Rec} {dirty : NodeKey → Bool}

/-- One record of a live batch, or of a batch buffered while a snapshot was taken. -/
def process (live : Bool) (r : ShareReplica) (dirty : NodeKey → Bool) (rec : Rec) :
    ShareReplica :=
  if live then (r.onRec dirty rec).1 else (r.applyRec rec).1

/-- The Mac did not touch, a moment ago, what stands for the record when echoes are told. -/
def foreign (r : ShareReplica) (dirty : NodeKey → Bool) : Rec → Bool
  | .created _ _ node _ => !dirty node
  | .createdBatch _ entries => entries.head?.all fun e => !dirty e.node
  | .removed parent name => (r.lookup parent name).toOption.all fun v => !dirty v.1
  | .renamed fromParent _ toParent _ => !dirty fromParent && !dirty toParent
  | _ => true

theorem getattr_bumpDirAttr {d : NodeKey} (h : (r.bumpDirAttr d).getattr k = .ok b) :
    ∃ a, r.getattr k = .ok a ∧ b = if d = k then a.bumped else a := by
  by_cases hdk : d = k
  · subst hdk
    have hmem : b ∈ ((r.bumpDirAttr d).getattr d).toOption := by simp [h, Except.toOption]
    obtain ⟨n, hn, rfl⟩ := mem_getattr_modifyNode hmem
    refine ⟨_, getattr_eq_ok hn, ?_⟩
    by_cases hkind : n.kind = .dir
    · simp [bumped, graftSide_eq, Node.attr, hkind, Ts.next]
    · rw [if_neg hkind, if_pos rfl, bumped, if_neg]
      simpa only [graftSide_eq, Node.attr] using hkind
  · exact ⟨b, (bumpDirAttr_calm r hdk).getattr h, (if_neg hdk).symm⟩

theorem getattr_foldl_bumpDirAttr {l : List NodeKey}
    (h : (l.foldl bumpDirAttr r).getattr k = .ok b) :
    ∃ a, r.getattr k = .ok a ∧ b = Attr.bumped^[l.count k] a := by
  induction l generalizing r with
  | nil => exact ⟨b, h, rfl⟩
  | cons d l ih =>
    obtain ⟨a₁, h₁, rfl⟩ := ih h
    obtain ⟨a, ha, rfl⟩ := getattr_bumpDirAttr h₁
    refine ⟨a, ha, ?_⟩
    by_cases hdk : d = k
    · simp [hdk]
    · simp [hdk]

theorem parents_eq (r : ShareReplica) (dirty : NodeKey → Bool) (rec : Rec) :
    parents dirty ((r.conflictedNode rec).any dirty) rec =
      if r.foreign dirty rec then rec.dirs else [] := by
  cases rec with
  | removed parent name =>
    cases hl : (r.lookup parent name).toOption with
    | none => simp [foreign, parents, conflictedNode, Rec.dirs, hl]
    | some v => cases hv : dirty v.1 <;> simp [foreign, parents, conflictedNode, Rec.dirs, hl, hv]
  | renamed p x q y =>
    cases hp : dirty p <;> cases hq : dirty q <;> simp [foreign, parents, Rec.dirs, hp, hq]
  | created parent name node attr =>
    cases hn : dirty node <;> simp [foreign, parents, Rec.dirs, hn]
  | createdBatch parent entries => rfl
  | _ => simp [foreign, parents, Rec.dirs]

theorem getattr_process {live : Bool} (hdirs : k ∈ rec.dirs)
    (hown : ¬ rec.carries k) (hb : (r.process live dirty rec).getattr k = .ok b) :
    ∃ a, r.getattr k = .ok a ∧
      b = if live ∧ r.foreign dirty rec then Attr.bumped^[rec.dirs.count k] a else a := by
  have hcalm := r.applyRec_calm hown
  cases live with
  | false => exact ⟨b, hcalm.getattr hb, by simp⟩
  | true =>
    have hattr : rec.isAttr = false := by cases rec <;> first | rfl | cases hdirs
    simp only [process, onRec, hattr, if_true, Bool.and_false, Bool.false_eq_true, if_false,
      parents_eq] at hb
    obtain ⟨a, ha, rfl⟩ := getattr_foldl_bumpDirAttr hb
    refine ⟨a, hcalm.getattr ha, ?_⟩
    split <;> simp_all

theorem bumped_mtime_ne (ha : a.kind = .dir) (hdirs : k ∈ rec.dirs) :
    (Attr.bumped^[rec.dirs.count k] a).mtime ≠ a.mtime := by
  have hone : (bumped^[1] a).mtime = a.mtime.next := by simp [bumped, ha]
  have htwo : (bumped^[2] a).mtime = a.mtime.next.next := by simp [bumped, ha]
  have hcount : rec.dirs.count k = 1 ∨ rec.dirs.count k = 2 := by
    have hpos := List.count_pos_iff.mpr hdirs
    have hle := List.count_le_length (a := k) (l := rec.dirs)
    have hlen : rec.dirs.length ≤ 2 := by cases rec <;> simp [Rec.dirs]
    omega
  rcases hcount with h | h
  · rw [h, hone]
    exact a.mtime.next_ne
  · rw [h, htwo]
    exact a.mtime.next_next_ne

/-- A directory whose listing a record changes moves in mtime and change value exactly under these
conditions. -/
theorem directory_moves_iff (live : Bool) (hdirs : k ∈ rec.dirs) (hown : ¬ rec.carries k)
    (ha : r.getattr k = .ok a) (hkind : a.kind = .dir)
    (hb : (r.process live dirty rec).getattr k = .ok b) :
    (b.mtime ≠ a.mtime ∧ Nfs.changeOf b ≠ Nfs.changeOf a) ↔ live ∧ r.foreign dirty rec ∧
      Nfs.changeOf (Attr.bumped^[rec.dirs.count k] a) ≠ Nfs.changeOf a := by
  obtain ⟨a', ha', rfl⟩ := getattr_process hdirs hown hb
  obtain rfl : a = a' := Except.ok.inj (ha.symm.trans ha')
  by_cases hbump : live ∧ r.foreign dirty rec
  · rw [if_pos hbump]
    exact ⟨fun h => ⟨hbump.1, hbump.2, h.2⟩, fun h => ⟨bumped_mtime_ne hkind hdirs, h.2.2⟩⟩
  · rw [if_neg hbump]
    exact ⟨fun h => absurd rfl h.1, fun h => absurd ⟨h.1, h.2.1⟩ hbump⟩

def removal : Rec := .removed ⟨1, 0⟩ (.letter 'f')

def unnoticed (live : Bool) (dirty : NodeKey → Bool) : Bool :=
  let r := LiveShare.oneFile
  let r' := r.process live dirty removal
  (r.lookup ⟨1, 0⟩ (.letter 'f')).isOk && !(r'.lookup ⟨1, 0⟩ (.letter 'f')).isOk &&
    (r'.getattr ⟨1, 0⟩).toOption = (r.getattr ⟨1, 0⟩).toOption

/-- The guest removes a file the Mac just wrote, or any file during a snapshot; and two times that
the change value does not tell apart. -/
theorem removal_unnoticed :
    (unnoticed true fun k => k = LiveShare.fileKey) ∧ (unnoticed false fun _ => false) ∧
      let a : Attr := { placeholderAttr .dir with ctime := ⟨-2379484618059846568, 0⟩ }
      Nfs.changeOf a.bumped = Nfs.changeOf a := by
  decide +kernel

theorem directory_moves_iff_removal :
    ∃ a b, LiveShare.oneFile.getattr ⟨1, 0⟩ = .ok a ∧
      (LiveShare.oneFile.process true (fun _ => false) removal).getattr ⟨1, 0⟩ = .ok b ∧
      b.mtime ≠ a.mtime ∧ Nfs.changeOf b ≠ Nfs.changeOf a := by
  obtain ⟨a, b, ha, hb, hkind, hchange⟩ : ∃ a b, LiveShare.oneFile.getattr ⟨1, 0⟩ = .ok a ∧
      (LiveShare.oneFile.process true (fun _ => false) removal).getattr ⟨1, 0⟩ = .ok b ∧
      a.kind = .dir ∧ Nfs.changeOf a.bumped ≠ Nfs.changeOf a :=
    ⟨placeholderAttr .dir, (placeholderAttr .dir).bumped, by decide +kernel⟩
  refine ⟨a, b, ha, hb, ?_⟩
  exact (directory_moves_iff true (by decide) (by decide) ha hkind hb).mpr
    ⟨rfl, by decide +kernel, hchange⟩

end ShareReplica

end Mist
