import Mist.Mistd.WalkTasks

/-! Trees given by a list of dentries, with the kernel that serves them.  What makes the list a tree
can be decided. -/

namespace Mist

open List Option

structure Row where
  parent : NodeKey
  name : Name
  child : NodeKey
  deriving DecidableEq

def Tree.ofRows (root : NodeKey) (attr : NodeKey → Attr) (rows : List Row) : Tree where
  root
  attr
  entry d x := (rows.find? fun r => r.parent = d && r.name = x).map Row.child
  born _ := True

/-- A kernel that serves the tree, with the names in the order of the dentries. -/
def GuestFs.ofRows (root : NodeKey) (attr : NodeKey → Attr) (rows : List Row) : GuestFs where
  statRoot := some ((Tree.ofRows root attr rows).statx root)
  openRel path := if relLength path < pathMax then
      ((Tree.ofRows root attr rows).walk root path).filter fun k => (attr k).kind = .dir
    else none
  readDir d := some (some [46] :: some [46, 46] ::
    (rows.filter fun r => r.parent = d).map fun r => some r.name.bytes)
  statx d bytes := (rows.find? fun r => r.parent = d && r.name.bytes = bytes).map fun r =>
    (r.child, { (Tree.ofRows root attr rows).statx r.child with symlinkTarget := none })
  readlink d bytes := (rows.find? fun r => r.parent = d && r.name.bytes = bytes).bind fun r =>
    (attr r.child).symlinkTarget

def Row.Grow (seen : List NodeKey) : List Row → Prop
  | [] => True
  | r :: rows => r.parent ∈ seen ∧ Row.Grow (r.child :: seen) rows

/-- The dentries are those of a tree: names are used once and lead down from the root, directories
have one name, and only symlinks have a target. -/
structure Row.Make (root : NodeKey) (attr : NodeKey → Attr) (rows : List Row) : Prop where
  rootDir : (attr root).kind = .dir
  grow : Row.Grow [root] rows
  dirs : ∀ r ∈ rows, (attr r.parent).kind = .dir
  keys : (rows.map fun r => (r.parent, r.name)).Nodup
  unique : ∀ r ∈ rows, ∀ r' ∈ rows, r.child = r'.child → (attr r.child).kind = .dir → r = r'
  noRoot : ∀ r ∈ rows, r.child ≠ root
  targets : ∀ r ∈ rows, (attr r.child).symlinkTarget.isSome = decide ((attr r.child).kind = .symlink)

instance Row.decidableGrow : (seen : List NodeKey) → (rows : List Row) → Decidable (Row.Grow seen rows)
  | _, [] => inferInstanceAs (Decidable True)
  | seen, r :: rows =>
    have := Row.decidableGrow (r.child :: seen) rows
    inferInstanceAs (Decidable (r.parent ∈ seen ∧ Row.Grow (r.child :: seen) rows))

instance Row.decidableMake (root : NodeKey) (attr : NodeKey → Attr) (rows : List Row) :
    Decidable (Row.Make root attr rows) :=
  decidable_of_iff ((attr root).kind = .dir ∧ Row.Grow [root] rows ∧
      (∀ r ∈ rows, (attr r.parent).kind = .dir) ∧ (rows.map fun r => (r.parent, r.name)).Nodup ∧
      (∀ r ∈ rows, ∀ r' ∈ rows, r.child = r'.child → (attr r.child).kind = .dir → r = r') ∧
      (∀ r ∈ rows, r.child ≠ root) ∧
      ∀ r ∈ rows, (attr r.child).symlinkTarget.isSome = decide ((attr r.child).kind = .symlink))
    ⟨fun ⟨h1, h2, h3, h4, h5, h6, h7⟩ => ⟨h1, h2, h3, h4, h5, h6, h7⟩,
      fun ⟨h1, h2, h3, h4, h5, h6, h7⟩ => ⟨h1, h2, h3, h4, h5, h6, h7⟩⟩

section

variable {root : NodeKey} {attr : NodeKey → Attr} {rows : List Row} {r : Row}

theorem Row.eq_of_key (h : Row.Make root attr rows) {r' : Row} (hr : r ∈ rows) (hr' : r' ∈ rows)
    (hparent : r.parent = r'.parent) (hname : r.name = r'.name) : r = r' :=
  inj_on_of_nodup_map h.keys hr hr' (Prod.ext hparent hname)

theorem Row.entry_iff (h : Row.Make root attr rows) {d k : NodeKey} {x : Name} :
    (Tree.ofRows root attr rows).entry d x = some k ↔
      ∃ r ∈ rows, r.parent = d ∧ r.name = x ∧ r.child = k := by
  simp only [Tree.ofRows, map_eq_some_iff]
  constructor
  · rintro ⟨r, hfind, rfl⟩
    have hkey := find?_some hfind
    simp only [Bool.and_eq_true, decide_eq_true_eq] at hkey
    exact ⟨r, mem_of_find?_eq_some hfind, hkey.1, hkey.2, rfl⟩
  · rintro ⟨r, hr, rfl, rfl, rfl⟩
    cases hfind : rows.find? fun r' => r'.parent = r.parent && r'.name = r.name with
    | none =>
      have := find?_eq_none.mp hfind r hr
      simp at this
    | some r' =>
      have hkey := find?_some hfind
      simp only [Bool.and_eq_true, decide_eq_true_eq] at hkey
      exact ⟨r', rfl, congrArg Row.child
        (Row.eq_of_key h (mem_of_find?_eq_some hfind) hr hkey.1 hkey.2)⟩

theorem Row.Grow.reach {T : Tree} {seen : List NodeKey} (h : Row.Grow seen rows)
    (hseen : ∀ k ∈ seen, T.Reach T.root k)
    (hentry : ∀ r ∈ rows, T.entry r.parent r.name = some r.child) (hr : r ∈ rows) :
    T.Reach T.root r.parent := by
  induction rows generalizing seen with
  | nil => cases hr
  | cons r' rows ih =>
    have hfirst := hseen _ h.1
    rcases mem_cons.mp hr with rfl | hr
    · exact hfirst
    refine ih h.2 (fun k hk => ?_) (fun r hr => hentry r (.tail _ hr)) hr
    rcases mem_cons.mp hk with rfl | hk
    · exact .step hfirst (hentry r' (.head _))
    · exact hseen k hk

section

variable (h : Row.Make root attr rows)
include h

theorem Row.Make.wf : (Tree.ofRows root attr rows).WF where
  rootDir := h.rootDir
  rootBorn := trivial
  rooted := by
    intro d x k hx
    obtain ⟨r, hr, rfl, -, -⟩ := (Row.entry_iff h).mp hx
    refine h.grow.reach (fun k hk => ?_) (fun r hr => (Row.entry_iff h).mpr ⟨r, hr, rfl, rfl, rfl⟩) hr
    obtain rfl := mem_singleton.mp hk
    exact .refl
  dirs := by
    intro d x k hx
    obtain ⟨r, hr, rfl, -, -⟩ := (Row.entry_iff h).mp hx
    exact h.dirs r hr
  unique := by
    intro d x d' x' k hx hx' hk
    obtain ⟨r, hr, rfl, rfl, hchild⟩ := (Row.entry_iff h).mp hx
    obtain ⟨r', hr', rfl, rfl, hchild'⟩ := (Row.entry_iff h).mp hx'
    obtain rfl := h.unique r hr r' hr' (hchild.trans hchild'.symm) (hchild ▸ hk)
    exact ⟨rfl, rfl⟩
  noRoot := by
    intro d x hx
    obtain ⟨r, hr, -, -, hchild⟩ := (Row.entry_iff h).mp hx
    exact h.noRoot r hr hchild
  born := fun _ => trivial

theorem Row.Make.finite : (Tree.ofRows root attr rows).dentries.Finite := by
  refine (finite_toSet (rows.map fun r => (r.parent, r.name))).subset ?_
  rintro ⟨d, x⟩ hx
  obtain ⟨k, hk⟩ := ne_none_iff_exists'.mp hx
  obtain ⟨r, hr, rfl, rfl, -⟩ := (Row.entry_iff h).mp hk
  exact mem_map.mpr ⟨r, hr, rfl⟩

theorem Row.find_bytes (hr : r ∈ rows) :
    (rows.find? fun r' => r'.parent = r.parent && r'.name.bytes = r.name.bytes) = some r := by
  cases hfind : rows.find? fun r' => r'.parent = r.parent && r'.name.bytes = r.name.bytes with
  | none =>
    have := find?_eq_none.mp hfind r hr
    simp at this
  | some r' =>
    have hkey := find?_some hfind
    simp only [Bool.and_eq_true, decide_eq_true_eq] at hkey
    rw [Row.eq_of_key h (mem_of_find?_eq_some hfind) hr hkey.1 (Name.ext hkey.2)]

theorem Row.Make.serves :
    (GuestFs.ofRows root attr rows).Serves (Tree.ofRows root attr rows) where
  statRoot := rfl
  opens := by
    intro path k hleads hfits
    show (if relLength path < pathMax then _ else none) = _
    rw [if_pos hfits]
    refine filter_eq_some_iff.mpr ⟨hleads.1, decide_eq_true hleads.2⟩
  tooLong := fun path hlong => if_neg (by omega)
  reads := by
    intro d _ _
    refine ⟨_, rfl, fun raw hraw => ?_, fun x k hx => ?_, ?_⟩
    · rcases mem_cons.mp hraw with rfl | hraw
      · exact .inl rfl
      · rcases mem_cons.mp hraw with rfl | hraw
        · exact .inr (.inl rfl)
        · obtain ⟨r, hr, rfl⟩ := mem_map.mp hraw
          obtain ⟨hmem, hparent⟩ := mem_filter.mp hr
          exact .inr (.inr ⟨r.name, r.child, rfl, (Row.entry_iff h).mpr
            ⟨r, hmem, of_decide_eq_true hparent, rfl, rfl⟩⟩)
    · obtain ⟨r, hr, rfl, rfl, -⟩ := (Row.entry_iff h).mp hx
      exact .tail _ (.tail _ (mem_map.mpr ⟨r, mem_filter.mpr ⟨hr, decide_eq_true rfl⟩, rfl⟩))
    · -- no name is a dot, and no two names of the directory are the same
      have hdot : ∀ b, b = [46] ∨ b = [46, 46] →
          some b ∉ (rows.filter fun r => r.parent = d).map fun r => some r.name.bytes := by
        intro b hb hmem
        obtain ⟨r, -, hr⟩ := mem_map.mp hmem
        exact r.name.not_dots (some.inj hr ▸ hb)
      refine nodup_cons.mpr ⟨fun hmem => ?_, nodup_cons.mpr ⟨hdot _ (.inr rfl), ?_⟩⟩
      · rcases mem_cons.mp hmem with heq | hmem
        · cases heq
        · exact hdot _ (.inl rfl) hmem
      rw [Nodup, pairwise_map]
      refine ((pairwise_map.mp h.keys).filter _).imp_of_mem fun {r r'} hr hr' hne heq => hne ?_
      have hparent := of_decide_eq_true (mem_filter.mp hr).2
      have hparent' := of_decide_eq_true (mem_filter.mp hr').2
      exact Prod.ext (hparent.trans hparent'.symm) (Name.ext (some.inj heq))
  statx := by
    intro d x k hx
    obtain ⟨r, hr, rfl, rfl, rfl⟩ := (Row.entry_iff h).mp hx
    show ((rows.find? _).map _) = _
    rw [Row.find_bytes h hr]
    rfl
  readlink := by
    intro d x k hx hk
    obtain ⟨r, hr, rfl, rfl, rfl⟩ := (Row.entry_iff h).mp hx
    have hk : (attr r.child).kind = .symlink := hk
    have htarget := h.targets r hr
    rw [decide_eq_true hk] at htarget
    obtain ⟨target, ht⟩ := isSome_iff_exists.mp htarget
    refine ⟨target, ?_, ht⟩
    show ((rows.find? _).bind _) = _
    rw [Row.find_bytes h hr]
    exact ht
  noTarget := by
    intro d x k hx hk
    obtain ⟨r, hr, rfl, rfl, rfl⟩ := (Row.entry_iff h).mp hx
    have hk : (attr r.child).kind ≠ .symlink := hk
    have htarget := h.targets r hr
    rw [decide_eq_false hk] at htarget
    have hnone : ¬ (attr r.child).symlinkTarget.isSome := by simp [htarget]
    exact not_isSome_iff_eq_none.mp hnone

theorem Row.Make.openable (hflat : ∀ r ∈ rows, r.parent = root) :
    (Tree.ofRows root attr rows).Openable := by
  intro path d x k hleads hx
  obtain ⟨r, hr, rfl, -, -⟩ := (Row.entry_iff h).mp hx
  rcases eq_nil_or_concat path with rfl | ⟨path, y, rfl⟩
  · decide
  have hwalk := hleads.1
  rw [concat_eq_append, Tree.walk_concat, bind_eq_some_iff] at hwalk
  obtain ⟨q, -, hy⟩ := hwalk
  exact absurd (hy.trans (congrArg some (hflat r hr))) h.wf.noRoot

end

end

end Mist
