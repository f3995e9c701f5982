import Mist.Convergence.Shows
import Mist.Guest.History

/-! Replicas that are ahead of the records they apply. -/

namespace Mist

open ShareReplica Mist.Tree View

/-- A replica of nodes of the tree `T`, with a value that `seen` admits under every name of its
directories. -/
structure Within (T : Tree) (seen : NodeKey → Name → Option NodeKey → Prop) (r : ShareReplica) :
    Prop where
  root : r.root = T.root
  rootLive : r.live r.root
  known : ∀ k, r.live k → T.born k
  dirs : ∀ k, r.live k → (r.isDir k ↔ T.kind k = .dir)
  seen : ∀ d, r.isDir d → ∀ x, seen d x (r.entry d x)

namespace Within

variable {T : Tree} {seen seen' : NodeKey → Name → Option NodeKey → Prop} {r r' : ShareReplica}
  {v : View} {d e k : NodeKey} {x y : Name} {a : Attr}

variable (h : Within T seen r)
include h

theorem of_left (hkeeps : Keeps r r') (hleft : Left r' v)
    (hknown : ∀ k, v.live k → T.born k) (hdirs : ∀ k, v.live k → (v.dir k ↔ T.kind k = .dir))
    (hseen : ∀ d, v.dir d → ∀ x, seen' d x (v.entry d x)) : Within T seen' r' := by
  refine ⟨?_, hkeeps.root h.rootLive, fun k hk => hknown k (hleft.live k hk), fun k hk => ?_,
    fun d hd x => ?_⟩
  · rw [ShareReplica.root, hkeeps.info]
    exact h.root
  · exact (hleft.dir k hk).trans (hdirs k (hleft.live k hk))
  · have hlive := live_of_isDir hd
    rw [hleft.entry d hlive]
    exact hseen d ((hleft.dir d hlive).mp hd) x

theorem sameTree (hsame : SameTree r r') : Within T seen r' :=
  h.of_left hsame.keeps (hsame.view ▸ Left.refl r') h.known h.dirs h.seen

theorem created (hborn : T.born k) (ha : a.kind = T.kind k) (hdk : d ≠ k)
    (hother : ∀ d' y v, ¬ (d' = d ∧ y = x) → seen d' y v → seen' d' y v)
    (hname : r.isDir d → seen' d x (some k))
    (hlist : a.kind = .dir → ¬ r.isDir k → ∀ y, seen' k y none) :
    Within T seen' (r.applyRec (.created d x k (some a))).1 := by
  have hknown : ∀ j, (r.view.upsert k a d).live j → T.born j := by
    rintro j (rfl | hj)
    · exact hborn
    · exact h.known j hj
  have hdirs : ∀ j, (r.view.upsert k a d).live j →
      ((r.view.upsert k a d).dir j ↔ T.kind j = .dir) := by
    intro j hj
    by_cases hjk : j = k
    · subst hjk
      have : r.isDir j → T.kind j = .dir := fun hd => (h.dirs j (live_of_isDir hd)).mp hd
      simp only [upsert, view, true_and, ha]
      tauto
    · have hlive : r.live j := by simpa [upsert, view, hjk] using hj
      simpa [upsert, view, hjk] using h.dirs j hlive
  -- the names the record leaves alone, those of a new directory included
  have hseen : ∀ d' y, ¬ (d' = d ∧ y = x) → (r.view.upsert k a d).dir d' →
      seen' d' y (r.entry d' y) := by
    intro d' y hne hd'
    by_cases hold : r.isDir d'
    · exact hother d' y _ hne (h.seen d' hold y)
    rcases hd' with ⟨rfl, hdir⟩ | hd'
    · rw [entry_of_not_dir hold]
      exact hlist hdir hold y
    · exact absurd hd' hold
  by_cases hp : r.isDir d
  · refine h.of_left (created_keeps ..) (created_left hp x k a) hknown hdirs fun d' hd' y => ?_
    simp only [View.set]
    split_ifs with heq
    · obtain ⟨rfl, rfl⟩ := heq
      exact hname hp
    · exact hseen d' y heq hd'
  · have hsame := created_unknown_parent hp hdk x a
    refine h.of_left (created_keeps ..) (upsertNode_view r k a d ▸ hsame.view ▸ Left.refl _) hknown
      hdirs fun d' hd' y => hseen d' y (fun heq => ?_) hd'
    rcases hd' with ⟨heq', -⟩ | hd'
    · exact hdk (heq.1.symm.trans heq')
    · exact hp (heq.1 ▸ hd')

theorem removed (hother : ∀ d' y v, ¬ (d' = d ∧ y = x) → seen d' y v → seen' d' y v)
    (hname : r.isDir d → seen' d x none) : Within T seen' (r.applyRec (.removed d x)).1 := by
  refine h.of_left (dentryRemove_keeps r d x) (dentryRemove_left r d x) h.known h.dirs
    fun d' hd' y => ?_
  simp only [View.set]
  split_ifs with heq
  · obtain ⟨rfl, rfl⟩ := heq
    exact hname hd'
  · exact hother d' y _ heq (h.seen d' hd' y)

theorem renamed
    (hother : ∀ d' z v, ¬ (d' = d ∧ z = x) → ¬ (d' = e ∧ z = y) → seen d' z v → seen' d' z v)
    (hsource : ¬ (d = e ∧ x = y) → r.isDir d → seen' d x none)
    (htarget : r.isDir e → seen' e y ((r.entry d x).or (r.entry e y))) :
    Within T seen' (r.applyRec (.renamed d x e y)).1 := by
  have hseen : ∀ d' z, r.isDir d' → ¬ (d' = d ∧ z = x) → ¬ (d' = e ∧ z = y) →
      seen' d' z (r.entry d' z) :=
    fun d' z hd' h1 h2 => hother d' z _ h1 h2 (h.seen d' hd' z)
  cases hnode : r.entry d x with
  | none =>
    rw [hnode, Option.none_or] at htarget
    rw [renamed_of_none hnode]
    refine h.of_left (.refl r) (Left.refl r) h.known h.dirs fun d' hd' z => ?_
    by_cases h2 : d' = e ∧ z = y
    · obtain ⟨rfl, rfl⟩ := h2
      exact htarget hd'
    by_cases h1 : d' = d ∧ z = x
    · obtain ⟨rfl, rfl⟩ := h1
      show seen' d' z (r.entry d' z)
      rw [hnode]
      exact hsource h2 hd'
    · exact hseen d' z hd' h1 h2
  | some m =>
    rw [hnode, Option.some_or] at htarget
    obtain ⟨r₁, kind, heq, hkeeps, hview, -⟩ := renamed_eq (e := e) (y := y) hnode
    have hdir₁ : r₁.isDir e ↔ r.isDir e := by
      show r₁.view.dir e ↔ _
      rw [hview]
      rfl
    rw [heq]
    cases he : r₁.dirOf e with
    | none =>
      have hunknown : ¬ r.isDir e := fun hdir => by
        have := hdir₁.mpr hdir
        simp [isDir, he] at this
      simp only [dentryRelink, he]
      refine h.of_left hkeeps (hview ▸ Left.refl r₁) h.known h.dirs fun d' hd' z => ?_
      have h2 : ¬ (d' = e ∧ z = y) := fun h2 => hunknown (h2.1 ▸ hd')
      simp only [View.set]
      split_ifs with h1
      · obtain ⟨rfl, rfl⟩ := h1
        exact hsource h2 hd'
      · exact hseen d' z hd' h1 h2
    | some t =>
      refine h.of_left (hkeeps.trans (dentryRelink_keeps ..)) (hview ▸ dentryRelink_left he) h.known
        h.dirs fun d' hd' z => ?_
      simp only [View.setParent, View.set]
      split
      · rename_i h2
        obtain ⟨rfl, rfl⟩ := h2
        exact htarget hd'
      rename_i h2
      split
      · rename_i h1
        obtain ⟨rfl, rfl⟩ := h1
        exact hsource h2 hd'
      · rename_i h1
        exact hseen d' z hd' h1 h2

theorem selfRemoved (k : NodeKey) : Within T seen (r.applyRec (.selfRemoved k)).1 := by
  simp only [applyRec]
  split_ifs with hk
  · obtain ⟨n, hn⟩ := live_iff.mp hk.1
    exact h.of_left (forceRemove_keeps hn hk.2) (forceRemove_left hn) h.known h.dirs h.seen
  · exact h

end Within

section

variable {r : ShareReplica} {d e k : NodeKey} {x y : Name}

section

variable (h : ∃ slack, r.Counts slack (fun _ => True) [] [])
include h

theorem created_covered (x : Name) (a : Attr) (hdk : d ≠ k) :
    ∃ slack, (r.applyRec (.created d x k (some a))).1.Counts slack (fun _ => True) [] [] := by
  obtain ⟨slack, h⟩ := h
  -- the slack of nodes that are gone is forgotten
  have h' : r.Counts (fun j => if r.live j then slack j else 0) (fun _ => True) [] [] :=
    h.slack_congr fun j hj => if_pos hj
  by_cases hp : r.isDir d
  · exact ⟨_, created_counts hp x a h' (fun hk => if_neg hk) trivial⟩
  · have hupsert : (r.upsertNode k a d).Counts _ (fun _ => True) [] [] :=
      (upsertNode_counts k a d h' fun hk => if_neg hk).mono fun _ _ => trivial
    exact ⟨_, (created_unknown_parent hp hdk x a).counts hupsert⟩

theorem removed_covered (d : NodeKey) (x : Name) :
    ∃ slack, (r.applyRec (.removed d x)).1.Counts slack (fun _ => True) [] [] :=
  h.imp fun _ hcounts => dentryRemove_counts trivial hcounts

theorem renamed_covered (d : NodeKey) (x : Name) (e : NodeKey) (y : Name) :
    ∃ slack, (r.applyRec (.renamed d x e y)).1.Counts slack (fun _ => True) [] [] := by
  obtain ⟨slack, hcounts⟩ := h
  cases hnode : r.entry d x with
  | none => exact ⟨slack, by rwa [renamed_of_none hnode]⟩
  | some j =>
    obtain ⟨r₁, kind, heq, -, hview, hcounts₁⟩ := renamed_eq (e := e) (y := y) hnode
    have hlive : r₁.live j := by
      rw [view_live hview]
      exact live_of_entry hcounts hnode
    obtain ⟨slack', h'⟩ := dentryRelink_counts_slack kind trivial hlive (hcounts₁ _ _ hcounts)
    exact ⟨slack', by rw [heq]; exact h'⟩

theorem selfRemoved_covered (hfree : ∀ d x, r.entry d x ≠ some k) :
    ∃ slack, (r.applyRec (.selfRemoved k)).1.Counts slack (fun _ => True) [] [] := by
  simp only [applyRec]
  split_ifs with hk
  · obtain ⟨n, hn⟩ := live_iff.mp hk.1
    have hrefs : Node.counting.refsTo r.shards k = 0 :=
      Counting.refsTo_eq_zero.mpr fun d n hn hmem => by
        obtain ⟨x, hx⟩ := mem_targets.mp ⟨n, hn, hmem⟩
        exact hfree d x hx
    exact h.imp fun _ hcounts => forceRemove_counts trivial hn
      (Counting.refsTo_erase_eq_zero hn hrefs) hcounts
  · exact h

end

end

/-- A replica that is at least as far as position `i` of the run. -/
structure Ahead (T : Tree) (ops : List Op) (i : Nat) (r : ShareReplica) : Prop where
  root : r.root = T.root
  rootLive : r.live r.root
  known : ∀ k, r.live k → (T.run ops).born k
  dirs : ∀ k, r.live k → (r.isDir k ↔ (T.run ops).kind k = .dir)
  seen : ∀ d, r.isDir d → ∀ x, T.Seen ops i d x (r.entry d x)

namespace Ahead

variable {T : Tree} {ops : List Op} {i j : Nat} {r r' : ShareReplica} {v : View} {op : Op}

theorem root_run (h : Ahead T ops i r) : r.root = (T.run ops).root := by
  rw [h.root, ← moment_length, moment_root]

theorem within (h : Ahead T ops i r) : Within (T.run ops) (T.Seen ops i) r :=
  ⟨h.root_run, h.rootLive, h.known, h.dirs, h.seen⟩

theorem of_within (h : Within (T.run ops) (T.Seen ops i) r) : Ahead T ops i r := by
  refine { h with root := h.root.trans ?_ }
  rw [← moment_length, moment_root]

theorem of_left (h : Ahead T ops i r) (hkeeps : Keeps r r') (hleft : Left r' v)
    (hknown : ∀ k, v.live k → (T.run ops).born k)
    (hdirs : ∀ k, v.live k → (v.dir k ↔ (T.run ops).kind k = .dir))
    (hseen : ∀ d, v.dir d → ∀ x, T.Seen ops j d x (v.entry d x)) : Ahead T ops j r' :=
  of_within (h.within.of_left hkeeps hleft hknown hdirs hseen)

theorem sameTree (h : Ahead T ops i r) (hi : ops[i]? = some op)
    (hop : ((T.moment ops i).apply op).entry = (T.moment ops i).entry) (hsame : SameTree r r') :
    Ahead T ops (i + 1) r' := by
  refine h.of_left hsame.keeps (hsame.view ▸ Left.refl r') h.known h.dirs fun d hd x => ?_
  exact (h.seen d hd x).next hi (by rw [hop])

variable {d : NodeKey} {x : Name}

/-- A `Created` record under the one name the operation changes. -/
theorem created (h : Ahead T ops i r) (hi : ops[i]? = some op) {k : NodeKey} {a : Attr}
    (hother : ∀ d' y, ¬ (d' = d ∧ y = x) →
      ((T.moment ops i).apply op).entry d' y = (T.moment ops i).entry d' y)
    (hborn : (T.run ops).born k) (ha : a.kind = (T.run ops).kind k) (hdk : d ≠ k)
    (hname : T.Seen ops (i + 1) d x (some k))
    (hlist : a.kind = .dir → ¬ r.isDir k → ∀ y, T.Seen ops (i + 1) k y none) :
    Ahead T ops (i + 1) (r.applyRec (.created d x k (some a))).1 :=
  of_within (h.within.created hborn ha hdk (fun d' y _ hne hv => hv.next hi (hother d' y hne))
    (fun _ => hname) hlist)

theorem removed (h : Ahead T ops i r) (hi : ops[i]? = some (.unlink d x)) :
    Ahead T ops (i + 1) (r.applyRec (.removed d x)).1 := by
  have hlt : i + 1 ≤ ops.length := (List.getElem?_eq_some_iff.mp hi).1
  refine of_within (h.within.removed (fun d' y _ hne hv => hv.next hi ?_) fun _ => .now hlt ?_)
  · simp only [apply, entry_set, if_neg hne]
  · rw [moment_succ hi]
    simp only [apply, entry_set, and_self, if_true]

/-- A `Renamed` record after which the replica has under the new name what the guest has there later
on. -/
theorem renamed (h : Ahead T ops i r) {e : NodeKey} {y : Name}
    (hi : ops[i]? = some (.rename d x e y))
    (hsafe : r.isDir e → T.Seen ops (i + 1) e y ((r.entry d x).or (r.entry e y))) :
    Ahead T ops (i + 1) (r.applyRec (.renamed d x e y)).1 := by
  have hlt : i + 1 ≤ ops.length := (List.getElem?_eq_some_iff.mp hi).1
  refine of_within (h.within.renamed (fun d' z _ h1 h2 hv => hv.next hi ?_)
    (fun hslots _ => .now hlt ?_) hsafe)
  · simp only [apply, entry_set, if_neg h1, if_neg h2]
  · rw [moment_succ hi]
    simp only [apply, entry_set, if_neg hslots, and_self, if_true]

theorem entry_of_dir (h : Ahead T ops ops.length r) (d : NodeKey) (hd : r.isDir d) (x : Name) :
    r.entry d x = (T.run ops).entry d x :=
  (h.seen d hd x).last

end Ahead

end Mist
