import Mist.Guest.Tree
import Mist.Replica.Snapshot

/-! When a replica shows a guest tree. -/

namespace Mist

/-- The same names in every directory, the same node under every name, and no other nodes. -/
structure Shows (r : ShareReplica) (T : Tree) : Prop where
  root : r.root = T.root
  entry : ∀ d x, r.entry d x = T.entry d x
  live : ∀ k, r.live k ↔ T.Live k

namespace ShareReplica

variable {r : ShareReplica} {T : Tree} {slack : NodeKey → Nat} {exempt : NodeKey → Prop}
  {k : NodeKey}

theorem live_of_entry {owed todo : List NodeKey} (hs : r.Counts slack exempt owed todo)
    {d : NodeKey} {x : Name} (h : r.entry d x = some k) : r.live k := by
  obtain ⟨n, hn, hk⟩ := mem_targets.mpr ⟨x, h⟩
  exact hs.closed d n hn k hk

theorem named_of_live (hs : r.Exact) (hk : r.live k) :
    k = r.root ∨ ∃ d x, r.entry d x = some k := by
  by_cases hroot : k = r.root
  · exact .inl hroot
  obtain ⟨n, hn⟩ := live_iff.mp hk
  have hheld := hs.held k n hn hroot
  have hcount := hs.counted k n hn
  have hto : Node.counting.refsTo r.shards k ≠ 0 := by
    simp only [List.count_nil] at hcount
    omega
  rw [Ne, Counting.refsTo_eq_zero] at hto
  push Not at hto
  obtain ⟨d, n', hn', hmem⟩ := hto
  obtain ⟨x, hx⟩ := mem_targets.mp ⟨n', hn', hmem⟩
  exact .inr ⟨d, x, hx⟩

section

variable (hs : r.Counts slack exempt [] []) (hT : T.WF) (hroot : r.live T.root)
  (hdirs : ∀ k, r.live k → T.kind k = .dir → r.isDir k)
  (hentry : ∀ d, r.isDir d → ∀ x, r.entry d x = T.entry d x)
include hs hT hroot hdirs hentry

theorem live_of_reach (hk : T.Reach T.root k) : r.live k := by
  induction hk with
  | refl => exact hroot
  | @step q j x _ he ih =>
    have hq := hdirs q ih (hT.dirs he)
    exact live_of_entry hs ((hentry q hq x).trans he)

theorem entry_eq_of_dirs (d : NodeKey) (x : Name) : r.entry d x = T.entry d x := by
  by_cases hd : r.isDir d
  · exact hentry d hd x
  rw [entry_of_not_dir hd]
  cases he : T.entry d x with
  | none => rfl
  | some k =>
    have hlive := live_of_reach hs hT hroot hdirs hentry (hT.rooted he)
    exact absurd (hdirs d hlive (hT.dirs he)) hd

end

end ShareReplica

open ShareReplica in
theorem Shows.of_dirs {r : ShareReplica} {T : Tree} (hs : r.Exact) (hT : T.WF)
    (hroot : r.root = T.root) (hlive : r.live r.root)
    (hdirs : ∀ k, r.live k → T.kind k = .dir → r.isDir k)
    (hentry : ∀ d, r.isDir d → ∀ x, r.entry d x = T.entry d x) : Shows r T := by
  have hlive' : r.live T.root := hroot ▸ hlive
  have heq := entry_eq_of_dirs hs hT hlive' hdirs hentry
  refine ⟨hroot, heq, fun k => ⟨fun hk => ?_, fun hk => ?_⟩⟩
  · rcases named_of_live hs hk with h | ⟨d, x, h⟩
    · exact .inl (h.trans hroot)
    · exact .inr ⟨d, x, (heq d x).symm.trans h⟩
  · exact live_of_reach hs hT hlive' hdirs hentry (hT.live_iff_reach.mp hk)

open ShareReplica in
theorem Shows.linkCount_eq {r : ShareReplica} {T : Tree} (h : Shows r T) (hs : r.Exact) (k : NodeKey) :
    (T.names k).encard = r.linkCount k := by
  have hnames : T.names k = {p | r.entry p.1 p.2 = some k} := by
    ext p
    rw [Tree.names, Set.mem_ofPred_eq, Set.mem_ofPred_eq, h.entry]
  rw [hnames, refsTo_eq_encard, linkCount]
  cases hn : r.shards.lookup k with
  | none =>
    have hfree : Node.counting.refsTo r.shards k = 0 :=
      Counting.refsTo_eq_zero.mpr fun d n hd hmem => by
        have := hs.closed d n hd k hmem
        simp [hn] at this
    rw [hfree]
    rfl
  | some n =>
    have := hs.counted k n hn
    simp only [List.count_nil, Nat.add_zero] at this
    rw [← this]
    rfl

end Mist
