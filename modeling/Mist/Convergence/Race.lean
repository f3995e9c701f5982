import Mist.Convergence.Ahead
import Mist.Convergence.Live
import Mist.Runs

/-! Convergence when both sides change the tree.  A mutation from the Mac reaches the replica with
its RPC reply, an operation of the guest's own with its journal record. -/

namespace Mist

open ShareReplica List Mist.Tree Runs

def Rec.names : Rec → List (NodeKey × Name)
  | .created d x _ _ => [(d, x)]
  | .removed d x => [(d, x)]
  | .renamed d x e y => [(d, x), (e, y)]
  | _ => []

/-- Operations on single names: create, link, remove and rename. -/
def Op.naming : Op → Prop
  | .create .. | .link .. | .unlink .. | .rename .. => True
  | _ => False

namespace Tree

variable {T : Tree} {ops : List Op} {op : Op} {d : NodeKey} {x : Name} {i j : Nat}

theorem entry_apply_of_not_mem (hop : op.naming) (h : (d, x) ∉ op.record.names) :
    (T.apply op).entry d x = T.entry d x := by
  cases op with
  | removeTree | write | chmod => cases hop
  | create | link | unlink =>
    simp only [Op.record, Rec.names, mem_singleton, Prod.mk.injEq] at h
    simp only [apply, entry_set, if_neg h]
  | rename =>
    simp only [Op.record, Rec.names, mem_cons, not_mem_nil, or_false, Prod.mk.injEq, not_or] at h
    simp only [apply, entry_set, if_neg h.1, if_neg h.2]

theorem entry_moment_of_not_mem (hnaming : ∀ op ∈ ops, op.naming) (hij : i ≤ j)
    (h : ∀ t op, i ≤ t → ops[t]? = some op → (d, x) ∉ op.record.names) :
    (T.moment ops j).entry d x = (T.moment ops i).entry d x := by
  induction hij with
  | refl => rfl
  | @step j hij ih =>
    cases hj : ops[j]? with
    | none => rwa [moment_beyond hj]
    | some op =>
      rw [moment_succ hj, entry_apply_of_not_mem (hnaming op (mem_of_getElem? hj)) (h j op hij hj)]
      exact ih

end Tree

/-- A change on its way to the replica, with the number of operations the guest had carried out when
it was reported. -/
structure Post where
  stamp : Nat
  record : Rec

/-- The guest's operations so far, the Mac's creates whose entry the guest has still to look up, the
replies and the journal on their way, what has been applied, and the replica. -/
structure Race where
  ops : List Op
  creating : List (NodeKey × Name)
  replies : List Post
  journal : List Post
  applied : List Post
  replica : ShareReplica

namespace Race

def start (r : ShareReplica) : Race := ⟨[], [], [], [], [], r⟩

def exec (s : Race) (op : Op) : Race := { s with ops := s.ops ++ [op] }

def answer (s : Race) (rec : Rec) : Race := { s with replies := s.replies ++ [⟨s.ops.length, rec⟩] }

def write (s : Race) (rec : Rec) : Race := { s with journal := s.journal ++ [⟨s.ops.length, rec⟩] }

def pending (s : Race) : List Post := s.replies ++ s.journal

def apply (s : Race) (p : Post) : Race :=
  { s with applied := p :: s.applied, replica := (s.replica.applyRec p.record).1 }

/-- One step of the guest, of a mutation from the Mac or of the replica.  `ok` restricts the changes
that are applied. -/
inductive Step (T : Tree) (ok : Race → Post → Prop) : Race → Race → Prop
  /-- An operation of the guest's own, and its record. -/
  | guest {s : Race} {op : Op} : (T.run s.ops).Valid op → op.naming →
    Step T ok s ((s.exec op).write op.record)
  /-- `unlinkat` for the Mac. -/
  | unlink {s : Race} {d : NodeKey} {x : Name} : (T.run s.ops).Valid (.unlink d x) →
    Step T ok s ((s.exec (.unlink d x)).answer (.removed d x))
  /-- `renameat` for the Mac. -/
  | rename {s : Race} {d e : NodeKey} {x y : Name} : (T.run s.ops).Valid (.rename d x e y) →
    Step T ok s ((s.exec (.rename d x e y)).answer (.renamed d x e y))
  /-- `renameat` between two names of one node succeeds and does nothing. -/
  | renameSame {s : Race} {d e k : NodeKey} {x y : Name} : (T.run s.ops).entry d x = some k →
    (T.run s.ops).entry e y = some k → Step T ok s (s.answer (.renamed d x e y))
  /-- The system call of a create for the Mac. -/
  | create {s : Race} {d k : NodeKey} {x : Name} {a : Attr} :
    (T.run s.ops).Valid (.create d x k a) →
    Step T ok s { s.exec (.create d x k a) with creating := (d, x) :: s.creating }
  /-- A create that is not exclusive finds the file there. -/
  | createFound {s : Race} {d k : NodeKey} {x : Name} : (T.run s.ops).entry d x = some k →
    Step T ok s { s with creating := (d, x) :: s.creating }
  /-- `entry_node`: the create looks its entry up and answers. -/
  | entryNode {s : Race} {d k : NodeKey} {x : Name} {before after : List (NodeKey × Name)} :
    s.creating = before ++ (d, x) :: after → (T.run s.ops).entry d x = some k →
    Step T ok s ({ s with creating := before ++ after }.answer
      (.created d x k (some ((T.run s.ops).attr k))))
  /-- `entry_node` finds nothing, and the create fails. -/
  | entryGone {s : Race} {d : NodeKey} {x : Name} {before after : List (NodeKey × Name)} :
    s.creating = before ++ (d, x) :: after → (T.run s.ops).entry d x = none →
    Step T ok s { s with creating := before ++ after }
  /-- A reply is applied, in no particular order. -/
  | reply {s : Race} {p : Post} {before after : List Post} : s.replies = before ++ p :: after →
    ok s p → Step T ok s ({ s with replies := before ++ after }.apply p)
  /-- The next journal record is applied. -/
  | journal {s : Race} {p : Post} {rest : List Post} : s.journal = p :: rest → ok s p →
    Step T ok s ({ s with journal := rest }.apply p)
  /-- The record of a node that is gone for good. -/
  | gone {s : Race} {k : NodeKey} : (T.run s.ops).born k → ¬ (T.run s.ops).Live k →
    ok s ⟨s.ops.length, .selfRemoved k⟩ → Step T ok s (s.apply ⟨s.ops.length, .selfRemoved k⟩)

/-- Every reply and every record has been applied. -/
structure Quiet (s : Race) : Prop where
  creating : s.creating = []
  replies : s.replies = []
  journal : s.journal = []

/-- `v` is what the guest has under a name at a moment that is not before any of the changes of that
name in `applied` was reported. -/
def Current (T : Tree) (ops : List Op) (applied : List Post) (d : NodeKey) (x : Name)
    (v : Option NodeKey) : Prop :=
  ∃ t, t ≤ ops.length ∧ v = (T.moment ops t).entry d x ∧
    ∀ q ∈ applied, (d, x) ∈ q.record.names → q.stamp ≤ t

/-- A change that comes in time: in the directories the replica has it leaves under each of its names
what the guest has there at a moment after every change of the name that was applied, this one
included.  A directory it makes known is taken for empty, and a node that is gone has no name. -/
def Timely (T : Tree) (s : Race) (p : Post) : Prop :=
  match p.record with
  | .created d x k (some a) =>
    (s.replica.isDir d → Current T s.ops (p :: s.applied) d x (some k)) ∧
      (a.kind = .dir → ¬ s.replica.isDir k → ∀ y, Current T s.ops (p :: s.applied) k y none)
  | .removed d x => s.replica.isDir d → Current T s.ops (p :: s.applied) d x none
  | .renamed d x e y =>
    (¬ (d = e ∧ x = y) → s.replica.isDir d → Current T s.ops (p :: s.applied) d x none) ∧
      (s.replica.isDir e → Current T s.ops (p :: s.applied) e y
        ((s.replica.entry d x).or (s.replica.entry e y)))
  | .selfRemoved k => ∀ d x, s.replica.entry d x ≠ some k
  | _ => True

/-- What the guest reports: a node in use, of its kind, and in no directory of its own. -/
inductive Reported (T : Tree) : Rec → Prop
  | created {d k : NodeKey} {x : Name} {a : Attr} : T.born k → a.kind = T.kind k → d ≠ k →
    Reported T (.created d x k (some a))
  | removed (d : NodeKey) (x : Name) : Reported T (.removed d x)
  | renamed (d : NodeKey) (x : Name) (e : NodeKey) (y : Name) : Reported T (.renamed d x e y)

/-- An operation whose change of a name is reported, or will be when its create looks the entry up, or
is overtaken by a later operation. -/
def Covered (T : Tree) (s : Race) (i : Nat) (n : NodeKey × Name) : Prop :=
  (∃ p ∈ s.pending ++ s.applied, n ∈ p.record.names ∧ i < p.stamp) ∨
    (n ∈ s.creating ∧ (T.moment s.ops (i + 1)).entry n.1 n.2 ≠ none) ∨
    ∃ j op, i < j ∧ s.ops[j]? = some op ∧ n ∈ op.record.names

structure Racing (T : Tree) (s : Race) : Prop where
  valid : T.ValidRun s.ops
  naming : ∀ op ∈ s.ops, op.naming
  within : Within (T.run s.ops) (Current T s.ops s.applied) s.replica
  counts : ∃ slack, s.replica.Counts slack (fun _ => True) [] []
  reported : ∀ p ∈ s.pending, Reported (T.run s.ops) p.record
  covered : ∀ i op, s.ops[i]? = some op → ∀ n ∈ op.record.names, Covered T s i n

variable {T : Tree} {s s' : Race} {op : Op} {p : Post} {ops : List Op} {applied : List Post}
  {d : NodeKey} {x : Name} {v : Option NodeKey} {rec : Rec}

theorem mem_answer {q : Post} :
    q ∈ (s.answer rec).pending ↔ q ∈ s.pending ∨ q ∈ [⟨s.ops.length, rec⟩] := by
  simp only [answer, pending, mem_append, mem_singleton]
  tauto

theorem mem_write {q : Post} :
    q ∈ (s.write rec).pending ↔ q ∈ s.pending ∨ q ∈ [⟨s.ops.length, rec⟩] := by
  simp only [write, pending, mem_append, mem_singleton]
  tauto

theorem Current.concat (h : Current T ops applied d x v) (op : Op) :
    Current T (ops ++ [op]) applied d x v := by
  obtain ⟨t, ht, hv, hle⟩ := h
  refine ⟨t, ht.trans (by simp), ?_, hle⟩
  rw [moment_append T ops _ ht]
  exact hv

theorem Current.cons (h : Current T ops applied d x v) (hn : (d, x) ∉ p.record.names) :
    Current T ops (p :: applied) d x v := by
  obtain ⟨t, ht, hv, hle⟩ := h
  refine ⟨t, ht, hv, fun q hq hmem => ?_⟩
  rcases mem_cons.mp hq with rfl | hq
  · exact absurd hmem hn
  · exact hle q hq hmem

theorem Reported.apply (h : Reported T rec) (hv : T.Valid op) : Reported (T.apply op) rec := by
  cases h with
  | created hborn ha hdk => exact .created (T.born_apply hborn op) (ha.trans (T.kind_apply hv hborn).symm) hdk
  | removed d x => exact .removed d x
  | renamed d x e y => exact .renamed d x e y

theorem Reported.of_entry (hT : T.WF) {k : NodeKey}
    (h : T.entry d x = some k) : Reported T (.created d x k (some (T.attr k))) :=
  .created (hT.born h) rfl fun hdk => hT.entry_ne_self (hdk ▸ h)

theorem Reported.of_op (hT : T.WF) (hop : op.naming) (hv : T.Valid op) :
    Reported (T.apply op) op.record := by
  cases op with
  | removeTree | write | chmod => cases hop
  | unlink d x => exact .removed d x
  | rename d x e y => exact .renamed d x e y
  | create d x k a =>
    obtain ⟨hd, -, -, hk⟩ := hv
    refine .created (.inl rfl) ?_ fun hdk => hk (hdk ▸ hT.live_born hd)
    simp [Tree.kind, Tree.apply]
  | link d x k a =>
    obtain ⟨-, hdir, -, hk, hfile, ha⟩ := hv
    refine .created (hT.live_born hk) ?_ fun hdk => hfile (hdk ▸ hdir)
    simp [Tree.kind, Tree.apply]

theorem Covered.mono {i : Nat} {n : NodeKey × Name} (h : Covered T s i n) (hi : i < s.ops.length)
    (hops : ∃ more, s'.ops = s.ops ++ more)
    (hposts : ∀ p ∈ s.pending ++ s.applied, p ∈ s'.pending ++ s'.applied)
    (hcreating : n ∈ s.creating → (T.moment s.ops (i + 1)).entry n.1 n.2 ≠ none →
      n ∈ s'.creating ∨ Covered T s' i n) : Covered T s' i n := by
  obtain ⟨more, hmore⟩ := hops
  rcases h with ⟨p, hp, hn, hlt⟩ | ⟨hn, hsome⟩ | ⟨j, op, hij, hj, hn⟩
  · exact .inl ⟨p, hposts p hp, hn, hlt⟩
  · rcases hcreating hn hsome with hmem | hcov
    · refine .inr (.inl ⟨hmem, ?_⟩)
      rw [hmore, moment_append T s.ops more hi]
      exact hsome
    · exact hcov
  · refine .inr (.inr ⟨j, op, hij, ?_, hn⟩)
    rw [hmore, getElem?_append_left (lt_length hj)]
    exact hj

namespace Racing

section

variable (h : Racing T s)
include h

theorem exec (new : List Post) (hv : (T.run s.ops).Valid op) (hop : op.naming)
    (hops : s'.ops = s.ops ++ [op]) (happlied : s'.applied = s.applied)
    (hreplica : s'.replica = s.replica) (hcreating : ∀ n ∈ s.creating, n ∈ s'.creating)
    (hposts : ∀ q, q ∈ s'.pending ↔ q ∈ s.pending ∨ q ∈ new)
    (hreported : ∀ q ∈ new, Reported ((T.run s.ops).apply op) q.record)
    (hnew : ∀ n ∈ op.record.names, Covered T s' s.ops.length n) : Racing T s' := by
  have hrun : T.run s'.ops = (T.run s.ops).apply op := by rw [hops, run_concat]
  have hw := h.within
  refine ⟨hops ▸ h.valid.concat hv, fun o ho => ?_, ?_, hreplica ▸ h.counts, fun p hp => ?_,
    fun i o hi n hn => ?_⟩
  · rw [hops] at ho
    rcases mem_append_cases ho with ho | rfl
    · exact h.naming o ho
    · exact hop
  · rw [hrun, hreplica, happlied, hops]
    refine ⟨hw.root.trans (apply_root ..).symm, hw.rootLive,
      fun k hk => born_apply (hw.known k hk) op, fun k hk => ?_,
      fun d hd x => (hw.seen d hd x).concat op⟩
    rw [kind_apply hv (hw.known k hk)]
    exact hw.dirs k hk
  · rw [hrun]
    rcases (hposts p).mp hp with hold | hnew
    · exact (h.reported p hold).apply hv
    · exact hreported p hnew
  · rw [hops] at hi
    rcases getElem?_append_cases hi with hold | ⟨rfl, rfl⟩
    · refine (h.covered i o hold n hn).mono (lt_length hold) ⟨[op], hops⟩
        (fun p hp => ?_) fun hmem _ => .inl (hcreating n hmem)
      rw [happlied]
      rcases mem_append.mp hp with hp | hp
      · exact mem_append_left _ ((hposts p).mpr (.inl hp))
      · exact mem_append_right _ hp
    · exact hnew n hn

theorem execReported (hT : T.WF) (hv : (T.run s.ops).Valid op) (hop : op.naming)
    (hops : s'.ops = s.ops ++ [op]) (happlied : s'.applied = s.applied)
    (hreplica : s'.replica = s.replica) (hcreating : s'.creating = s.creating)
    (hposts : ∀ q, q ∈ s'.pending ↔ q ∈ s.pending ∨ q ∈ [⟨(s.exec op).ops.length, op.record⟩]) :
    Racing T s' := by
  refine h.exec _ hv hop hops happlied hreplica (fun n hn => hcreating ▸ hn)
    hposts (fun q hq => ?_) fun n hn => .inl ⟨_, mem_append_left _
      ((hposts _).mpr (.inr (mem_singleton_self _))), hn, by simp [Race.exec]⟩
  rw [mem_singleton.mp hq]
  exact .of_op (h.valid.run_wf hT) hop hv

theorem report (new : List Post) (hops : s'.ops = s.ops)
    (happlied : s'.applied = s.applied) (hreplica : s'.replica = s.replica)
    (hposts : ∀ q, q ∈ s'.pending ↔ q ∈ s.pending ∨ q ∈ new)
    (hreported : ∀ q ∈ new, Reported (T.run s.ops) q.record)
    (hcreating : ∀ i n, i < s.ops.length → n ∈ s.creating →
      (T.moment s.ops (i + 1)).entry n.1 n.2 ≠ none → n ∈ s'.creating ∨ Covered T s' i n) :
    Racing T s' := by
  refine ⟨hops ▸ h.valid, hops ▸ h.naming, ?_, hreplica ▸ h.counts, fun p hp => ?_,
    fun i o hi n hn => ?_⟩
  · rw [hreplica, happlied, hops]
    exact h.within
  · rw [hops]
    exact ((hposts p).mp hp).elim (h.reported p) (hreported p)
  rw [hops] at hi
  have hlt := lt_length hi
  refine (h.covered i o hi n hn).mono hlt ⟨[], by simp [hops]⟩ (fun p hp => ?_) (hcreating i n hlt)
  rw [happlied]
  rcases mem_append.mp hp with hp | hp
  · exact mem_append_left _ ((hposts p).mpr (.inl hp))
  · exact mem_append_right _ hp

theorem applied_within (hp : Reported (T.run s.ops) p.record) (ht : Timely T s p) :
    Within (T.run s.ops) (Current T s.ops (p :: s.applied)) (s.replica.applyRec p.record).1 ∧
      ∃ slack, (s.replica.applyRec p.record).1.Counts slack (fun _ => True) [] [] := by
  obtain ⟨stamp, rec⟩ := p
  cases hp with
  | created hborn ha hdk =>
    refine ⟨h.within.created hborn ha hdk (fun d' y _ hne hv => hv.cons ?_) ht.1 ht.2,
      created_covered h.counts _ _ hdk⟩
    simpa [Rec.names] using hne
  | removed d x =>
    refine ⟨h.within.removed (fun d' y _ hne hv => hv.cons ?_) ht, removed_covered h.counts d x⟩
    simpa [Rec.names] using hne
  | renamed d x e y =>
    refine ⟨h.within.renamed (fun d' z _ h1 h2 hv => hv.cons ?_) ht.1 ht.2,
      renamed_covered h.counts d x e y⟩
    simp only [Rec.names, mem_cons, not_mem_nil, or_false, Prod.mk.injEq]
    exact not_or.mpr ⟨h1, h2⟩

theorem apply (hp : Reported (T.run s.ops) p.record) (ht : Timely T s p) (hops : s'.ops = s.ops)
    (hcreating : s'.creating = s.creating) (happlied : s'.applied = p :: s.applied)
    (hreplica : s'.replica = (s.replica.applyRec p.record).1)
    (hposts : ∀ q, q ∈ s.pending ↔ q = p ∨ q ∈ s'.pending) : Racing T s' := by
  obtain ⟨hwithin, hcounts⟩ := h.applied_within hp ht
  refine ⟨hops ▸ h.valid, hops ▸ h.naming, ?_, hreplica ▸ hcounts, fun q hq => ?_,
    fun i o hi n hn => ?_⟩
  · rw [hreplica, happlied, hops]
    exact hwithin
  · rw [hops]
    exact h.reported q ((hposts q).mpr (.inr hq))
  rw [hops] at hi
  refine (h.covered i o hi n hn).mono (lt_length hi) ⟨[], by simp [hops]⟩
    (fun q hq => ?_) fun hmem _ => .inl (hcreating ▸ hmem)
  rw [happlied]
  rcases mem_append.mp hq with hq | hq
  · rcases (hposts q).mp hq with rfl | hq
    · exact mem_append_right _ mem_cons_self
    · exact mem_append_left _ hq
  · exact mem_append_right _ (.tail _ hq)

/-- A name whose create looked it up and found nothing has been written since. -/
theorem overtaken {i : Nat} {n : NodeKey × Name} (hi : i < s.ops.length)
    (hsome : (T.moment s.ops (i + 1)).entry n.1 n.2 ≠ none)
    (hnone : (T.run s.ops).entry n.1 n.2 = none) :
    ∃ j op, i < j ∧ s.ops[j]? = some op ∧ n ∈ op.record.names := by
  by_contra hno
  push Not at hno
  refine hsome (((entry_moment_of_not_mem (T := T) h.naming hi fun t op ht hop hn => ?_).symm.trans
    (by rw [moment_length])).trans hnone)
  exact hno t op ht hop hn

theorem gone {k : NodeKey} (ht : Timely T s ⟨s.ops.length, .selfRemoved k⟩) :
    Racing T (s.apply ⟨s.ops.length, .selfRemoved k⟩) := by
  have hw := h.within.selfRemoved k
  refine ⟨h.valid, h.naming, { hw with seen := fun d hd x => ?_ },
    selfRemoved_covered h.counts ht, h.reported, fun i o hi n hn => ?_⟩
  · refine (hw.seen d hd x).cons ?_
    simp [Rec.names]
  refine (h.covered i o hi n hn).mono (lt_length hi) ⟨[], by simp [Race.apply]⟩
    (fun q hq => ?_) fun hmem _ => .inl hmem
  rcases mem_append.mp hq with hq | hq
  · exact mem_append_left _ hq
  · exact mem_append_right _ (.tail _ hq)

theorem step (hT : T.WF) (hstep : Step T (Timely T) s s') : Racing T s' := by
  cases hstep with
  | guest hv hop => exact h.execReported hT hv hop rfl rfl rfl rfl fun q => mem_write
  | unlink hv => exact h.execReported hT hv trivial rfl rfl rfl rfl fun q => mem_answer
  | rename hv => exact h.execReported hT hv trivial rfl rfl rfl rfl fun q => mem_answer
  | @renameSame d e k x y _ _ =>
    refine h.report _ rfl rfl rfl (fun q => mem_answer) (fun q hq => ?_) fun _ _ _ hn _ => .inl hn
    rw [mem_singleton.mp hq]
    exact .renamed d x e y
  | @create d k x a hv =>
    refine h.exec [] hv trivial rfl rfl rfl (fun n hn => .tail _ hn)
      (by simp [Race.exec, pending]) (by simp) fun n hn => .inr (.inl ?_)
    obtain rfl := mem_singleton.mp hn
    have hlen : s.ops.length + 1 = (s.ops ++ [Op.create d x k a]).length := by simp
    refine ⟨.head _, ?_⟩
    simp only [Race.exec]
    rw [hlen, Tree.moment_length, Tree.run_concat]
    simp [Tree.apply]
  | createFound _ =>
    exact h.report [] rfl rfl rfl (by simp [pending]) (by simp)
      fun _ _ _ hn _ => .inl (.tail _ hn)
  | @entryNode d k x before after hc he =>
    refine h.report _ rfl rfl rfl (fun q => mem_answer) (fun q hq => ?_) fun i n hi hn _ => ?_
    · rw [mem_singleton.mp hq]
      exact .of_entry (h.valid.run_wf hT) he
    rw [hc] at hn
    rcases mem_append.mp hn with hn | hn
    · exact .inl (mem_append_left _ hn)
    rcases mem_cons.mp hn with rfl | hn
    · exact .inr (.inl ⟨_, mem_append_left _ (mem_answer.mpr (.inr (mem_singleton_self _))),
        mem_singleton_self _, hi⟩)
    · exact .inl (mem_append_right _ hn)
  | @entryGone d x before after hc he =>
    refine h.report [] rfl rfl rfl (by simp [pending]) (by simp) fun i n hi hn hsome => ?_
    rw [hc] at hn
    rcases mem_append.mp hn with hn | hn
    · exact .inl (mem_append_left _ hn)
    · rcases mem_cons.mp hn with rfl | hn
      · exact .inr (.inr (.inr (h.overtaken hi hsome he)))
      · exact .inl (mem_append_right _ hn)
  | @reply p before after hp ht =>
    have hmem : p ∈ s.pending := by simp [pending, hp]
    refine h.apply (h.reported p hmem) ht rfl rfl rfl rfl fun q => ?_
    simp only [Race.apply, pending, hp, mem_append, mem_cons]
    tauto
  | @journal p rest hp ht =>
    have hmem : p ∈ s.pending := by simp [pending, hp]
    refine h.apply (h.reported p hmem) ht rfl rfl rfl rfl fun q => ?_
    simp only [Race.apply, pending, hp, mem_append, mem_cons]
    tauto
  | gone _ _ ht => exact h.gone ht

theorem run (hT : T.WF) (hrun : Relation.ReflTransGen (Step T (Timely T)) s s') : Racing T s' := by
  induction hrun with
  | refl => exact h
  | tail _ hstep ih => exact ih.step hT hstep

end

theorem start {r : ShareReplica} (h : Mirrors r T) (hT : T.WF) : Racing T (start r) := by
  refine ⟨trivial, by simp [Race.start], ⟨h.root, h.root_live,
    fun k hk => hT.live_born ((h.live k).mp hk), h.dirs, fun d _ x => ?_⟩,
    ⟨_, h.exact.mono fun _ _ => trivial⟩, by simp [Race.start, pending], by simp [Race.start]⟩
  exact ⟨0, Nat.le_refl 0, h.entry d x, by simp [Race.start]⟩

/-- Once everything is applied, no operation on a name is later than what was applied to it. -/
theorem settled (h : Racing T s) (hq : s.Quiet) {n : NodeKey × Name} {t : Nat}
    (ht : ∀ q ∈ s.applied, n ∈ q.record.names → q.stamp ≤ t) (i : Nat) (op : Op)
    (hi : s.ops[i]? = some op) (hn : n ∈ op.record.names) : i < t := by
  -- from the last operation backwards
  induction hm : s.ops.length - i using Nat.strong_induction_on generalizing i op with
  | _ m ih =>
    rcases h.covered i op hi n hn with ⟨p, hp, hnp, hlt⟩ | ⟨hc, -⟩ | ⟨j, op', hij, hj, hnj⟩
    · rw [pending, hq.replies, hq.journal] at hp
      exact Nat.lt_of_lt_of_le hlt (ht p hp hnp)
    · rw [hq.creating] at hc
      cases hc
    · have hlt := lt_length hj
      exact hij.trans (ih (s.ops.length - j) (by omega) j op' hj hnj rfl)

theorem entry_of_dir (h : Racing T s) (hq : s.Quiet) (d : NodeKey) (hd : s.replica.isDir d)
    (x : Name) : s.replica.entry d x = (T.run s.ops).entry d x := by
  obtain ⟨t, ht, hv, hle⟩ := h.within.seen d hd x
  rw [hv, ← moment_length, entry_moment_of_not_mem h.naming ht]
  intro i op hi hop hn
  exact absurd (h.settled hq hle i op hop hn) (by omega)

end Racing

/-- Once every reply and every record of a race has been applied, the replica lists what the guest
has, if each change came in time. -/
theorem race_convergence (T : Tree) (hT : T.WF) (r : ShareReplica) (hr : Mirrors r T) (s : Race)
    (hrun : Relation.ReflTransGen (Step T (Timely T)) (start r) s) (hq : s.Quiet) :
    (∀ d x, s.replica.entry d x = (T.run s.ops).entry d x) ∧
      ∀ d, (T.run s.ops).Live d → (T.run s.ops).kind d = .dir → s.replica.isDir d := by
  have h := (Racing.start hr hT).run hT hrun
  obtain ⟨slack, hcounts⟩ := h.counts
  have hwf := h.valid.run_wf hT
  have hroot : s.replica.live (T.run s.ops).root := h.within.root ▸ h.within.rootLive
  have hdir : ∀ k, s.replica.live k → (T.run s.ops).kind k = .dir → s.replica.isDir k :=
    fun k hk => (h.within.dirs k hk).mpr
  refine ⟨entry_eq_of_dirs hcounts hwf hroot hdir (h.entry_of_dir hq), fun d hd hkind => ?_⟩
  exact hdir d (live_of_reach hcounts hwf hroot hdir (h.entry_of_dir hq)
    (hwf.live_iff_reach.mp hd)) hkind

def bareShare : Tree := Tree.emptyShare ⟨2, 1⟩ (placeholderAttr .dir)

def touch (name : Char) (ino : UInt64) : Op :=
  .create ⟨2, 1⟩ (.letter name) ⟨ino, 1⟩ (placeholderAttr .reg)

theorem bareShare_mirrored : ∃ r, Mirrors r bareShare := by
  obtain ⟨r, -, h⟩ := seededRoot_mirrors ⟨⟨1⟩, ⟨2, 1⟩⟩ (a := placeholderAttr .dir) rfl 1
  exact ⟨r, h⟩

theorem touch_valid (name : Char) : bareShare.Valid (touch name 10) :=
  ⟨.inl rfl, rfl, rfl, by simp [bareShare, emptyShare]⟩

def created (r : ShareReplica) : Race :=
  { start r with ops := [touch 'a' 10], replies := [⟨1, (touch 'a' 10).record⟩] }

theorem created_reached (ok : Race → Post → Prop) (r : ShareReplica) :
    Relation.ReflTransGen (Step bareShare ok) (start r) (created r) := by
  let opened : Race :=
    { start r with ops := [touch 'a' 10], creating := [] ++ (⟨2, 1⟩, .letter 'a') :: [] }
  have hfound : (bareShare.run [touch 'a' 10]).entry ⟨2, 1⟩ (.letter 'a') = some ⟨10, 1⟩ := by decide
  have hcreate : Step bareShare ok (start r) opened := .create (touch_valid 'a')
  have hentry : Step bareShare ok opened (created r) := .entryNode (s := opened) rfl hfound
  exact .tail (.single hcreate) hentry

/-- The Mac creates `a`; before the reply is applied the guest removes the file, and the record of
that is applied first. -/
theorem reply_after_removal :
    ∃ r s, Mirrors r bareShare ∧
      Relation.ReflTransGen (Step bareShare fun _ _ => True) (start r) s ∧ s.Quiet ∧
      s.replica.entry ⟨2, 1⟩ (.letter 'a') = some ⟨10, 1⟩ ∧
      (bareShare.run s.ops).entry ⟨2, 1⟩ (.letter 'a') = none := by
  obtain ⟨r, h⟩ := bareShare_mirrored
  have hunlink : (bareShare.run [touch 'a' 10]).Valid (.unlink ⟨2, 1⟩ (.letter 'a')) :=
    ⟨⟨10, 1⟩, by decide, fun y => by
      simp [bareShare, touch, Tree.run, Tree.apply, Tree.emptyShare, Tree.set]⟩
  have hgone : (bareShare.run [touch 'a' 10, .unlink ⟨2, 1⟩ (.letter 'a')]).entry ⟨2, 1⟩
      (.letter 'a') = none := by decide
  have hnoop : (r.applyRec (.removed ⟨2, 1⟩ (.letter 'a'))).1 = r :=
    dentryRemove_of_none (h.entry _ _)
  have hremoved := (created_reached (fun _ _ => True) r).tail (.guest hunlink trivial)
  have hrecord := hremoved.tail (.journal rfl trivial)
  have hreply := hrecord.tail (.reply (show _ = [] ++ _ :: [] from rfl) trivial)
  refine ⟨r, _, h, hreply, ⟨rfl, rfl, rfl⟩, ?_, hgone⟩
  simp only [Race.apply, Race.exec, Race.write, created, start, Op.record, hnoop]
  exact (h.create (emptyShare_wf _ rfl) (touch_valid 'a') rfl).entry ⟨2, 1⟩ (.letter 'a')

theorem race_convergence_twoFiles :
    ∃ r s, Relation.ReflTransGen (Step bareShare (Timely bareShare)) (start r) s ∧ s.Quiet ∧
      (∀ d x, s.replica.entry d x = (bareShare.run s.ops).entry d x) ∧
      ∀ d, (bareShare.run s.ops).Live d → (bareShare.run s.ops).kind d = .dir →
        s.replica.isDir d := by
  obtain ⟨r, h⟩ := bareShare_mirrored
  have htouch : (bareShare.run [touch 'a' 10]).Valid (touch 'b' 11) := by
    refine ⟨.inl rfl, by decide, by decide, ?_⟩
    simp [bareShare, touch, Tree.run, Tree.apply, emptyShare]
  have hb : Current bareShare [touch 'a' 10, touch 'b' 11] [⟨2, (touch 'b' 11).record⟩] ⟨2, 1⟩
      (.letter 'b') (some ⟨11, 1⟩) := ⟨2, by decide, by decide, by decide⟩
  have ha : Current bareShare [touch 'a' 10, touch 'b' 11]
      [⟨1, (touch 'a' 10).record⟩, ⟨2, (touch 'b' 11).record⟩] ⟨2, 1⟩ (.letter 'a')
      (some ⟨10, 1⟩) := ⟨2, by decide, by decide, by decide⟩
  have hreg : (placeholderAttr .reg).kind ≠ .dir := by decide
  have hguest := (created_reached (Timely bareShare) r).tail (.guest htouch trivial)
  have hrecord := hguest.tail (.journal rfl ⟨fun _ => hb, fun hdir => absurd hdir hreg⟩)
  have hreply := hrecord.tail (.reply (show _ = [] ++ _ :: [] from rfl)
    ⟨fun _ => ha, fun hdir => absurd hdir hreg⟩)
  exact ⟨r, _, hreply, ⟨rfl, rfl, rfl⟩,
    race_convergence bareShare (emptyShare_wf _ rfl) r h _ hreply ⟨rfl, rfl, rfl⟩⟩

end Race

end Mist
