import Mist.Hostd.Sidestore

/-! The decorator over an inner surface: what reaches the inner surface, and what a caller sees of
it. -/

namespace Mist.Sidestore

open Nfs Handler Except

/-- An inner surface, answering from a state.  `entry` are the names of the guest; a lookup answers
from them and changes nothing. -/
structure Inner (σ : Type) where
  answer : (q : SurfaceCall) → σ → q.Answer × σ
  entry : σ → NodeKey → List UInt8 → Bool
  lookup_entry : ∀ dir name s,
    (answer (.op (.lookup dir name)) s).1.toOption.isSome = entry s dir name
  lookup_keeps : ∀ dir name s, (answer (.op (.lookup dir name)) s).2 = s

variable {σ : Type}

def Inner.owned (I : Inner σ) (s : σ) (dir : NodeKey) (name : List UInt8) : Bool :=
  isSideNode dir || isSideName name && !I.entry s dir name

def oneHidden : (q : SurfaceCall) → Nat → q.Answer × Nat
  | .shareId, s => (1, s)
  | .root, s => (⟨2, 0⟩, s)
  | .writable, s => (true, s)
  | .writesAreStable, s => (false, s)
  | .touchDir _, s => ((), s + 1)
  | .op (.lookup dir name), s =>
    (if dir = ⟨2, 0⟩ ∧ name = hidden then
      .ok (⟨8, 0⟩, ⟨.reg, 0x1a4, 1, 0, 0, 5, 8, ⟨0, 0⟩, ⟨0, 0⟩, 0, 0, none⟩)
    else .error .noEnt, s)
  | .op (.parent _), s => (.ok ⟨2, 0⟩, s)
  | .op (.rename ..), s => (.ok (), s + 1)
  | .op (.remove ..), s => (.ok (), s + 1)
  | .op (.create ..), s => (.error .exist, s)
  | .op (.readSendable ..), s => (none, s)
  | .op (.readInto ..), s => (none, s)
  | .op .fsstat, s => (⟨0, 0, 0, 0, 0⟩, s)
  | .op (.getattr ..), s => (.error .stale, s)
  | .op (.setattr ..), s | .op (.write ..), s | .op (.commit ..), s => (.error .stale, s)
  | .op (.readdir ..), s => (.error .stale, s)
  | .op (.readlink ..), s => (.error .stale, s)
  | .op (.read ..), s => (.error .stale, s)

def hiddenGuest : Inner Nat where
  answer := oneHidden
  entry _ dir name := decide (dir = ⟨2, 0⟩ ∧ name = hidden)
  lookup_entry dir name s := by
    by_cases h : dir = ⟨2, 0⟩ ∧ name = hidden
    · simp [oneHidden, h, Except.toOption]
    · simp [oneHidden, h, Except.toOption]
  lookup_keeps _ _ _ := rfl

def sumDigest : Decorator := ⟨501, 20, fun p name => p.ino + .ofNat name.length, id, fun _ => .refl _⟩

namespace Decorator

variable {d : Decorator} {I : Inner σ} {store : SideStore} {s : σ} {dir : NodeKey}
  {name : List UInt8}

section

variable {okAt : SurfaceCall → σ → Prop} (hlook : ∀ dir name t, okAt (.op (.lookup dir name)) t)
include hlook

theorem owns_meets :
    (owns dir name store).Meets I.answer okAt
      (fun r t => r = (.ok (I.owned s dir name), store) ∧ t = s) s := by
  unfold owns
  by_cases hdir : isSideNode dir
  · rw [if_pos hdir]
    exact ⟨by simp [Inner.owned, hdir], rfl⟩
  rw [if_neg hdir]
  by_cases hname : isSideName name
  · rw [if_pos hname]
    refine ⟨hlook dir name s, ?_, I.lookup_keeps dir name s⟩
    have hentry := I.lookup_entry dir name s
    simp only [Inner.owned, hdir, hname, ← hentry, Bool.false_or, Bool.true_and]
    rw [← Option.not_isSome]
  · rw [if_neg hname]
    exact ⟨by simp [Inner.owned, hdir, hname], rfl⟩

theorem owns_then {f : Bool → Decorated α} {post : Except Panic α × SideStore → σ → Prop}
    (h : (f (I.owned s dir name) store).Meets I.answer okAt post s) :
    ((owns dir name >>= f) store).Meets I.answer okAt post s := by
  refine meets_bind ((owns_meets hlook).mono ?_)
  rintro _ _ ⟨rfl, rfl⟩
  refine ⟨fun a ha => ?_, nofun⟩
  cases ha
  exact h

end

/-- A question that changes no name, attribute or content. -/
def Harmless : SurfaceCall → Prop
  | .op (.create ..) | .op (.remove ..) | .op (.rename ..) => False
  | .op (.setattr ..) | .op (.write ..) | .op (.commit ..) => False
  | _ => True

/-- What a question may be when it is asked: a mutation is about real nodes, a create is for a name
that is not Apple's or that the guest has, and a rename goes to a name that is not Apple's. -/
def Clean (I : Inner σ) : SurfaceCall → σ → Prop
  | .op (.create dir name _ _), s => ¬ isSideNode dir ∧ (isSideName name → I.entry s dir name)
  | .op (.remove dir _ _), _ => ¬ isSideNode dir
  | .op (.rename fromDir _ toDir toName), _ =>
    ¬ isSideNode fromDir ∧ ¬ isSideNode toDir ∧ ¬ isSideName toName
  | .op (.setattr node _), _ | .op (.write node _ _ _), _ | .op (.commit node _ _), _ =>
    ¬ isSideNode node
  | _, _ => True

theorem Harmless.clean {q : SurfaceCall} (h : Harmless q) (t : σ) : Clean I q t := by
  cases q with
  | op call => cases call <;> first | exact trivial | exact h.elim
  | _ => exact trivial

def Quiet {α : Type} (m : Decorated α) : Prop :=
  Handler.Triple Harmless (fun _ => True) (fun _ => True) m (fun _ _ => True)

variable {α β : Type}

theorem Quiet.bind {m : Decorated α} {f : α → Decorated β} (h : Quiet m) (hf : ∀ a, Quiet (f a)) :
    Quiet (m >>= f) :=
  Triple.bind h hf

theorem Quiet.pure (a : α) : Quiet (pure a) := Triple.pure fun _ _ => trivial

theorem Quiet.query {q : SurfaceCall} (h : Harmless q) : Quiet (query q) :=
  Triple.query h fun _ _ _ => trivial

theorem Quiet.get : Quiet get := Triple.get fun _ _ => trivial

theorem Quiet.modify (g : SideStore → SideStore) : Quiet (modify g) :=
  Triple.modify fun _ _ => trivial

theorem Quiet.stop (e : Panic) : Quiet (stop e : Decorated α) := Triple.stop fun _ _ => trivial

theorem Quiet.ite {p : Prop} [Decidable p] {m n : Decorated α} (hm : Quiet m) (hn : Quiet n) :
    Quiet (if p then m else n) :=
  Triple.ite (fun _ => hm) fun _ => hn

theorem Quiet.meets {m : Decorated α} (h : Quiet m) :
    (m store).Meets I.answer (Clean I) (fun _ _ => True) s :=
  (h store trivial).meets (fun _ t hq => hq.clean t) fun _ _ _ => trivial

theorem quiet_orphan (now : Int64) (t : SideStore) (key : RowKey) (row : Row) :
    Quiet (orphan now t key row) := by
  refine .ite (.pure _) (.bind (.query trivial) fun _ => .ite (.pure _) (.ite ?_ (.pure _)))
  exact .bind (.query trivial) fun _ => .pure _

theorem quiet_orphans (now : Int64) (t : SideStore) (rows : Table RowKey Row) :
    Quiet (orphans now t rows) := by
  induction rows with
  | nil => exact .pure _
  | cons p rest ih => exact .bind (quiet_orphan now t p.1 p.2) fun _ => .bind ih fun _ => .pure _

theorem quiet_gcSweep (now : Int64) : Quiet (d.gcSweep now) :=
  .bind .get fun t => .bind (quiet_orphans now t _) fun _ => .ite (.pure _) (.modify _)

theorem quiet_lookupRow : Quiet (d.lookupRow dir name) := by
  refine .bind .get fun t => ?_
  cases t.rows.get (dir, name) with
  | none => exact .pure _
  | some row => exact .pure _

theorem quiet_owns : Quiet (owns dir name) :=
  .ite (.pure _) (.ite (.bind (.query trivial) fun _ => .pure _) (.pure _))

theorem quiet_lookupOwned : Quiet (d.lookupOwned dir name) :=
  .bind quiet_owns fun _ => .ite quiet_lookupRow (.query trivial)

theorem quiet_lookup : Quiet (d.lookup dir name) := by
  refine .ite (.bind (.query trivial) fun real => ?_) quiet_lookupOwned
  cases real with
  | ok real => exact .pure _
  | error e => exact quiet_lookupOwned

theorem quiet_createOwned (now : Int64) (kind : CreateKind) (mode : UInt16) :
    Quiet (d.createOwned now dir name kind mode) := by
  unfold createOwned
  cases rowKind kind with
  | none => exact .pure _
  | some k =>
    refine .bind .get fun t => .ite (.pure _) (.bind (.modify _) fun _ => ?_)
    exact .bind (quiet_gcSweep now) fun _ => .bind (.query trivial) fun _ =>
      .bind .get fun t => .pure _

theorem quiet_removeOwned (isDir : Bool) : Quiet (d.removeOwned dir name isDir) := by
  refine .bind .get fun t => ?_
  cases d.refusal t dir name isDir with
  | some e => exact .pure _
  | none => exact .bind (.modify _) fun _ => .bind (.query trivial) fun _ => .pure _

theorem quiet_renameRow (fromKey toKey : RowKey) : Quiet (d.renameRow fromKey toKey) := by
  refine .bind .get fun t => ?_
  cases t.rows.get fromKey with
  | none => exact .pure _
  | some row => exact .bind (.modify _) fun _ => .pure _

theorem meets_node (node : NodeKey) (call : Nfs.Call) {m : Decorated call.Answer} (hm : Quiet m)
    (hclean : ¬ isSideNode node → Clean I (.op call) s) :
    ((if isSideNode node then m else inner call) store).Meets I.answer (Clean I)
      (fun _ _ => True) s := by
  by_cases hnode : isSideNode node
  · rw [if_pos hnode]
    exact hm.meets
  · rw [if_neg hnode]
    exact ⟨hclean hnode, trivial⟩

theorem quiet_setattrRow (now : Int64) (node : NodeKey) (set : NfsSetAttr) :
    Quiet (d.setattrRow now node set) := by
  refine .bind .get fun t => ?_
  cases row t node with
  | error e => exact .pure _
  | ok found =>
    obtain ⟨key, row⟩ := found
    rcases hset : row.setattr set now with ⟨r, row'⟩
    simp only [hset]
    cases r with
    | error e => exact .bind (.modify _) fun _ => .pure _
    | ok _ => exact .bind (.modify _) fun _ => .bind .get fun _ => .pure _

theorem quiet_writeRow (now : Int64) (node : NodeKey) (offset : UInt64) (data : List UInt8) :
    Quiet (d.writeRow now node offset data) := by
  refine .bind .get fun t => ?_
  cases row t node with
  | error e => exact .pure _
  | ok found =>
    obtain ⟨key, row⟩ := found
    rcases hwrite : row.write offset data now with ⟨r, row'⟩
    simp only [hwrite]
    match r with
    | .error panic => exact .bind (.modify _) fun _ => .stop _
    | .ok (.error e) => exact .pure _
    | .ok (.ok ()) => exact .bind (.modify _) fun _ => .bind .get fun _ => .pure _

theorem create_clean (now : Int64) (kind : CreateKind) (mode : UInt16) :
    (d.create now dir name kind mode store).Meets I.answer (Clean I) (fun _ _ => True) s := by
  refine owns_then (fun _ _ _ => trivial) ?_
  by_cases howned : I.owned s dir name
  · rw [if_pos howned]
    exact (quiet_createOwned now kind mode).meets
  rw [if_neg howned]
  simp only [Inner.owned, Bool.or_eq_true, Bool.and_eq_true, not_or, not_and,
    Bool.not_eq_true, Bool.not_eq_false'] at howned
  exact ⟨⟨by simp [howned.1], howned.2⟩, trivial⟩

theorem remove_clean (isDir : Bool) :
    (d.remove dir name isDir store).Meets I.answer (Clean I) (fun _ _ => True) s := by
  refine owns_then (fun _ _ _ => trivial) ?_
  by_cases howned : I.owned s dir name
  · rw [if_pos howned]
    exact (quiet_removeOwned isDir).meets
  rw [if_neg howned]
  have hdir : ¬ isSideNode dir := fun h => howned (by simp [Inner.owned, h])
  refine meets_bind ⟨hdir, fun r hr => ?_, nofun⟩
  cases hr
  cases (I.answer (.op (.remove dir name isDir)) s).1 with
  | error e => exact trivial
  | ok _ => exact trivial

theorem rename_clean (fromDir : NodeKey) (fromName : List UInt8) (toDir : NodeKey)
    (toName : List UInt8) :
    (d.rename fromDir fromName toDir toName store).Meets I.answer (Clean I)
      (fun _ _ => True) s := by
  refine owns_then (fun _ _ _ => trivial) (owns_then (fun _ _ _ => trivial) ?_)
  by_cases hreal : (!I.owned s fromDir fromName && !(I.owned s toDir toName || isSideName toName))
  · rw [if_pos hreal]
    simp only [Bool.and_eq_true, Bool.not_eq_true', Bool.or_eq_false_iff, Inner.owned] at hreal
    exact ⟨⟨by simp [hreal.1.1], by simp [hreal.2.1.1], by simp [hreal.2.2]⟩, trivial⟩
  · rw [if_neg hreal]
    exact (Quiet.ite (.pure _) (quiet_renameRow (fromDir, fromName) (toDir, toName))).meets

theorem serve_clean (now : Int64) (call : SurfaceCall) :
    (d.serve now call store).Meets I.answer (Clean I) (fun _ _ => True) s := by
  cases call with
  | shareId => exact ⟨trivial, trivial⟩
  | root => exact ⟨trivial, trivial⟩
  | writable => exact ⟨trivial, trivial⟩
  | writesAreStable => exact ⟨trivial, trivial⟩
  | touchDir dir => exact trivial
  | op call =>
    cases call with
    | getattr node =>
      exact meets_node node (.getattr node) (.bind .get fun _ => .pure _) fun _ => trivial
    | lookup dir name => exact quiet_lookup.meets
    | readdir dir cookie maxEntries wantAttrs =>
      exact meets_node dir (.readdir dir cookie maxEntries wantAttrs)
        (.bind .get fun _ => .pure _) fun _ => trivial
    | readlink node => exact meets_node node (.readlink node) (.pure _) fun _ => trivial
    | parent node => exact trivial
    | read node offset count =>
      exact meets_node node (.read node offset count) (.bind .get fun _ => .pure _) fun _ => trivial
    | readSendable node offset count =>
      exact meets_node node (.readSendable node offset count) (.pure _) fun _ => trivial
    | readInto node offset count =>
      exact meets_node node (.readInto node offset count) (.pure _) fun _ => trivial
    | fsstat => exact ⟨trivial, trivial⟩
    | create dir name kind mode => exact create_clean now kind mode
    | remove dir name isDir => exact remove_clean isDir
    | rename fromDir fromName toDir toName => exact rename_clean ..
    | setattr node set => exact meets_node node (.setattr node set) (quiet_setattrRow now node set) id
    | write node offset data sync =>
      exact meets_node node (.write node offset data sync) (quiet_writeRow now node offset data) id
    | commit node off len =>
      exact meets_node node (.commit node off len) (.bind .get fun _ => .pure _) id

/-- What happens to a mount: a call of the decorator, or a change of the inner surface by others. -/
inductive Event (σ : Type) where
  | call (now : Int64) (call : SurfaceCall)
  | guest (s : σ)

def visited (d : Decorator) (I : Inner σ) : List (Event σ) → SideStore → σ → List (SurfaceCall × σ)
  | [], _, _ => []
  | .guest s :: rest, store, _ => visited d I rest store s
  | .call now call :: rest, store, s =>
    (d.serve now call store).visits I.answer s ++
      visited d I rest ((d.serve now call store).run I.answer s).result.2
        ((d.serve now call store).run I.answer s).state

theorem guest_unpolluted (d : Decorator) (I : Inner σ) (events : List (Event σ)) (store : SideStore)
    (s : σ) : ∀ v ∈ d.visited I events store s, Clean I v.1 v.2 := by
  induction events generalizing store s with
  | nil => exact nofun
  | cons event rest ih =>
    cases event with
    | guest t => exact ih store t
    | call now call =>
      intro v hv
      rcases List.mem_append.mp hv with hcall | hrest
      · exact (serve_clean now call).visits v hcall
      · exact ih _ _ v hrest

theorem guest_unpolluted_mkdir :
    (.op (.create ⟨2, 0⟩ [97] .dir 0), 1) ∈ sumDigest.visited hiddenGuest
        [.call 0 (.op (.create ⟨2, 0⟩ dsStore (.file false) 0)),
          .call 0 (.op (.create ⟨2, 0⟩ [97] .dir 0))] ⟨[], [], false⟩ 0 ∧
      Clean hiddenGuest (.op (.create ⟨2, 0⟩ [97] .dir 0)) 1 := by
  have hmem : (.op (.create ⟨2, 0⟩ [97] .dir 0), 1) ∈ sumDigest.visited hiddenGuest
      [.call 0 (.op (.create ⟨2, 0⟩ dsStore (.file false) 0)),
        .call 0 (.op (.create ⟨2, 0⟩ [97] .dir 0))] ⟨[], [], false⟩ 0 := by decide +kernel
  exact ⟨hmem, guest_unpolluted sumDigest hiddenGuest _ _ _ _ hmem⟩

end Decorator

def nodesOf : SurfaceCall → List NodeKey
  | .touchDir dir => [dir]
  | .op call => call.nodes
  | _ => []

def namesOf : SurfaceCall → List (NodeKey × List UInt8)
  | .op (.lookup dir name) | .op (.create dir name _ _) | .op (.remove dir name _) => [(dir, name)]
  | .op (.rename fromDir fromName toDir toName) => [(fromDir, fromName), (toDir, toName)]
  | _ => []

structure Real (I : Inner σ) (s : σ) (call : SurfaceCall) : Prop where
  nodes : ∀ node ∈ nodesOf call, ¬ isSideNode node
  names : ∀ p ∈ namesOf call, isSideName p.2 → I.entry s p.1 p.2

/-- The decorator answers a call as the inner surface does, and leaves it as the call itself would. -/
def SameResult (d : Decorator) (I : Inner σ) (now : Int64) (store : SideStore) (s : σ)
    (call : SurfaceCall) : Prop :=
  ((d.serve now call store).run I.answer s).result.1 = .ok (I.answer call s).1 ∧
    ((d.serve now call store).run I.answer s).state = (I.answer call s).2

/-- The calls that are forwarded, or for which the inner surface does what the decorator does
instead: it knows no parent of the node, it has nothing to touch, and it refuses to rename onto the
Apple name. -/
def Forwarded (I : Inner σ) (s : σ) : SurfaceCall → Prop
  | .touchDir dir => (I.answer (.touchDir dir) s).2 = s
  | .op (.parent node) => I.answer (.op (.parent node)) s = (.error .noEnt, s)
  | .op (.rename fromDir fromName toDir toName) =>
    isSideName toName →
      I.answer (.op (.rename fromDir fromName toDir toName)) s = (.error .access, s)
  | _ => True

namespace Decorator

variable {d : Decorator} {I : Inner σ} {store : SideStore} {s : σ} {dir : NodeKey}
  {name : List UInt8}

theorem not_owned (hdir : ¬ isSideNode dir) (hname : isSideName name → I.entry s dir name) :
    I.owned s dir name = false := by
  cases hside : isSideName name with
  | false => simp [Inner.owned, hdir, hside]
  | true => simp [Inner.owned, hdir, hside, hname hside]

abbrev Answered (I : Inner σ) (s : σ) (call : SurfaceCall)
    (r : Except Panic call.Answer × SideStore) (t : σ) : Prop :=
  r.1 = .ok (I.answer call s).1 ∧ t = (I.answer call s).2

section

variable (hdir : ¬ isSideNode dir) (hname : isSideName name → I.entry s dir name)
include hdir hname

theorem lookupOwned_same :
    (d.lookupOwned dir name store).Meets I.answer (fun _ _ => True)
      (Answered I s (.op (.lookup dir name))) s := by
  refine owns_then (fun _ _ _ => trivial) ?_
  rw [not_owned hdir hname]
  exact ⟨trivial, rfl, rfl⟩

theorem lookup_same :
    (d.lookup dir name store).Meets I.answer (fun _ _ => True)
      (Answered I s (.op (.lookup dir name))) s := by
  unfold lookup
  by_cases hside : isSideName name
  · rw [if_pos (by simp [hdir, hside])]
    have hentry := I.lookup_entry dir name s
    rw [hname hside] at hentry
    refine meets_bind ⟨trivial, fun r hr => ?_, nofun⟩
    cases hr
    cases hreal : (I.answer (.op (.lookup dir name)) s).1 with
    | error e => rw [hreal] at hentry; exact (Bool.false_ne_true hentry).elim
    | ok real => exact ⟨by rw [hreal], rfl⟩
  · rw [if_neg (by simp [hside])]
    exact lookupOwned_same hdir hname

theorem create_same (now : Int64) (kind : CreateKind) (mode : UInt16) :
    (d.create now dir name kind mode store).Meets I.answer (fun _ _ => True)
      (Answered I s (.op (.create dir name kind mode))) s := by
  refine owns_then (fun _ _ _ => trivial) ?_
  rw [not_owned hdir hname]
  exact ⟨trivial, rfl, rfl⟩

theorem remove_same (isDir : Bool) :
    (d.remove dir name isDir store).Meets I.answer (fun _ _ => True)
      (Answered I s (.op (.remove dir name isDir))) s := by
  refine owns_then (fun _ _ _ => trivial) ?_
  rw [not_owned hdir hname]
  refine meets_bind ⟨trivial, fun r hr => ?_, nofun⟩
  cases hr
  cases hans : (I.answer (.op (.remove dir name isDir)) s).1 with
  | error e => exact ⟨by rw [hans], rfl⟩
  | ok _ => exact ⟨by rw [hans], rfl⟩

end

/-- A rename of real names goes on unless the new name is Apple's; then it is refused. -/
theorem rename_end (d : Decorator) (store : SideStore) {fromDir toDir : NodeKey}
    {fromName toName : List UInt8} (hfrom : ¬ isSideNode fromDir) (hto : ¬ isSideNode toDir)
    (hfromName : isSideName fromName → I.entry s fromDir fromName)
    (htoName : isSideName toName → I.entry s toDir toName) :
    (d.rename fromDir fromName toDir toName store).Meets I.answer (fun _ _ => True)
      (fun r t =>
        if isSideName toName then r.1 = .ok (.error .access) ∧ t = s
        else Answered I s (.op (.rename fromDir fromName toDir toName)) r t) s := by
  refine owns_then (fun _ _ _ => trivial) (owns_then (fun _ _ _ => trivial) ?_)
  rw [not_owned hfrom hfromName, not_owned hto htoName]
  cases isSideName toName with
  | false => exact ⟨trivial, rfl, rfl⟩
  | true => exact ⟨rfl, rfl⟩

theorem node_same (node : NodeKey) (call : Nfs.Call) {m : Decorated call.Answer}
    (hnode : ¬ isSideNode node) :
    ((if isSideNode node then m else inner call) store).Meets I.answer (fun _ _ => True)
      (Answered I s (.op call)) s := by
  rw [if_neg hnode]
  exact ⟨trivial, rfl, rfl⟩

theorem parent_same {now : Int64} {node : NodeKey} :
    SameResult d I now store s (.op (.parent node)) ↔ Forwarded I s (.op (.parent node)) := by
  show (ok (error NfsError.noEnt) : Except Panic (Except NfsError NodeKey)) =
      .ok (I.answer (.op (.parent node)) s).1 ∧ s = (I.answer (.op (.parent node)) s).2 ↔
    I.answer (.op (.parent node)) s = (.error .noEnt, s)
  rw [Prod.ext_iff, ok.injEq]
  exact and_congr eq_comm eq_comm

theorem rename_same {now : Int64} {fromDir toDir : NodeKey} {fromName toName : List UInt8}
    (hfrom : ¬ isSideNode fromDir) (hto : ¬ isSideNode toDir)
    (hfromName : isSideName fromName → I.entry s fromDir fromName)
    (htoName : isSideName toName → I.entry s toDir toName) :
    SameResult d I now store s (.op (.rename fromDir fromName toDir toName)) ↔
      Forwarded I s (.op (.rename fromDir fromName toDir toName)) := by
  have hend := (rename_end d store hfrom hto hfromName htoName).run
  by_cases hside : isSideName toName
  · rw [if_pos hside] at hend
    obtain ⟨hresult, hstate⟩ := hend
    show ((d.rename fromDir fromName toDir toName store).run I.answer s).result.1 = _ ∧
      ((d.rename fromDir fromName toDir toName store).run I.answer s).state = _ ↔ _
    rw [hresult, hstate, ok.injEq]
    exact ⟨fun h _ => Prod.ext h.1.symm h.2.symm, fun h => by rw [h hside]; exact ⟨rfl, rfl⟩⟩
  · rw [if_neg hside] at hend
    exact iff_of_true hend fun h => absurd h hside

/-- Side-store transparency: a call about real nodes and names has the inner surface's result exactly
when it is forwarded. -/
theorem sidestore_transparent (d : Decorator) (I : Inner σ) (now : Int64) (store : SideStore) (s : σ)
    (call : SurfaceCall) (h : Real I s call) :
    SameResult d I now store s call ↔ Forwarded I s call := by
  obtain ⟨hnodes, hnames⟩ := h
  cases call with
  | shareId => exact iff_of_true ⟨rfl, rfl⟩ trivial
  | root => exact iff_of_true ⟨rfl, rfl⟩ trivial
  | writable => exact iff_of_true ⟨rfl, rfl⟩ trivial
  | writesAreStable => exact iff_of_true ⟨rfl, rfl⟩ trivial
  | touchDir dir => exact ⟨fun h => h.2.symm, fun h => ⟨rfl, h.symm⟩⟩
  | op call =>
    have real : ∀ node ∈ call.nodes, ¬ isSideNode node := hnodes
    cases call with
    | getattr node =>
      exact iff_of_true (node_same node (.getattr node) (real node (.head _))).run trivial
    | lookup dir name =>
      exact iff_of_true (lookup_same (real dir (.head _))
        (hnames (dir, name) (.head _))).run trivial
    | readdir dir cookie maxEntries wantAttrs =>
      exact iff_of_true (node_same dir (.readdir dir cookie maxEntries wantAttrs)
        (real dir (.head _))).run trivial
    | readlink node =>
      exact iff_of_true (node_same node (.readlink node) (real node (.head _))).run trivial
    | parent node => exact parent_same
    | read node offset count =>
      exact iff_of_true (node_same node (.read node offset count) (real node (.head _))).run trivial
    | readSendable node offset count =>
      exact iff_of_true (node_same node (.readSendable node offset count)
        (real node (.head _))).run trivial
    | readInto node offset count =>
      exact iff_of_true (node_same node (.readInto node offset count)
        (real node (.head _))).run trivial
    | fsstat => exact iff_of_true ⟨rfl, rfl⟩ trivial
    | create dir name kind mode =>
      exact iff_of_true (create_same (real dir (.head _))
        (hnames (dir, name) (.head _)) now kind mode).run trivial
    | remove dir name isDir =>
      exact iff_of_true (remove_same (real dir (.head _))
        (hnames (dir, name) (.head _)) isDir).run trivial
    | rename fromDir fromName toDir toName =>
      exact rename_same (real fromDir (.head _))
        (real toDir (.tail _ (.head _)))
        (hnames (fromDir, fromName) (.head _))
        (hnames (toDir, toName) (.tail _ (.head _)))
    | setattr node set =>
      exact iff_of_true (node_same node (.setattr node set) (real node (.head _))).run trivial
    | write node offset data sync =>
      exact iff_of_true (node_same node (.write node offset data sync)
        (real node (.head _))).run trivial
    | commit node off len =>
      exact iff_of_true (node_same node (.commit node off len) (real node (.head _))).run trivial

theorem sidestore_transparent_create :
    Real hiddenGuest 0 (.op (.create ⟨2, 0⟩ hidden .dir 0)) ∧
      SameResult sumDigest hiddenGuest 0 ⟨[], [], false⟩ 0
        (.op (.create ⟨2, 0⟩ hidden .dir 0)) := by
  have hreal : Real hiddenGuest 0 (.op (.create ⟨2, 0⟩ hidden .dir 0)) := ⟨by decide, by decide⟩
  exact ⟨hreal, (sidestore_transparent sumDigest hiddenGuest 0 ⟨[], [], false⟩ 0 _ hreal).mpr trivial⟩

/-- The parent of a real node is not found through the decorator, and a file cannot be renamed onto
a real `.hidden`; the inner surface does both. -/
theorem parent_not_forwarded :
    (Real hiddenGuest 0 (.op (.parent ⟨8, 0⟩)) ∧
      (hiddenGuest.answer (.op (.parent ⟨8, 0⟩)) 0).1 = .ok ⟨2, 0⟩ ∧
      ¬ SameResult sumDigest hiddenGuest 0 ⟨[], [], false⟩ 0 (.op (.parent ⟨8, 0⟩))) ∧
    (Real hiddenGuest 0 (.op (.rename ⟨2, 0⟩ [97] ⟨2, 0⟩ hidden)) ∧
      (hiddenGuest.answer (.op (.rename ⟨2, 0⟩ [97] ⟨2, 0⟩ hidden)) 0).1 = .ok () ∧
      ¬ SameResult sumDigest hiddenGuest 0 ⟨[], [], false⟩ 0
        (.op (.rename ⟨2, 0⟩ [97] ⟨2, 0⟩ hidden))) := by
  refine ⟨⟨⟨by decide, by decide⟩, rfl, fun h => ?_⟩, ⟨⟨by decide, by decide⟩, rfl, fun h => ?_⟩⟩
  · cases ok.inj h.1
  · exact absurd h.2 (by decide)

end Decorator

end Mist.Sidestore
