import Mist.Convergence.Live
import Mist.Hostd.WriteBehind
import Mist.Mistd.Journal

/-! Mutations from the Mac.  The guest's applier carries a request out in system calls, and the host
changes its replica when the answer arrives. -/

namespace Mist

open Option ShareReplica

def NfsError.fromErrno (errno : Int32) : NfsError :=
  if errno = 2 then .noEnt
  else if errno = 13 || errno = 1 then .access
  else if errno = 17 then .exist
  else if errno = 20 then .notDir
  else if errno = 21 then .isDir
  else if errno = 28 then .noSpace
  else if errno = 30 then .rofs
  else if errno = 36 then .nameTooLong
  else if errno = 39 then .notEmpty
  else if errno = 116 then .stale
  else .io

inductive CreateKind where
  | file (exclusive : Bool)
  | dir
  | symlink (target : List UInt8)
  | fifo
  | socket
  | device (isBlock : Bool) (major minor : UInt32)
  deriving DecidableEq

structure NfsSetAttr where
  mode : Option UInt16
  uid : Option UInt32
  gid : Option UInt32
  size : Option UInt64
  mtime : Option Ts
  deriving DecidableEq

/-- The requests of the RPC lane that change the guest's names and attributes. -/
inductive RpcReq where
  | create (dir : NodeKey) (name : Name) (kind : Kind) (mode : UInt16) (rdev : UInt64)
      (symlinkTarget : Option (List UInt8)) (exclusive : Bool)
  | unlink (dir : NodeKey) (name : Name)
  | rmdir (dir : NodeKey) (name : Name)
  | rename (fromDir : NodeKey) (fromName : Name) (toDir : NodeKey) (toName : Name)
  | setAttr (node : NodeKey) (set : NfsSetAttr)

inductive RpcResp where
  | ok
  | entry (node : NodeKey) (attr : Attr)
  | attr (a : Attr)
  | err (errno : Int32)

inductive Mutation where
  | create (dir : NodeKey) (name : Name) (kind : CreateKind) (mode : UInt16)
  | remove (dir : NodeKey) (name : Name) (isDir : Bool)
  | rename (fromDir : NodeKey) (fromName : Name) (toDir : NodeKey) (toName : Name)
  | setattr (node : NodeKey) (set : NfsSetAttr)

/-- Kind, `O_EXCL`, device number and target of what a create asks for. -/
def CreateKind.parts : CreateKind → Kind × Bool × UInt64 × Option (List UInt8)
  | .file exclusive => (.reg, exclusive, 0, none)
  | .dir => (.dir, false, 0, none)
  | .symlink target => (.symlink, false, 0, some target)
  | .fifo => (.fifo, false, 0, none)
  | .socket => (.sock, false, 0, none)
  | .device isBlock major minor =>
    (if isBlock then .blk else .chr, false, (major.toUInt64 <<< 32) ||| minor.toUInt64, none)

def Mutation.request : Mutation → RpcReq
  | .create dir name kind mode =>
    .create dir name kind.parts.1 mode kind.parts.2.2.1 kind.parts.2.2.2 kind.parts.2.1
  | .remove dir name isDir => if isDir then .rmdir dir name else .unlink dir name
  | .rename fromDir fromName toDir toName => .rename fromDir fromName toDir toName
  | .setattr node set => .setAttr node set

inductive Syscall where
  | openNode (node : NodeKey)
  | makeNode
  | entryNode
  | unlinkat
  | renameat
  | chmod
  | reopen
  | ftruncate
  | utimensat
  | statAttr
  deriving DecidableEq

/-- What is up to the guest's kernel: the errors of calls that fail, the node a create makes, and the
attributes a node has after a change. -/
structure Kernel where
  fails : Syscall → Option Int32
  made : Kind → UInt16 → UInt64 → Option (List UInt8) → NodeKey × Attr
  chmod : Attr → UInt16 → Attr
  ftruncate : Attr → UInt64 → Attr
  utimensat : Attr → Ts → Attr

namespace Kernel

def call (K : Kernel) (c : Syscall) : ExceptT Int32 (StateM Tree) Unit :=
  match K.fails c with
  | some errno => throw errno
  | none => pure ()

/-- The call that makes a node.  `O_CREAT` without `O_EXCL` opens a file that is there. -/
noncomputable def makeNode (K : Kernel) (dir : NodeKey) (name : Name) (kind : Kind) (mode : UInt16)
    (rdev : UInt64) (target : Option (List UInt8)) (exclusive : Bool) :
    ExceptT Int32 (StateM Tree) Unit := do
  K.call .makeNode
  match (← get).entry dir name with
  | none =>
    let (node, attr) := K.made kind mode rdev target
    modify fun T => T.apply (.create dir name node attr)
  | some _ => if kind = .reg ∧ exclusive = false then pure () else throw 17

def entryNode (K : Kernel) (dir : NodeKey) (name : Name) :
    ExceptT Int32 (StateM Tree) (NodeKey × Attr) := do
  K.call .entryNode
  match (← get).entry dir name with
  | none => throw 2
  | some node => return (node, (← get).attr node)

noncomputable def create (K : Kernel) (dir : NodeKey) (name : Name) (kind : Kind) (mode : UInt16)
    (rdev : UInt64) (target : Option (List UInt8)) (exclusive : Bool) :
    ExceptT Int32 (StateM Tree) (NodeKey × Attr) := do
  K.call (.openNode dir)
  K.makeNode dir name kind mode rdev target exclusive
  K.entryNode dir name

noncomputable def unlink (K : Kernel) (dir : NodeKey) (name : Name) :
    ExceptT Int32 (StateM Tree) Unit := do
  K.call (.openNode dir)
  K.call .unlinkat
  match (← get).entry dir name with
  | none => throw 2
  | some _ => modify fun T => T.apply (.unlink dir name)

/-- `applier::rename`.  Between two names of one node `renameat` does nothing. -/
noncomputable def rename (K : Kernel) (fromDir : NodeKey) (fromName : Name) (toDir : NodeKey)
    (toName : Name) : ExceptT Int32 (StateM Tree) Unit := do
  K.call (.openNode fromDir)
  K.call (.openNode toDir)
  K.call .renameat
  match (← get).entry fromDir fromName with
  | none => throw 2
  | some node =>
    if (← get).entry toDir toName = some node then pure ()
    else modify fun T => T.apply (.rename fromDir fromName toDir toName)

def update (node : NodeKey) (f : Attr → Attr) (T : Tree) : Tree :=
  { T with attr := Function.update T.attr node (f (T.attr node)) }

/-- One part of a `setattr`: if it is asked for, its calls and then the change. -/
def change {α : Type} (K : Kernel) (node : NodeKey) (part : Option α) (calls : List Syscall)
    (f : Attr → α → Attr) : ExceptT Int32 (StateM Tree) Unit :=
  match part with
  | none => pure ()
  | some v => do
    match calls.findSome? K.fails with
    | some errno => throw errno
    | none => modify (update node fun a => f a v)

/-- `applier::setattr`; owner and group are ignored. -/
def setattr (K : Kernel) (node : NodeKey) (set : NfsSetAttr) :
    ExceptT Int32 (StateM Tree) Attr := do
  K.call (.openNode node)
  K.change node set.mode [.chmod] K.chmod
  K.change node set.size [.reopen, .ftruncate] K.ftruncate
  K.change node set.mtime [.utimensat] K.utimensat
  K.call .statAttr
  return (← get).attr node

end Kernel

def RpcResp.of {α : Type} (f : α → RpcResp) : Except Int32 α × Tree → RpcResp × Tree
  | (.ok a, T) => (f a, T)
  | (.error errno, T) => (.err errno, T)

/-- The answer to a request, and the guest's tree after it.  A read-only share refuses. -/
noncomputable def RpcReq.execute (K : Kernel) (readonly : Bool) (T : Tree) (req : RpcReq) :
    RpcResp × Tree :=
  if readonly then (.err 30, T)
  else
    match req with
    | .create dir name kind mode rdev target exclusive =>
      RpcResp.of (fun e => .entry e.1 e.2) ((K.create dir name kind mode rdev target exclusive).run.run T)
    | .unlink dir name | .rmdir dir name => RpcResp.of (fun _ => .ok) ((K.unlink dir name).run.run T)
    | .rename fromDir fromName toDir toName =>
      RpcResp.of (fun _ => .ok) ((K.rename fromDir fromName toDir toName).run.run T)
    | .setAttr node set => RpcResp.of .attr ((K.setattr node set).run.run T)

/-- What becomes of a request: it does not get to the guest, it is answered, the answer does not come
within `RPC_TIMEOUT`, or the connection drops, before or after the guest carried it out. -/
inductive Fate where
  | unsent
  | answered
  | timedOut
  | dropped (executed : Bool)

def Fate.executes : Fate → Bool
  | .unsent => false
  | .answered | .timedOut => true
  | .dropped executed => executed

def Fate.drops : Fate → Bool
  | .dropped _ => true
  | _ => false

/-- `mutate`: without an answer the client is told to come back. -/
def Fate.mutate : Fate → RpcResp → Except NfsError RpcResp
  | .answered, .err errno => .error (.fromErrno errno)
  | .answered, resp => .ok resp
  | _, _ => .error .jukebox

def Ts.before (s t : Ts) : Bool := s.sec < t.sec || (s.sec = t.sec && s.nsec < t.nsec)

namespace ShareReplica

/-- `bump_dir`: a new mtime for a directory, ahead of the one it has. -/
def bumpDir (r : ShareReplica) (now : Ts) (dir : NodeKey) : ShareReplica :=
  match r.getattr dir with
  | .ok a =>
    let mtime : Ts := if a.mtime.before now then now else ⟨a.mtime.sec, a.mtime.nsec + 1⟩
    (r.applyRec (.attrChanged dir { a with mtime, ctime := mtime })).1
  | .error _ => r

def monotonic (r : ShareReplica) (node : NodeKey) (a : Attr) : Attr :=
  match r.getattr node with
  | .ok cur => if a.mtime.before cur.mtime then { a with mtime := cur.mtime } else a
  | .error _ => a

/-- What the surface makes of an answer, and the error it returns. -/
def answered (r : ShareReplica) (now : Ts) (m : Mutation) (resp : Except NfsError RpcResp) :
    ShareReplica × Option NfsError :=
  match m, resp with
  | _, .error e => (r, some e)
  | .create dir name _ _, .ok (.entry node attr) =>
    ((r.applyRec (.created dir name node (some attr))).1.bumpDir now dir, none)
  | .remove dir name _, .ok .ok => ((r.applyRec (.removed dir name)).1.bumpDir now dir, none)
  | .rename fromDir fromName toDir toName, .ok .ok =>
    let r := (r.applyRec (.renamed fromDir fromName toDir toName)).1.bumpDir now fromDir
    (if toDir ≠ fromDir then r.bumpDir now toDir else r, none)
  | .setattr node _, .ok (.attr a) => ((r.applyRec (.attrChanged node (r.monotonic node a))).1, none)
  | _, .ok _ => (r, some .io)

end ShareReplica

structure MutationEnd where
  tree : Tree
  replica : ShareReplica
  error : Option NfsError
  resync : Bool

/-- A truncation waits for the queued writes of the node first. -/
def Mutation.drains : Mutation → Bool
  | .setattr _ set => set.size.isSome
  | _ => false

/-- A mutation from its start to its end.  `drained` is the outcome of `drain_writes`; when the
connection drops, the next session seeds every share. -/
noncomputable def Mutation.run (m : Mutation) (K : Kernel) (readonly : Bool) (T : Tree)
    (r : ShareReplica) (drained : Option NfsError) (fate : Fate) (now : Ts) : MutationEnd :=
  match if m.drains then drained else none with
  | some e => ⟨T, r, some e, false⟩
  | none =>
    let executed := if fate.executes then m.request.execute K readonly T else (.ok, T)
    let done := r.answered now m (fate.mutate executed.1)
    ⟨executed.2, done.1, done.2, fate.drops⟩

/-- Attributes as `stat` tells them; the content version is the journal's own. -/
def Attr.told (a : Attr) : Attr := { a with contentVersion := 0 }

/-- The replica's entries and attributes are the guest's. -/
structure Agrees (r : ShareReplica) (T : Tree) : Prop where
  entry : ∀ d x, r.entry d x = T.entry d x
  attr : ∀ k, T.Live k → (r.getattr k).map Attr.told = .ok (T.attr k).told

/-- After the records that the reader made of the applier's events, the replica is right, or a resync
has been requested. -/
def MutationEnd.Settled (o : MutationEnd) (engine : JournalEngine)
    (events : List (ParsedEvent × ShareNow)) : Prop :=
  o.resync ∨ Agrees
    (o.replica.replay (events.foldl (fun s e => s.onEvent e.1 e.2) engine).todo) o.tree

/-- A part of a `setattr` with the error of its calls, if it is asked for. -/
def Kernel.part {α : Type} (K : Kernel) (part : Option α) (calls : List Syscall)
    (f : Attr → α → Attr) : List (Option Int32 × (Attr → Attr)) :=
  part.toList.map fun v => (calls.findSome? K.fails, fun a => f a v)

def changed : List (Option Int32 × (Attr → Attr)) → Attr → Attr
  | [], a => a
  | (some _, _) :: _, a => a
  | (none, f) :: rest, a => changed rest (f a)

def Kernel.parts (K : Kernel) (set : NfsSetAttr) : List (Option Int32 × (Attr → Attr)) :=
  K.part set.mode [.chmod] K.chmod ++ (K.part set.size [.reopen, .ftruncate] K.ftruncate ++
    (K.part set.mtime [.utimensat] K.utimensat ++ []))

/-- The calls that the guest carries out leave its names and attributes as they are. -/
def Mutation.Idle (K : Kernel) (readonly : Bool) (T : Tree) : Mutation → Prop
  | .create dir name _ _ =>
    readonly ∨ K.fails (.openNode dir) ≠ none ∨ K.fails .makeNode ≠ none ∨ T.entry dir name ≠ none
  | .remove dir name _ =>
    readonly ∨ K.fails (.openNode dir) ≠ none ∨ K.fails .unlinkat ≠ none ∨ T.entry dir name = none
  | .rename fromDir fromName toDir toName =>
    readonly ∨ K.fails (.openNode fromDir) ≠ none ∨ K.fails (.openNode toDir) ≠ none ∨
      K.fails .renameat ≠ none ∨ T.entry fromDir fromName = none ∨
      T.entry fromDir fromName = T.entry toDir toName
  | .setattr node set =>
    readonly ∨ K.fails (.openNode node) ≠ none ∨ ¬ T.Live node ∨
      (changed (K.parts set) (T.attr node)).told = (T.attr node).told

section

variable (K : Kernel) (T : Tree) {β α : Type}

theorem bind_run (m : ExceptT Int32 (StateM Tree) α) (f : α → ExceptT Int32 (StateM Tree) β) :
    (m >>= f).run.run T =
      match m.run.run T with
      | (.ok a, T') => (f a).run.run T'
      | (.error e, T') => (.error e, T') := by
  rw [ExceptT.run_bind, StateT.run_bind]
  rcases h : m.run.run T with ⟨_ | a, T'⟩
  · rfl
  · rfl

theorem get_bind (f : Tree → ExceptT Int32 (StateM Tree) β) :
    (get >>= f).run.run T = (f T).run.run T := rfl

theorem call_bind {c : Syscall} (h : K.fails c = none) (rest : ExceptT Int32 (StateM Tree) β) :
    (K.call c >>= fun _ => rest).run.run T = rest.run.run T := by
  rw [bind_run, Kernel.call, h]
  rfl

theorem call_tree (c : Syscall) (rest : ExceptT Int32 (StateM Tree) β) :
    ((K.call c >>= fun _ => rest).run.run T).2 =
      if K.fails c = none then (rest.run.run T).2 else T := by
  rw [bind_run, Kernel.call]
  cases K.fails c <;> rfl

theorem bind_ok {m : ExceptT Int32 (StateM Tree) α} {f : α → ExceptT Int32 (StateM Tree) β} {b : β}
    {T T'' : Tree} (h : (m >>= f).run.run T = (.ok b, T'')) :
    ∃ a T', m.run.run T = (.ok a, T') ∧ (f a).run.run T' = (.ok b, T'') := by
  rw [bind_run] at h
  rcases hm : m.run.run T with ⟨e | a, T'⟩
  · rw [hm] at h
    cases h
  · rw [hm] at h
    exact ⟨a, T', rfl, h⟩

theorem call_ok {K : Kernel} {c : Syscall} {u : Unit} {T T' : Tree}
    (h : (K.call c).run.run T = (.ok u, T')) : T' = T := by
  unfold Kernel.call at h
  split at h <;> cases h
  rfl

section

variable (dir : NodeKey)

theorem entryNode_tree (name : Name) :
    ((K.entryNode dir name).run.run T).2 = T := by
  unfold Kernel.entryNode
  rw [call_tree, get_bind]
  cases T.entry dir name <;> exact ite_id _

theorem makeNode_tree (name : Name) (kind : Kind) (mode : UInt16) (rdev : UInt64)
    (target : Option (List UInt8)) (exclusive : Bool) :
    ((K.makeNode dir name kind mode rdev target exclusive).run.run T).2 =
      if K.fails .makeNode = none ∧ T.entry dir name = none then
        T.apply (.create dir name (K.made kind mode rdev target).1 (K.made kind mode rdev target).2)
      else T := by
  unfold Kernel.makeNode
  rw [call_tree, get_bind, ite_and (P := K.fails .makeNode = none)]
  congr 1
  cases T.entry dir name with
  | none => rfl
  | some k =>
    dsimp only
    split <;> rfl

theorem create_tree (name : Name) (kind : Kind) (mode : UInt16) (rdev : UInt64)
    (target : Option (List UInt8)) (exclusive : Bool) :
    ((K.create dir name kind mode rdev target exclusive).run.run T).2 =
      if K.fails (.openNode dir) = none ∧ K.fails .makeNode = none ∧ T.entry dir name = none then
        T.apply (.create dir name (K.made kind mode rdev target).1 (K.made kind mode rdev target).2)
      else T := by
  unfold Kernel.create
  rw [call_tree, ite_and, ← makeNode_tree K T dir name kind mode rdev target exclusive, bind_run]
  rcases (K.makeNode dir name kind mode rdev target exclusive).run.run T with ⟨_ | _, T'⟩
  · rfl
  · rw [entryNode_tree]

theorem unlink_tree (name : Name) :
    ((K.unlink dir name).run.run T).2 =
      if K.fails (.openNode dir) = none ∧ K.fails .unlinkat = none ∧ T.entry dir name ≠ none then
        T.apply (.unlink dir name)
      else T := by
  unfold Kernel.unlink
  rw [call_tree, call_tree, get_bind, ite_and, ite_and]
  cases T.entry dir name <;> rfl

end

theorem rename_tree (d : NodeKey) (x : Name) (e : NodeKey) (y : Name) :
    ((K.rename d x e y).run.run T).2 =
      if K.fails (.openNode d) = none ∧ K.fails (.openNode e) = none ∧ K.fails .renameat = none ∧
          T.entry d x ≠ none ∧ T.entry d x ≠ T.entry e y then
        T.apply (.rename d x e y)
      else T := by
  unfold Kernel.rename
  rw [call_tree, call_tree, call_tree, get_bind, ite_and, ite_and, ite_and, ite_and]
  cases T.entry d x with
  | none => rfl
  | some k =>
    rw [get_bind]
    by_cases h : T.entry e y = some k
    · simp only [h, ne_eq, not_true_eq_false, if_true, if_false]
      rfl
    · simp only [if_neg h, if_pos (Ne.symm h)]
      rfl

theorem change_tree (node : NodeKey) (part : Option α) (calls : List Syscall)
    (f : Attr → α → Attr) (rest : ExceptT Int32 (StateM Tree) β)
    (parts : List (Option Int32 × (Attr → Attr)))
    (hrest : ∀ T, (rest.run.run T).2 = Kernel.update node (changed parts) T) :
    ((K.change node part calls f >>= fun _ => rest).run.run T).2 =
      Kernel.update node (changed (K.part part calls f ++ parts)) T := by
  unfold Kernel.change Kernel.part
  cases part with
  | none => exact hrest T
  | some v =>
    cases hc : calls.findSome? K.fails with
    | some e =>
      have hsame : Kernel.update node (fun a => a) T = T := by simp [Kernel.update]
      exact hsame.symm
    | none =>
      refine (hrest _).trans ?_
      simp [changed, Kernel.update]

theorem setattr_tree (node : NodeKey) (set : NfsSetAttr) :
    ((K.setattr node set).run.run T).2 =
      if K.fails (.openNode node) = none then Kernel.update node (changed (K.parts set)) T else T := by
  unfold Kernel.setattr
  rw [call_tree]
  congr 1
  refine change_tree K T node set.mode _ _ _ _ fun T => ?_
  refine change_tree K T node set.size _ _ _ _ fun T => ?_
  refine change_tree K T node set.mtime _ _ _ _ fun T => ?_
  rw [call_tree]
  have hsame : Kernel.update node (changed []) T = T := by simp [Kernel.update, changed]
  exact (ite_id _).trans hsame.symm

theorem of_tree (f : α → RpcResp) (p : Except Int32 α × Tree) : (RpcResp.of f p).2 = p.2 := by
  rcases p with ⟨_ | a, T'⟩ <;> rfl

end

section

variable {K : Kernel} {readonly : Bool} {T T' : Tree} {r : ShareReplica} {m : Mutation}

theorem agrees_ite_iff (h : Agrees r T) {done : Prop} [Decidable done] (hne : done → ¬ Agrees r T') :
    Agrees r (if done then T' else T) ↔ ¬ done := by
  split_ifs with hd
  · exact ⟨fun h' => absurd h' (hne hd), fun hno => absurd hd hno⟩
  · exact ⟨fun _ => hd, fun _ => h⟩

theorem agrees_update_iff (h : Agrees r T) {node : NodeKey} {f : Attr → Attr} :
    Agrees r (Kernel.update node f T) ↔
      (T.Live node → (f (T.attr node)).told = (T.attr node).told) := by
  constructor
  · intro h' hlive
    have hnew := h'.attr node hlive
    rw [h.attr node hlive] at hnew
    simpa [Kernel.update] using (Except.ok.inj hnew).symm
  · intro hsame
    refine ⟨h.entry, fun k hk => ?_⟩
    rw [h.attr k hk]
    by_cases hkn : k = node
    · subst hkn
      simp [Kernel.update, hsame hk]
    · simp [Kernel.update, hkn]

/-- The guest is still as the replica has it exactly if what it carried out changed nothing. -/
theorem agrees_execute_iff (h : Agrees r T) :
    Agrees r (m.request.execute K readonly T).2 ↔ m.Idle K readonly T := by
  cases readonly with
  | true => cases m <;> simpa [Mutation.Idle, RpcReq.execute] using h
  | false =>
    -- a name that the guest changed is not what the replica has under it
    have hentry : ∀ {T' : Tree} {d x}, T'.entry d x ≠ T.entry d x → ¬ Agrees r T' :=
      fun hne h' => hne ((h'.entry _ _).symm.trans (h.entry _ _))
    cases m with
    | create dir name kind mode =>
      simp only [RpcReq.execute, Mutation.request, Bool.false_eq_true, if_false, of_tree, create_tree]
      refine (agrees_ite_iff h fun hdone => hentry (d := dir) (x := name) ?_).trans ?_
      · simp [Tree.apply, hdone]
      · simp only [Mutation.Idle, Bool.false_eq_true, false_or]
        tauto
    | remove dir name isDir =>
      have hexec : ((Mutation.remove dir name isDir).request.execute K false T).2 =
          ((K.unlink dir name).run.run T).2 := by
        cases isDir <;> simp [RpcReq.execute, Mutation.request, of_tree]
      rw [hexec, unlink_tree]
      refine (agrees_ite_iff h fun hdone => hentry (d := dir) (x := name) ?_).trans ?_
      · simpa [Tree.apply] using hdone.2.2.symm
      · simp only [Mutation.Idle, Bool.false_eq_true, false_or]
        tauto
    | rename d x e y =>
      simp only [RpcReq.execute, Mutation.request, Bool.false_eq_true, if_false, of_tree, rename_tree]
      refine (agrees_ite_iff h fun hdone => hentry (d := e) (x := y) ?_).trans ?_
      · simpa [Tree.apply] using hdone.2.2.2.2
      · simp only [Mutation.Idle, Bool.false_eq_true, false_or]
        tauto
    | setattr node set =>
      simp only [RpcReq.execute, Mutation.request, Bool.false_eq_true, if_false, of_tree, setattr_tree,
        Mutation.Idle, false_or]
      split_ifs with hopen
      · rw [agrees_update_iff h]
        tauto
      · exact ⟨fun _ => .inl hopen, fun _ => h⟩

theorem answered_of_error {now : Ts} {resp : Except NfsError RpcResp}
    (h : (r.answered now m resp).2 ≠ none) : (r.answered now m resp).1 = r := by
  unfold answered at h ⊢
  split <;> simp_all

theorem onEvents_own (s : JournalEngine) (events : List (ParsedEvent × ShareNow))
    (hown : ∀ e ∈ events, e.1.pid = s.mistdPid ∧ e.1.has FAN_Q_OVERFLOW = false) :
    events.foldl (fun s e => s.onEvent e.1 e.2) s = s := by
  refine List.foldlRecOn events _ (motive := (· = s)) rfl fun s' hs' e he => ?_
  rw [hs']
  simp [JournalEngine.onEvent, hown e he]

end

/-- After a mutation that failed the replica is right, or a resync is requested, exactly if the
connection dropped or the guest changed nothing. -/
theorem failed_mutation_settled_iff (m : Mutation) (K : Kernel) (readonly : Bool) (T : Tree)
    (r : ShareReplica) (drained : Option NfsError) (fate : Fate) (now : Ts) (h : Agrees r T)
    (hfail : (m.run K readonly T r drained fate now).error ≠ none) (engine : JournalEngine)
    (hidle : engine.todo = []) (events : List (ParsedEvent × ShareNow))
    (hown : ∀ e ∈ events, e.1.pid = engine.mistdPid ∧ e.1.has FAN_Q_OVERFLOW = false) :
    (m.run K readonly T r drained fate now).Settled engine events ↔
      (m.drains ∧ drained ≠ none) ∨ fate.drops ∨ fate.executes = false ∨ m.Idle K readonly T := by
  rw [MutationEnd.Settled, onEvents_own engine events hown, hidle]
  have hblocked : (if m.drains then drained else none) ≠ none ↔ m.drains ∧ drained ≠ none := by
    cases m.drains <;> simp
  rw [← hblocked]
  unfold Mutation.run at hfail ⊢
  cases hd : if m.drains then drained else none with
  | some e =>
    exact ⟨fun _ => .inl (by simp), fun _ => .inr h⟩
  | none =>
    simp only [hd] at hfail
    simp only [replay, List.foldl_nil, answered_of_error hfail, ne_eq, not_true_eq_false, false_or]
    refine or_congr_right ?_
    cases hx : fate.executes with
    | false => simpa using h
    | true => simpa using agrees_execute_iff h

noncomputable def oneFile : Tree :=
  (Tree.emptyShare ⟨2, 1⟩ (placeholderAttr .dir)).apply
    (.create ⟨2, 1⟩ (.letter 'a') ⟨10, 1⟩ (placeholderAttr .reg))

theorem oneFile_live {k : NodeKey} (h : oneFile.Live k) : k = ⟨2, 1⟩ ∨ k = ⟨10, 1⟩ := by
  rcases h with rfl | ⟨d, x, hx⟩
  · exact .inl rfl
  obtain ⟨-, hx⟩ := ite_none_right_eq_some.mp hx
  exact .inr (some.inj hx).symm

theorem map_of_toOption {e : Except ReplicaError Attr} {a : Attr}
    (h : e.toOption.map Attr.told = some a) : e.map Attr.told = .ok a := by
  cases e with
  | error e => cases h
  | ok b => exact congrArg Except.ok (some.inj h)

theorem oneFile_agrees : ∃ r, Agrees r oneFile := by
  obtain ⟨r, hr, h⟩ := seededRoot_mirrors ⟨⟨1⟩, ⟨2, 1⟩⟩ (a := placeholderAttr .dir) rfl 1
  have hmirrors := h.create (k := ⟨10, 1⟩) (x := .letter 'a') (a := placeholderAttr .reg)
    (Tree.emptyShare_wf _ rfl) ⟨.inl rfl, rfl, rfl, by simp [Tree.emptyShare]⟩ rfl
  have hattr : (seededRoot ⟨⟨1⟩, ⟨2, 1⟩⟩ (placeholderAttr .dir) 1).all fun r =>
      let r := (r.applyRec (.created ⟨2, 1⟩ (.letter 'a') ⟨10, 1⟩ (some (placeholderAttr .reg)))).1
      (r.getattr ⟨2, 1⟩).toOption.map Attr.told = some (placeholderAttr .dir).told ∧
        (r.getattr ⟨10, 1⟩).toOption.map Attr.told = some (placeholderAttr .reg).told := by
    decide +kernel
  rw [hr, all_some, decide_eq_true_eq] at hattr
  refine ⟨_, hmirrors.entry, fun k hk => ?_⟩
  rcases oneFile_live hk with rfl | rfl
  · exact map_of_toOption hattr.1
  · exact map_of_toOption hattr.2

def simpleKernel (errors : Syscall → Option Int32) : Kernel where
  fails := errors
  made kind _ _ _ := (⟨11, 1⟩, placeholderAttr kind)
  chmod a mode := { a with mode }
  ftruncate a size := { a with size }
  utimensat a mtime := { a with mtime }

def removeA : Mutation := .remove ⟨2, 1⟩ (.letter 'a') false

/-- The answer comes after ten seconds: the guest has removed the file, the replica still has it, and
nothing is going to tell it. -/
theorem remove_timed_out :
    ∃ r, Agrees r oneFile ∧
      let o := removeA.run (simpleKernel fun _ => none) false oneFile r none .timedOut ⟨0, 0⟩
      o.error = some .jukebox ∧ ¬ o.Settled (.start ⟨1⟩ 7) [] := by
  obtain ⟨r, h⟩ := oneFile_agrees
  refine ⟨r, h, rfl, ?_⟩
  rintro (hresync | hright)
  · cases hresync
  have hguest : Agrees r (removeA.request.execute (simpleKernel fun _ => none) false oneFile).2 :=
    hright
  have hidle := (agrees_execute_iff h).mp hguest
  simp [removeA, Mutation.Idle, simpleKernel, oneFile, Tree.apply] at hidle

theorem failed_mutation_settled_refused :
    ∃ r, Agrees r oneFile ∧
      (removeA.run (simpleKernel fun c => if c = .unlinkat then some 13 else none) false oneFile r
        none .answered ⟨0, 0⟩).Settled (.start ⟨1⟩ 7) [] := by
  obtain ⟨r, h⟩ := oneFile_agrees
  refine ⟨r, h, (failed_mutation_settled_iff _ _ _ _ r _ _ _ h ?_ _ rfl [] (by simp)).mpr ?_⟩
  · exact some_ne_none NfsError.access
  · exact .inr (.inr (.inr (.inr (.inr (.inl (by decide))))))

end Mist
