import Mist.Nfs.Confinement

/-! Files created through the NFSv4.1 server.  Whether a name exists is looked up in the replica,
and the file is created in the guest. -/

namespace Mist.Nfs

open Option Bool

open Op4

structure Host where
  tree : Tree
  replica : ShareReplica

/-- What a mutation meets: the guest's kernel, a share that may be read-only there, what becomes of
the RPC, and the host's clock.  `other` answers the calls of the surface that are not modelled. -/
structure Setting where
  kernel : Kernel
  readonly : Bool
  fate : Fate
  now : Ts
  other : (q : Call) → Host → q.Answer

namespace Setting

/-- The guest answers, and no system call fails for a reason of its own. -/
structure Works (c : Setting) : Prop where
  fate : c.fate = .answered
  readonly : c.readonly = false
  calls : ∀ k, c.kernel.fails k = none

noncomputable def mutate (c : Setting) (h : Host) (m : Mutation) : Except NfsError RpcResp × Host :=
  let e := m.run c.kernel c.readonly h.tree h.replica none c.fate c.now
  (c.fate.mutate (m.request.execute c.kernel c.readonly h.tree).1, ⟨e.tree, e.replica⟩)

/-- The calls of `ShareSurface` that look up and create. -/
noncomputable def answer (c : Setting) : (q : Call) → Host → q.Answer × Host
  | .getattr node, h => ((h.replica.getattr node).mapError mapErr, h)
  | .lookup dir name, h =>
    (match Name.new name with
      | .ok x => (h.replica.lookup dir x).mapError mapErr
      | .error _ => .error .noEnt, h)
  | .create dir name kind mode, h =>
    match Name.new name with
    | .error _ => (.error .io, h)
    | .ok x =>
      let p := c.mutate h (.create dir x kind mode)
      (match p.1 with
        | .ok (.entry node attr) => .ok (node, attr)
        | .ok _ => .error .io
        | .error e => .error e, p.2)
  | .setattr node set, h =>
    let p := c.mutate h (.setattr node set)
    (match p.1 with
      | .ok (.attr a) => .ok (h.replica.monotonic node a)
      | .ok _ => .error .io
      | .error e => .error e, p.2)
  | q, h => (c.other q h, h)

noncomputable def serve {α : Type} (c : Setting) (h : Host) (m : Served α) : α × Host :=
  ((m.run c.answer h).result, (m.run c.answer h).state)

theorem serve_ask {α : Type} (c : Setting) (h : Host) (q : Call) (next : q.Answer → Served α) :
    c.serve h (.ask q next) = c.serve (c.answer q h).2 (next (c.answer q h).1) := rfl

end Setting

section

variable (earlier : List (List UInt8 × NodeKey)) (verf : List UInt8) (h : Host) (dir : NodeKey)
  (name : Name)

def Existed : Prop := (∃ p, h.replica.lookup dir name = .ok p) ∨ h.tree.entry dir name ≠ none

/-- The name leads to what an earlier exclusive OPEN with this verifier created. -/
def Retried : Prop := ∃ node a, h.replica.lookup dir name = .ok (node, a) ∧ (verf, node) ∈ earlier

/-- How an exclusive OPEN should end, after `earlier` ones of the name: it fails otherwise only if
something else does. -/
structure OpensExclusively (c : Setting) (e : (Except UInt32 Opened × OpState) × Host) : Prop where
  opened : ∀ o, e.1.1 = .ok o →
    ¬ Existed h dir name ∧ e.2.tree.entry dir name = some o.node ∨ Retried earlier verf h dir name
  refused : c.Works → Existed h dir name → ¬ Retried earlier verf h dir name →
    e.1.1 = .error ERR_EXIST ∧ e.2 = h

end

section

variable {c : Setting} {h : Host} {dir : NodeKey} {name : Name} {s : OpState} {rest : XdrReader}
  {ex : Export} {how : HowCreate} {α β : Type}

theorem name_new (x : Name) : Name.new x.bytes = .ok x := by
  rw [Name.new]
  split
  · rfl
  · rename_i e he
    cases x.valid.symm.trans he

theorem name_length (x : Name) : ¬ x.bytes.length > 255 := by
  intro hlen
  have := x.valid
  simp [Name.check, maxName, hlen] at this

theorem arg_bind {f : XdrReader → Option (α × XdrReader)} {a : α}
    (hread : f s.reader = some (a, rest)) (g : α → Op4 β) :
    (arg f >>= g) s = g a { s with reader := rest } := by
  show (arg f s >>= _) = _
  rw [arg, hread]
  rfl

theorem serve_dirChange (f : UInt64 → Op4 α) :
    ∃ before, c.serve h ((dirChange dir >>= f) s) = c.serve h (f before s) := by
  cases ha : h.replica.getattr dir with
  | ok a =>
    refine ⟨changeOf a, ?_⟩
    show c.serve h (.ask (.getattr dir) _) = _
    rw [Setting.serve_ask, Setting.answer, ha]
    rfl
  | error e =>
    refine ⟨0, ?_⟩
    show c.serve h (.ask (.getattr dir) _) = _
    rw [Setting.serve_ask, Setting.answer, ha]
    rfl

theorem serve_looked {k : List UInt8 → UInt64 → Except NfsError (NodeKey × Attr) → Op4 α}
    (hread : s.reader.opaqueData 4096 = some (name.bytes, rest)) :
    ∃ before, c.serve h ((do
        let name ← opaqueData 4096
        checkName name
        let before ← dirChange dir
        let found ← call (MountSurface.lookup dir name)
        k name before found) s) =
      c.serve h (k name.bytes before ((h.replica.lookup dir name).mapError mapErr)
        { s with reader := rest }) := by
  have hname : checkName name.bytes = pure () := if_neg (name_length name)
  show ∃ before, c.serve h ((arg _ >>= _) s) = _
  rw [arg_bind hread, hname]
  obtain ⟨before, hbefore⟩ := serve_dirChange (c := c) (h := h)
    (s := { s with reader := rest })
    fun before => call (MountSurface.lookup dir name.bytes) >>= k name.bytes before
  refine ⟨before, Eq.trans hbefore ?_⟩
  show c.serve h (.ask (.lookup dir name.bytes) _) = _
  rw [Setting.serve_ask, Setting.answer, name_new]
  rfl

def created (dir : NodeKey) (before : UInt64) : Except NfsError (NodeKey × Attr) → Op4 Opened
  | .ok p => do
    let after ← dirChange dir
    return ⟨p.1, before, after, true⟩
  | .error e => Handler.stop (nfsstatOf e)

theorem openByName_absent {made : Except NfsError (NodeKey × Attr)} {h' : Host}
    (hread : s.reader.opaqueData 4096 = some (name.bytes, rest)) (hw : ex.writable = true)
    (hlook : h.replica.lookup dir name = .error .noEnt)
    (hmade : c.answer (.create dir name.bytes (.file how.exclusive)
      ((how.createattrs.bind NfsSetAttr.mode).getD 0x1a4)) h = (made, h')) :
    ∃ before, c.serve h (openByName ex 1 how dir s) =
      c.serve h' (created dir before made { s with reader := rest }) := by
  obtain ⟨before, hrun⟩ : ∃ before, c.serve h (openByName ex 1 how dir s) = _ :=
    serve_looked (k := _) hread
  refine ⟨before, hrun.trans ?_⟩
  rw [hlook]
  simp only [Except.mapError, mapErr, hw, Bool.not_true, Bool.false_eq_true, if_false, decide_true,
    Bool.and_self, if_true]
  refine (Setting.serve_ask ..).trans ?_
  rw [hmade]
  cases made <;> rfl

section

variable {K : Kernel} {T T' : Tree} {mode : UInt16} {p : NodeKey × Attr}

theorem makeNode_new (h : (K.makeNode dir name .reg mode 0 none true).run.run T = (.ok (), T')) :
    T.entry dir name = none := by
  obtain ⟨_, T₁, hcall, hrest⟩ := bind_ok h
  obtain rfl := call_ok hcall
  rw [get_bind] at hrest
  cases hk : T₁.entry dir name with
  | none => rfl
  | some k =>
    rw [hk] at hrest
    cases hrest

theorem entryNode_ok (h : (K.entryNode dir name).run.run T = (.ok p, T')) :
    T'.entry dir name = some p.1 := by
  obtain ⟨_, T₁, hcall, hrest⟩ := bind_ok h
  rw [get_bind] at hrest
  cases hk : T₁.entry dir name with
  | none =>
    rw [hk] at hrest
    cases hrest
  | some k =>
    rw [hk] at hrest
    cases hrest
    exact hk

theorem create_new (h : (K.create dir name .reg mode 0 none true).run.run T = (.ok p, T')) :
    T.entry dir name = none ∧ T'.entry dir name = some p.1 := by
  obtain ⟨_, T₁, hcall, hrest⟩ := bind_ok h
  obtain rfl := call_ok hcall
  obtain ⟨_, T₂, hmake, hentry⟩ := bind_ok hrest
  exact ⟨makeNode_new hmake, entryNode_ok hentry⟩

theorem create_exists (hK : ∀ k, K.fails k = none) (h : T.entry dir name ≠ none) :
    (K.create dir name .reg mode 0 none true).run.run T = (.error 17, T) := by
  obtain ⟨k, hk⟩ := ne_none_iff_exists'.mp h
  unfold Kernel.create Kernel.makeNode
  rw [call_bind K T (hK _), bind_run, call_bind K T (hK _), get_bind, hk]
  rfl

end

theorem answer_create_new {mode : UInt16} {h' : Host} {p : NodeKey × Attr}
    (hmade : c.answer (.create dir name.bytes (.file true) mode) h = (.ok p, h')) :
    h.tree.entry dir name = none ∧ h'.tree.entry dir name = some p.1 := by
  obtain ⟨K, readonly, fate, now, other⟩ := c
  simp only [Setting.answer, name_new, Setting.mutate, Mutation.run, Mutation.drains,
    Mutation.request, CreateKind.parts, RpcReq.execute, false_eq_true, if_false] at hmade
  cases fate <;> try cases hmade
  cases readonly with
  | true => cases hmade
  | false =>
    cases hrun : (K.create dir name .reg mode 0 none true).run.run h.tree with
    | mk r T =>
      simp only [false_eq_true, if_false, hrun, Fate.executes, if_true] at hmade
      cases r with
      | error e => cases hmade
      | ok q =>
        obtain ⟨hq, rfl⟩ := Prod.mk.inj hmade
        cases hq
        exact create_new hrun

theorem answer_create_exists (hc : c.Works) (hk : h.tree.entry dir name ≠ none) (mode : UInt16) :
    c.answer (.create dir name.bytes (.file true) mode) h = (.error .exist, h) := by
  simp only [Setting.answer, name_new, Setting.mutate, Mutation.run, Mutation.drains,
    Mutation.request, CreateKind.parts, RpcReq.execute, false_eq_true, if_false, hc.readonly, hc.fate,
    create_exists hc.calls hk, Fate.executes, if_true]
  rfl

/-- An exclusive OPEN, where the replica has the name only if the OPEN is sent again. -/
theorem exclusive_open (c : Setting) (ex : Export) (hw : ex.writable = true) (h : Host)
    (dir : NodeKey) (name : Name) (hdir : ∀ e, h.replica.lookup dir name = .error e → e = .noEnt)
    (createattrs : Option NfsSetAttr) (earlier : List (List UInt8 × NodeKey)) (verf : List UInt8)
    (s : OpState) (rest : XdrReader) (hread : s.reader.opaqueData 4096 = some (name.bytes, rest))
    (hnew : ∀ p, h.replica.lookup dir name = .ok p → Retried earlier verf h dir name) :
    OpensExclusively earlier verf h dir name c
      (c.serve h (openByName ex 1 ⟨createattrs, true, false⟩ dir s)) := by
  cases hlook : h.replica.lookup dir name with
  | ok p =>
    have hretried := hnew p hlook
    exact ⟨fun _ _ => .inr hretried, fun _ _ hno => absurd hretried hno⟩
  | error e =>
    obtain rfl := hdir e hlook
    have hfound : ¬ ∃ p, h.replica.lookup dir name = .ok p := by simp [hlook]
    cases hmade : c.answer (.create dir name.bytes (.file true)
        ((createattrs.bind NfsSetAttr.mode).getD 0x1a4)) h with
    | mk made h' =>
      obtain ⟨before, hrun⟩ :
          ∃ before, c.serve h (openByName ex 1 ⟨createattrs, true, false⟩ dir s) = _ :=
        openByName_absent hread hw hlook hmade
      rw [hrun]
      refine ⟨fun o ho => ?_, fun hc hexisted _ => ?_⟩
      · cases made with
        | error e => cases ho
        | ok p =>
          obtain ⟨after, hafter⟩ := serve_dirChange (c := c) (h := h')
            (s := { s with reader := rest }) fun after => (pure ⟨p.1, before, after, true⟩ : Op4 Opened)
          have hend : c.serve h' (created dir before (.ok p) { s with reader := rest }) = _ := hafter
          rw [hend] at ho ⊢
          cases ho
          obtain ⟨hold, hnow⟩ := answer_create_new hmade
          exact .inl ⟨fun hexisted => hexisted.elim hfound fun hne => hne hold, hnow⟩
      · have hthere := hexisted.resolve_left hfound
        rw [answer_create_exists hc hthere] at hmade
        obtain ⟨rfl, rfl⟩ := Prod.mk.inj hmade
        exact ⟨rfl, rfl⟩

theorem openByName_found (hread : s.reader.opaqueData 4096 = some (name.bytes, rest))
    {p : NodeKey × Attr} (hlook : h.replica.lookup dir name = .ok p) (hkind : p.2.kind ≠ .dir) :
    ∃ o, (c.serve h (openByName ex 1 ⟨none, true, false⟩ dir s)).1.1 = .ok o := by
  obtain ⟨before, hrun⟩ : ∃ before, c.serve h (openByName ex 1 ⟨none, true, false⟩ dir s) = _ :=
    serve_looked (k := _) hread
  obtain ⟨after, hafter⟩ := serve_dirChange (c := c) (h := h) (s := { s with reader := rest })
    fun after => (pure ⟨p.1, before, after, false⟩ : Op4 Opened)
  rw [hrun, hlook]
  simp only [Except.mapError, hkind, if_false, Bool.and_false, Bool.false_eq_true, filter_none]
  rw [hafter]
  exact ⟨_, rfl⟩

end

def answering : Setting :=
  ⟨simpleKernel fun _ => none, false, .answered, ⟨0, 0⟩, fun q _ => (oneFile q ()).1⟩

noncomputable def knownFile : Host where
  tree := Mist.oneFile
  replica := (((ShareReplica.new ⟨⟨1⟩, ⟨2, 1⟩⟩).createNode ⟨2, 1⟩ (placeholderAttr .dir)
    ⟨2, 1⟩).applyRec (.created ⟨2, 1⟩ (.letter 'a') ⟨10, 1⟩ (some (placeholderAttr .reg)))).1

def nameArg (b : UInt8) : OpState :=
  ⟨⟨be32 1 ++ [b, 0, 0, 0]⟩, .start, fun _ => none, newServer.rest.state, none⟩

/-- The verifier is not looked at: a new one opens the file that is there. -/
theorem existing_file_opens : ¬ OpensExclusively [] [7] knownFile ⟨2, 1⟩ (.letter 'a') answering
    (answering.serve knownFile
      (openByName (mountOf 1) 1 ⟨none, true, false⟩ ⟨2, 1⟩ (nameArg 97))) := by
  intro hopens
  have hlook : (knownFile.replica.lookup ⟨2, 1⟩ (.letter 'a')).toOption.map
      (fun p => p.2.kind) = some .reg := by decide +kernel
  cases hp : knownFile.replica.lookup ⟨2, 1⟩ (.letter 'a') with
  | error e =>
    rw [hp] at hlook
    cases hlook
  | ok p =>
    rw [hp] at hlook
    have hread : (nameArg 97).reader.opaqueData 4096 = some ((Name.letter 'a').bytes, ⟨[]⟩) := by
      decide +kernel
    obtain ⟨o, ho⟩ := openByName_found (c := answering) hread hp fun hdir => by
      cases (some.inj hlook).symm.trans hdir
    rcases hopens.opened o ho with ⟨hnew, -⟩ | ⟨node, a, -, hmem⟩
    · exact hnew (.inl ⟨p, hp⟩)
    · cases hmem

theorem exclusive_open_absent : OpensExclusively [] [7] knownFile ⟨2, 1⟩ (.letter 'b') answering
    (answering.serve knownFile
      (openByName (mountOf 1) 1 ⟨none, true, false⟩ ⟨2, 1⟩ (nameArg 98))) := by
  have hlook : knownFile.replica.lookup ⟨2, 1⟩ (.letter 'b') = .error .noEnt := by decide +kernel
  refine exclusive_open answering (mountOf 1) rfl knownFile ⟨2, 1⟩ (.letter 'b') (fun e he => ?_)
    none [] [7] (nameArg 98) ⟨[]⟩ (by decide +kernel) (fun p hp => ?_)
  · cases hlook.symm.trans he
    rfl
  · cases hlook.symm.trans hp

end Mist.Nfs
