import Mist.Nfs.Nfs41

/-! What an operation of a compound does to its context. -/

namespace Mist.Nfs

open Handler Triple

open Op4

def Ctx.Own (own : UInt16 → Prop) (c : Ctx) : Prop :=
  (∀ fh, c.cfh = some fh → own fh.1) ∧ ∀ fh, c.sfh = some fh → own fh.1

def putfhHandle (codec : HandleCodec) (r : XdrReader) : Option (UInt16 × NodeKey) :=
  (r.opaqueData 128).bind fun p => codec.decode p.1

/-- A question that is about no node, or asked with a current file handle. -/
def Guarded (c : Ctx) (q : Call) : Prop := q.nodes = [] ∨ ∃ fh, c.cfh = some fh

/-- The state of an operation that has not touched its context, nor left a file where none may go. -/
def At (sendfile : Bool) (c : Ctx) (s : OpState) : Prop :=
  s.ctx = c ∧ (sendfile = false → s.tail = none)

def Ended (own : UInt16 → Prop) (sendfile : Bool) (s : OpState) : Prop :=
  s.ctx.Own own ∧ (sendfile = false → s.tail = none)

section

variable {α β : Type} {ok : Call → Prop} {own : UInt16 → Prop} {sendfile : Bool} {c : Ctx}

def Quiet (ok : Call → Prop) (own : UInt16 → Prop) (sendfile : Bool) (c : Ctx) (m : Op4 α) : Prop :=
  Handler.Triple ok (Ended own sendfile) (At sendfile c) m fun _ => At sendfile c

def Ends (ok : Call → Prop) (own : UInt16 → Prop) (sendfile : Bool) (c : Ctx) (m : Op4 α) : Prop :=
  Handler.Triple ok (Ended own sendfile) (At sendfile c) m fun _ => Ended own sendfile

theorem At.ended {s : OpState} (hc : c.Own own) (h : At sendfile c s) : Ended own sendfile s :=
  ⟨h.1 ▸ hc, h.2⟩

theorem Quiet.bind {m : Op4 α} {f : α → Op4 β} (h : Quiet ok own sendfile c m)
    (hf : ∀ a, Quiet ok own sendfile c (f a)) : Quiet ok own sendfile c (m >>= f) :=
  Triple.bind h hf

theorem Quiet.then {m : Op4 α} {f : α → Op4 β} (h : Quiet ok own sendfile c m)
    (hf : ∀ a, Ends ok own sendfile c (f a)) : Ends ok own sendfile c (m >>= f) :=
  Triple.bind h hf

theorem Quiet.pure (a : α) : Quiet ok own sendfile c (pure a : Op4 α) := Triple.pure fun _ hs => hs

theorem Quiet.ite {p : Prop} [Decidable p] {m n : Op4 α} (hm : Quiet ok own sendfile c m)
    (hn : Quiet ok own sendfile c n) : Quiet ok own sendfile c (if p then m else n) :=
  Triple.ite (fun _ => hm) fun _ => hn

theorem Quiet.modify {g : OpState → OpState} (hctx : ∀ s, (g s).ctx = s.ctx)
    (htail : ∀ s, (g s).tail = s.tail) : Quiet ok own sendfile c (modify g) :=
  Triple.modify fun s hs => ⟨(hctx s).trans hs.1, fun h => (htail s).trans (hs.2 h)⟩

theorem Quiet.get : Quiet ok own sendfile c get := Triple.get fun _ hs => hs

theorem Quiet.withGet {f : OpState → Op4 β}
    (h : ∀ s, At sendfile c s → Quiet ok own sendfile c (f s)) :
    Quiet ok own sendfile c (Handler.get >>= f) :=
  fun s hs => h s hs s hs

theorem Quiet.put {s : OpState} (h : At sendfile c s) :
    Quiet ok own sendfile c (Handler.modify fun _ => s) :=
  Triple.modify fun _ _ => h

theorem quiet_state : Quiet ok own sendfile c Op4.state := Quiet.get.bind fun _ => .pure _

theorem quiet_setState (f : State → State) : Quiet ok own sendfile c (setState f) :=
  .modify (fun _ => rfl) fun _ => rfl

theorem triple_ctx : Triple ok (Ended own sendfile) (At sendfile c) Op4.ctx
    fun c' s => c' = c ∧ At sendfile c s :=
  bind (get fun _ hs => ⟨hs.1, hs⟩) fun _ => pure fun _ hs => hs

theorem quiet_ctx : Quiet ok own sendfile c Op4.ctx :=
  triple_ctx.mono (fun _ hs => hs) fun _ _ hs => hs.2

theorem pull {φ : Prop} {m : Op4 α} {post : α → OpState → Prop}
    (h : φ → Triple ok (Ended own sendfile) (At sendfile c) m post) :
    Triple ok (Ended own sendfile) (fun s => φ ∧ At sendfile c s) m post :=
  fun s hs => h hs.1 s hs.2

theorem quiet_call {q : Call} (hq : ok q) :
    Quiet ok own sendfile c (call (Asks.query q : Served q.Answer)) :=
  fun _ hs => ⟨hq, fun _ => ⟨fun _ _ => hs, nofun⟩⟩

theorem ends_setCtx {f : Ctx → Ctx} (hf : (f c).Own own) (a : α) :
    Ends ok own sendfile c (setCtx f >>= fun _ => pure a) := by
  have hset : Triple ok (Ended own sendfile) (At sendfile c) (setCtx f)
      fun _ => Ended own sendfile := by
    refine modify fun s hs => ⟨?_, hs.2⟩
    rw [hs.1]
    exact hf
  exact hset.bind fun _ => pure fun _ hs => hs

theorem setCtx_then {f : Ctx → Ctx} {m : Op4 α} (h : Ends ok own sendfile (f c) m) :
    Ends ok own sendfile c (setCtx f >>= fun _ => m) := by
  have hset : Triple ok (Ended own sendfile) (At sendfile c) (setCtx f)
      fun _ => At sendfile (f c) := modify fun _ hs => ⟨congrArg f hs.1, hs.2⟩
  exact hset.bind fun _ => h

theorem quiet_dirChange (hall : ∀ q, ok q) (dir : NodeKey) :
    Quiet ok own sendfile c (dirChange dir) := by
  refine (quiet_call (hall (.getattr dir))).bind fun a => ?_
  cases a with
  | ok a => exact .pure _
  | error e => exact .pure _

theorem triple_sendable (hall : ∀ q, ok q) (isLast : Bool) (node : NodeKey) (offset : UInt64)
    (count : UInt32) : Triple ok (Ended own sendfile) (At sendfile c)
      (sendable isLast sendfile node offset count)
      fun body s => (body.isSome → sendfile = true) ∧ At sendfile c s := by
  refine ite (fun hsend => ?_) fun _ => pure fun _ hs => ⟨nofun, hs⟩
  refine (quiet_call (hall (.readSendable node offset count))).mono (fun _ hs => hs) ?_
  exact fun body s hs => ⟨fun _ => (Bool.and_eq_true_iff.mp hsend).2, hs⟩

section

variable (hc : c.Own own)

include hc

theorem Quiet.ends {m : Op4 α} (h : Quiet ok own sendfile c m) : Ends ok own sendfile c m :=
  mono h (fun _ hs => hs) fun _ _ hs => hs.ended hc

theorem Quiet.stop (status : UInt32) : Quiet ok own sendfile c (stop status : Op4 α) :=
  Triple.stop fun _ hs => hs.ended hc

theorem quiet_arg (f : XdrReader → Option (α × XdrReader)) : Quiet ok own sendfile c (arg f) := by
  intro s hs
  unfold arg
  split
  · refine ⟨fun a ha => ?_, nofun⟩
    exact ⟨hs.1, hs.2⟩
  · exact ⟨nofun, fun e he => hs.ended hc⟩

theorem Quiet.arg {f : XdrReader → Option (α × XdrReader)} {g : α → Op4 β}
    (h : ∀ a, Quiet ok own sendfile c (g a)) : Quiet ok own sendfile c (arg f >>= g) :=
  (quiet_arg hc f).bind h

theorem Ends.arg {f : XdrReader → Option (α × XdrReader)} {g : α → Op4 β}
    (h : ∀ a, Ends ok own sendfile c (g a)) : Ends ok own sendfile c (arg f >>= g) :=
  (quiet_arg hc f).then h

theorem quiet_stateid : Quiet ok own sendfile c stateid := .arg hc fun _ => .arg hc fun _ => .pure _

theorem quiet_skipWords (n : Nat) : Quiet ok own sendfile c (skipWords n) := by
  induction n with
  | zero => exact .pure _
  | succ n ih => exact .arg hc fun _ => ih

theorem quiet_callOk (m : Served (Except NfsError α)) (hm : Quiet ok own sendfile c (call m)) :
    Quiet ok own sendfile c (callOk m) := by
  refine hm.bind fun a => ?_
  cases a with
  | ok a => exact .pure a
  | error e => exact .stop hc _

theorem quiet_needCfh : Triple ok (Ended own sendfile) (At sendfile c) needCfh
    fun fh s => c.cfh = some fh ∧ At sendfile c s := by
  refine triple_ctx.bind fun c' => pull fun hc' => ?_
  subst hc'
  cases hfh : c'.cfh with
  | none => exact stop fun _ hs => hs.ended hc
  | some fh => exact pure fun _ hs => ⟨rfl, hs⟩

theorem withCfh {f : UInt16 × NodeKey → Op4 β} {post : β → OpState → Prop}
    (h : ∀ fh, c.cfh = some fh → Triple ok (Ended own sendfile) (At sendfile c) (f fh) post) :
    Triple ok (Ended own sendfile) (At sendfile c) (needCfh >>= f) post :=
  (quiet_needCfh hc).bind fun fh => pull fun hfh => h fh hfh

theorem withGuard {f : UInt16 × NodeKey → Op4 β} {post : β → OpState → Prop}
    (h : ∀ fh, c.cfh = some fh → (∀ q, Guarded c q) →
      Triple (Guarded c) (Ended own sendfile) (At sendfile c) (f fh) post) :
    Triple (Guarded c) (Ended own sendfile) (At sendfile c) (needCfh >>= f) post :=
  withCfh hc fun fh hfh => h fh hfh fun _ => .inr ⟨fh, hfh⟩

end

end

theorem exchangeId_at {sendfile : Bool} {c : Ctx} {s : OpState} (owner verifier : List UInt8)
    (h : At sendfile c s) : At sendfile c (s.exchangeId owner verifier).2 := by
  unfold OpState.exchangeId
  split
  · split
    · exact h
    · exact h
  · exact h

theorem createSession_at {sendfile : Bool} {c : Ctx} {s s' : OpState} {clientid : UInt64}
    {cbProgram : UInt32} {id : List UInt8} (h : At sendfile c s)
    (hs : s.createSession clientid cbProgram = some (id, s')) : At sendfile c s' := by
  obtain ⟨cl, -, heq⟩ := Option.map_eq_some_iff.mp hs
  obtain ⟨-, rfl⟩ := Prod.mk.inj heq
  exact h

section

variable {ex : Export} {s : OpState} {p : List UInt8 × XdrReader} {fh : UInt16 × NodeKey}

theorem evalPutfh_unread (h : s.reader.opaqueData 128 = none) :
    evalPutfh ex s = .done (.error ERR_BADXDR, s) := by
  show (arg (fun r => r.opaqueData 128) s >>= _) = _
  rw [arg, h]
  rfl

theorem evalPutfh_bad (h : s.reader.opaqueData 128 = some p) (hfh : ex.codec.decode p.1 = none) :
    evalPutfh ex s = .done (.error ERR_BADHANDLE, { s with reader := p.2 }) := by
  show (arg (fun r => r.opaqueData 128) s >>= _) = _
  rw [arg, h]
  simp only [Asks.done_bind, hfh]
  rfl

theorem evalPutfh_ok (h : s.reader.opaqueData 128 = some p) (hfh : ex.codec.decode p.1 = some fh) :
    evalPutfh ex s =
      .done (.ok [], { s with reader := p.2, ctx := { s.ctx with cfh := some fh } }) := by
  show (arg (fun r => r.opaqueData 128) s >>= _) = _
  rw [arg, h]
  simp only [Asks.done_bind, hfh]
  rfl

end

section

variable {ok : Call → Prop} {own : UInt16 → Prop} {sendfile : Bool} {c : Ctx} (hc : c.Own own)

include hc

theorem quiet_chanAttrs : Quiet ok own sendfile c chanAttrs :=
  .arg hc fun _ => .arg hc fun _ => .arg hc fun _ => .arg hc fun _ => .arg hc fun _ =>
    .arg hc fun _ => .arg hc fun _ => (quiet_skipWords hc _).bind fun _ => .pure _

theorem quiet_secParms (n : Nat) : Quiet ok own sendfile c (secParms n) := by
  induction n with
  | zero => exact .pure _
  | succ n ih =>
    refine .arg hc fun flavor => .ite ih (.ite ?_ (.stop hc _))
    exact .arg hc fun _ => .arg hc fun _ => .arg hc fun _ => .arg hc fun _ => .arg hc fun _ =>
        (quiet_skipWords hc _).bind fun _ => ih

omit hc in
theorem quiet_exchange (owner verifier : List UInt8) :
    Quiet ok own sendfile c (exchange owner verifier) :=
  .withGet fun _ hs => (Quiet.put (exchangeId_at owner verifier hs)).bind fun _ => .pure _

theorem quiet_exchangeId : Quiet ok own sendfile c evalExchangeId := by
  refine .arg hc fun verifier => .arg hc fun owner => .arg hc fun _ => .arg hc fun spHow =>
    .ite (.stop hc _) ?_
  refine .arg hc fun nImpl => .ite ?_ (quiet_exchange owner verifier)
  exact .arg hc fun _ => .arg hc fun _ => .arg hc fun _ => .arg hc fun _ =>
    quiet_exchange owner verifier

theorem quiet_createSession : Quiet ok own sendfile c evalCreateSession := by
  refine .arg hc fun clientid => .arg hc fun csaSeq => .arg hc fun flags =>
    (quiet_chanAttrs hc).bind fun fore =>
    (quiet_chanAttrs hc).bind fun _ => .arg hc fun cbProgram => .arg hc fun nSec =>
    (quiet_secParms hc _).bind fun _ => .withGet fun s hs => ?_
  cases hnew : s.createSession clientid cbProgram with
  | none => exact .stop hc _
  | some p => exact (Quiet.put (createSession_at hs hnew)).bind fun _ => .pure _

theorem quiet_destroySession : Quiet ok own sendfile c evalDestroySession := by
  refine .arg hc fun _ => Quiet.get.bind fun _ => .ite ?_ (.stop hc _)
  refine Quiet.bind ?_ fun _ => .pure _
  exact .modify (fun _ => rfl) fun _ => rfl

theorem quiet_destroyClientid : Quiet ok own sendfile c evalDestroyClientid := by
  refine .arg hc fun _ => Quiet.get.bind fun _ => .ite ?_ (.stop hc _)
  refine Quiet.bind ?_ fun _ => .pure _
  exact .modify (fun _ => rfl) fun _ => rfl

theorem quiet_bindConnToSession : Quiet ok own sendfile c evalBindConnToSession :=
  .arg hc fun _ => .arg hc fun _ => .arg hc fun _ => Quiet.get.bind fun _ =>
    .ite (.stop hc _) (.pure _)

theorem quiet_reclaimComplete : Quiet ok own sendfile c evalReclaimComplete :=
  .arg hc fun _ => .pure _

theorem quiet_checkStateid (seq : UInt32) (other : Other) :
    Quiet ok own sendfile c (checkStateid seq other) :=
  quiet_state.bind fun _ => .ite (.pure _) (.ite (.stop hc _) (.stop hc _))

theorem quiet_close : Quiet ok own sendfile c evalClose :=
  .arg hc fun _ => (quiet_stateid hc).bind fun _ => quiet_ctx.bind fun _ =>
    quiet_state.bind fun _ => .ite ((quiet_setState _).bind fun _ => .pure _) (.stop hc _)

theorem quiet_openDowngrade : Quiet ok own sendfile c evalOpenDowngrade := by
  refine (quiet_stateid hc).bind fun id => .arg hc fun _ => .arg hc fun _ => .arg hc fun _ =>
    quiet_ctx.bind fun c' => quiet_state.bind fun st => ?_
  cases st.opens.get (c'.resolveStateid id.1 id.2) with
  | none => exact .stop hc _
  | some os => exact (quiet_setState _).bind fun _ => .pure _

theorem quiet_delegreturn : Quiet ok own sendfile c evalDelegreturn := by
  refine (quiet_stateid hc).bind fun id => quiet_state.bind fun st => ?_
  cases st.delegations.find? fun d => d.2.stateidOther = id.2 with
  | none => exact .stop hc _
  | some d => exact (quiet_setState _).bind fun _ => .pure _

theorem quiet_stateids (n : Nat) : Quiet ok own sendfile c (stateids n) := by
  induction n with
  | zero => exact .pure _
  | succ n ih => exact (quiet_stateid hc).bind fun _ => ih.bind fun _ => .pure _

theorem quiet_testStateid : Quiet ok own sendfile c evalTestStateid :=
  .arg hc fun _ => .ite (.stop hc _)
    ((quiet_stateids hc _).bind fun _ => quiet_state.bind fun _ => .pure _)

theorem quiet_freeStateid : Quiet ok own sendfile c evalFreeStateid :=
  (quiet_stateid hc).bind fun _ => (quiet_setState _).bind fun _ => .pure _

theorem quiet_lockOther (newOwner : Bool) : Quiet ok own sendfile c (lockOther newOwner) := by
  refine .ite ?_ ?_
  · refine .arg hc fun _ => (quiet_stateid hc).bind fun id => .arg hc fun _ => .arg hc fun _ =>
      .arg hc fun _ => quiet_ctx.bind fun c' => quiet_state.bind fun st => ?_
    cases st.opens.get (c'.resolveStateid id.1 id.2) with
    | none => exact .stop hc _
    | some o => exact quiet_state.bind fun _ => (quiet_setState _).bind fun _ => .pure _
  · refine (quiet_stateid hc).bind fun id => .arg hc fun _ => quiet_state.bind fun st => ?_
    cases st.locks.get id.2 with
    | none => exact .stop hc _
    | some o => exact .pure _

theorem ends_lock : Ends ok own sendfile c evalLock :=
  .arg hc fun _ => .arg hc fun _ => .arg hc fun _ => .arg hc fun _ => .arg hc fun newOwner =>
    (quiet_lockOther hc newOwner).then fun _ => ends_setCtx (by exact hc) _

theorem quiet_lockt : Quiet ok own sendfile c evalLockt :=
  .arg hc fun _ => .arg hc fun _ => .arg hc fun _ => .arg hc fun _ => .arg hc fun _ => .pure _

theorem quiet_locku : Quiet ok own sendfile c evalLocku :=
  .arg hc fun _ => .arg hc fun _ => (quiet_stateid hc).bind fun _ => .arg hc fun _ =>
    .arg hc fun _ => quiet_ctx.bind fun _ => quiet_state.bind fun _ => .ite (.stop hc _) (.pure _)

variable (ex : Export)

theorem quiet_getfh : Quiet ok own sendfile c (evalGetfh ex) := withCfh hc fun _ _ => Quiet.pure _

theorem quiet_checkName (name : List UInt8) : Quiet ok own sendfile c (checkName name) :=
  .ite (.stop hc _) (.pure _)

theorem ends_secinfoNoName : Ends ok own sendfile c evalSecinfoNoName :=
  .arg hc fun _ => withCfh hc fun _ _ => ends_setCtx ⟨nofun, hc.2⟩ _

theorem ends_putrootfh (hshare : own ex.shareId) : Ends ok own sendfile c (evalPutrootfh ex) := by
  refine ends_setCtx ⟨fun fh hfh => ?_, hc.2⟩ _
  cases hfh
  exact hshare

theorem ends_savefh : Ends ok own sendfile c evalSavefh := by
  refine withCfh hc fun fh hfh => ends_setCtx ⟨hc.1, fun fh' hfh' => ?_⟩ _
  cases hfh'
  exact hc.1 _ hfh

theorem ends_restorefh : Ends ok own sendfile c evalRestorefh := by
  refine triple_ctx.bind fun c' => pull fun hc' => ?_
  subst hc'
  cases hfh : c'.sfh with
  | none => exact (Quiet.stop hc _).ends hc
  | some fh =>
    refine ends_setCtx ⟨fun fh' hfh' => ?_, hc.2⟩ _
    cases hfh'
    exact hc.2 _ hfh

theorem ends_putfh {r : XdrReader} (hown : ∀ fh ∈ putfhHandle ex.codec r, own fh.1) :
    Triple ok (Ended own sendfile) (fun s => At sendfile c s ∧ s.reader = r) (evalPutfh ex)
      fun _ => Ended own sendfile := by
  rintro s ⟨hs, rfl⟩
  cases hread : s.reader.opaqueData 128 with
  | none =>
    rw [evalPutfh_unread hread]
    exact ⟨nofun, fun _ _ => hs.ended hc⟩
  | some p =>
    cases hfh : ex.codec.decode p.1 with
    | none =>
      rw [evalPutfh_bad hread hfh]
      exact ⟨nofun, fun _ _ => hs.ended hc⟩
    | some fh =>
      rw [evalPutfh_ok hread hfh]
      refine ⟨fun _ _ => ⟨⟨fun fh' hfh' => ?_, hs.1 ▸ hc.2⟩, hs.2⟩, nofun⟩
      cases hfh'
      exact hown fh (by rw [putfhHandle, hread]; exact hfh)

section

variable (hall : ∀ q, ok q)

include hall

theorem quiet_openByName (opentype : UInt32) (how : HowCreate) (dir : NodeKey) :
    Quiet ok own sendfile c (openByName ex opentype how dir) := by
  have hafter : ∀ node before created, Quiet ok own sendfile c (do
      let after ← dirChange dir
      return (⟨node, before, after, created⟩ : Opened)) := fun node before created =>
    (quiet_dirChange hall dir).bind fun _ => .pure _
  refine .arg hc fun name => (quiet_checkName hc name).bind fun _ =>
    (quiet_dirChange hall dir).bind fun before =>
    (quiet_call (hall (.lookup dir name))).bind fun found => ?_
  cases found with
  | ok found =>
    refine .ite (.stop hc _) (.ite (.stop hc _) ?_)
    cases how.createattrs.filter fun s => s.size = some 0 with
    | none => exact hafter _ _ _
    | some sa =>
      refine .ite (.stop hc _) ((quiet_callOk hc _ ?_).bind fun _ => hafter _ _ _)
      exact quiet_call (hall (.setattr found.1 sa))
  | error e =>
    refine .ite (.ite (.stop hc _) ((quiet_callOk hc _ ?_).bind fun _ => hafter _ _ _)) (.stop hc _)
    exact quiet_call (hall (.create dir name (.file how.exclusive) _))

theorem quiet_openClaim (opentype : UInt32) (how : HowCreate) (claim : UInt32) (dirfh : NodeKey) :
    Quiet ok own sendfile c (openClaim ex opentype how claim dirfh) := by
  refine .ite (quiet_openByName hc ex hall opentype how dirfh) (.ite (.pure _) (.ite ?_ (.ite ?_
    (.ite ?_ (.ite (.stop hc _) (.stop hc _))))))
  · exact (quiet_stateid hc).bind fun _ => .arg hc fun name =>
      (quiet_callOk hc _ (quiet_call (hall (.lookup dirfh name)))).bind fun _ => .pure _
  · exact (quiet_stateid hc).bind fun _ => .pure _
  · exact .arg hc fun _ => .pure _

end

theorem ends_lookup : Ends (Guarded c) own sendfile c evalLookup := by
  refine .arg hc fun name => withCfh hc fun fh hfh => ?_
  refine (quiet_checkName hc name).then fun _ => (quiet_callOk hc _
    (quiet_call (.inr ⟨fh, hfh⟩ : Guarded c (.lookup fh.2 name)))).then fun found => ?_
  refine ends_setCtx ⟨fun fh' hfh' => ?_, hc.2⟩ _
  cases hfh'
  exact hc.1 fh hfh

theorem ends_lookupp : Ends (Guarded c) own sendfile c evalLookupp := by
  refine withCfh hc fun fh hfh => ?_
  refine (quiet_callOk hc _
    (quiet_call (.inr ⟨fh, hfh⟩ : Guarded c (.parent fh.2)))).then fun found => ?_
  refine ends_setCtx ⟨fun fh' hfh' => ?_, hc.2⟩ _
  cases hfh'
  exact hc.1 fh hfh

theorem quiet_getattr : Quiet (Guarded c) own sendfile c (evalGetattr ex) := by
  refine .arg hc fun req => withGuard hc fun fh _ hall => ?_
  exact (quiet_callOk hc _ (quiet_call (hall (.getattr fh.2)))).bind fun attr =>
    (quiet_call (hall .fsstat)).bind fun _ => .pure _

theorem quiet_access : Quiet (Guarded c) own sendfile c (evalAccess ex) := by
  refine .arg hc fun req => withGuard hc fun fh _ hall => ?_
  exact (quiet_callOk hc _ (quiet_call (hall (.getattr fh.2)))).bind fun attr => .pure _

theorem quiet_readlink : Quiet (Guarded c) own sendfile c evalReadlink := by
  refine withGuard hc fun fh _ hall => ?_
  exact (quiet_callOk hc _ (quiet_call (hall (.readlink fh.2)))).bind fun attr => .pure _

theorem quiet_readdir : Quiet (Guarded c) own sendfile c (evalReaddir ex) := by
  refine .arg hc fun cookie => .arg hc fun _ => .arg hc fun _ => .arg hc fun maxcount =>
    .arg hc fun req => withGuard hc fun fh _ hall => ?_
  exact (quiet_callOk hc _ (quiet_call (hall (.readdir fh.2 cookie 4096 true)))).bind fun _ =>
    (quiet_call (hall .fsstat)).bind fun _ => .pure _

theorem quiet_write : Quiet (Guarded c) own sendfile c (evalWrite ex) := by
  refine (quiet_stateid hc).bind fun id => .arg hc fun offset => .arg hc fun stable =>
    .arg hc fun data => withGuard hc fun fh hfh hall => Quiet.ite (Quiet.stop hc _) ?_
  exact (quiet_checkStateid hc _ _).bind fun _ =>
    (quiet_callOk hc _ (quiet_call (hall (.write fh.2 offset data _)))).bind fun _ =>
    quiet_state.bind fun _ => .pure _

theorem quiet_commit : Quiet (Guarded c) own sendfile c evalCommit := by
  refine .arg hc fun offset => .arg hc fun count => withGuard hc fun fh _ hall => ?_
  exact (quiet_callOk hc _ (quiet_call (hall (.commit fh.2 offset count.toUInt64)))).bind fun _ =>
    quiet_state.bind fun _ => .pure _

theorem quiet_createKind (objtype : UInt32) : Quiet ok own sendfile c (createKind objtype) := by
  refine .ite (.pure _) (.ite ?_ (.ite ?_ (.ite (.pure _) (.ite (.pure _) (.stop hc _)))))
  · exact .arg hc fun _ => .pure _
  · exact .arg hc fun _ => .arg hc fun _ => .pure _

theorem ends_create (now : Ts) : Ends (Guarded c) own sendfile c (evalCreate now) := by
  refine .arg hc fun objtype => (quiet_createKind hc objtype).then fun kind => .arg hc fun name =>
    .arg hc fun sa => withGuard hc fun fh hfh hall => ?_
  refine (quiet_checkName hc name).then fun _ => (quiet_dirChange hall fh.2).then fun before =>
    (quiet_callOk hc _ (quiet_call (hall (.create fh.2 name kind _)))).then fun made => ?_
  have hc' : Ctx.Own own { c with cfh := some (fh.1, made.1) } := by
    refine ⟨fun fh' hfh' => ?_, hc.2⟩
    cases hfh'
    exact hc.1 fh hfh
  refine setCtx_then ?_
  exact ((quiet_dirChange hall fh.2).bind fun _ => .pure _).ends hc'

theorem quiet_remove : Quiet (Guarded c) own sendfile c evalRemove := by
  refine .arg hc fun name => withGuard hc fun fh _ hall => ?_
  exact (quiet_checkName hc name).bind fun _ => (quiet_call (hall (.lookup fh.2 name))).bind
    fun _ => (quiet_dirChange hall fh.2).bind fun _ =>
    (quiet_callOk hc _ (quiet_call (hall (.remove fh.2 name _)))).bind fun _ =>
    (quiet_dirChange hall fh.2).bind fun _ => .pure _

theorem quiet_rename : Quiet (Guarded c) own sendfile c evalRename := by
  refine .arg hc fun old => .arg hc fun new => quiet_ctx.bind fun c' => ?_
  cases c'.sfh with
  | none => exact .stop hc _
  | some src =>
    refine withGuard hc fun fh hfh hall => ?_
    exact (quiet_checkName hc old).bind fun _ => (quiet_checkName hc new).bind fun _ =>
      (quiet_dirChange hall src.2).bind fun _ => (quiet_dirChange hall fh.2).bind fun _ =>
      (quiet_callOk hc _ (quiet_call (hall (.rename src.2 old fh.2 new)))).bind fun _ =>
      (quiet_dirChange hall src.2).bind fun _ => (quiet_dirChange hall fh.2).bind fun _ => .pure _

theorem quiet_link : Quiet ok own sendfile c evalLink := .arg hc fun _ => .stop hc _

theorem quiet_verify : Quiet ok own sendfile c evalVerify :=
  .arg hc fun _ => .arg hc fun _ => .stop hc _

theorem quiet_setattr (now : Ts) : Quiet (Guarded c) own sendfile c (evalSetattr ex now) := by
  refine (quiet_stateid hc).bind fun id => .arg hc fun sa => withGuard hc fun fh hfh hall =>
    Quiet.ite (Quiet.stop hc _) ?_
  refine quiet_state.bind fun st => .ite (.stop hc _) ?_
  exact (quiet_callOk hc _ (quiet_call (hall (.setattr fh.2 sa.1)))).bind fun _ => .pure _

theorem quiet_howCreate (now : Ts) (opentype : UInt32) :
    Quiet ok own sendfile c (howCreate now opentype) := by
  refine .ite (.arg hc fun how => .ite ?_ (.ite ?_ (.ite ?_ (.stop hc _)))) (.pure _)
  · exact .arg hc fun _ => .pure _
  · exact .arg hc fun _ => .pure _
  · exact .arg hc fun _ => .arg hc fun _ => .pure _

theorem ends_open (now : Ts) : Ends (Guarded c) own sendfile c (evalOpen ex now) := by
  refine .arg hc fun _ => .arg hc fun shareAccess => .arg hc fun _ => .arg hc fun _ =>
    .arg hc fun owner => .arg hc fun opentype => (quiet_howCreate hc now opentype).then fun how =>
    .arg hc fun claim => withGuard hc fun fh hfh hall => ?_
  refine (quiet_openClaim hc ex hall opentype how claim fh.2).then fun o =>
    quiet_state.then fun st => (quiet_setState _).then fun _ => setCtx_then ?_
  have hc' : ∀ id, Ctx.Own own ⟨some (fh.1, o.node), c.sfh, id⟩ := by
    refine fun id => ⟨fun fh' hfh' => ?_, hc.2⟩
    cases hfh'
    exact hc.1 fh hfh
  exact (quiet_state.bind fun st => (quiet_setState _).bind fun _ => .pure _).ends (hc' _)

theorem ends_read (isLast : Bool) : Ends (Guarded c) own sendfile c (evalRead isLast sendfile) := by
  refine (quiet_stateid hc).then fun id => .arg hc fun offset => .arg hc fun count =>
    withGuard hc fun fh hfh hall =>
    (quiet_checkStateid hc _ _).then fun _ => ?_
  refine (triple_sendable hall isLast fh.2 offset _).bind fun body => pull fun hbody => ?_
  cases body with
  | some body =>
    refine bind (m := modify _) (modify fun s hs => ?_)
      fun _ => pure fun _ hs => hs
    exact ⟨hs.1 ▸ hc, fun hno => absurd (hbody rfl) (by simp [hno])⟩
  | none =>
    refine Quiet.ends hc ((quiet_call (hall (.readInto fh.2 offset _))).bind fun res => ?_)
    cases res with
    | some res =>
      cases res with
      | ok res => exact .pure _
      | error e => exact .stop hc _
    | none =>
      exact (quiet_callOk hc _ (quiet_call (hall (.read fh.2 offset _)))).bind fun _ => .pure _

/-- One operation on a context of own handles asks about nodes only with a current file handle. -/
theorem evalOp_ends (hshare : own ex.shareId) {now : Ts} {isLast : Bool} {op : UInt32}
    {r : XdrReader} (hown : op = OP_PUTFH → ∀ fh ∈ putfhHandle ex.codec r, own fh.1) :
    Triple (Guarded c) (Ended own sendfile) (fun s => At sendfile c s ∧ s.reader = r)
      (evalOp ex now isLast sendfile op) fun _ => Ended own sendfile := by
  let T := fun m : Op4 (List XdrItem) => Triple (Guarded c) (Ended own sendfile)
    (fun s => At sendfile c s ∧ s.reader = r) m fun _ => Ended own sendfile
  have hall : ∀ {m}, Ends (Guarded c) own sendfile c m → T m :=
    fun h => h.mono (fun _ hs => hs.1) fun _ _ hs => hs
  have hends : ∀ {p : Prop} [Decidable p] {m n}, Ends (Guarded c) own sendfile c m → T n →
      T (if p then m else n) := fun hm hn => .ite (fun _ => hall hm) fun _ => hn
  have hquiet : ∀ {p : Prop} [Decidable p] {m n}, Quiet (Guarded c) own sendfile c m → T n →
      T (if p then m else n) := fun hm hn => hends (hm.ends hc) hn
  exact hquiet (quiet_exchangeId hc) <| hquiet (quiet_createSession hc) <|
    hquiet (quiet_destroySession hc) <| hquiet (quiet_destroyClientid hc) <|
    hquiet (quiet_bindConnToSession hc) <| hquiet (quiet_reclaimComplete hc) <|
    hends (ends_secinfoNoName hc) <| hends (ends_putrootfh hc ex hshare) <|
    .ite (fun hop => ends_putfh hc ex (hown hop)) fun _ => hquiet (quiet_getfh hc ex) <|
    hends (ends_savefh hc) <| hends (ends_restorefh hc) <| hends (ends_lookup hc) <|
    hends (ends_lookupp hc) <| hquiet (quiet_getattr hc ex) <| hquiet (quiet_access hc ex) <|
    hquiet (quiet_readlink hc) <| hquiet (quiet_readdir hc ex) <| hends (ends_open hc ex now) <|
    hquiet (quiet_close hc) <| hquiet (quiet_openDowngrade hc) <| hends (ends_read hc isLast) <|
    hquiet (quiet_write hc ex) <| hquiet (quiet_commit hc) <| hends (ends_create hc now) <|
    hquiet (quiet_remove hc) <| hquiet (quiet_rename hc) <| hquiet (quiet_link hc) <|
    hquiet (quiet_setattr hc ex now) <| hquiet (quiet_delegreturn hc) <|
    hquiet (quiet_testStateid hc) <| hquiet (quiet_freeStateid hc) <| hends (ends_lock hc) <|
    hquiet (quiet_lockt hc) <| hquiet (quiet_locku hc) <| hquiet (quiet_verify hc) <|
    hquiet (.stop hc _) <| hall ((Quiet.stop hc _).ends hc)

end

section

variable {ς : Type} (ex : Export) (answer : (q : Call) → ς → q.Answer × ς) (now : Ts)

theorem runOp_ends {own : UInt16 → Prop} {op : UInt32} {isLast sendfile : Bool} {r : XdrReader}
    {c : Ctx} {s : Nfs41 (Live41 ς)} (hc : c.Own own) (hshare : own ex.shareId)
    (hown : op = OP_PUTFH → ∀ fh ∈ putfhHandle ex.codec r, own fh.1) :
    Ended own sendfile (runOp ex answer now op isLast sendfile r c s).result.2 ∧
      ∀ q ∈ (runOp ex answer now op isLast sendfile r c s).asked, Guarded c q := by
  have hpre : At sendfile c ⟨r, c, s.sessions, s.rest.state, none⟩ := ⟨rfl, fun _ => rfl⟩
  obtain ⟨⟨hok, herr⟩, hasked⟩ :=
    (evalOp_ends hc ex hshare hown _ ⟨hpre, rfl⟩).run answer s.rest.surface
  refine ⟨?_, hasked⟩
  cases hres : (runOp ex answer now op isLast sendfile r c s).result.1 with
  | ok items => exact hok items hres
  | error e => exact herr e hres

theorem opEnd_ctx (op : UInt32) (s : Nfs41 (Live41 ς))
    (e : Asks.End Call (Except UInt32 (List XdrItem) × OpState) ς) :
    (opEnd op s e).ctx = e.result.2.ctx ∧ (opEnd op s e).tail = e.result.2.tail := by
  unfold opEnd
  split <;> exact ⟨rfl, rfl⟩

def evaluator (conn : Nat) : Evaluator (Live41 ς) Ctx SendableRead where
  start := .start
  bind sid s := { s with rest := { s.rest with state := s.rest.state.carry conn sid } }
  enter _ c := c
  eval op isLast allowSendfile r c s :=
    opEnd op s (runOp ex answer now op isLast allowSendfile r c s)
  noTail op isLast r c s := by
    rw [(opEnd_ctx ..).2]
    have hany : c.Own fun _ => True := ⟨fun _ _ => trivial, fun _ _ => trivial⟩
    exact (runOp_ends ex answer now hany trivial fun _ _ _ => trivial).1.2 rfl

end

end Mist.Nfs
