import Mathlib.Tactic.IntervalCases
import Mist.Nfs.Operations

/-! File handles and shares.  Every mounted share has a server of its own, and all of them share one
secret. -/

namespace Mist.Nfs

open List Option XdrWriter Loop

/-- The statuses that refuse a handle, the same numbers in both versions: STALE and BADHANDLE. -/
def refusesHandle (status : UInt32) : Bool := status = 70 || status = 10001

def decodedHandles (codec : HandleCodec) (proc : UInt32) (args : XdrReader) :
    List (UInt16 × NodeKey) :=
  if proc = PROC_NULL then []
  else if proc = PROC_RENAME then
    match readFh codec args with
    | (none, _) => []
    | (some fh, args) => fh :: (readFh codec (readName args).2).1.toList
  else if proc = PROC_LINK then
    (readFh codec args).1.toList ++ (readFh codec (readFh codec args).2).1.toList
  else if proc ≤ PROC_COMMIT then (readFh codec args).1.toList
  else []

def Reply.status (w : XdrWriter) : Reply → Option UInt32
  | .whole r => (XdrReader.u32 ⟨r.since w.pos⟩).map Prod.fst
  | .headAndFile head _ _ => (XdrReader.u32 ⟨head.since w.pos⟩).map Prod.fst

section

variable {σ : Type} (answer : (q : Call) → σ → q.Answer × σ) (s : σ) (ex : Export) (proc : UInt32)
  (args : XdrReader) (w : XdrWriter)

/-- A request is refused if one of its handles is of another share, and nothing is done on the
handle's node. -/
def Confined3 : Prop :=
  ∀ fh ∈ decodedHandles ex.codec proc args, fh.1 ≠ ex.shareId →
    (∃ status ∈ ((dispatch ex args w proc).run answer s).result.status w, refusesHandle status) ∧
      ∀ q ∈ ((dispatch ex args w proc).run answer s).asked, fh.2 ∉ q.nodes

/-- The handles are of this share, unless a RENAME fails for the second one. -/
def OwnHandles (codec : HandleCodec) (share : UInt16) (proc : UInt32) (args : XdrReader) : Prop :=
  (∀ fh ∈ decodedHandles codec proc args, fh.1 = share) ∨
    proc = PROC_RENAME ∧ (readFh codec (readName (readFh codec args).2).2).1 = none

end

def About (node : NodeKey) (q : Call) : Prop := node ∈ q.nodes

theorem about_self {node : NodeKey} {q : Call} (h : q.nodes = [node]) : About node q := by
  rw [About, h]
  exact mem_singleton_self node

section

variable {ex : Export} {args : XdrReader} {w : XdrWriter} {fh : UInt16 × NodeKey} {rest : XdrReader}

theorem getattr?_surely (node : NodeKey) : (getattr? node).Surely (About node) :=
  .inl (about_self rfl)

theorem readFh_of_mem (h : fh ∈ (readFh ex.codec args).1.toList) :
    ∃ rest, readFh ex.codec args = (some fh, rest) :=
  ⟨(readFh ex.codec args).2, Prod.ext (mem_toList.mp h) rfl⟩

theorem onName_surely {body : NodeKey → List UInt8 → XdrReader → Served XdrWriter}
    (hfh : readFh ex.codec args = (some fh, rest))
    (hbody : ∀ name rest, (body fh.2 name rest).Surely (About fh.2)) :
    (onName ex args w body).Surely (About fh.2) := by
  simp only [onName, hfh]
  split
  · exact (getattr?_surely fh.2).bind _
  · exact hbody ..

theorem createReply_surely (dir : NodeKey) (name : List UInt8) (kind : CreateKind) (mode : UInt16) :
    (createReply ex w dir name kind mode).Surely (About dir) :=
  .inl (about_self rfl)

theorem procRename_surely {fh' : UInt16 × NodeKey} {rest' : XdrReader}
    (hfh : readFh ex.codec args = (some fh, rest))
    (hfh' : readFh ex.codec (readName rest).2 = (some fh', rest')) :
    (procRename ex args w).Surely (About fh.2) ∧ (procRename ex args w).Surely (About fh'.2) := by
  simp only [procRename, hfh, hfh']
  split
  · exact ⟨.inl (mem_cons_self ..), .inl (.tail _ (mem_singleton_self _))⟩
  · exact ⟨(getattr?_surely fh.2).bind _, .inr fun _ => (getattr?_surely fh'.2).bind _⟩

theorem maybeWcc_surely (node : NodeKey) (share : UInt16) :
    (maybeWcc ex (some (share, node))).Surely (About node) :=
  (getattr?_surely node).bind _

theorem procLink_surely (h : fh ∈ (readFh ex.codec args).1.toList ∨
      fh ∈ (readFh ex.codec (readFh ex.codec args).2).1.toList) :
    (procLink ex args w).Surely (About fh.2) := by
  rcases h with h | h
  · obtain ⟨rest, hfh⟩ := readFh_of_mem h
    simp only [procLink, hfh]
    exact .inl (about_self rfl)
  obtain ⟨rest, hdir⟩ := readFh_of_mem h
  simp only [procLink, hdir]
  cases (readFh ex.codec args).1 with
  | none => exact (maybeWcc_surely fh.2 fh.1).bind _
  | some file => exact .inr fun _ => (maybeWcc_surely fh.2 fh.1).bind _

inductive Decodes : UInt32 → Prop
  | getattr : Decodes PROC_GETATTR
  | setattr : Decodes PROC_SETATTR
  | lookup : Decodes PROC_LOOKUP
  | access : Decodes PROC_ACCESS
  | readlink : Decodes PROC_READLINK
  | read : Decodes PROC_READ
  | write : Decodes PROC_WRITE
  | create : Decodes PROC_CREATE
  | mkdir : Decodes PROC_MKDIR
  | symlink : Decodes PROC_SYMLINK
  | mknod : Decodes PROC_MKNOD
  | remove : Decodes PROC_REMOVE
  | rmdir : Decodes PROC_RMDIR
  | rename : Decodes PROC_RENAME
  | link : Decodes PROC_LINK
  | readdir : Decodes PROC_READDIR
  | readdirplus : Decodes PROC_READDIRPLUS
  | fsstat : Decodes PROC_FSSTAT
  | fsinfo : Decodes PROC_FSINFO
  | pathconf : Decodes PROC_PATHCONF
  | commit : Decodes PROC_COMMIT

variable {proc : UInt32}

theorem decodes_of_mem (h : fh ∈ decodedHandles ex.codec proc args) : Decodes proc := by
  have hle : proc.toNat ≤ 21 := by
    by_contra hgt
    have hne : ∀ p : UInt32, p.toNat ≤ 21 → proc ≠ p := fun p hp heq => hgt (heq ▸ hp)
    have hle : ¬ proc ≤ PROC_COMMIT := fun hle => hgt (UInt32.le_iff_toNat_le.mp hle)
    rw [decodedHandles, if_neg (hne PROC_NULL (by decide)), if_neg (hne PROC_RENAME (by decide)),
      if_neg (hne PROC_LINK (by decide)), if_neg hle] at h
    cases h
  have hnull : proc ≠ PROC_NULL := by
    rintro rfl
    cases h
  obtain ⟨n, hn, rfl⟩ : ∃ n, n ≤ 21 ∧ proc = .ofNat n := ⟨proc.toNat, hle, by simp⟩
  interval_cases n
  · exact absurd rfl hnull
  all_goals constructor

theorem status_items (v : UInt32) (is : List XdrItem) :
    (Reply.whole (w.items (.u32 v :: is))).status w = some v := by
  have hsince : (w.items (.u32 v :: is)).since w.pos = be32 v ++ is.flatMap XdrItem.bytes := by
    simp [items, since, pos, XdrItem.bytes]
  rw [Reply.status, hsince, XdrReader.u32_be32]
  rfl

theorem dispatch_surely {P : Call → Prop} (hread : proc ≠ PROC_READ)
    (h : (dispatchInner ex args w proc).Surely P) : (dispatch ex args w proc).Surely P := by
  rw [dispatch, if_neg hread]
  exact h.bind _

theorem dispatch_ok (hread : proc ≠ PROC_READ)
    (h : (dispatchInner ex args w proc).Holds (fun _ => True) fun r =>
      (Reply.whole r).status w = some NFS3_OK) :
    (dispatch ex args w proc).Holds (fun _ => True) fun r => r.status w = some NFS3_OK := by
  rw [dispatch, if_neg hread]
  exact h.bind fun r hr => hr

/-- A procedure that decodes a handle asks about its node, or answers OK without asking. -/
theorem dispatch_exposes (h : fh ∈ decodedHandles ex.codec proc args)
    (hrename : ¬ (proc = PROC_RENAME ∧
      (readFh ex.codec (readName (readFh ex.codec args).2).2).1 = none)) :
    (dispatch ex args w proc).Surely (About fh.2) ∨
      (dispatch ex args w proc).Holds (fun _ => True) fun r => r.status w = some NFS3_OK := by
  cases decodes_of_mem h
  case read =>
    -- the fast path asks before the procedure
    obtain ⟨rest, hfh⟩ := readFh_of_mem h
    refine .inl ?_
    rw [dispatch, if_pos rfl, hfh]
    exact .inl (about_self rfl)
  case rename =>
    refine .inl (dispatch_surely (by decide) ?_)
    cases hfh : readFh ex.codec args with
    | mk fst rest =>
      cases fst with
      | none => simp [decodedHandles, PROC_NULL, PROC_RENAME, hfh] at h
      | some first =>
        cases hfh' : readFh ex.codec (readName rest).2 with
        | mk snd rest' =>
          cases snd with
          | none => exact absurd ⟨rfl, by rw [hfh, hfh']⟩ hrename
          | some second =>
            obtain ⟨hfirst, hsecond⟩ := procRename_surely (w := w) hfh hfh'
            have hmem : fh = first ∨ fh = second := by
              simpa [decodedHandles, PROC_NULL, PROC_RENAME, hfh, hfh'] using h
            rcases hmem with rfl | rfl
            · exact hfirst
            · exact hsecond
  case link =>
    refine .inl (dispatch_surely (by decide) ?_)
    exact procLink_surely (mem_append.mp h)
  case fsstat => exact .inr (dispatch_ok (by decide) ⟨trivial, fun _ => status_items ..⟩)
  case fsinfo => exact .inr (dispatch_ok (by decide) (status_items ..))
  case pathconf => exact .inr (dispatch_ok (by decide) (status_items ..))
  -- the other procedures read one handle, and ask about its node first
  all_goals
    obtain ⟨rest, hfh⟩ := readFh_of_mem h
    refine .inl (dispatch_surely (by decide) ?_)
  case getattr =>
    show (procGetattr ex args w).Surely _
    simp only [procGetattr, hfh]
    exact .inl (about_self rfl)
  case setattr =>
    show (procSetattr ex args w).Surely _
    simp only [procSetattr, hfh]
    exact .inl (about_self rfl)
  case lookup =>
    show (procLookup ex args w).Surely _
    simp only [procLookup, hfh]
    split
    · exact (getattr?_surely fh.2).bind _
    · exact (getattr?_surely fh.2).bind _
  case access =>
    show (procAccess ex args w).Surely _
    simp only [procAccess, hfh]
    exact .inl (about_self rfl)
  case readlink =>
    show (procReadlink ex args w).Surely _
    simp only [procReadlink, hfh]
    exact (getattr?_surely fh.2).bind _
  case write =>
    show (procWrite ex args w).Surely _
    simp only [procWrite, hfh]
    exact (getattr?_surely fh.2).bind _
  case create => exact onName_surely hfh fun _ _ => createReply_surely ..
  case mkdir => exact onName_surely hfh fun _ _ => createReply_surely ..
  case symlink => exact onName_surely hfh fun _ _ => createReply_surely ..
  case mknod =>
    show (procMknod ex args w).Surely _
    simp only [procMknod, hfh]
    exact (maybeWcc_surely fh.2 fh.1).bind _
  case remove => exact onName_surely hfh fun _ _ => .inl (about_self rfl)
  case rmdir => exact onName_surely hfh fun _ _ => .inl (about_self rfl)
  case readdir =>
    show (procReaddir ex args w false).Surely _
    simp only [procReaddir, hfh]
    exact (getattr?_surely fh.2).bind _
  case readdirplus =>
    show (procReaddir ex args w true).Surely _
    simp only [procReaddir, hfh]
    exact (getattr?_surely fh.2).bind _
  case commit =>
    show (procCommit ex args w).Surely _
    simp only [procCommit, hfh]
    exact .inl (about_self rfl)

end

/-- A request is confined exactly if its handles are of the server's own share, or it is a RENAME
that fails for its second handle. -/
theorem confined3_iff {σ : Type} (answer : (q : Call) → σ → q.Answer × σ) (s : σ) (ex : Export)
    (proc : UInt32) (args : XdrReader) (w : XdrWriter) :
    Confined3 answer s ex proc args w ↔ OwnHandles ex.codec ex.shareId proc args := by
  constructor
  · intro h
    by_contra hown
    rw [OwnHandles, not_or] at hown
    obtain ⟨hforeign, hrename⟩ := hown
    push Not at hforeign
    obtain ⟨fh, hmem, hne⟩ := hforeign
    obtain ⟨⟨status, hstatus, hrefuse⟩, hasked⟩ := h fh hmem hne
    rcases dispatch_exposes (w := w) hmem hrename with hask | hok
    · obtain ⟨q, hq, habout⟩ := hask.run answer s
      exact hasked q hq habout
    have hzero := (hok.run answer s).1
    rw [hzero] at hstatus
    cases hstatus
    exact absurd hrefuse (by decide)
  · rintro (hown | ⟨rfl, hsecond⟩) fh hmem hne
    · exact absurd (hown fh hmem) hne
    · have hstale : dispatch ex args w PROC_RENAME = .done (.whole (stale w)) := by
        show (procRename ex args w >>= fun w => .done (Reply.whole w)) =
          .done (Reply.whole (stale w))
        cases hfh : readFh ex.codec args with
        | mk fst rest =>
          cases fst with
          | none =>
            simp only [procRename, hfh]
            rfl
          | some first =>
            have hnone : (readFh ex.codec (readName rest).2).1 = none := by
              rw [hfh] at hsecond
              exact hsecond
            have hread : readFh ex.codec (readName rest).2 =
                (none, (readFh ex.codec (readName rest).2).2) := Prod.ext hnone rfl
            simp only [procRename, hfh]
            rw [hread]
            rfl
      rw [hstale]
      exact ⟨⟨NFS3ERR_STALE, status_items .., by decide⟩, fun q hq => nomatch hq⟩

section

variable {σ γ τ : Type} (E : Evaluator σ γ τ)

/-- An operation a compound comes to: its code, whether it is the last one, and the loop behind the
code. -/
structure Visit (σ γ τ : Type) where
  op : UInt32
  isLast : Bool
  loop : Loop σ γ τ

def Loop.visit (nops i : Nat) (l : Loop σ γ τ) : Option (Visit σ γ τ) :=
  match l.reader.u32 with
  | none => none
  | some (op, r) =>
    if op = OP_SEQUENCE then none else some ⟨op, i + 1 = nops, { l with reader := r }⟩

/-- The operations among the last `n` of `nops` that the loop comes to. -/
def Loop.visits (nops : Nat) : Nat → Loop σ γ τ → List (Visit σ γ τ)
  | 0, _ => []
  | n + 1, l =>
    (l.visit nops (nops - (n + 1))).toList ++
      match l.step E nops (nops - (n + 1)) with
      | .next l => l.visits nops n
      | .done _ => []
      | .replay _ => []

def compoundVisits (args : XdrReader) (w : XdrWriter) (s : Nfs41 σ) : List (Visit σ γ τ) :=
  match compoundHeader args with
  | none => []
  | some (tag, minor, nops, r) =>
    if minor ≠ 1 ∨ MAX_OPS < nops then []
    else Loop.visits E nops nops ⟨r, bodyStart w tag, E.start, s, NFS4_OK, 0, none, true, none⟩

end

def usedHandles (op : UInt32) (c : Ctx) : List (UInt16 × NodeKey) :=
  if op = OP_RENAME then c.sfh.toList ++ c.cfh.toList else c.cfh.toList

section

variable {ς : Type} (answer : (q : Call) → ς → q.Answer × ς) (ex : Export) (now : Ts)

def Visit.run (v : Visit (Live41 ς) Ctx SendableRead) :
    Asks.End Call (Except UInt32 (List XdrItem) × OpState) ς :=
  runOp ex answer now v.op v.isLast v.loop.allowSendfile v.loop.reader v.loop.ctx v.loop.server

structure Visit.Confined (v : Visit (Live41 ς) Ctx SendableRead) : Prop where
  refused : v.op = OP_PUTFH → ∀ fh ∈ putfhHandle ex.codec v.loop.reader, fh.1 ≠ ex.shareId →
    ∃ status, (v.run answer ex now).result.1 = .error status ∧ refusesHandle status
  own : ∀ q ∈ (v.run answer ex now).asked, q.nodes = [] ∨
    v.loop.ctx.cfh.isSome ∧ ∀ fh ∈ usedHandles v.op v.loop.ctx, fh.1 = ex.shareId

variable (conn : Nat) (args : XdrReader) (w : XdrWriter) (s : Nfs41 (Live41 ς))

def Confined4 : Prop :=
  ∀ v ∈ compoundVisits (evaluator ex answer now conn) args w s, v.Confined answer ex now

def OwnPutfhs : Prop :=
  ∀ v ∈ compoundVisits (evaluator ex answer now conn) args w s, v.op = OP_PUTFH →
    ∀ fh ∈ putfhHandle ex.codec v.loop.reader, fh.1 = ex.shareId

end

section

variable {ς : Type} {answer : (q : Call) → ς → q.Answer × ς} {ex : Export} {now : Ts} {conn : Nat}

theorem putfh_ok {v : Visit (Live41 ς) Ctx SendableRead} {fh : UInt16 × NodeKey}
    (hop : v.op = OP_PUTFH) (hfh : putfhHandle ex.codec v.loop.reader = some fh) :
    (v.run answer ex now).result.1 = .ok [] := by
  obtain ⟨p, hread, hdecode⟩ := bind_eq_some_iff.mp hfh
  rw [Visit.run, runOp, hop]
  show (Asks.run answer (evalPutfh ex _) _).result.1 = _
  rw [evalPutfh_ok hread hdecode]
  rfl

theorem Loop.step_own {nops i : Nat} {l l' : Loop (Live41 ς) Ctx SendableRead}
    (h : l.ctx.Own (· = ex.shareId))
    (hown : ∀ v ∈ l.visit nops i, v.op = OP_PUTFH →
      ∀ fh ∈ putfhHandle ex.codec v.loop.reader, fh.1 = ex.shareId)
    (hstep : l.step (evaluator ex answer now conn) nops i = .next l') :
    l'.ctx.Own (· = ex.shareId) := by
  unfold visit at hown
  unfold step at hstep
  cases hop : l.reader.u32 with
  | none =>
    rw [hop] at hstep
    cases hstep
  | some p =>
    obtain ⟨op, r⟩ := p
    simp only [hop] at hstep hown
    by_cases hseq : op = OP_SEQUENCE
    · rw [if_pos hseq] at hstep
      split at hstep
      · cases hstep
      split at hstep
      · cases hstep
        exact h
      · cases hstep
      · cases hstep
    · rw [if_neg hseq] at hstep hown
      have hended : Ended (· = ex.shareId) l.allowSendfile (runOp ex answer now op (i + 1 = nops)
          l.allowSendfile r l.ctx l.server).result.2 :=
        (runOp_ends ex answer now h rfl (hown _ rfl)).1
      unfold evalOp at hstep
      dsimp only at hstep
      split at hstep
      · cases hstep
        show (opEnd ..).ctx.Own _
        rw [(opEnd_ctx ..).1]
        exact hended.1
      · cases hstep

theorem visits_own {nops n : Nat} {l : Loop (Live41 ς) Ctx SendableRead}
    (h : l.ctx.Own (· = ex.shareId))
    (hown : ∀ v ∈ l.visits (evaluator ex answer now conn) nops n, v.op = OP_PUTFH →
      ∀ fh ∈ putfhHandle ex.codec v.loop.reader, fh.1 = ex.shareId) :
    ∀ v ∈ l.visits (evaluator ex answer now conn) nops n, v.loop.ctx.Own (· = ex.shareId) := by
  induction n generalizing l with
  | zero => exact fun v hv => nomatch hv
  | succ n ih =>
    intro v hv
    rcases mem_append.mp hv with hhere | hlater
    · have hctx : v.loop.ctx = l.ctx := by
        have hvisit := mem_toList.mp hhere
        unfold visit at hvisit
        split at hvisit
        · cases hvisit
        split at hvisit
        · cases hvisit
        · cases hvisit
          rfl
      rw [hctx]
      exact h
    · cases hstep : l.step (evaluator ex answer now conn) nops (nops - (n + 1)) with
      | done _ =>
        rw [hstep] at hlater
        cases hlater
      | replay _ =>
        rw [hstep] at hlater
        cases hlater
      | next l' =>
        have hl' := step_own h (fun v hv => hown v (mem_append_left _ (mem_toList.mpr hv))) hstep
        have hrest : ∀ v ∈ l'.visits (evaluator ex answer now conn) nops n,
            v ∈ l.visits (evaluator ex answer now conn) nops (n + 1) := by
          intro v hv
          refine mem_append_right _ ?_
          rw [hstep]
          exact hv
        rw [hstep] at hlater
        exact ih hl' (fun v hv => hown v (hrest v hv)) v hlater

theorem confined4_iff (args : XdrReader) (w : XdrWriter) (s : Nfs41 (Live41 ς)) :
    Confined4 answer ex now conn args w s ↔ OwnPutfhs answer ex now conn args w s := by
  constructor
  · intro h v hv hop fh hfh
    by_contra hne
    obtain ⟨status, hstatus, -⟩ := (h v hv).refused hop fh hfh hne
    rw [putfh_ok hop hfh] at hstatus
    cases hstatus
  · intro h v hv
    refine ⟨fun hop fh hfh hne => absurd (h v hv hop fh hfh) hne, fun q hq => ?_⟩
    have hown : v.loop.ctx.Own (· = ex.shareId) := by
      have hstart : Ctx.start.Own (· = ex.shareId) := ⟨nofun, nofun⟩
      unfold OwnPutfhs compoundVisits at h
      unfold compoundVisits at hv
      split at hv
      · cases hv
      split at hv
      · cases hv
      · rename_i hhead hpass
        simp only [hhead, if_neg hpass] at h
        exact visits_own hstart h v hv
    obtain hnone | ⟨fh, hfh⟩ := (runOp_ends ex answer now hown rfl (h v hv)).2 q hq
    · exact .inl hnone
    refine .inr ⟨by rw [hfh]; rfl, fun fh' hfh' => ?_⟩
    unfold usedHandles at hfh'
    split at hfh'
    · rcases mem_append.mp hfh' with hs | hcur
      · exact hown.2 fh' (mem_toList.mp hs)
      · exact hown.1 fh' (mem_toList.mp hcur)
    · exact hown.1 fh' (mem_toList.mp hfh')

end

/-- A request is confined to the server's share exactly if it brings no handle of another one, or is
a RENAME that fails for its second handle. -/
theorem handle_confinement (ex : Export) :
    (∀ (σ : Type) (answer : (q : Call) → σ → q.Answer × σ) (s : σ) (proc : UInt32)
        (args : XdrReader) (w : XdrWriter),
      Confined3 answer s ex proc args w ↔ OwnHandles ex.codec ex.shareId proc args) ∧
    ∀ (ς : Type) (answer : (q : Call) → ς → q.Answer × ς) (now : Ts) (conn : Nat) (args : XdrReader)
        (w : XdrWriter) (s : Nfs41 (Live41 ς)),
      Confined4 answer ex now conn args w s ↔ OwnPutfhs answer ex now conn args w s :=
  ⟨fun _ answer s proc args w => confined3_iff answer s ex proc args w,
    fun _ _ _ _ args w s => confined4_iff args w s⟩

def mountOf (share : UInt16) : Export where
  codec := ⟨fun share flags node => share.toUInt64 * 31 + flags.toUInt64 * 7 + node.ino⟩
  shareId := share
  root := ⟨2, 0⟩
  writable := true
  writesAreStable := false

def oneFile : (q : Call) → Unit → q.Answer × Unit
  | .getattr _, s => (.ok ⟨.reg, 0x1a4, 1, 0, 0, 5, 8, ⟨0, 0⟩, ⟨0, 0⟩, 0, 0, none⟩, s)
  | .fsstat, s => (⟨0, 0, 0, 0, 0⟩, s)
  | .lookup .., s | .create .., s => (.error .stale, s)
  | .readdir .., s => (.error .stale, s)
  | .readlink .., s => (.error .stale, s)
  | .parent .., s => (.error .stale, s)
  | .read .., s => (.error .stale, s)
  | .readSendable .., s => (none, s)
  | .readInto .., s => (none, s)
  | .remove .., s | .rename .., s => (.error .stale, s)
  | .setattr .., s | .write .., s | .commit .., s => (.error .stale, s)

def newServer : Nfs41 (Live41 Unit) :=
  ⟨fun _ => none, ⟨[], [], [], [], 1, 1, List.replicate 8 0, fun _ => 0, 0, [], []⟩, (), []⟩

def handleOfFirst : List UInt8 := be32 28 ++ (mountOf 1).codec.encode 1 ⟨7, 0⟩

def getattrOfFirst : XdrReader :=
  ⟨be32 0 ++ be32 1 ++ be32 2 ++ be32 OP_PUTFH ++ handleOfFirst ++ be32 OP_GETATTR ++ be32 1 ++
    be32 2⟩

/-- The server of share 2 answers a GETATTR of a handle of share 1 from its own node with the same
key. -/
theorem foreign_handle_served :
    ((dispatch (mountOf 2) ⟨handleOfFirst⟩ .new PROC_GETATTR).run oneFile ()).asked =
        [.getattr ⟨7, 0⟩] ∧
      ((dispatch (mountOf 2) ⟨handleOfFirst⟩ .new PROC_GETATTR).run oneFile ()).result.status .new =
        some NFS3_OK ∧
      ¬ Confined3 oneFile () (mountOf 2) PROC_GETATTR ⟨handleOfFirst⟩ .new ∧
      ¬ Confined4 oneFile (mountOf 2) ⟨0, 0⟩ 0 getattrOfFirst .new newServer := by
  have hasked : ((dispatch (mountOf 2) ⟨handleOfFirst⟩ .new PROC_GETATTR).run oneFile ()).asked =
      [.getattr ⟨7, 0⟩] := by decide +kernel
  refine ⟨hasked, by decide +kernel, fun h => ?_, fun h => ?_⟩
  · have hquiet := (h (1, ⟨7, 0⟩) (by decide +kernel) (by decide)).2 (.getattr ⟨7, 0⟩)
      (by simp [hasked])
    exact hquiet (mem_singleton_self _)
  have hvisit : ((compoundVisits (evaluator (mountOf 2) oneFile ⟨0, 0⟩ 0) getattrOfFirst .new
      newServer).any fun v => v.op = OP_PUTFH && (putfhHandle (mountOf 2).codec v.loop.reader).any
        fun fh => fh.1 ≠ 2) = true := by decide +kernel
  obtain ⟨v, hv, hforeign⟩ := any_eq_true.mp hvisit
  obtain ⟨hop, hfh⟩ := Bool.and_eq_true_iff.mp hforeign
  obtain ⟨fh, hfh, hne⟩ := (Option.any_eq_true ..).mp hfh
  exact of_decide_eq_true hne ((confined4_iff ..).mp h v hv (of_decide_eq_true hop) fh hfh)

end Mist.Nfs
