import Mist.Hostd.Reads

/-! Optimistic attributes.  An UNSTABLE write is answered from the replica, before the guest has its
bytes. -/

namespace Mist.Optimistic

open List Option Runs ShareReplica Reaches

def saturatingMul (a b : UInt64) : UInt64 :=
  if a.toNat * b.toNat < 18446744073709551616 then a * b else u64Max

/-- `next_optimistic_ts`, in nanoseconds: after the time, `floor` and every earlier one.  `clock` is
the counter of the process. -/
def nextOptimistic (now clock : UInt64) (floor : Ts) : UInt64 :=
  let sec := if floor.sec < 0 then 0 else floor.sec.toUInt64
  let floorNanos := saturatingAdd (saturatingMul sec 1000000000) floor.nsec.toUInt64
  maxU64 (maxU64 now floorNanos) clock + 1

def tsOfNanos (nanos : UInt64) : Ts := ⟨(nanos / 1000000000).toInt64, (nanos % 1000000000).toUInt32⟩

/-- Where a request is.  It holds attributes from the time a write reads them, or the guest answers a
mode change, until it stores them and is acknowledged. -/
inductive Phase where
  | requested
  | holding (attr : Attr)
  | acknowledged
  deriving DecidableEq

def Phase.held : Phase → Option Attr
  | .holding attr => some attr
  | _ => none

/-- An UNSTABLE write; `landed` says that the guest has its batch. -/
structure Write where
  offset : UInt64
  data : List UInt8
  phase : Phase
  landed : Bool

/-- `offset + data.len()`, which wraps. -/
def Write.fin (w : Write) : UInt64 := w.offset + .ofNat w.data.length

structure ModeChange where
  mode : UInt16
  phase : Phase

/-- `guest` are the guest's attributes of the node, and `clock` is the counter of optimistic mtimes.
`lastMode` only records the mode of the last mode change that was acknowledged. -/
structure State where
  replica : ShareReplica
  guest : Attr
  clock : UInt64
  writes : List Write
  modes : List ModeChange
  lastMode : Option UInt16

def State.start (replica : ShareReplica) (guest : Attr) (clock : UInt64) : State :=
  ⟨replica, guest, clock, [], [], none⟩

inductive Action where
  | write (offset : UInt64) (data : List UInt8)
  | getattr (i : Nat)
  | land (i : Nat) (mtime : Ts)
  | store (i : Nat) (now : UInt64)
  | setMode (mode : UInt16)
  | execute (j : Nat) (ctime : Ts)
  | finish (j : Nat)

namespace State

variable (s : State)

def shown (node : NodeKey) : Option Attr := (s.replica.getattr node).toOption

def put (node : NodeKey) (attr : Attr) : State :=
  { s with replica := (s.replica.applyRec (.attrChanged node attr)).1 }

def optimistic (w : Write) (attr : Attr) (now : UInt64) : Attr :=
  { attr with
    size := maxU64 attr.size w.fin
    mtime := tsOfNanos (nextOptimistic now s.clock attr.mtime) }

/-- An empty write is no UNSTABLE one, and the guest has no file beyond `off_t`. -/
def step (node : NodeKey) : Action → Option State
  | .write offset data =>
    if data = [] then none
    else some { s with writes := s.writes ++ [⟨offset, data, .requested, false⟩] }
  | .getattr i => do
    let w ← s.writes[i]?
    let attr ← s.shown node
    if w.phase = .requested then
      some { s with writes := s.writes.set i { w with phase := .holding attr } }
    else none
  | .land i mtime => do
    let w ← s.writes[i]?
    if w.phase ≠ .requested ∧ w.landed = false ∧
        w.offset.toNat + w.data.length < 9223372036854775808 then
      some { s with
        writes := s.writes.set i { w with landed := true }
        guest := { s.guest with size := maxU64 s.guest.size w.fin, mtime := mtime, ctime := mtime } }
    else none
  | .store i now => do
    let w ← s.writes[i]?
    let attr ← w.phase.held
    some { s.put node (s.optimistic w attr now) with
      clock := nextOptimistic now s.clock attr.mtime
      writes := s.writes.set i { w with phase := .acknowledged } }
  | .setMode mode => some { s with modes := s.modes ++ [⟨mode, .requested⟩] }
  | .execute j ctime => do
    let c ← s.modes[j]?
    if c.phase = .requested then
      let guest := { s.guest with mode := c.mode, ctime := ctime }
      some { s with guest := guest, modes := s.modes.set j { c with phase := .holding guest } }
    else none
  | .finish j => do
    let c ← s.modes[j]?
    let attr ← c.phase.held
    some { s.put node (s.replica.monotonic node attr) with
      modes := s.modes.set j { c with phase := .acknowledged }
      lastMode := some c.mode }

end State

/-- What is stored is no older than what is shown: a write stores the mode that is shown and no
smaller size, and its end does not wrap; the answer to a mode change has no smaller size. -/
def Fresh (node : NodeKey) (s : State) : Action → Prop
  | .store i _ => ∀ w ∈ s.writes[i]?, ∀ attr ∈ w.phase.held,
      w.offset.toNat + w.data.length < 18446744073709551616 ∧
      ∀ cur ∈ s.shown node, cur.mode = attr.mode ∧ cur.size ≤ maxU64 attr.size w.fin
  | .finish j => ∀ c ∈ s.modes[j]?, ∀ attr ∈ c.phase.held,
      ∀ cur ∈ s.shown node, cur.size ≤ attr.size
  | _ => True

instance (node : NodeKey) (s : State) : (a : Action) → Decidable (Fresh node s a)
  | .store .. => inferInstanceAs (Decidable (∀ w ∈ _, ∀ attr ∈ _, _ ∧ ∀ cur ∈ _, _))
  | .finish _ => inferInstanceAs (Decidable (∀ c ∈ _, ∀ attr ∈ _, ∀ cur ∈ _, _))
  | .write .. | .getattr _ | .land .. | .setMode _ | .execute .. => .isTrue trivial

theorem shown_put {s : State} {node : NodeKey} (attr : Attr) (hlive : s.replica.live node) :
    ∃ a, (s.put node attr).shown node = some a ∧ a.agrees attr := by
  obtain ⟨a, ha, hagrees⟩ := attrChanged_shows hlive attr
  exact ⟨a, congrArg Except.toOption ha, hagrees⟩

theorem getattr_of_shown {s : State} {node : NodeKey} {a : Attr} (h : s.shown node = some a) :
    s.replica.getattr node = .ok a := by
  rw [State.shown] at h
  cases hget : s.replica.getattr node with
  | error e => rw [hget] at h; cases h
  | ok b => rw [hget] at h; cases h; rfl

theorem monotonic_eq (r : ShareReplica) (node : NodeKey) (a : Attr) :
    r.monotonic node a = { a with mtime := (r.monotonic node a).mtime } := by
  simp only [monotonic]
  split
  · split <;> rfl
  · rfl

structure Kept (node : NodeKey) (s : State) : Prop where
  known : ∃ a, s.shown node = some a
  covers : ∀ a ∈ s.shown node, ∀ w ∈ s.writes, w.phase = .acknowledged →
    w.offset.toNat + w.data.length ≤ a.size.toNat
  mode : ∀ a ∈ s.shown node, ∀ m ∈ s.lastMode, a.mode = m
  answers : ∀ c ∈ s.modes, ∀ a ∈ c.phase.held, a.mode = c.mode

section

variable {node : NodeKey} {s : State}

theorem Kept.writes (h : Kept node s) {ws : List Write} (guest : Attr)
    (hws : ∀ w ∈ ws, w.phase = .acknowledged →
      ∃ v ∈ s.writes, v.phase = .acknowledged ∧ v.offset = w.offset ∧ v.data = w.data) :
    Kept node { s with writes := ws, guest := guest } where
  known := h.known
  covers a ha w hw hack := by
    obtain ⟨v, hv, hvack, hoff, hdata⟩ := hws w hw hack
    rw [← hoff, ← hdata]
    exact h.covers a ha v hv hvack
  mode := h.mode
  answers := h.answers

theorem Kept.put (h : Kept node s) {attr : Attr} {clock : UInt64} {ws : List Write}
    {cs : List ModeChange} {last : Option UInt16}
    (hws : ∀ w ∈ ws, w.phase = .acknowledged → w ∈ s.writes ∨
      w.offset.toNat + w.data.length ≤ attr.size.toNat)
    (hsize : ∀ cur ∈ s.shown node, cur.size ≤ attr.size)
    (hmode : ∀ m ∈ last, attr.mode = m)
    (hcs : ∀ c ∈ cs, ∀ a ∈ c.phase.held, a.mode = c.mode) :
    Kept node { s.put node attr with clock := clock, writes := ws, modes := cs, lastMode := last } := by
  obtain ⟨cur, hcur⟩ := h.known
  obtain ⟨b, hb, hagrees⟩ := shown_put attr (live_of_getattr (getattr_of_shown hcur))
  have hbsize : b.size = attr.size := by rw [hagrees]
  have hbmode : b.mode = attr.mode := by rw [hagrees]
  have hget : ∀ a ∈ (s.put node attr).shown node, a = b := fun a ha => mem_unique ha hb
  refine ⟨⟨b, hb⟩, fun a ha w hw hack => ?_, fun a ha m hm => ?_, hcs⟩
  · rw [hget a ha, hbsize]
    rcases hws w hw hack with hold | hnew
    · exact (h.covers cur hcur w hold hack).trans (UInt64.le_iff_toNat_le.mp (hsize cur hcur))
    · exact hnew
  · rw [hget a ha, hbmode]
    exact hmode m hm

theorem covered_optimistic {w : Write} {attr : Attr} {now : UInt64}
    (hfin : w.offset.toNat + w.data.length < 18446744073709551616) :
    w.offset.toNat + w.data.length ≤ (s.optimistic w attr now).size.toNat := by
  have hnat : w.fin.toNat = w.offset.toNat + w.data.length := by
    rw [Write.fin, UInt64.toNat_add, UInt64.toNat_ofNat', Nat.add_mod_mod]
    omega
  change _ ≤ (maxU64 attr.size w.fin).toNat
  rw [maxU64_toNat, hnat]
  omega

theorem Kept.step (h : Kept node s) {a : Action} {s' : State} (hok : Fresh node s a)
    (hstep : s.step node a = some s') : Kept node s' := by
  cases a with
  | write offset data =>
    simp only [State.step] at hstep
    split at hstep
    · cases hstep
    cases hstep
    exact h.writes s.guest (forall_concat (fun w hw hack => ⟨w, hw, hack, rfl, rfl⟩) nofun)
  | getattr i =>
    obtain ⟨w, hw, hstep⟩ := bind_eq_some_iff.mp hstep
    obtain ⟨attr, -, hstep⟩ := bind_eq_some_iff.mp hstep
    obtain ⟨-, ⟨⟩⟩ := ite_none_right_eq_some.mp hstep
    exact h.writes s.guest (forall_set (fun v hv hack => ⟨v, hv, hack, rfl, rfl⟩) nofun)
  | land i mtime =>
    obtain ⟨w, hw, hstep⟩ := bind_eq_some_iff.mp hstep
    obtain ⟨-, ⟨⟩⟩ := ite_none_right_eq_some.mp hstep
    exact h.writes _ (forall_set (fun v hv hack => ⟨v, hv, hack, rfl, rfl⟩)
      fun hack => ⟨w, mem_of_getElem? hw, hack, rfl, rfl⟩)
  | store i now =>
    obtain ⟨w, hw, hstep⟩ := bind_eq_some_iff.mp hstep
    obtain ⟨attr, hattr, hstep⟩ := bind_eq_some_iff.mp hstep
    cases hstep
    obtain ⟨hfin, hcur⟩ := hok w hw attr hattr
    obtain ⟨cur, hshown⟩ := h.known
    refine h.put (forall_set (fun v hv _ => .inl hv) fun _ => .inr (covered_optimistic hfin))
      (fun c hc => (hcur c hc).2) (fun m hm => ?_) h.answers
    exact (hcur cur hshown).1.symm.trans (h.mode cur hshown m hm)
  | setMode mode =>
    cases hstep
    exact { h with answers := forall_concat h.answers nofun }
  | execute j ctime =>
    obtain ⟨c, hc, hstep⟩ := bind_eq_some_iff.mp hstep
    obtain ⟨-, ⟨⟩⟩ := ite_none_right_eq_some.mp hstep
    refine { h with answers := forall_set h.answers fun a ha => ?_ }
    cases ha
    rfl
  | finish j =>
    obtain ⟨c, hc, hstep⟩ := bind_eq_some_iff.mp hstep
    obtain ⟨attr, hattr, hstep⟩ := bind_eq_some_iff.mp hstep
    cases hstep
    have hmono := monotonic_eq s.replica node attr
    refine h.put (fun v hv _ => .inl hv) (fun cur hcur => ?_) (fun m hm => ?_)
      (forall_set h.answers nofun)
    · rw [hmono]
      exact hok c hc attr hattr cur hcur
    · cases hm
      rw [hmono]
      exact h.answers c (mem_of_getElem? hc) attr hattr

end

/-- As long as nothing older than what is shown is stored, the replica shows every write and the
last mode change that were acknowledged. -/
theorem acknowledged_shown {node : NodeKey} {replica : ShareReplica} {guest : Attr}
    {clock : UInt64} {s : State} (hlive : replica.live node)
    (h : Runs.Reaches (fun s a => s.step node a) (Fresh node) (.start replica guest clock) s) :
    ∃ a, s.replica.getattr node = .ok a ∧
      (∀ w ∈ s.writes, w.phase = .acknowledged → w.offset.toNat + w.data.length ≤ a.size.toNat) ∧
      ∀ m, s.lastMode = some m → a.mode = m := by
  have hstart : Kept node (.start replica guest clock) := by
    obtain ⟨n, hn⟩ := isSome_iff_exists.mp hlive
    refine ⟨⟨_, by rw [State.shown, State.start, getattr_eq_ok hn]; rfl⟩,
      fun _ _ w hw => ?_, fun _ _ m hm => ?_, fun c hc => ?_⟩
    · cases hw
    · cases hm
    · cases hc
  have hkept := h.inv hstart fun t a u ht hok hu => ht.step hok hu
  obtain ⟨a, ha⟩ := hkept.known
  exact ⟨a, getattr_of_shown ha, fun w hw => hkept.covers a ha w hw, fun m hm => hkept.mode a ha m hm⟩

def emptyFile : State :=
  .start ((ShareReplica.new ⟨⟨1⟩, ⟨1, 1⟩⟩).upsertNode ⟨2, 1⟩ (placeholderAttr .reg) ⟨1, 1⟩)
    (placeholderAttr .reg) 0

/-- Two writes that wait at the same time, the later end last, and then a mode change. -/
theorem acknowledged_shown_ascending :
    ∃ s a, Runs.Reaches (fun s a => s.step ⟨2, 1⟩ a) (Fresh ⟨2, 1⟩) emptyFile s ∧
      s.replica.getattr ⟨2, 1⟩ = .ok a ∧ 8 ≤ a.size.toNat ∧ a.mode = 0o600 := by
  obtain ⟨s, hs, hend⟩ : ∃ s, Reaches (fun s a => s.step ⟨2, 1⟩ a) (Fresh ⟨2, 1⟩) emptyFile s ∧
      (∃ w ∈ s.writes, w.phase = .acknowledged ∧ w.offset.toNat + w.data.length = 8) ∧
      s.lastMode = some 0o600 :=
    exists_of_guarded
      [.write 0 [1, 1, 1, 1], .write 4 [2, 2, 2, 2], .getattr 0, .getattr 1, .store 0 5, .store 1 5,
        .setMode 0o600, .land 0 ⟨1, 0⟩, .land 1 ⟨2, 0⟩, .execute 0 ⟨3, 0⟩, .finish 0]
      (by decide +kernel)
  obtain ⟨⟨w, hw, hack, hfin⟩, hlast⟩ := hend
  obtain ⟨a, ha, hsize, hmode⟩ := acknowledged_shown (by decide +kernel) hs
  exact ⟨s, a, hs, ha, hfin ▸ hsize w hw hack, hmode _ hlast⟩

/-- Of two writes that read the same attributes the second to store takes the size back; a write
takes a mode back, and a mode change a size. -/
theorem acknowledged_lost :
    (∃ s, Runs.Reaches (fun s a => s.step ⟨2, 1⟩ a) (fun _ _ => True) emptyFile s ∧
      (∀ w ∈ s.writes, w.phase = .acknowledged) ∧
      ∃ a ∈ s.shown ⟨2, 1⟩, ∃ w ∈ s.writes, a.size.toNat < w.offset.toNat + w.data.length) ∧
    (∃ s, Runs.Reaches (fun s a => s.step ⟨2, 1⟩ a) (fun _ _ => True) emptyFile s ∧
      (∀ w ∈ s.writes, w.phase = .acknowledged) ∧ (∀ c ∈ s.modes, c.phase = .acknowledged) ∧
      ∃ a ∈ s.shown ⟨2, 1⟩, ∃ m ∈ s.lastMode, a.mode ≠ m) ∧
    ∃ s, Runs.Reaches (fun s a => s.step ⟨2, 1⟩ a) (fun _ _ => True) emptyFile s ∧
      (∀ w ∈ s.writes, w.phase = .acknowledged) ∧ (∀ c ∈ s.modes, c.phase = .acknowledged) ∧
      ∃ a ∈ s.shown ⟨2, 1⟩, ∃ w ∈ s.writes, a.size.toNat < w.offset.toNat + w.data.length := by
  refine ⟨?_, ?_, ?_⟩
  · exact exists_of_guarded
      [.write 0 [1, 1, 1, 1], .write 4 [2, 2, 2, 2], .getattr 0, .getattr 1, .store 1 5, .store 0 5]
      (by decide +kernel)
  · exact exists_of_guarded
      [.write 0 [1], .getattr 0, .setMode 0o600, .execute 0 ⟨3, 0⟩, .finish 0, .store 0 5]
      (by decide +kernel)
  · exact exists_of_guarded
      [.setMode 0o600, .execute 0 ⟨3, 0⟩, .write 0 [1], .getattr 0, .store 0 5, .finish 0]
      (by decide +kernel)

def setattrReturns (r : ShareReplica) (node : NodeKey) : Except NfsError RpcResp → Option Attr
  | .ok (.attr a) => some (r.monotonic node a)
  | _ => none

section

variable {K : Kernel} {T : Tree}

theorem setattr_answer (hK : ∀ a t, (K.utimensat a t).mtime = t) {node : NodeKey} {set : NfsSetAttr}
    {t : Ts} (ht : set.mtime = some t) {a : Attr}
    (h : ((K.setattr node set).run.run T).1 = .ok a) : a.mtime = t := by
  obtain ⟨T', hrun⟩ : ∃ T', (K.setattr node set).run.run T = (.ok a, T') := ⟨_, Prod.ext h rfl⟩
  obtain ⟨_, _, -, hrun⟩ := bind_ok hrun
  obtain ⟨_, _, -, hrun⟩ := bind_ok hrun
  obtain ⟨_, _, -, hrun⟩ := bind_ok hrun
  obtain ⟨_, T₁, hset, hrun⟩ := bind_ok hrun
  obtain ⟨_, T₂, hstat, hread⟩ := bind_ok hrun
  have hsame := call_ok hstat
  simp only [Kernel.change, ht] at hset
  split at hset
  · cases hset
  · cases hset
    cases hread
    simp [hsame, Kernel.update, hK]

section

variable (hK : ∀ a t, (K.utimensat a t).mtime = t) (readonly : Bool) (T) (r : ShareReplica)
  (drained : Option NfsError) (fate : Fate) (now : Ts) (node : NodeKey) (cur : Attr)
  (hcur : r.getattr node = .ok cur) (set : NfsSetAttr) (t : Ts) (ht : set.mtime = some t)
  (hok : ((Mutation.setattr node set).run K readonly T r drained fate now).error = none)
include hK hcur ht hok

/-- A SETATTR that succeeds returns and shows the later of two mtimes. -/
theorem set_mtime_clamps :
    ∃ a b, setattrReturns r node
        (fate.mutate ((RpcReq.setAttr node set).execute K readonly T).1) = some a ∧
      ((Mutation.setattr node set).run K readonly T r drained fate now).replica.getattr node = .ok b ∧
      a.mtime = (if t.before cur.mtime then cur.mtime else t) ∧ b.mtime = a.mtime := by
  rw [Mutation.run] at hok ⊢
  split at hok
  · cases hok
  cases fate with
  | unsent => cases hok
  | timedOut => cases hok
  | dropped executed => cases hok
  | answered =>
    simp only [Mutation.request, Fate.executes, if_true] at hok ⊢
    cases hresp : ((RpcReq.setAttr node set).execute K readonly T).1 with
    | ok => rw [hresp] at hok; cases hok
    | entry k a => rw [hresp] at hok; cases hok
    | err errno => rw [hresp] at hok; cases hok
    | attr a =>
      have ha : a.mtime = t := by
        rw [RpcReq.execute] at hresp
        split at hresp
        · cases hresp
        rcases hrun : (K.setattr node set).run.run T with ⟨e | a', T'⟩
        · rw [hrun] at hresp
          cases hresp
        · rw [hrun] at hresp
          cases hresp
          exact setattr_answer hK ht (congrArg Prod.fst hrun)
      obtain ⟨b, hb, hagrees⟩ := attrChanged_shows (live_of_getattr hcur) (r.monotonic node a)
      refine ⟨_, b, rfl, hb, ?_, by rw [hagrees]⟩
      rw [monotonic, hcur]
      dsimp only
      rw [ha]
      split
      · rfl
      · exact ha

end

/-- It returns and shows the mtime it was to set exactly if that is not before the one the replica
had. -/
theorem set_mtime_iff (K : Kernel) (hK : ∀ a t, (K.utimensat a t).mtime = t) (readonly : Bool)
    (T : Tree) (r : ShareReplica) (drained : Option NfsError) (fate : Fate) (now : Ts)
    (node : NodeKey) (cur : Attr) (hcur : r.getattr node = .ok cur) (set : NfsSetAttr) (t : Ts)
    (ht : set.mtime = some t)
    (hok : ((Mutation.setattr node set).run K readonly T r drained fate now).error = none) :
    (∃ a b, setattrReturns r node
          (fate.mutate ((RpcReq.setAttr node set).execute K readonly T).1) = some a ∧ a.mtime = t ∧
        ((Mutation.setattr node set).run K readonly T r drained fate now).replica.getattr node = .ok b ∧
        b.mtime = t) ↔ ¬ t.before cur.mtime := by
  obtain ⟨a, b, hret, hb, ha, hab⟩ :=
    set_mtime_clamps T hK readonly r drained fate now node cur hcur set t ht hok
  constructor
  · rintro ⟨a', -, hret', ha', -, -⟩ hbefore
    obtain rfl := mem_unique hret hret'
    rw [if_pos hbefore] at ha
    rw [← ha', ha, Ts.before] at hbefore
    simp at hbefore
  · intro hbefore
    rw [if_neg hbefore] at ha
    exact ⟨a, b, hret, ha, hb, hab.trans ha⟩

def touchedFile : ShareReplica :=
  (emptyFile.replica.applyRec (.attrChanged ⟨2, 1⟩ { placeholderAttr .reg with mtime := ⟨5, 0⟩ })).1

theorem touchedFile_mtime : ∃ cur, touchedFile.getattr ⟨2, 1⟩ = .ok cur ∧ cur.mtime = ⟨5, 0⟩ := by
  obtain ⟨cur, hcur, hagrees⟩ := attrChanged_shows
    (show emptyFile.replica.live ⟨2, 1⟩ by decide +kernel)
    { placeholderAttr .reg with mtime := ⟨5, 0⟩ }
  exact ⟨cur, hcur, by rw [hagrees]⟩

theorem set_mtime_iff_later : ∃ a b,
    setattrReturns touchedFile ⟨2, 1⟩ (Fate.answered.mutate ((RpcReq.setAttr ⟨2, 1⟩
      ⟨none, none, none, some 0, some ⟨7, 0⟩⟩).execute (simpleKernel fun _ => none) false oneFile).1) =
      some a ∧ a.mtime = ⟨7, 0⟩ ∧
    ((Mutation.setattr ⟨2, 1⟩ ⟨none, none, none, some 0, some ⟨7, 0⟩⟩).run (simpleKernel fun _ => none)
      false oneFile touchedFile none .answered ⟨0, 0⟩).replica.getattr ⟨2, 1⟩ = .ok b ∧
    b.mtime = ⟨7, 0⟩ := by
  obtain ⟨cur, hcur, hmtime⟩ := touchedFile_mtime
  refine (set_mtime_iff (simpleKernel fun _ => none) (fun _ _ => rfl) false oneFile touchedFile none
    .answered ⟨0, 0⟩ ⟨2, 1⟩ cur hcur ⟨none, none, none, some 0, some ⟨7, 0⟩⟩ ⟨7, 0⟩ rfl rfl).mpr ?_
  rw [hmtime]
  decide

theorem set_mtime_ignored :
    ((Mutation.setattr ⟨2, 1⟩ ⟨none, none, none, none, some ⟨3, 0⟩⟩).run (simpleKernel fun _ => none)
      false oneFile touchedFile none .answered ⟨0, 0⟩).error = none ∧
    ∃ b, ((Mutation.setattr ⟨2, 1⟩ ⟨none, none, none, none, some ⟨3, 0⟩⟩).run
        (simpleKernel fun _ => none) false oneFile touchedFile none .answered
        ⟨0, 0⟩).replica.getattr ⟨2, 1⟩ = .ok b ∧ b.mtime = ⟨5, 0⟩ := by
  obtain ⟨cur, hcur, hmtime⟩ := touchedFile_mtime
  obtain ⟨a, b, -, hb, ha, hab⟩ := set_mtime_clamps (K := simpleKernel fun _ => none)
    oneFile (fun _ _ => rfl) false touchedFile none .answered ⟨0, 0⟩ ⟨2, 1⟩ cur hcur
    ⟨none, none, none, none, some ⟨3, 0⟩⟩ ⟨3, 0⟩ rfl rfl
  refine ⟨rfl, b, hb, ?_⟩
  rw [hab, ha, hmtime]
  rfl

end

end Mist.Optimistic
