import Mist.Nfs.Table
import Mist.Runs

/-! The backchannels of NFSv4.1 sessions, and the connections they are bound to. -/

namespace Mist.Nfs.Backchannel

open List Option Runs Table

abbrev SessionId := List UInt8

/-- A connection: the sessions in its own list, and those whose SEQUENCE went through on it. -/
structure Conn where
  isOpen : Bool
  bound : List SessionId
  carried : List SessionId

/-- Where the SEQUENCE of a compound is: before the checks of session and slot, before the look at the
connection's list, before the binding itself, and at its end. -/
inductive Phase where
  | received | checked | pushed | done
  deriving DecidableEq

structure Handler where
  conn : Nat
  sid : SessionId
  phase : Phase
  deriving DecidableEq

structure State where
  live : List SessionId
  drawn : List SessionId
  conns : List Conn
  handlers : List Handler
  backchannels : Table SessionId Nat

/-- `eof` ends a connection in order; `fail` ends it with an error of the socket or a record that is
too large.  `run` takes a compound to its next phase, and `refuse` is a SEQUENCE that a check turns
down.  `destroySession` is also what becomes of the sessions of a client that goes, and `unbind` the
second half of DESTROY_SESSION. -/
inductive Action where
  | accept
  | createSession (sid : SessionId)
  | destroySession (sid : SessionId)
  | unbind (sid : SessionId)
  | recv (c : Nat) (sid : SessionId)
  | run (i : Nat)
  | refuse (i : Nat)
  | eof (c : Nat)
  | fail (c : Nat)

namespace State

def start : State := ⟨[], [], [], [], []⟩

def isOpen (s : State) (c : Nat) : Bool := (s.conns[c]?).any Conn.isOpen

def carries (s : State) (c : Nat) (sid : SessionId) : Bool :=
  (s.conns[c]?).any fun conn => conn.carried.contains sid

def binds (s : State) (c : Nat) (sid : SessionId) : Bool :=
  (s.conns[c]?).any fun conn => conn.bound.contains sid

def goes (s : State) (i : Nat) (phase : Phase) : State :=
  { s with handlers := s.handlers.modify i fun h => { h with phase } }

def carry (s : State) (i c : Nat) (sid : SessionId) : State :=
  { s.goes i .done with
    conns := s.conns.modify c fun conn => { conn with carried := sid :: conn.carried } }

def push (s : State) (i c : Nat) (sid : SessionId) : State :=
  { s.goes i .pushed with
    conns := s.conns.modify c fun conn => { conn with bound := conn.bound ++ [sid] } }

/-- The next phase of a compound.  A session that is in the connection's list already is not bound
again. -/
def runHandler (s : State) (i : Nat) (h : Handler) : Option State :=
  match h.phase with
  | .received => some (s.goes i (if h.sid ∈ s.live then .checked else .done))
  | .checked =>
    if s.binds h.conn h.sid then some (s.carry i h.conn h.sid)
    else some (s.push i h.conn h.sid)
  | .pushed =>
    some { s.carry i h.conn h.sid with backchannels := s.backchannels.insert h.sid h.conn }
  | .done => none

def shut (s : State) (c : Nat) : State :=
  { s with conns := s.conns.modify c fun conn => { conn with isOpen := false } }

def step (s : State) : Action → Option State
  | .accept => some { s with conns := s.conns ++ [⟨true, [], []⟩] }
  | .createSession sid =>
    if sid ∈ s.drawn then none
    else some { s with live := sid :: s.live, drawn := sid :: s.drawn }
  | .destroySession sid => some { s with live := s.live.filter fun other => other ≠ sid }
  | .unbind sid =>
    if sid ∈ s.live then none else some { s with backchannels := s.backchannels.remove sid }
  | .recv c sid =>
    if s.isOpen c then some { s with handlers := s.handlers ++ [⟨c, sid, .received⟩] } else none
  | .run i => s.handlers[i]?.bind (s.runHandler i)
  | .refuse i =>
    s.handlers[i]?.bind fun h => if h.phase = .received then some (s.goes i .done) else none
  | .eof c =>
    s.conns[c]?.bind fun conn =>
      if conn.isOpen then
        some { s.shut c with backchannels := conn.bound.foldl Table.remove s.backchannels }
      else none
  | .fail c => if s.isOpen c then some (s.shut c) else none

def Served (s : State) : Prop :=
  ∀ sid ∈ s.live, ∀ c < s.conns.length, s.isOpen c → s.carries c sid →
    (s.backchannels.get sid).any s.isOpen

instance (s : State) : Decidable s.Served :=
  inferInstanceAs (Decidable (∀ sid ∈ s.live, ∀ c < s.conns.length, _ → _ → _))

/-- No open connection but `c` has carried the session. -/
def OnlyBy (s : State) (c : Nat) (sid : SessionId) : Prop :=
  ∀ d < s.conns.length, d ≠ c → s.isOpen d → ¬ s.carries d sid

instance (s : State) (c : Nat) (sid : SessionId) : Decidable (s.OnlyBy c sid) :=
  inferInstanceAs (Decidable (∀ d < s.conns.length, _ → _ → _))

/-- A compound on an open connection that finds its session in the connection's list does so after
the binding itself, unless the session has another open backchannel; and one on a connection that has
ended does not bind a live session that an open connection has carried. -/
def HandlerCalm (s : State) (h : Handler) : Prop :=
  (h.phase = .checked → s.isOpen h.conn → h.sid ∈ s.live →
    (s.backchannels.get h.sid).any s.isOpen ∨ ∀ h' ∈ s.handlers, h' ≠ ⟨h.conn, h.sid, .pushed⟩) ∧
  (h.phase = .pushed → h.sid ∈ s.live → s.isOpen h.conn ∨ s.OnlyBy h.conn h.sid)
  deriving Decidable

/-- Compounds meet the connection's list as in `HandlerCalm`.  A connection that ends in order has
bound no live session that another open one has carried, and one that fails is not the backchannel of
such a session. -/
def Calm (s : State) : Action → Prop
  | .run i => ∀ h ∈ s.handlers[i]?, s.HandlerCalm h
  | .eof c => ∀ conn ∈ s.conns[c]?, ∀ sid ∈ conn.bound, sid ∈ s.live → s.OnlyBy c sid
  | .fail c => ∀ sid ∈ s.live, s.backchannels.get sid = some c → s.OnlyBy c sid
  | _ => True

instance (s : State) : (a : Action) → Decidable (s.Calm a)
  | .run _ => inferInstanceAs (Decidable (∀ h ∈ _, s.HandlerCalm h))
  | .eof c => inferInstanceAs (Decidable (∀ conn ∈ s.conns[c]?, ∀ sid ∈ conn.bound, _ → _))
  | .fail _ => inferInstanceAs (Decidable (∀ sid ∈ s.live, _ → _))
  | .accept | .createSession _ | .destroySession _ | .unbind _ | .recv .. | .refuse _ =>
    .isTrue trivial

end State

section

variable {s : State} {c d : Nat} {sid sid' : SessionId} {i : Nat} {p : Conn → Bool}

theorem any_modify {f : Conn → Conn} {q : Prop}
    (hf : ∀ conn, p (f conn) = true ↔ p conn = true ∨ q) (conns : List Conn) (c d : Nat) :
    ((conns.modify c f)[d]?).any p = true ↔
      (conns[d]?).any p = true ∨ d = c ∧ c < conns.length ∧ q := by
  by_cases hc : c = d
  · subst hc
    by_cases hlt : c < conns.length
    · simp [hlt, hf]
    · simp [hlt]
  · simp [hc, Ne.symm hc]

theorem any_modify_eq {f : Conn → Conn} (hf : ∀ conn, p (f conn) = p conn) (conns : List Conn)
    (c : Nat) : (fun d : Nat => ((conns.modify c f)[d]?).any p) = fun d => (conns[d]?).any p := by
  funext d
  have h := any_modify (p := p) (q := False) (fun conn => by rw [hf, or_false]) conns c d
  rwa [and_false, and_false, or_false, Bool.eq_iff_iff.symm] at h

theorem isOpen_carry : (s.carry i c sid).isOpen = s.isOpen := by
  refine any_modify_eq (p := Conn.isOpen) ?_ s.conns c
  exact fun _ => rfl

theorem carries_carry : (s.carry i c sid).carries d sid' ↔
    s.carries d sid' ∨ d = c ∧ c < s.conns.length ∧ sid' = sid := by
  refine any_modify (fun conn => ?_) s.conns c d
  rw [contains_cons, Bool.or_eq_true, beq_iff_eq, or_comm]

theorem binds_carry : (s.carry i c sid).binds d sid' = s.binds d sid' := by
  refine congrFun (any_modify_eq (p := fun conn => conn.bound.contains sid') ?_ s.conns c) d
  exact fun _ => rfl

theorem isOpen_push : (s.push i c sid).isOpen = s.isOpen := by
  refine any_modify_eq (p := Conn.isOpen) ?_ s.conns c
  exact fun _ => rfl

theorem carries_push : (s.push i c sid).carries d sid' = s.carries d sid' := by
  refine congrFun (any_modify_eq (p := fun conn => conn.carried.contains sid') ?_ s.conns c) d
  exact fun _ => rfl

theorem binds_push : (s.push i c sid).binds d sid' ↔
    s.binds d sid' ∨ d = c ∧ c < s.conns.length ∧ sid' = sid := by
  refine any_modify (fun conn => ?_) s.conns c d
  simp

theorem isOpen_shut : (s.shut c).isOpen d ↔ d ≠ c ∧ s.isOpen d := by
  simp only [State.isOpen, State.shut, getElem?_modify]
  by_cases hc : c = d
  · cases s.conns[d]? <;> simp [hc]
  · simp [hc, Ne.symm hc]

theorem carries_shut : (s.shut c).carries d sid = s.carries d sid := by
  refine congrFun (any_modify_eq (p := fun conn => conn.carried.contains sid) ?_ s.conns c) d
  exact fun _ => rfl

theorem binds_shut : (s.shut c).binds d sid = s.binds d sid := by
  refine congrFun (any_modify_eq (p := fun conn => conn.bound.contains sid) ?_ s.conns c) d
  exact fun _ => rfl

theorem any_append (conns : List Conn) (hp : p ⟨true, [], []⟩ = false) (d : Nat) :
    ((conns ++ [⟨true, [], []⟩])[d]?).any p = (conns[d]?).any p := by
  rcases Nat.lt_trichotomy d conns.length with hlt | heq | hgt
  · rw [getElem?_append_left hlt]
  · simp [heq, hp]
  · have hnew : conns.length + 1 ≤ d := hgt
    rw [getElem?_eq_none (by simpa using hnew), getElem?_eq_none (by omega)]

theorem get_foldl_remove (sids : List SessionId) (t : Table SessionId Nat) :
    (sids.foldl remove t).get sid = if sid ∈ sids then none else t.get sid := by
  induction sids generalizing t with
  | nil => simp
  | cons k sids ih =>
    rw [foldl_cons, ih, get_remove]
    by_cases hmem : sid ∈ sids
    · rw [if_pos hmem, if_pos (.tail _ hmem)]
    rw [if_neg hmem]
    by_cases hk : sid = k
    · rw [if_pos hk, if_pos (by rw [hk]; exact (.head _))]
    · rw [if_neg hk, if_neg (by simp [hk, hmem])]

variable {phase : Phase} {h h' : Handler}

variable (hi : s.handlers[i]? = some h)
include hi

theorem mem_goes (hmem : h' ∈ (s.goes i phase).handlers) :
    h' ∈ s.handlers ∨ h' = { h with phase } := by
  obtain ⟨j, hj⟩ := mem_iff_getElem?.mp hmem
  rw [State.goes, getElem?_modify] at hj
  obtain ⟨old, hold, rfl⟩ := map_eq_some_iff.mp hj
  by_cases hij : i = j
  · subst hij
    obtain rfl := mem_unique hi hold
    exact .inr (if_pos rfl)
  · rw [if_neg hij]
    exact .inl (mem_of_getElem? hold)

theorem mem_goes_self : { h with phase } ∈ (s.goes i phase).handlers := by
  refine mem_iff_getElem?.mpr ⟨i, ?_⟩
  simp only [State.goes, getElem?_modify, hi, if_true]
  rfl

theorem mem_goes_of_ne (hmem : h' ∈ s.handlers) (hne : h' ≠ h) :
    h' ∈ (s.goes i phase).handlers := by
  obtain ⟨j, hj⟩ := mem_iff_getElem?.mp hmem
  have hij : i ≠ j := fun hij => by
    subst hij
    exact hne (mem_unique hj hi)
  refine mem_iff_getElem?.mpr ⟨j, ?_⟩
  simp only [State.goes, getElem?_modify, if_neg hij, hj]
  rfl

end

/-- What every step keeps besides the backchannels: a session in a connection's list was carried
there, or its binding is still to be made; what is bound or about to be is in the list; and only ids
of sessions are looked for and carried. -/
structure Kept (s : State) : Prop where
  served : s.Served
  bound : ∀ c sid, s.binds c sid → s.carries c sid ∨ ⟨c, sid, .pushed⟩ ∈ s.handlers
  mapped : ∀ sid c, s.backchannels.get sid = some c → s.binds c sid
  making : ∀ h ∈ s.handlers, h.phase = .pushed → s.binds h.conn h.sid
  conn : ∀ h ∈ s.handlers, h.conn < s.conns.length
  live : ∀ sid ∈ s.live, sid ∈ s.drawn
  carried : ∀ c sid, s.carries c sid → sid ∈ s.drawn
  looked : ∀ h ∈ s.handlers, h.phase = .checked ∨ h.phase = .pushed → h.sid ∈ s.drawn

namespace Kept

variable {s t : State} {c i : Nat} {sid : SessionId} {h : Handler}

theorem start : Kept .start := by
  refine ⟨fun sid hsid => ?_, fun c sid hbinds => ?_, fun sid c hget => ?_, fun h hh => ?_,
    fun h hh => ?_, fun sid hsid => ?_, fun c sid hcarries => ?_, fun h hh => ?_⟩
  · cases hsid
  · cases hbinds
  · cases hget
  · cases hh
  · cases hh
  · cases hsid
  · cases hcarries
  · cases hh

section

variable (hs : Kept s)
include hs

section

variable (hi : s.handlers[i]? = some h)
include hi

theorem goes (hfrom : h.phase ≠ .pushed)
    {phase : Phase} (hphase : phase ≠ .pushed) (hto : phase = .checked → h.sid ∈ s.drawn) :
    Kept (s.goes i phase) := by
  refine ⟨hs.served, fun c sid hbinds => ?_, hs.mapped, fun h' hh' hp => ?_, fun h' hh' => ?_,
    hs.live, hs.carried, fun h' hh' hp => ?_⟩
  · refine (hs.bound c sid hbinds).imp_right fun hmem => mem_goes_of_ne hi hmem ?_
    rintro rfl
    exact hfrom rfl
  · rcases mem_goes hi hh' with hold | rfl
    · exact hs.making h' hold hp
    · exact absurd hp hphase
  · rcases mem_goes hi hh' with hold | rfl
    · exact hs.conn h' hold
    · exact hs.conn h (mem_of_getElem? hi)
  · rcases mem_goes hi hh' with hold | rfl
    · exact hs.looked h' hold hp
    · exact hto (hp.resolve_right hphase)

theorem carry (hlooked : h.sid ∈ s.drawn)
    {backchannels : Table SessionId Nat}
    (hserved : ∀ sid ∈ s.live, ∀ c < s.conns.length, s.isOpen c →
      s.carries c sid ∨ c = h.conn ∧ sid = h.sid → (backchannels.get sid).any s.isOpen)
    (hmapped : ∀ sid c, backchannels.get sid = some c → s.binds c sid) :
    Kept { s.carry i h.conn h.sid with backchannels } := by
  have hopens : State.isOpen { s.carry i h.conn h.sid with backchannels } = s.isOpen :=
    isOpen_carry (i := i)
  have hcarries : ∀ c sid, State.carries { s.carry i h.conn h.sid with backchannels } c sid ↔
      s.carries c sid ∨ c = h.conn ∧ h.conn < s.conns.length ∧ sid = h.sid :=
    fun c sid => carries_carry (i := i)
  have hbinds : ∀ c sid, State.binds { s.carry i h.conn h.sid with backchannels } c sid =
      s.binds c sid := fun c sid => binds_carry (i := i)
  have hlen : (s.carry i h.conn h.sid).conns.length = s.conns.length := length_modify ..
  refine ⟨fun sid hsid c hc hopen hcarry => ?_, fun c sid hbind => ?_, fun sid c hget => ?_,
    fun h' hh' hp => ?_, fun h' hh' => ?_, hs.live, fun c sid hcarry => ?_, fun h' hh' hp => ?_⟩
  · rw [hopens] at hopen ⊢
    refine hserved sid hsid c (Nat.lt_of_lt_of_eq hc hlen) hopen ?_
    exact ((hcarries c sid).mp hcarry).imp_right fun hnow => ⟨hnow.1, hnow.2.2⟩
  · rw [hbinds] at hbind
    rw [hcarries]
    rcases hs.bound c sid hbind with hold | hmem
    · exact .inl (.inl hold)
    by_cases hself : h = ⟨c, sid, .pushed⟩
    · subst hself
      exact .inl (.inr ⟨rfl, hs.conn _ hmem, rfl⟩)
    · exact .inr (mem_goes_of_ne hi hmem (Ne.symm hself))
  · rw [hbinds]
    exact hmapped sid c hget
  · rw [hbinds]
    rcases mem_goes hi hh' with hold | rfl
    · exact hs.making h' hold hp
    · cases hp
  · refine Nat.lt_of_lt_of_eq ?_ hlen.symm
    rcases mem_goes hi hh' with hold | rfl
    · exact hs.conn h' hold
    · exact hs.conn h (mem_of_getElem? hi)
  · rcases (hcarries c sid).mp hcarry with hold | ⟨-, -, rfl⟩
    · exact hs.carried c sid hold
    · exact hlooked
  · rcases mem_goes hi hh' with hold | rfl
    · exact hs.looked h' hold hp
    · rcases hp with hp | hp <;> cases hp

theorem push (hphase : h.phase = .checked) :
    Kept (s.push i h.conn h.sid) := by
  have hmem := mem_of_getElem? hi
  have hlen : (s.push i h.conn h.sid).conns.length = s.conns.length := length_modify ..
  refine ⟨fun sid hsid c hc hopen hcarry => ?_, fun c sid hbind => ?_, fun sid c hget => ?_,
    fun h' hh' hp => ?_, fun h' hh' => ?_, hs.live, fun c sid hcarry => ?_, fun h' hh' hp => ?_⟩
  · rw [isOpen_push] at hopen ⊢
    rw [carries_push] at hcarry
    exact hs.served sid hsid c (by omega) hopen hcarry
  · rw [carries_push]
    rcases binds_push.mp hbind with hold | ⟨rfl, -, rfl⟩
    · refine (hs.bound c sid hold).imp_right fun hin => mem_goes_of_ne hi hin ?_
      rintro rfl
      cases hphase
    · exact .inr (mem_goes_self hi)
  · exact binds_push.mpr (.inl (hs.mapped sid c hget))
  · refine binds_push.mpr ?_
    rcases mem_goes hi hh' with hold | rfl
    · exact .inl (hs.making h' hold hp)
    · exact .inr ⟨rfl, hs.conn h hmem, rfl⟩
  · refine Nat.lt_of_lt_of_eq ?_ hlen.symm
    rcases mem_goes hi hh' with hold | rfl
    · exact hs.conn h' hold
    · exact hs.conn h hmem
  · rw [carries_push] at hcarry
    exact hs.carried c sid hcarry
  · rcases mem_goes hi hh' with hold | rfl
    · exact hs.looked h' hold hp
    · exact hs.looked h hmem (.inl hphase)

theorem runHandler (hok : s.HandlerCalm h)
    (hrun : s.runHandler i h = some t) : Kept t := by
  have hmem := mem_of_getElem? hi
  unfold State.runHandler at hrun
  split at hrun
  · rename_i hphase
    cases hrun
    refine hs.goes hi (by rw [hphase]; decide) (by split <;> decide) fun hto => ?_
    split at hto
    · rename_i hlive
      exact hs.live _ hlive
    · cases hto
  · rename_i hphase
    have hlooked := hs.looked h hmem (.inl hphase)
    split_ifs at hrun with hbinds
    · cases hrun
      refine hs.carry hi hlooked (fun sid hsid c hc hopen hcarries => ?_) hs.mapped
      rcases hcarries with hold | ⟨rfl, rfl⟩
      · exact hs.served sid hsid c hc hopen hold
      rcases hok.1 hphase hopen hsid with hother | hmade
      · exact hother
      · -- The binding was made before, so the connection has carried the session before.
        refine hs.served h.sid hsid h.conn hc hopen ((hs.bound _ _ hbinds).resolve_right ?_)
        exact fun hpushed => hmade _ hpushed rfl
    · cases hrun
      exact hs.push hi hphase
  · rename_i hphase
    cases hrun
    refine hs.carry hi (hs.looked h hmem (.inr hphase)) (fun sid hsid c hc hopen hcarries => ?_)
      fun sid c hget => ?_
    · rw [get_insert]
      by_cases heq : sid = h.sid
      · rw [if_pos heq, any_some]
        subst heq
        by_cases hconn : c = h.conn
        · rwa [← hconn]
        rcases hok.2 hphase hsid with hself | honly
        · exact hself
        · exact absurd (hcarries.resolve_right fun hsame => hconn hsame.1)
            (honly c hc hconn hopen)
      · rw [if_neg heq]
        exact hs.served sid hsid c hc hopen (hcarries.resolve_right fun hsame => heq hsame.2)
    · rw [get_insert] at hget
      split_ifs at hget with heq
      · cases hget
        rw [heq]
        exact hs.making h hmem hphase
      · exact hs.mapped sid c hget
  · cases hrun

end

theorem shut {backchannels : Table SessionId Nat}
    (hserved : ∀ sid ∈ s.live, ∀ d < s.conns.length, d ≠ c → s.isOpen d → s.carries d sid →
      backchannels.get sid = s.backchannels.get sid ∧ s.backchannels.get sid ≠ some c)
    (hmapped : ∀ sid d, backchannels.get sid = some d → s.binds d sid) :
    Kept { s.shut c with backchannels } := by
  have hopens : ∀ d, State.isOpen { s.shut c with backchannels } d ↔ d ≠ c ∧ s.isOpen d :=
    fun d => isOpen_shut
  have hcarries : ∀ d sid, State.carries { s.shut c with backchannels } d sid = s.carries d sid :=
    fun d sid => carries_shut
  have hbinds : ∀ d sid, State.binds { s.shut c with backchannels } d sid = s.binds d sid :=
    fun d sid => binds_shut
  have hlen : (s.shut c).conns.length = s.conns.length := length_modify ..
  refine ⟨fun sid hsid d hd hopen hcarry => ?_, fun d sid hbind => ?_, fun sid d hget => ?_,
    fun h hh hp => ?_, fun h hh => ?_, hs.live, fun d sid hcarry => ?_, hs.looked⟩
  · rw [hcarries] at hcarry
    obtain ⟨hne, hopen⟩ := (hopens d).mp hopen
    have hd := Nat.lt_of_lt_of_eq hd hlen
    obtain ⟨hget, hother⟩ := hserved sid hsid d hd hne hopen hcarry
    obtain ⟨e, he, heopen⟩ := (Option.any_eq_true ..).mp (hs.served sid hsid d hd hopen hcarry)
    refine (Option.any_eq_true ..).mpr ⟨e, hget.trans he, (hopens e).mpr ⟨?_, heopen⟩⟩
    rintro rfl
    exact hother he
  · rw [hbinds] at hbind
    rw [hcarries]
    exact hs.bound d sid hbind
  · rw [hbinds]
    exact hmapped sid d hget
  · rw [hbinds]
    exact hs.making h hh hp
  · exact Nat.lt_of_lt_of_eq (hs.conn h hh) hlen.symm
  · rw [hcarries] at hcarry
    exact hs.carried d sid hcarry

theorem accept : Kept { s with conns := s.conns ++ [⟨true, [], []⟩] } := by
  have hcarries : ∀ d sid, State.carries { s with conns := s.conns ++ [⟨true, [], []⟩] } d sid =
      s.carries d sid := fun d sid => any_append s.conns rfl d
  have hbinds : ∀ d sid, State.binds { s with conns := s.conns ++ [⟨true, [], []⟩] } d sid =
      s.binds d sid := fun d sid => any_append s.conns rfl d
  have hopens : ∀ d < s.conns.length,
      State.isOpen { s with conns := s.conns ++ [⟨true, [], []⟩] } d = s.isOpen d := fun d hd => by
    simp only [State.isOpen, getElem?_append_left hd]
  have hlt : ∀ d sid, s.binds d sid → d < s.conns.length := fun d sid hbind => by
    obtain ⟨conn, hconn, -⟩ := (Option.any_eq_true ..).mp hbind
    exact lt_length hconn
  refine ⟨fun sid hsid d hd hopen hcarry => ?_, fun d sid hbind => ?_, fun sid d hget => ?_,
    fun h hh hp => ?_, fun h hh => ?_, hs.live, fun d sid hcarry => ?_, hs.looked⟩
  · rw [hcarries] at hcarry
    obtain ⟨conn, hconn, -⟩ := (Option.any_eq_true ..).mp hcarry
    have hd := lt_length hconn
    rw [hopens d hd] at hopen
    obtain ⟨e, he, heopen⟩ := (Option.any_eq_true ..).mp (hs.served sid hsid d hd hopen hcarry)
    refine (Option.any_eq_true ..).mpr ⟨e, he, ?_⟩
    rwa [hopens e (hlt e sid (hs.mapped sid e he))]
  · rw [hbinds] at hbind
    rw [hcarries]
    exact hs.bound d sid hbind
  · rw [hbinds]
    exact hs.mapped sid d hget
  · rw [hbinds]
    exact hs.making h hh hp
  · refine Nat.lt_of_lt_of_le (hs.conn h hh) ?_
    rw [length_append]
    omega
  · rw [hcarries] at hcarry
    exact hs.carried d sid hcarry

theorem step {a : Action} (hok : s.Calm a) (hstep : s.step a = some t) : Kept t := by
  cases a with
  | accept =>
    cases hstep
    exact hs.accept
  | createSession sid =>
    obtain ⟨hnew, ⟨⟩⟩ := ite_none_left_eq_some.mp hstep
    refine { hs with
      served := fun sid' hsid' c hc hopen hcarries => ?_
      live := fun sid' hsid' => ?_
      carried := fun c sid' hcarries => .tail _ (hs.carried c sid' hcarries)
      looked := fun h hh hp => .tail _ (hs.looked h hh hp) }
    · rcases mem_cons.mp hsid' with rfl | hold
      · exact absurd (hs.carried c sid' hcarries) hnew
      · exact hs.served sid' hold c hc hopen hcarries
    · rcases mem_cons.mp hsid' with rfl | hold
      · exact .head _
      · exact .tail _ (hs.live sid' hold)
  | destroySession sid =>
    cases hstep
    exact { hs with
      served := fun sid' hsid' => hs.served sid' (mem_filter.mp hsid').1
      live := fun sid' hsid' => hs.live sid' (mem_filter.mp hsid').1 }
  | unbind sid =>
    simp only [State.step] at hstep
    obtain ⟨hdead, ⟨⟩⟩ := ite_none_left_eq_some.mp hstep
    refine { hs with
      served := fun sid' hsid' c hc hopen hcarries => ?_
      mapped := fun sid' c hget => hs.mapped sid' c (get_of_remove hget) }
    simp only at hsid' ⊢
    have hne : sid' ≠ sid := fun heq => hdead (heq ▸ hsid')
    rw [get_remove, if_neg hne]
    exact hs.served sid' hsid' c hc hopen hcarries
  | recv c sid =>
    obtain ⟨hopen, rfl⟩ := ite_some_none_eq_some.mp hstep
    obtain ⟨conn, hconn, -⟩ := (Option.any_eq_true ..).mp hopen
    refine ⟨hs.served, fun d sid' hbind => (hs.bound d sid' hbind).imp_right
      fun hmem => mem_append_left _ hmem, hs.mapped, forall_concat hs.making (fun h => by cases h),
      forall_concat hs.conn (lt_length hconn), hs.live, hs.carried,
      forall_concat hs.looked fun hp => ?_⟩
    rcases hp with hp | hp <;> cases hp
  | run i =>
    obtain ⟨h, hi, hrun⟩ := bind_eq_some_iff.mp hstep
    exact hs.runHandler hi (hok h hi) hrun
  | refuse i =>
    obtain ⟨h, hi, hrun⟩ := bind_eq_some_iff.mp hstep
    obtain ⟨hphase, rfl⟩ := ite_some_none_eq_some.mp hrun
    refine hs.goes hi (by rw [hphase]; decide) (by decide) fun hto => ?_
    cases hto
  | eof c =>
    obtain ⟨conn, hconn, hend⟩ := bind_eq_some_iff.mp hstep
    obtain ⟨_, rfl⟩ := ite_some_none_eq_some.mp hend
    refine hs.shut (fun sid hsid d hd hne hopen hcarries => ?_) fun sid d hget => ?_
    · have hfree : sid ∉ conn.bound := fun hmem =>
        hok conn hconn sid hmem hsid d hd hne hopen hcarries
      rw [get_foldl_remove, if_neg hfree]
      refine ⟨rfl, fun hself => hfree ?_⟩
      obtain ⟨conn', hconn', hmem⟩ := (Option.any_eq_true ..).mp (hs.mapped sid c hself)
      obtain rfl := mem_unique hconn hconn'
      exact contains_iff_mem.mp hmem
    · rw [get_foldl_remove] at hget
      split at hget
      · cases hget
      · exact hs.mapped sid d hget
  | fail c =>
    simp only [State.step] at hstep
    obtain ⟨-, ⟨⟩⟩ := ite_none_right_eq_some.mp hstep
    exact hs.shut (fun sid hsid d hd hne hopen hcarries => ⟨rfl, fun hself =>
      hok sid hsid hself d hd hne hopen hcarries⟩) hs.mapped

end

end Kept

/-- In every interleaving whose steps are calm, a live session that an open connection has carried has
a backchannel on an open connection. -/
theorem session_served {s : State} (h : Runs.Reaches State.step State.Calm .start s) : s.Served :=
  (h.inv Kept.start fun _ _ _ ht hok hu => ht.step hok hu).served

def sequence (c : Nat) (sid : SessionId) (i : Nat) : List Action :=
  [.recv c sid, .run i, .run i, .run i]

theorem session_served_moved : ∃ s, Runs.Reaches State.step State.Calm .start s ∧
    (s.live = [[7]] ∧ s.carries 1 [7] ∧ s.isOpen 1 ∧ s.backchannels.get [7] = some 1) ∧
    s.Served :=
  Reaches.exists_of_guarded_and
    ([.accept, .createSession [7]] ++ sequence 0 [7] 0 ++ [.eof 0, .accept] ++ sequence 1 [7] 1)
    (by decide +kernel) fun _ hs => session_served hs

/-- Two connections carry a session; the first one ends and takes the backchannel of the second. -/
theorem session_unbound : ∃ s, Runs.Reaches State.step (fun _ _ => True) .start s ∧ ¬ s.Served :=
  Reaches.exists_of_guarded
    ([.accept, .accept, .createSession [7]] ++ sequence 0 [7] 0 ++ sequence 1 [7] 1 ++ [.eof 0])
    (by decide +kernel)

end Mist.Nfs.Backchannel
