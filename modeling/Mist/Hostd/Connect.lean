import Mist.Proto

/-! How a session is established: the lanes are dialled one after the other, with the guest's
identity checked before the shares are attached. -/

namespace Mist.Connect

abbrev Uuid := List UInt8

def PROTO_VERSION : UInt32 := 1

structure Announced where
  name : String
  info : ShareInfo
  deriving DecidableEq

inductive Lane where
  | ctl | journal | rpc | bulk

/-- The messages of the control lane, with what the host reads of them. -/
inductive CtlMsg where
  | hello
  | helloAck (proto : UInt32) (sessionId : UInt64) (shares : List Announced)
  | authFail
  | streamHello
  | attachShare (share : ShareId)
  | detachShare (share : ShareId)
  | snapshotStart (share : ShareId) (snapId : UInt64)
  | snapshotAbort (snapId : UInt64)
  | rescanDir (share : ShareId) (dir : NodeKey) (snapId : UInt64)
  | ping (nonce : UInt64)
  | pong (nonce : UInt64)
  | shareGone (share : ShareId)
  | goodbye
  | endpoints (tcp : List String)
  | vmIdentity (vmUuid : Uuid)
  deriving DecidableEq

inductive SessionError where
  | transport
  | auth
  | identityMismatch
  | proto (reason : String)
  | other

/-- What one read with a timeout gives: a message, an error of the transport or of the decoder, or
nothing in time. -/
inductive Recv where
  | msg (m : CtlMsg)
  | failed
  | timedOut
  deriving DecidableEq

/-- What a session meets outside: addresses that answer, and what the peer sends. -/
structure World where
  resolved : Option String
  configured : String
  cached : List String
  dials : String → Bool
  laneDials : String → Lane → UInt8 → Bool
  helloSent : Bool
  ack : Option CtlMsg
  frames : List Recv

structure VmConfig where
  auto : Bool
  expectedUuid : Option Uuid

structure Session where
  sessionId : UInt64
  lanes : List (Lane × UInt8 × String)
  attached : List Announced

def endpoint (vm : VmConfig) (w : World) : Except SessionError String :=
  if vm.auto then w.resolved.elim (.error .other) .ok else .ok w.configured

/-- The control lane: a cached address that answers, or the bridge. -/
def dialCtl (w : World) (bridge : String) : Except SessionError String :=
  match w.cached.find? w.dials with
  | some addr => .ok addr
  | none => if w.laneDials bridge .ctl 0 then .ok bridge else .error .transport

def greet (w : World) : Except SessionError (UInt64 × List Announced) :=
  if w.helloSent then
    match w.ack with
    | none => .error .transport
    | some (.helloAck proto sessionId shares) =>
      if proto = PROTO_VERSION then .ok (sessionId, shares) else .error (.proto "version mismatch")
    | some .authFail => .error .auth
    | some _ => .error (.proto "expected HelloAck")
  else .error .transport

/-- Read up to `n` frames after HelloAck: the last identity before the endpoints, and the
endpoints. -/
def afterHello : Nat → Option Uuid → List Recv → Option Uuid × List String
  | 0, got, _ => (got, [])
  | _ + 1, got, [] => (got, [])
  | n + 1, got, frame :: rest =>
    match frame with
    | .msg (.vmIdentity vmUuid) => afterHello n (some vmUuid) rest
    | .msg (.endpoints tcp) => (got, tcp)
    | _ => (got, [])

def identityGate (expected got : Option Uuid) : Except SessionError Unit :=
  match expected, got with
  | some want, some got => if got = want then .ok () else .error .identityMismatch
  | some _, none => .ok ()
  | none, _ => .ok ()

def dialLanePref (w : World) (tcp : List String) (bridge : String) (lane : Lane) (idx : UInt8) :
    Except SessionError (Lane × UInt8 × String) :=
  match tcp.find? fun addr => w.laneDials addr lane idx with
  | some addr => .ok (lane, idx, addr)
  | none => if w.laneDials bridge lane idx then .ok (lane, idx, bridge) else .error .transport

def secondary : List (Lane × UInt8) := [(.journal, 0), (.rpc, 0), (.rpc, 1), (.bulk, 0), (.bulk, 1)]

def runSession (vm : VmConfig) (w : World) : Except SessionError Session := do
  let bridge ← endpoint vm w
  let ctl ← dialCtl w bridge
  let hello ← greet w
  let heard := afterHello 2 none w.frames
  identityGate vm.expectedUuid heard.1
  let tcp := if heard.2.isEmpty then w.cached else heard.2
  let lanes ← secondary.mapM fun p => dialLanePref w tcp bridge p.1 p.2
  return ⟨hello.1, (.ctl, 0, ctl) :: lanes, hello.2⟩

def identityOk (got expected : Option Uuid) : Bool :=
  match got, expected with
  | some u, some want => decide (u = want)
  | some _, none => true
  | none, some _ => false
  | none, none => true

/-- The probe's loop: the first identity among `n` frames, other frames being skipped.  Nothing in
time is an error of the whole probe. -/
def probeFrames : Nat → List Recv → Except SessionError (Option Uuid)
  | 0, _ => .ok none
  | _ + 1, [] => .error .transport
  | n + 1, frame :: rest =>
    match frame with
    | .msg (.vmIdentity vmUuid) => .ok (some vmUuid)
    | .msg _ => probeFrames n rest
    | .failed => .ok none
    | .timedOut => .error .transport

def identityOf : Recv → Option Uuid
  | .msg (.vmIdentity vmUuid) => some vmUuid
  | _ => none

/-- The identity the peer presents: the first one it sends. -/
def presented (frames : List Recv) : Option Uuid := frames.findSome? identityOf

structure Gated (vm : VmConfig) (w : World) : Prop where
  bound : ∀ want, vm.expectedUuid = some want → (runSession vm w).isOk →
    .msg (.vmIdentity want) ∈ w.frames
  agrees : (identityGate vm.expectedUuid (afterHello 2 none w.frames).1).isOk =
    identityOk (presented w.frames) vm.expectedUuid

/-- What the gate gets to read says the same as what the peer presents: the first frame is an
identity, which a second one does not contradict; or the identity that is not read is the right
one. -/
def Heard (want : Uuid) : List Recv → Prop
  | .msg (.vmIdentity u) :: .msg (.vmIdentity v) :: _ => u = want ↔ v = want
  | .msg (.vmIdentity _) :: _ => True
  | frames => presented frames = some want

variable {vm : VmConfig} {w : World} {want : Uuid}

theorem identityGate_isOk (got : Option Uuid) :
    (identityGate (some want) got).isOk = got.all (decide <| · = want) := by
  cases got with
  | none => rfl
  | some u =>
    by_cases hu : u = want
    · simp [identityGate, hu, Except.isOk, Except.toBool]
    · simp [identityGate, hu, Except.isOk, Except.toBool]

theorem identityOk_eq (got : Option Uuid) :
    identityOk got (some want) = decide (got = some want) := by
  cases got with
  | none => rfl
  | some u => simp [identityOk]

theorem presented_identity (u : Uuid) (rest : List Recv) :
    presented (.msg (.vmIdentity u) :: rest) = some u := rfl

theorem heard_iff (frames : List Recv) :
    (afterHello 2 none frames).1.all (decide <| · = want) = decide (presented frames = some want) ↔
      Heard want frames := by
  unfold Heard
  split
  · rename_i u v rest
    rw [presented_identity]
    simp [afterHello, eq_comm (a := decide (v = want))]
  · rename_i u rest hsecond
    have hread : (afterHello 2 none (.msg (.vmIdentity u) :: rest)).1 = some u := by
      cases rest with
      | nil => rfl
      | cons frame rest =>
        simp only [afterHello]
        split
        · rename_i v
          exact absurd rfl (hsecond v rest)
        · rfl
        · rfl
    simp [hread, presented_identity]
  · rename_i hfirst hsecond
    have hread : (afterHello 2 none frames).1 = none := by
      cases frames with
      | nil => rfl
      | cons frame rest =>
        simp only [afterHello]
        split
        · rename_i v
          exact absurd rfl (hsecond v rest)
        · rfl
        · rfl
    rw [hread]
    simp

theorem isOk_bind {α β : Type} {x : Except SessionError α} {f : α → Except SessionError β}
    (h : (x >>= f).isOk) : ∃ a, x = .ok a ∧ (f a).isOk := by
  cases x with
  | error e => exact (Bool.false_ne_true h).elim
  | ok a => exact ⟨a, rfl, h⟩

theorem gate_of_runSession (h : (runSession vm w).isOk) :
    (identityGate vm.expectedUuid (afterHello 2 none w.frames).1).isOk := by
  obtain ⟨bridge, -, hctl⟩ := isOk_bind h
  obtain ⟨ctl, -, hhello⟩ := isOk_bind hctl
  obtain ⟨hello, -, hgate⟩ := isOk_bind hhello
  obtain ⟨_, hpass, -⟩ := isOk_bind hgate
  rw [hpass]
  rfl

theorem mem_of_presented {frames : List Recv} (h : presented frames = some want) :
    .msg (.vmIdentity want) ∈ frames := by
  obtain ⟨frame, hmem, hid⟩ := List.exists_of_findSome?_eq_some h
  unfold identityOf at hid
  split at hid
  · cases hid
    exact hmem
  · cases hid

/-- The identity gate holds exactly when what the gate reads says the same as what is presented. -/
theorem identity_gate (vm : VmConfig) (w : World) :
    Gated vm w ↔ ∀ want, vm.expectedUuid = some want → Heard want w.frames := by
  cases hexp : vm.expectedUuid with
  | none =>
    refine iff_of_true ⟨fun want hwant => ?_, ?_⟩ nofun
    · rw [hexp] at hwant
      cases hwant
    · rw [hexp]
      cases presented w.frames <;> rfl
  | some want =>
    have hagrees : (identityGate vm.expectedUuid (afterHello 2 none w.frames).1).isOk =
        identityOk (presented w.frames) vm.expectedUuid ↔ Heard want w.frames := by
      rw [hexp, identityGate_isOk, identityOk_eq, heard_iff]
    constructor
    · intro h want' hwant'
      cases hwant'
      exact hagrees.mp h.agrees
    intro h
    have hheard := hagrees.mpr (h want rfl)
    refine ⟨fun want' hwant' hok => ?_, hheard⟩
    have hgate := gate_of_runSession hok
    rw [hheard, hwant', identityOk_eq] at hgate
    exact mem_of_presented (of_decide_eq_true hgate)

def boundVm : VmConfig := ⟨false, some (List.replicate 16 0)⟩

def peerSending (frames : List Recv) : World where
  resolved := none
  configured := "bridge"
  cached := []
  dials _ := true
  laneDials _ _ _ := true
  helloSent := true
  ack := some (.helloAck PROTO_VERSION 7 [⟨"home", ⟨⟨0⟩, ⟨2, 0⟩⟩⟩])
  frames := frames

/-- A bound VM gets its session from a peer that presents no identity, and from one that presents a
foreign one after its endpoints. -/
theorem unbound_peer_admitted :
    (runSession boundVm (peerSending [.msg (.endpoints [])])).isOk ∧
      ¬ Gated boundVm (peerSending [.msg (.endpoints [])]) ∧
      (runSession boundVm
        (peerSending [.msg (.endpoints []), .msg (.vmIdentity (List.replicate 16 1))])).isOk ∧
      ¬ Gated boundVm
        (peerSending [.msg (.endpoints []), .msg (.vmIdentity (List.replicate 16 1))]) := by
  refine ⟨by decide, fun h => ?_, by decide, fun h => ?_⟩
  · exact absurd (h.bound _ rfl (by decide)) (by decide)
  · exact absurd (h.bound _ rfl (by decide)) (by decide)

end Mist.Connect
