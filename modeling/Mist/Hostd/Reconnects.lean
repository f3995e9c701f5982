import Mist.Hostd.Assembler
import Mist.Hostd.Connect
import Mist.Nfs.Table
import Mist.Runs

/-! Shares across the sessions of one VM. -/

namespace Mist

open Connect Nfs List Option

/-- The numbers the guest gives its shares: their places among the configured names. -/
def setupShares (config : List (String × NodeKey)) : List Announced :=
  config.mapIdx fun i share => ⟨share.1, ⟨⟨.ofNat i⟩, share.2⟩⟩

/-- An event of the bulk and journal lanes, as far as it says where it goes.  For a journal batch:
whether its sequence number leaves a gap and whether a record asks for a resync, which then begins
under `snapId`. -/
inductive ShareEvent where
  | snapDir (share : ShareId) (snapId : UInt64)
  | snapDone (share : ShareId) (snapId : UInt64)
  | journal (share : ShareId) (gap needResync : Bool) (snapId : UInt64)

def ShareEvent.share : ShareEvent → ShareId
  | snapDir share _ | snapDone share _ | journal share _ _ _ => share

structure SessionAssembler where
  infos : List Announced
  staging : Table ShareId UInt64
  live : List ShareId

structure ShareHandle where
  info : ShareInfo
  live : Bool

structure ShareMount where
  name : String
  shareId : ShareId

/-- Something exchanged in a session under a share's number, and the host's share it concerned. -/
structure Exchange where
  session : Nat
  id : ShareId
  host : String
  deriving DecidableEq

/-- The handle of a VM: shares by name, the assemblers of its sessions, the session its RPC lanes
belong to, its mounts, and the events handed to blocking tasks; `exchanged` records what was
exchanged. -/
structure VmHandle where
  shares : Table String ShareHandle
  sessions : List SessionAssembler
  rpc : Option Nat
  mounts : List ShareMount
  running : List (Nat × ShareEvent)
  exchanged : List Exchange

namespace SessionAssembler

def begin (asm : SessionAssembler) (share : ShareId) (snapId : UInt64) : SessionAssembler :=
  if asm.infos.any fun a => a.info.id = share then
    { asm with live := asm.live.filter (· ≠ share), staging := asm.staging.insert share snapId }
  else asm

def beginAll (asm : SessionAssembler) (snapId : UInt64) : SessionAssembler :=
  asm.infos.foldl (fun asm a => asm.begin a.info.id snapId) asm

@[simp] theorem begin_infos (asm : SessionAssembler) (share : ShareId) (snapId : UInt64) :
    (asm.begin share snapId).infos = asm.infos := by
  unfold begin
  split <;> rfl

@[simp] theorem beginAll_infos (asm : SessionAssembler) (snapId : UInt64) :
    (asm.beginAll snapId).infos = asm.infos :=
  Runs.foldl_same infos (fun _ _ => begin_infos ..) _ asm

end SessionAssembler

namespace VmHandle

inductive Action where
  | connect (infos : List Announced)
  | wire
  | begin (share : ShareId) (snapId : UInt64)
  | receive (event : ShareEvent)
  | process (i : Nat) (found : Option String)
  | call (m : Nat)
  | mount (name : String)
  | unmount (m : Nat)
  | disconnect

def start : VmHandle := ⟨[], [], none, [], [], []⟩

def announced (s : VmHandle) (k : Nat) : List Announced := (s.sessions[k]?).elim [] (·.infos)

def newest (s : VmHandle) : Nat := s.sessions.length - 1

/-- The handles after an announcement: new names get one, known names a new number. -/
def announce (shares : Table String ShareHandle) (infos : List Announced) :
    Table String ShareHandle :=
  infos.foldl (fun t a => t.insert a.name ⟨a.info, (t.get a.name).any (·.live)⟩) shares

def connected (s : VmHandle) (infos : List Announced) : VmHandle :=
  { s with shares := announce s.shares infos, sessions := s.sessions ++ [⟨infos, [], []⟩] }

/-- What a search for a number may find: any handle with it. -/
def finds (s : VmHandle) (share : ShareId) : Option String → Bool
  | some name => (s.shares.get name).any fun h => h.info.id = share
  | none => s.shares.all fun p => p.2.info.id ≠ share

def setAssembler (s : VmHandle) (k : Nat) (asm : SessionAssembler) : VmHandle :=
  { s with sessions := s.sessions.set k asm }

def swapReplica (s : VmHandle) (k : Nat) (share : ShareId) (name : String) : VmHandle :=
  match s.shares.get name with
  | none => s
  | some h =>
    { s with
      shares := s.shares.insert name { h with live := true }
      exchanged := ⟨k, share, name⟩ :: s.exchanged }

def finishSeed (s : VmHandle) (k : Nat) (asm : SessionAssembler) (share : ShareId) (snapId : UInt64)
    (found : Option String) : VmHandle :=
  if asm.staging.get share = some snapId then
    let s := s.setAssembler k
      { asm with staging := asm.staging.remove share, live := share :: asm.live }
    found.elim s (s.swapReplica k share)
  else s

def onJournal (s : VmHandle) (k : Nat) (asm : SessionAssembler) (share : ShareId)
    (gap needResync : Bool) (snapId : UInt64) (found : Option String) : VmHandle :=
  if share = allShares then s.setAssembler k (asm.beginAll snapId)
  else if (asm.staging.get share).isSome then s
  else
    match found with
    | none => s
    | some name =>
      if (s.shares.get name).any (·.live) && asm.live.contains share then
        if gap then s.setAssembler k (asm.begin share snapId)
        else
          let s := { s with exchanged := ⟨k, share, name⟩ :: s.exchanged }
          if needResync then s.setAssembler k (asm.begin share snapId) else s
      else s

/-- `on_event`: a snapshot record goes to the staging replica of its own session. -/
def onEvent (s : VmHandle) (k : Nat) (asm : SessionAssembler) (event : ShareEvent)
    (found : Option String) : VmHandle :=
  match event with
  | .snapDir _ _ => s
  | .snapDone share snapId => s.finishSeed k asm share snapId found
  | .journal share gap needResync snapId => s.onJournal k asm share gap needResync snapId found

def step (s : VmHandle) : Action → Option VmHandle
  | .connect infos =>
    if s.rpc.isNone then some (s.connected infos) else none
  | .wire =>
    if s.rpc.isNone && !s.sessions.isEmpty then some { s with rpc := some s.newest } else none
  | .begin share snapId => do
    let k ← s.rpc
    let asm ← s.sessions[k]?
    some (s.setAssembler k (asm.begin share snapId))
  | .receive event => do
    let k ← s.rpc
    some { s with running := (k, event) :: s.running }
  | .process i found => do
    let task ← s.running[i]?
    let asm ← s.sessions[task.1]?
    if s.finds task.2.share found then
      some { s.onEvent task.1 asm task.2 found with running := s.running.eraseIdx i }
    else none
  | .call m => do
    let k ← s.rpc
    let mount ← s.mounts[m]?
    some { s with exchanged := ⟨k, mount.shareId, mount.name⟩ :: s.exchanged }
  | .mount name => do
    let h ← s.shares.get name
    some { s with mounts := ⟨name, h.info.id⟩ :: s.mounts }
  | .unmount m => some { s with mounts := s.mounts.eraseIdx m }
  | .disconnect => some { s with rpc := none }

/-- The exchange concerned the share that was announced under its number in its session. -/
def Right (s : VmHandle) (e : Exchange) : Prop :=
  ∀ a ∈ s.announced e.session, a.info.id = e.id → a.name = e.host
  deriving Decidable

def Owner (shares : Table String ShareHandle) (id : ShareId) (name : String) : Prop :=
  ∀ p ∈ shares, p.2.info.id = id → p.1 = name
  deriving Decidable

/-- An announcement gives no number to a share that a kept handle, an earlier mount or an event of an
earlier session still knows another share by. -/
structure Renumbers (s : VmHandle) (infos : List Announced) : Prop where
  handles : ∀ a ∈ infos, Owner (announce s.shares infos) a.info.id a.name
  mounts : ∀ m ∈ s.mounts, ∀ a ∈ infos, a.info.id = m.shareId → a.name = m.name
  running : ∀ r ∈ s.running, ∀ a ∈ s.announced r.1, a.info.id = r.2.share →
    Owner (announce s.shares infos) a.info.id a.name

def Steady (s : VmHandle) : Action → Prop
  | .connect infos => s.Renumbers infos
  | _ => True

/-- Every number in use leads to the share it was announced for. -/
structure Routed (s : VmHandle) : Prop where
  handles : ∀ a ∈ s.announced s.newest, Owner s.shares a.info.id a.name
  mounts : ∀ m ∈ s.mounts, ∀ a ∈ s.announced s.newest, a.info.id = m.shareId → a.name = m.name
  running : ∀ r ∈ s.running, ∀ a ∈ s.announced r.1, a.info.id = r.2.share →
    Owner s.shares a.info.id a.name
  rpc : ∀ k, s.rpc = some k → k = s.newest ∧ k < s.sessions.length
  known : ∀ r ∈ s.running, r.1 < s.sessions.length
  past : ∀ e ∈ s.exchanged, e.session < s.sessions.length
  right : ∀ e ∈ s.exchanged, s.Right e

variable {s t : VmHandle}

/-- What an event leaves: nothing changes but the assemblers' progress and the replicas. -/
structure Kept (s t : VmHandle) : Prop where
  announced : ∀ k, t.announced k = s.announced k
  length : t.sessions.length = s.sessions.length
  shares : ∀ p ∈ t.shares, ∃ q ∈ s.shares, q.1 = p.1 ∧ q.2.info = p.2.info
  mounts : t.mounts = s.mounts
  rpc : t.rpc = s.rpc
  running : t.running = s.running

theorem Kept.refl (s : VmHandle) : Kept s s :=
  ⟨fun _ => rfl, rfl, fun p hp => ⟨p, hp, rfl, rfl⟩, rfl, rfl, rfl⟩

theorem Kept.trans {u : VmHandle} (h : Kept s t) (h' : Kept t u) : Kept s u where
  announced k := (h'.announced k).trans (h.announced k)
  length := h'.length.trans h.length
  shares p hp := by
    obtain ⟨q, hq, hname, hinfo⟩ := h'.shares p hp
    obtain ⟨q', hq', hname', hinfo'⟩ := h.shares q hq
    exact ⟨q', hq', hname'.trans hname, hinfo'.trans hinfo⟩
  mounts := h'.mounts.trans h.mounts
  rpc := h'.rpc.trans h.rpc
  running := h'.running.trans h.running

theorem Kept.owner (h : Kept s t) {id : ShareId} {name : String} (howner : Owner s.shares id name) :
    Owner t.shares id name := by
  intro p hp hid
  obtain ⟨q, hq, hname, hinfo⟩ := h.shares p hp
  exact hname ▸ howner q hq (by rw [hinfo]; exact hid)

variable {k : Nat} {asm : SessionAssembler}

theorem setAssembler_kept {asm' : SessionAssembler} (hk : s.sessions[k]? = some asm)
    (hinfos : asm'.infos = asm.infos) : Kept s (s.setAssembler k asm') := by
  refine ⟨fun j => ?_, length_set, fun p hp => ⟨p, hp, rfl, rfl⟩, rfl, rfl, rfl⟩
  unfold announced
  by_cases hj : k = j
  · subst hj
    have hlt := Runs.lt_length hk
    rw [hk]
    simp [setAssembler, hlt, hinfos]
  · simp [setAssembler, getElem?_set_ne hj]

theorem swapReplica_kept (k : Nat) (share : ShareId) (name : String) :
    Kept s (s.swapReplica k share name) := by
  unfold swapReplica
  split
  · exact .refl s
  rename_i h hget
  refine ⟨fun _ => rfl, rfl, fun p hp => ?_, rfl, rfl, rfl⟩
  rcases mem_cons.mp hp with rfl | hold
  · exact ⟨(name, h), Table.mem_of_get hget, rfl, rfl⟩
  · exact ⟨p, mem_of_mem_filter hold, rfl, rfl⟩

theorem onEvent_kept (hk : s.sessions[k]? = some asm)
    (event : ShareEvent) (found : Option String) : Kept s (s.onEvent k asm event found) := by
  cases event with
  | snapDir share snapId => exact .refl s
  | snapDone share snapId =>
    simp only [onEvent, finishSeed]
    split
    · have hset : Kept s (s.setAssembler k
          { asm with staging := asm.staging.remove share, live := share :: asm.live }) :=
        setAssembler_kept hk rfl
      cases found with
      | none => exact hset
      | some name => exact hset.trans (swapReplica_kept k share name)
    · exact .refl s
  | journal share gap needResync snapId =>
    have hbegin := setAssembler_kept hk (asm.begin_infos share snapId)
    simp only [onEvent, onJournal]
    split
    · exact setAssembler_kept hk (asm.beginAll_infos snapId)
    split
    · exact .refl s
    cases found with
    | none => exact .refl s
    | some name =>
      simp only
      split
      · split
        · exact hbegin
        · split
          · exact ⟨hbegin.1, hbegin.2, hbegin.3, rfl, rfl, rfl⟩
          · exact ⟨fun _ => rfl, rfl, fun p hp => ⟨p, hp, rfl, rfl⟩, rfl, rfl, rfl⟩
      · exact .refl s

theorem onEvent_exchanged {event : ShareEvent}
    {found : Option String} {e : Exchange} (he : e ∈ (s.onEvent k asm event found).exchanged) :
    e ∈ s.exchanged ∨ ∃ name, found = some name ∧ e = ⟨k, event.share, name⟩ := by
  cases event with
  | snapDir share snapId => exact .inl he
  | snapDone share snapId =>
    simp only [onEvent, finishSeed] at he
    split at he
    · cases found with
      | none => exact .inl he
      | some name =>
        simp only [Option.elim, swapReplica] at he
        split at he
        · exact .inl he
        · rcases mem_cons.mp he with rfl | hold
          · exact .inr ⟨name, rfl, rfl⟩
          · exact .inl hold
    · exact .inl he
  | journal share gap needResync snapId =>
    simp only [onEvent, onJournal] at he
    split at he
    · exact .inl he
    split at he
    · exact .inl he
    cases found with
    | none => exact .inl he
    | some name =>
      simp only at he
      split at he
      · split at he
        · exact .inl he
        · have hcons : e ∈ ⟨k, share, name⟩ :: s.exchanged := by
            split at he
            · exact he
            · exact he
          rcases mem_cons.mp hcons with rfl | hold
          · exact .inr ⟨name, rfl, rfl⟩
          · exact .inl hold
      · exact .inl he

theorem Routed.start : start.Routed where
  handles a ha := by cases ha
  mounts m hm := by cases hm
  running r hr := by cases hr
  rpc k hk := by cases hk
  known r hr := by cases hr
  past e he := by cases he
  right e he := by cases he

theorem newest_eq (h : t.sessions.length = s.sessions.length) : t.newest = s.newest := by
  unfold newest
  rw [h]

theorem Routed.kept (hs : s.Routed) (h : Kept s t)
    (hnew : ∀ e ∈ t.exchanged, e ∈ s.exchanged ∨ e.session < s.sessions.length ∧ s.Right e) :
    t.Routed where
  handles a ha := by
    rw [newest_eq h.length, h.announced] at ha
    exact h.owner (hs.handles a ha)
  mounts m hm a ha := by
    rw [newest_eq h.length, h.announced] at ha
    rw [h.mounts] at hm
    exact hs.mounts m hm a ha
  running r hr a ha hid := by
    rw [h.announced] at ha
    rw [h.running] at hr
    exact h.owner (hs.running r hr a ha hid)
  rpc k hk := by
    rw [h.rpc] at hk
    rw [newest_eq h.length, h.length]
    exact hs.rpc k hk
  known r hr := by
    rw [h.running] at hr
    rw [h.length]
    exact hs.known r hr
  past e he := by
    rw [h.length]
    exact (hnew e he).elim (hs.past e) And.left
  right e he a ha := by
    rw [h.announced] at ha
    exact (hnew e he).elim (fun hold => hs.right e hold a ha) fun hright => hright.2 a ha

theorem Routed.fewer (hs : s.Routed) {running : List (Nat × ShareEvent)}
    (hsub : ∀ r ∈ running, r ∈ s.running) : Routed { s with running := running } where
  handles := hs.handles
  mounts := hs.mounts
  running r hr := hs.running r (hsub r hr)
  rpc := hs.rpc
  known r hr := hs.known r (hsub r hr)
  past := hs.past
  right := hs.right

theorem length_connected (s : VmHandle) (infos : List Announced) :
    (s.connected infos).sessions.length = s.sessions.length + 1 := by
  simp [connected]

theorem announced_connected (s : VmHandle) (infos : List Announced)
    (hk : k < s.sessions.length) : (s.connected infos).announced k = s.announced k := by
  unfold announced connected
  rw [getElem?_append_left hk]

theorem announced_newest (s : VmHandle) (infos : List Announced) :
    (s.connected infos).announced (s.connected infos).newest = infos := by
  rw [newest, length_connected]
  simp [announced, connected]

theorem Routed.connect (hs : s.Routed) {infos : List Announced} (hrpc : s.rpc = none)
    (hok : s.Renumbers infos) : (s.connected infos).Routed where
  handles a ha := by
    rw [announced_newest] at ha
    exact hok.handles a ha
  mounts m hm a ha := by
    rw [announced_newest] at ha
    exact hok.mounts m hm a ha
  running r hr a ha := by
    rw [announced_connected s infos (hs.known r hr)] at ha
    exact hok.running r hr a ha
  rpc k hk := by
    have hnone : (s.connected infos).rpc = none := hrpc
    rw [hnone] at hk
    cases hk
  known r hr := by
    rw [length_connected]
    exact Nat.lt_succ_of_lt (hs.known r hr)
  past e he := by
    rw [length_connected]
    exact Nat.lt_succ_of_lt (hs.past e he)
  right e he a ha := by
    rw [announced_connected s infos (hs.past e he)] at ha
    exact hs.right e he a ha

theorem Routed.process (hs : s.Routed) {i : Nat} {event : ShareEvent}
    {found : Option String} (hi : s.running[i]? = some (k, event))
    (hk : s.sessions[k]? = some asm) (hfound : s.finds event.share found) :
    Routed { s.onEvent k asm event found with running := s.running.eraseIdx i } := by
  have htask := mem_of_getElem? hi
  have hkept := onEvent_kept hk event found
  refine Routed.fewer (hs.kept hkept fun e he => ?_) fun r hr => ?_
  · rcases onEvent_exchanged he with hold | ⟨name, rfl, rfl⟩
    · exact .inl hold
    · refine .inr ⟨hs.known _ htask, fun a ha hid => ?_⟩
      obtain ⟨h, hget, hnumber⟩ := (Option.any_eq_true ..).mp hfound
      exact (hs.running _ htask a ha hid (name, h) (Table.mem_of_get hget)
        ((of_decide_eq_true hnumber).trans hid.symm)).symm
  · rw [hkept.running]
    exact mem_of_mem_eraseIdx hr

theorem Routed.step (hs : s.Routed) (a : Action) (hok : s.Steady a) (h : s.step a = some t) :
    t.Routed := by
  cases a with
  | connect infos =>
    obtain ⟨hrpc, rfl⟩ := ite_some_none_eq_some.mp h
    exact hs.connect (isNone_iff_eq_none.mp hrpc) hok
  | wire =>
    simp only [VmHandle.step] at h
    obtain ⟨hrpc, rfl⟩ := ite_some_none_eq_some.mp h
    have hpos : s.sessions ≠ [] := by simpa using (Bool.and_eq_true_iff.mp hrpc).2
    refine { hs with rpc := fun k hk => ?_ }
    cases hk
    exact ⟨rfl, Nat.sub_one_lt (by simpa using hpos)⟩
  | begin share snapId =>
    obtain ⟨k, hk, h⟩ := bind_eq_some_iff.mp h
    obtain ⟨asm, hasm, h⟩ := bind_eq_some_iff.mp h
    cases h
    exact hs.kept (setAssembler_kept hasm (asm.begin_infos share snapId)) fun e he => .inl he
  | receive event =>
    obtain ⟨k, hk, h⟩ := bind_eq_some_iff.mp h
    cases h
    obtain ⟨hnewest, hlt⟩ := hs.rpc k hk
    refine { hs with running := fun r hr => ?_, known := fun r hr => ?_ }
    · rcases mem_cons.mp hr with rfl | hold
      · exact fun a ha _ => hs.handles a (hnewest ▸ ha)
      · exact hs.running r hold
    · rcases mem_cons.mp hr with rfl | hold
      · exact hlt
      · exact hs.known r hold
  | process i found =>
    obtain ⟨⟨k, event⟩, hi, h⟩ := bind_eq_some_iff.mp h
    obtain ⟨asm, hasm, h⟩ := bind_eq_some_iff.mp h
    simp only at h
    obtain ⟨hfound, rfl⟩ := ite_some_none_eq_some.mp h
    exact hs.process hi hasm hfound
  | call m =>
    obtain ⟨k, hk, h⟩ := bind_eq_some_iff.mp h
    obtain ⟨mount, hm, h⟩ := bind_eq_some_iff.mp h
    cases h
    obtain ⟨hnewest, hlt⟩ := hs.rpc k hk
    refine hs.kept ⟨fun _ => rfl, rfl, fun p hp => ⟨p, hp, rfl, rfl⟩, rfl, rfl, rfl⟩ fun e he => ?_
    rcases mem_cons.mp he with rfl | hold
    · exact .inr ⟨hlt, fun a ha => hs.mounts mount (mem_of_getElem? hm) a (hnewest ▸ ha)⟩
    · exact .inl hold
  | mount name =>
    obtain ⟨handle, hget, h⟩ := bind_eq_some_iff.mp h
    cases h
    refine { hs with mounts := fun m hm a ha hid => ?_ }
    rcases mem_cons.mp hm with rfl | hold
    · exact (hs.handles a ha (name, handle) (Table.mem_of_get hget) hid.symm).symm
    · exact hs.mounts m hold a ha hid
  | unmount m =>
    cases h
    exact { hs with mounts := fun m hm => hs.mounts m (mem_of_mem_eraseIdx hm) }
  | disconnect =>
    cases h
    exact { hs with rpc := nofun }

/-- Share identity across reconnects: what is exchanged under a number concerns the share announced
under it in that session. -/
theorem exchanges_right (h : Runs.Reaches step Steady start s) : ∀ e ∈ s.exchanged, s.Right e :=
  (h.inv Routed.start fun _ a _ hs hok hstep => hs.step a hok hstep).right

instance (s : VmHandle) (infos : List Announced) : Decidable (s.Renumbers infos) :=
  decidable_of_iff
    ((∀ a ∈ infos, Owner (announce s.shares infos) a.info.id a.name) ∧
      (∀ m ∈ s.mounts, ∀ a ∈ infos, a.info.id = m.shareId → a.name = m.name) ∧
      ∀ r ∈ s.running, ∀ a ∈ s.announced r.1, a.info.id = r.2.share →
        Owner (announce s.shares infos) a.info.id a.name)
    ⟨fun h => ⟨h.1, h.2.1, h.2.2⟩, fun h => ⟨h.1, h.2, h.3⟩⟩

instance (s : VmHandle) : (a : Action) → Decidable (s.Steady a)
  | .connect infos => inferInstanceAs (Decidable (s.Renumbers infos))
  | .wire | .begin _ _ | .receive _ | .process _ _ | .call _ | .mount _ | .unmount _ | .disconnect =>
    .isTrue trivial

def twoShares : List Announced := setupShares [("a", ⟨2, 0⟩), ("b", ⟨3, 0⟩)]

def oneShare : List Announced := setupShares [("b", ⟨3, 0⟩)]

/-- The guest drops `a` from its configuration.  In the next session a call of the old mount of `a`
and the seed of `b` both go to the wrong share. -/
theorem exchanges_crossed :
    ∃ s, Runs.Reaches step (fun _ _ => True) start s ∧
      s.exchanged = [⟨1, ⟨0⟩, "a"⟩, ⟨1, ⟨0⟩, "a"⟩] ∧ ¬ s.Right ⟨1, ⟨0⟩, "a"⟩ :=
  Runs.Reaches.exists_of_guarded
    [.connect twoShares, .wire, .mount "a", .disconnect, .connect oneShare, .wire, .call 0,
      .begin ⟨0⟩ 5, .receive (.snapDone ⟨0⟩ 5), .process 0 (some "a")] (by decide +kernel)

theorem exchanges_right_same :
    ∃ s, Runs.Reaches step Steady start s ∧ s.exchanged = [⟨1, ⟨1⟩, "b"⟩, ⟨1, ⟨0⟩, "a"⟩] ∧
      ∀ e ∈ s.exchanged, s.Right e :=
  Runs.Reaches.exists_of_guarded_and
    [.connect twoShares, .wire, .mount "a", .disconnect, .connect twoShares, .wire, .call 0,
      .begin ⟨1⟩ 5, .receive (.snapDone ⟨1⟩ 5), .process 0 (some "b")]
    (by decide +kernel) fun _ hs => exchanges_right hs

end VmHandle

end Mist
