import Mist.Hostd.Streamed
import Mist.Runs

/-! The reads of a session: every one is sound, and as long as one has not returned there is a step
to take. -/

namespace Mist.BulkRead

open List Option Runs State

section

variable {s s' : State} {seq : Nat} {r r' : Read}

structure Tracked (s : State) : Prop where
  sound : ∀ seq r, s.getRead seq = some r →
    Sound (s.chunks seq) (headersOf seq s.resps) (fileAt s.guest r.node) r
  absent : ∀ seq, s.getRead seq = none → headersOf seq s.resps = [] ∧ ∀ tx, s.chunks seq tx = []
  bulk : ∀ seq r tx, s.getRead seq = some r → r.bulk = some tx → tx < s.lanes.length
  bulks : ∀ tx ∈ s.bulks, tx < s.lanes.length

theorem getRead_eq_some : s.getRead seq = some r ↔ s.calls[seq]? = some (.read r) := by
  simp only [getRead]
  split <;> simp_all

theorem getRead_set (h : s.getRead seq = some r) (hcalls : s'.calls = s.calls.set seq (.read r'))
    (q : Nat) : s'.getRead q = if q = seq then some r' else s.getRead q := by
  have hlt := (List.getElem?_eq_some_iff.mp (getRead_eq_some.mp h)).1
  simp only [getRead, hcalls, getElem?_set]
  by_cases hq : q = seq
  · subst hq
    simp [hlt]
  · simp [hq, Ne.symm hq]

theorem Tracked.update (h : Tracked s) (hr : s.getRead seq = some r)
    (hcalls : s'.calls = s.calls.set seq (.read r')) (hguest : s'.guest = s.guest)
    (hbulks : s'.bulks = s.bulks) (hlanes : s'.lanes.length = s.lanes.length)
    (hheads : ∀ q, q ≠ seq → headersOf q s'.resps = headersOf q s.resps)
    (hchunks : ∀ q, q ≠ seq → ∀ tx, s'.chunks q tx = s.chunks q tx)
    (hnode : r'.node = r.node) (hbulk : ∀ tx, r'.bulk = some tx → tx < s.lanes.length)
    (hsound : Sound (s'.chunks seq) (headersOf seq s'.resps) (fileAt s.guest r.node) r') :
    Tracked s' := by
  refine ⟨fun q u hu => ?_, fun q hq => ?_, fun q u tx hu htx => ?_, fun tx htx => ?_⟩
  · rw [getRead_set hr hcalls] at hu
    split_ifs at hu with heq
    · subst heq
      cases hu
      rw [hguest, hnode]
      exact hsound
    · rw [hguest, hheads q heq, funext (hchunks q heq)]
      exact h.sound q u hu
  · rw [getRead_set hr hcalls] at hq
    split at hq
    · cases hq
    · rename_i hne
      rw [hheads q hne, funext (hchunks q hne)]
      exact h.absent q hq
  · rw [getRead_set hr hcalls] at hu
    rw [hlanes]
    split at hu
    · cases hu
      exact hbulk tx htx
    · exact h.bulk q u tx hu htx
  · rw [hlanes]
    exact h.bulks tx (hbulks ▸ htx)

theorem chunksOf_append (q : Nat) (a b : List BulkMsg) :
    chunksOf q (a ++ b) = chunksOf q a ++ chunksOf q b := filterMap_append

theorem headersOf_append (q : Nat) (a b : List (Nat × RpcResp)) :
    headersOf q (a ++ b) = headersOf q a ++ headersOf q b := filterMap_append

variable {tx q k : Nat} {msg : BulkMsg} {f : File}

theorem chunks_send (htx : tx < s.lanes.length) (q t : Nat) :
    (s.send tx msg).chunks q t = s.chunks q t ++ if t = tx then chunksOf q [msg] else [] := by
  simp only [chunks, send, getElem?_modify]
  by_cases h : tx = t
  · subst h
    simp [getElem?_eq_getElem htx, chunksOf_append]
  · simp [h, Ne.symm h]

theorem chunks_event (tx q t : Nat) : (s.send tx .event).chunks q t = s.chunks q t := by
  simp only [chunks, send, getElem?_modify]
  by_cases h : tx = t
  · subst h
    cases s.lanes[tx]? <;> simp [chunksOf]
  · simp [h]

theorem chunks_pop {rest : List BulkMsg} (htx : s.lanes[tx]? = some (msg :: rest)) (q : Nat) :
    s.chunks q tx = chunksOf q [msg] ++ chunksOf q rest := by
  simp [chunks, htx, ← chunksOf_append]

theorem Tracked.init (guest : Guest) : Tracked (.init guest) := by
  have hnone : ∀ seq, (State.init guest).getRead seq = none := by
    intro seq
    match seq with
    | 0 => rfl
    | _ + 1 => rfl
  refine ⟨fun seq r hr => ?_, fun seq _ => ⟨rfl, fun _ => rfl⟩, fun seq r _ hr => ?_, nofun⟩
  · exact nomatch (hnone seq).symm.trans hr
  · exact nomatch (hnone seq).symm.trans hr

theorem getRead_append {c : Call} (hcalls : s'.calls = s.calls ++ [c])
    (h : s'.getRead q = some r) : s.getRead q = some r ∨ (q = s.calls.length ∧ c = .read r) := by
  rw [getRead_eq_some, hcalls] at h
  exact (getElem?_append_cases h).imp_left getRead_eq_some.mpr

theorem Tracked.append (h : Tracked s) {c : Call}
    (hc : ∀ r, c = .read r → r.bulk = none ∧ Sound (fun _ => []) [] (fileAt s.guest r.node) r) :
    Tracked { s with calls := s.calls ++ [c] } := by
  have hlast : s.getRead s.calls.length = none := by simp [getRead]
  obtain ⟨hheads, hchunks⟩ := h.absent _ hlast
  refine ⟨fun q u hu => ?_, fun q hq => h.absent q ?_, fun q u tx hu htx => ?_, h.bulks⟩
  · rcases getRead_append rfl hu with hu | ⟨rfl, hcu⟩
    · exact h.sound q u hu
    · have hsound := (hc u hcu).2
      rw [← hheads, ← funext hchunks] at hsound
      exact hsound
  · cases hu : s.getRead q with
    | none => rfl
    | some u =>
      have hcalls := getRead_eq_some.mp hu
      have hlt := lt_length hcalls
      have hu' : getRead { s with calls := s.calls ++ [c] } q = some u :=
        getRead_eq_some.mpr ((getElem?_append_left hlt).trans hcalls)
      exact nomatch hq.symm.trans hu'
  · rcases getRead_append rfl hu with hu | ⟨rfl, hcu⟩
    · exact h.bulk q u tx hu htx
    · exact nomatch (hc u hcu).1.symm.trans htx

theorem Tracked.attach (h : Tracked s) (i : Nat) :
    Tracked { s with bulks := attachLane s.bulks i s.lanes.length, lanes := s.lanes ++ [[]] } := by
  have hchunks : ∀ q tx, chunks { s with
      bulks := attachLane s.bulks i s.lanes.length
      lanes := s.lanes ++ [[]] } q tx = s.chunks q tx := by
    intro q tx
    simp only [chunks, getElem?_append]
    split_ifs with hge
    · rfl
    · rw [getElem?_eq_none (Nat.le_of_not_lt hge)]
      cases tx - s.lanes.length <;> rfl
  refine ⟨fun q u hu => ?_, fun q hq => ?_, fun q u tx hu htx => ?_, fun tx htx => ?_⟩
  · rw [funext (hchunks q)]
    exact h.sound q u hu
  · rw [funext (hchunks q)]
    exact h.absent q hq
  · have := h.bulk q u tx hu htx
    simp only [length_append]
    omega
  rw [length_append, length_singleton]
  rcases mem_or_eq_of_mem_set htx with htx | rfl
  · rcases mem_append.mp htx with htx | htx
    · have := h.bulks tx htx
      omega
    · obtain rfl := eq_of_mem_replicate htx
      omega
  · omega

theorem getRead_map {node : NodeKey} {file : File} {guest : Guest} :
    getRead { s with guest := guest, calls := s.calls.map (Call.notice node file) } q =
      (s.getRead q).map (Read.notice · node file) := by
  simp only [getRead, getElem?_map]
  rcases s.calls[q]? with _ | _ | u <;> rfl

theorem Tracked.write (h : Tracked s) {node : NodeKey} {g : File} (hfile : fileAt s.guest node = some g)
    (file : File) : Tracked { s with
      guest := Function.update s.guest node (.ok (.regular file))
      calls := s.calls.map (Call.notice node file) } := by
  refine ⟨fun q u hu => ?_, fun q hq => ?_, fun q u tx hu htx => ?_, h.bulks⟩
  · rw [getRead_map] at hu
    obtain ⟨v, hv, rfl⟩ := map_eq_some_iff.mp hu
    have hsound := h.sound q v hv
    have hnode : (v.notice node file).node = v.node := by
      simp only [Read.notice]
      split <;> rfl
    rw [hnode]
    by_cases hn : v.node = node
    · subst hn
      rw [hfile] at hsound
      have hnew : fileAt (Function.update s.guest v.node (.ok (.regular file))) v.node = some file := by
        simp [fileAt]
      rw [hnew]
      exact hsound.notice file
    · have hnew : fileAt (Function.update s.guest node (.ok (.regular file))) v.node =
          fileAt s.guest v.node := by
        simp [fileAt, hn]
      rw [hnew, Read.notice, if_neg (by simp [hn])]
      exact hsound
  · rw [getRead_map, map_eq_none_iff] at hq
    exact h.absent q hq
  · rw [getRead_map] at hu
    obtain ⟨v, hv, rfl⟩ := map_eq_some_iff.mp hu
    have hbulk : (v.notice node file).bulk = v.bulk := by
      simp only [Read.notice]
      split <;> rfl
    exact h.bulk q v tx hv (hbulk ▸ htx)

theorem headersOf_ne (h : q ≠ seq) (hd : RpcResp) : headersOf q [(seq, hd)] = [] := by
  simp [headersOf, Ne.symm h]

theorem chunksOf_ne (h : q ≠ seq) (more : Bool) (bytes : List UInt8) :
    chunksOf q [.raw seq more bytes] = [] := by
  simp [chunksOf, Ne.symm h]

@[simp] theorem headersOf_self (hd : RpcResp) : headersOf seq [(seq, hd)] = [hd] := by
  simp [headersOf]

@[simp] theorem chunksOf_self (more : Bool) (bytes : List UInt8) :
    chunksOf seq [.raw seq more bytes] = [(more, bytes)] := by
  simp [chunksOf]

theorem Tracked.setRead (h : Tracked s) (hr : s.getRead seq = some r) (hnode : r'.node = r.node)
    (hbulk : ∀ tx, r'.bulk = some tx → tx < s.lanes.length)
    (hsound : Sound (s.chunks seq) (headersOf seq s.resps) (fileAt s.guest r.node) r') :
    Tracked (s.setRead seq r') :=
  h.update hr rfl rfl rfl rfl (fun _ _ => rfl) (fun _ _ _ => rfl) hnode hbulk hsound

theorem Tracked.plan (h : Tracked s) (hr : s.getRead seq = some r) (htask : r.task = .requested) :
    Tracked { s.setRead seq (r.planned (readPlan (s.guest r.node) r.off r.len)) with
      resps := s.resps ++ [(seq, (readPlan (s.guest r.node) r.off r.len).header)] } := by
  refine h.update hr rfl rfl rfl rfl (fun q hq => ?_) (fun _ _ _ => rfl) rfl
    (fun tx htx => h.bulk seq r tx hr htx) ?_
  · rw [headersOf_append, headersOf_ne hq, append_nil]
  · rw [headersOf_append, headersOf_self]
    exact (h.sound seq r hr).plan htask

theorem Read.start_keeps (h : r.start tx = some r') : r'.node = r.node ∧ r'.bulk = some tx := by
  simp only [Read.start] at h
  split at h
  · cases h
    exact ⟨rfl, rfl⟩
  · cases h

theorem Tracked.start (h : Tracked s) (hr : s.getRead seq = some r)
    (htx : bulkSender s.bulks seq = some tx) (hstart : r.start tx = some r') :
    Tracked (s.setRead seq r') := by
  obtain ⟨hnode, hbulk⟩ := Read.start_keeps hstart
  refine h.setRead hr hnode (fun t ht => ?_) ((h.sound seq r hr).start hstart)
  obtain rfl := mem_unique hbulk ht
  exact h.bulks tx (mem_of_getElem? htx)

theorem Read.stream_keeps
    (h : r.stream f seq k = some (msg, r')) : r'.node = r.node ∧ r'.bulk = r.bulk ∧
      ∃ more bytes, msg = .raw seq more bytes := by
  simp only [Read.stream] at h
  split at h
  · split at h <;> obtain ⟨rfl, rfl⟩ := Prod.mk.inj (some.inj h) <;>
      exact ⟨rfl, rfl, _, _, rfl⟩
  · cases h

theorem Tracked.stream (h : Tracked s) (hr : s.getRead seq = some r)
    (hk : 0 < k) (htx : r.bulk = some tx) (hfile : fileAt s.guest r.node = some f)
    (hstream : r.stream f seq k = some (msg, r')) : Tracked ((s.setRead seq r').send tx msg) := by
  obtain ⟨hnode, hbulk, more, bytes, rfl⟩ := Read.stream_keeps hstream
  have hlt := h.bulk seq r tx hr htx
  have hchunks : ∀ q t, ((s.setRead seq r').send tx (.raw seq more bytes)).chunks q t =
      s.chunks q t ++ if t = tx then chunksOf q [.raw seq more bytes] else [] :=
    chunks_send (s := s.setRead seq r') hlt
  have hsound := h.sound seq r hr
  rw [hfile] at hsound
  refine h.update hr rfl rfl rfl (length_modify ..) (fun _ _ => rfl) (fun q hq t => ?_) hnode
    (fun t ht => h.bulk seq r t hr (hbulk ▸ ht)) ?_
  · rw [hchunks, chunksOf_ne hq, ite_self, append_nil]
  rw [hfile]
  refine hsound.stream hk htx hstream rfl ?_ fun t ht => ?_
  · rw [hchunks, if_pos rfl, chunksOf_self]
  · rw [hchunks, if_neg ht, append_nil]

theorem Tracked.resp (h : Tracked s) {hd : RpcResp} {rest : List (Nat × RpcResp)}
    (hresps : s.resps = (seq, hd) :: rest) :
    Tracked (({ s with resps := rest } : State).onResp seq hd) := by
  have hheads : ∀ q, headersOf q s.resps = headersOf q [(seq, hd)] ++ headersOf q rest := by
    intro q
    rw [hresps, ← headersOf_append]
    rfl
  cases hr : s.getRead seq with
  | none =>
    have hnil := (h.absent seq hr).1
    rw [hheads, headersOf_self] at hnil
    cases hnil
  | some r =>
    have hget : getRead { s with resps := rest } seq = some r := hr
    simp only [onResp, hget]
    refine h.update hr rfl rfl rfl rfl (fun q hq => ?_) (fun _ _ _ => rfl) rfl
      (fun tx htx => h.bulk seq r tx hr htx) ?_
    · rw [hheads, headersOf_ne hq]
      rfl
    · have hsound := h.sound seq r hr
      rw [hheads, headersOf_self] at hsound
      exact hsound.resp

theorem Read.deliverChunk_keeps (r : Read) (bytes : List UInt8) (more : Bool) :
    (r.deliverChunk bytes more).node = r.node ∧ (r.deliverChunk bytes more).bulk = r.bulk := by
  simp only [Read.deliverChunk]
  split <;> exact ⟨rfl, rfl⟩

theorem Tracked.onBulk (h : Tracked s) {rest : List BulkMsg}
    (htx : s.lanes[tx]? = some (msg :: rest)) :
    Tracked (({ s with lanes := s.lanes.set tx rest } : State).onBulk msg) := by
  have hlt := lt_length htx
  have hlen : (s.lanes.set tx rest).length = s.lanes.length := length_set
  have hself : ∀ q, chunks { s with lanes := s.lanes.set tx rest } q tx = chunksOf q rest := by
    simp [chunks, hlt]
  have hother : ∀ q t, t ≠ tx →
      chunks { s with lanes := s.lanes.set tx rest } q t = s.chunks q t := by
    intro q t ht
    simp [chunks, getElem?_set_ne (Ne.symm ht)]
  -- A message that is not a chunk of `q` leaves what `q` sees.
  have hsame : ∀ q, chunksOf q [msg] = [] → ∀ t,
      chunks { s with lanes := s.lanes.set tx rest } q t = s.chunks q t := by
    intro q hq t
    by_cases ht : t = tx
    · subst ht
      rw [hself, chunks_pop htx, hq, nil_append]
    · exact hother q t ht
  cases msg with
  | event =>
    refine ⟨fun q u hu => ?_, fun q hq => ?_, fun q u t hu ht => ?_, fun t ht => ?_⟩
    · have hview := funext (hsame q rfl)
      simp only [onBulk]
      rw [hview]
      exact h.sound q u hu
    · have hview := funext (hsame q rfl)
      simp only [onBulk]
      rw [hview]
      exact h.absent q hq
    · exact hlen ▸ h.bulk q u t hu ht
    · exact hlen ▸ h.bulks t ht
  | raw seq more bytes =>
    have hpop := chunks_pop htx seq
    rw [chunksOf_self] at hpop
    cases hr : s.getRead seq with
    | none =>
      have hnil := (h.absent seq hr).2 tx
      rw [hpop] at hnil
      cases hnil
    | some r =>
      have hget : getRead { s with lanes := s.lanes.set tx rest } seq = some r := hr
      obtain ⟨hnode, hbulk⟩ := r.deliverChunk_keeps bytes more
      simp only [onBulk, hget]
      refine h.update hr rfl rfl rfl hlen (fun _ _ => rfl)
        (fun q hq t => hsame q (chunksOf_ne hq more bytes) t) hnode
        (fun t ht => h.bulk seq r t hr (hbulk ▸ ht)) ?_
      refine (h.sound seq r hr).bulk ?_ (fun t ht => hother seq t ht)
      rw [hpop]
      exact congrArg ((more, bytes) :: ·) (hself seq).symm

/-- What is left to do for the guest's task of a read of `len` bytes, chunks under way included. -/
def Task.cost (len : Nat) : Task → Nat
  | .requested => 3 * len + 6
  | .planned _ n => 3 * n + 4
  | .streaming _ n sent => 3 * (n - sent) + 3
  | .done => 0

def Host.cost : Host → Nat
  | .header => 2
  | .body .. => 1
  | .returned _ => 0

def Read.cost (r : Read) : Nat := r.task.cost r.len + r.chan.length + r.host.cost

def Call.cost : Call → Nat
  | .other => 0
  | .read r => r.cost

theorem Read.takeHeader_eq (h : r.takeHeader = some r') :
    ∃ sink host, r' = { r with sink, host } ∧ host.cost < r.host.cost := by
  simp only [Read.takeHeader] at h
  split at h
  · rename_i hhost _
    cases h
    refine ⟨r.sink, _, rfl, ?_⟩
    rw [hhost, apply_ite Host.cost]
    simp only [Host.cost]
    split <;> omega
  · rename_i hhost _
    cases h
    exact ⟨false, _, rfl, by simp [hhost, Host.cost]⟩
  · cases h

theorem Read.recv_eq (h : r.recv = some r') : ∃ chan host, r' = { r with chan, host } ∧
    chan.length + host.cost < r.chan.length + r.host.cost := by
  simp only [Read.recv] at h
  split at h
  · rename_i hhost
    split at h
    · rename_i hchan
      cases h
      refine ⟨_, _, rfl, ?_⟩
      rw [hhost, hchan, length_cons, apply_ite Host.cost]
      simp only [Host.cost]
      split <;> omega
    · split at h <;> cases h
      exact ⟨r.chan, _, rfl, by simp [hhost, Host.cost]⟩
  · cases h

theorem Tracked.step {a : Action} (h : Tracked s) (hstep : s.step a = some s') : Tracked s' := by
  cases a with
  | call =>
    cases hstep
    exact h.append fun r hr => Call.noConfusion hr
  | issue node off len =>
    cases hstep
    refine h.append fun r hr => ?_
    obtain rfl := Call.read.inj hr
    exact ⟨rfl, .issued s.guest node off len⟩
  | attach i =>
    cases hstep
    exact h.attach i
  | event tx =>
    cases hstep
    refine ⟨fun q u hu => ?_, fun q hq => ?_, fun q u t hu ht => ?_, fun t ht => ?_⟩
    · rw [funext (chunks_event tx q)]
      exact h.sound q u hu
    · rw [funext (chunks_event tx q)]
      exact h.absent q hq
    · exact (length_modify ..).symm ▸ h.bulk q u t hu ht
    · exact (length_modify ..).symm ▸ h.bulks t ht
  | write node file =>
    obtain ⟨g, hg, hs⟩ := bind_eq_some_iff.mp hstep
    cases hs
    exact h.write hg file
  | plan seq =>
    obtain ⟨r, hr, hs⟩ := bind_eq_some_iff.mp hstep
    obtain ⟨htask, rfl⟩ := ite_some_none_eq_some.mp hs
    exact h.plan hr htask
  | start seq =>
    obtain ⟨r, hr, hs⟩ := bind_eq_some_iff.mp hstep
    obtain ⟨tx, htx, hs⟩ := bind_eq_some_iff.mp hs
    obtain ⟨r', hr', hs⟩ := bind_eq_some_iff.mp hs
    cases hs
    exact h.start hr htx hr'
  | stream seq k =>
    obtain ⟨r, hr, hs⟩ := bind_eq_some_iff.mp hstep
    obtain ⟨tx, htx, hs⟩ := bind_eq_some_iff.mp hs
    obtain ⟨f, hf, hs⟩ := bind_eq_some_iff.mp hs
    obtain ⟨⟨msg, r'⟩, hr', hs⟩ := bind_eq_some_iff.mp hs
    cases hs
    exact h.stream hr k.succ_pos htx hf hr'
  | resp =>
    simp only [State.step] at hstep
    split at hstep
    · rename_i hresps
      cases hstep
      exact h.resp hresps
    · cases hstep
  | bulk tx =>
    obtain ⟨queue, htx, hs⟩ := bind_eq_some_iff.mp hstep
    cases queue with
    | nil => cases hs
    | cons msg rest =>
      cases hs
      exact h.onBulk htx
  | header seq =>
    obtain ⟨r, hr, hs⟩ := bind_eq_some_iff.mp hstep
    obtain ⟨r', hr', hs⟩ := bind_eq_some_iff.mp hs
    cases hs
    have hsound := (h.sound seq r hr).header hr'
    obtain ⟨sink, host, rfl, -⟩ := Read.takeHeader_eq hr'
    exact h.setRead hr rfl (fun t => h.bulk seq r t hr) hsound
  | recv seq =>
    obtain ⟨r, hr, hs⟩ := bind_eq_some_iff.mp hstep
    obtain ⟨r', hr', hs⟩ := bind_eq_some_iff.mp hs
    cases hs
    have hsound := (h.sound seq r hr).recv hr'
    obtain ⟨chan, host, rfl, -⟩ := Read.recv_eq hr'
    exact h.setRead hr rfl (fun t => h.bulk seq r t hr) hsound

def State.cost (s : State) : Nat :=
  weigh Call.cost s.calls + weigh (fun queue => 2 * queue.length) s.lanes + s.resps.length

theorem weigh_setRead (hr : s.getRead seq = some r) (r' : Read) :
    weigh Call.cost (s.calls.set seq (.read r')) + r.cost = weigh Call.cost s.calls + r'.cost :=
  weigh_set Call.cost (getRead_eq_some.mp hr) (.read r')

theorem Read.planned_cost (r : Read) (found : Except Int32 Inode) (htask : r.task = .requested) :
    (r.planned (readPlan found r.off r.len)).cost + 1 < r.cost := by
  rcases hs : (readPlan found r.off r.len).stream with _ | ⟨off, n⟩
  · simp only [Read.cost, Read.planned, hs, htask, Task.cost]
    omega
  · obtain ⟨-, hle, -⟩ := readPlan_stream hs
    simp only [Read.cost, Read.planned, hs, htask, Task.cost]
    omega

theorem Read.start_cost (h : r.start tx = some r') : r'.cost < r.cost := by
  simp only [Read.start] at h
  split at h
  · rename_i htask
    cases h
    simp only [Read.cost, htask, Task.cost]
    omega
  · cases h

theorem Read.stream_cost (h : r.stream f seq k = some (msg, r')) : r'.cost + 2 < r.cost := by
  simp only [Read.stream] at h
  split at h
  · rename_i off n sent htask
    split at h
    · obtain ⟨-, rfl⟩ := Prod.mk.inj (some.inj h)
      simp only [Read.cost, htask, Task.cost]
      omega
    rename_i hchunk
    obtain ⟨-, rfl⟩ := Prod.mk.inj (some.inj h)
    have hlen := length_pos_iff.mpr hchunk
    have hlt : 0 < n - sent := by
      simp only [preadChunk, length_take] at hlen
      omega
    simp only [Read.cost, htask]
    rw [apply_ite (Task.cost r.len)]
    simp only [Task.cost]
    split <;> omega
  · cases h

theorem Read.deliverChunk_cost (r : Read) (bytes : List UInt8) (more : Bool) :
    (r.deliverChunk bytes more).cost ≤ r.cost + 1 := by
  simp only [Read.deliverChunk]
  split
  · simp only [Read.cost, apply_ite length, length_append, length_singleton]
    split <;> omega
  · omega

theorem cost_setRead (hr : s.getRead seq = some r) (hcost : r'.cost < r.cost) :
    (s.setRead seq r').cost < s.cost := by
  have := weigh_setRead hr r'
  simp only [cost, setRead]
  omega

theorem cost_send (tx : Nat) (msg : BulkMsg) : (s.send tx msg).cost ≤ s.cost + 2 := by
  have := weigh_modify_le (w := fun queue => 2 * queue.length) (f := (· ++ [msg])) (k := 2)
    (fun queue => by simp; omega) s.lanes tx
  simp only [cost, send]
  omega

theorem cost_onResp (q : Nat) (hd : RpcResp) : (s.onResp q hd).cost = s.cost := by
  simp only [onResp]
  split
  · rename_i u hu
    have := weigh_setRead hu { u with header := some hd }
    simp only [cost, setRead]
    simp only [Read.cost] at this
    omega
  · rfl

theorem cost_onBulk (msg : BulkMsg) : (s.onBulk msg).cost ≤ s.cost + 1 := by
  cases msg with
  | event => exact Nat.le_succ _
  | raw q more bytes =>
    simp only [onBulk]
    split
    · rename_i u hu
      have := weigh_setRead hu (u.deliverChunk bytes more)
      have := u.deliverChunk_cost bytes more
      simp only [cost, setRead]
      omega
    · omega

theorem cost_step {a : Action} (ha : a.internal = true) (hstep : s.step a = some s') :
    s'.cost < s.cost := by
  cases a with
  | call | issue | attach | event | write => cases ha
  | plan seq =>
    obtain ⟨r, hr, hs⟩ := bind_eq_some_iff.mp hstep
    obtain ⟨htask, rfl⟩ := ite_some_none_eq_some.mp hs
    have := weigh_setRead hr (r.planned (readPlan (s.guest r.node) r.off r.len))
    have := r.planned_cost (s.guest r.node) htask
    simp only [cost, setRead, length_append, length_singleton]
    omega
  | start seq =>
    obtain ⟨r, hr, hs⟩ := bind_eq_some_iff.mp hstep
    obtain ⟨tx, -, hs⟩ := bind_eq_some_iff.mp hs
    obtain ⟨r', hr', hs⟩ := bind_eq_some_iff.mp hs
    cases hs
    exact cost_setRead hr (Read.start_cost hr')
  | stream seq k =>
    obtain ⟨r, hr, hs⟩ := bind_eq_some_iff.mp hstep
    obtain ⟨tx, -, hs⟩ := bind_eq_some_iff.mp hs
    obtain ⟨f, -, hs⟩ := bind_eq_some_iff.mp hs
    obtain ⟨⟨msg, r'⟩, hr', hs⟩ := bind_eq_some_iff.mp hs
    cases hs
    have hset := weigh_setRead hr r'
    have hread := Read.stream_cost hr'
    refine Nat.lt_of_le_of_lt (cost_send tx msg) ?_
    simp only [cost, setRead]
    omega
  | resp =>
    simp only [step] at hstep
    split at hstep
    · rename_i hresps
      cases hstep
      rw [cost_onResp]
      simp only [cost, hresps, length_cons]
      omega
    · cases hstep
  | bulk tx =>
    obtain ⟨queue, htx, hs⟩ := bind_eq_some_iff.mp hstep
    cases queue with
    | nil => cases hs
    | cons msg rest =>
      cases hs
      have hset := weigh_set (fun queue => 2 * queue.length) htx rest
      simp only [length_cons] at hset
      refine Nat.lt_of_le_of_lt (cost_onBulk msg) ?_
      simp only [cost]
      omega
  | header seq =>
    obtain ⟨r, hr, hs⟩ := bind_eq_some_iff.mp hstep
    obtain ⟨r', hr', hs⟩ := bind_eq_some_iff.mp hs
    cases hs
    obtain ⟨sink, host, rfl, hlt⟩ := Read.takeHeader_eq hr'
    exact cost_setRead hr (Nat.add_lt_add_left hlt _)
  | recv seq =>
    obtain ⟨r, hr, hs⟩ := bind_eq_some_iff.mp hstep
    obtain ⟨r', hr', hs⟩ := bind_eq_some_iff.mp hs
    cases hs
    obtain ⟨chan, host, rfl, hlt⟩ := Read.recv_eq hr'
    refine cost_setRead hr ?_
    simp only [Read.cost, Nat.add_assoc]
    exact Nat.add_lt_add_left hlt _

theorem Sound.recv_ready {chunks : Nat → List (Bool × List UInt8)} {heads : List RpcResp}
    {file : Option File} (h : Sound chunks heads file r) {total : Nat} {eof : Bool}
    {buf : List UInt8} (hhost : r.host = .body total eof buf) (htask : r.task = .done)
    (hchunks : ∀ tx, chunks tx = []) : r.recv.isSome := by
  obtain ⟨-, -, p, -, -, hstreams⟩ := h.plan_of_body hhost
  have hline : r.line chunks = [] := by
    cases hbulk : r.bulk with
    | none => simp [Read.line, hbulk]
    | some tx => simp [Read.line, hbulk, hchunks tx]
  have hsink : r.sink = false := by simpa [hline, htask, Ends] using hstreams.ends
  simp only [Read.recv, hhost]
  split
  · rfl
  · rw [hsink]
    rfl

/-- As long as a read has not returned, it or what it waits for can take a step. -/
theorem Tracked.progress (h : Tracked s) (hbulks : s.bulks ≠ []) (hr : s.getRead seq = some r)
    (hlive : r.returned = false) : ∃ a, a.internal = true ∧ (s.step a).isSome := by
  have hsound := h.sound seq r hr
  cases htask : r.task with
  | requested => exact ⟨.plan seq, rfl, by simp [State.step, hr, htask]⟩
  | planned off n =>
    have hlt : seq % s.bulks.length < s.bulks.length := Nat.mod_lt _ (length_pos_iff.mpr hbulks)
    exact ⟨.start seq, rfl, by simp [State.step, hr, bulkSender, hlt, Read.start, htask]⟩
  | streaming off n sent =>
    obtain ⟨p, off', n', hp, hs⟩ := hsound.has_stream (.inl ⟨by simp [htask], by simp [htask]⟩)
    have hplan := hsound.planned p hp
    obtain ⟨tx, htx⟩ : ∃ tx, r.bulk = some tx := by
      rcases (hplan.streams off' n' hs).turn with ⟨ht, -⟩ | ⟨-, -, hsome⟩ | ⟨ht, -⟩
      · rw [htask] at ht; cases ht
      · exact isSome_iff_exists.mp hsome
      · rw [htask] at ht; cases ht
    obtain ⟨f, hf⟩ : ∃ f, fileAt s.guest r.node = some f := by
      rcases hplan.made with ⟨f, hf, -⟩ | ⟨-, e, rfl⟩
      · rw [← hsound.current hlive]
        exact isSome_iff_exists.mp (isSome_head?.mpr (ne_nil_of_mem hf))
      · cases hs
    refine ⟨.stream seq 0, rfl, ?_⟩
    simp only [State.step, hr, htx, hf, bind_eq_bind, bind_some, isSome_bind, Read.stream, htask]
    split <;> rfl
  | done =>
    cases hhost : r.host with
    | returned result => simp [Read.returned, hhost] at hlive
    | header =>
      cases hp : r.plan with
      | none => rw [(hsound.unplanned hp).task] at htask; cases htask
      | some p =>
        rcases (hsound.planned p hp).head with ⟨-, ⟨-, hheads⟩ | ⟨hheader, -⟩⟩ | ⟨hne, -⟩
        · refine ⟨.resp, rfl, ?_⟩
          simp only [State.step]
          split
          · rfl
          · rename_i hnil
            rw [hnil] at hheads
            cases hheads
        · refine ⟨.header seq, rfl, ?_⟩
          cases hd : p.header with
          | readStart | err => simp [State.step, hr, Read.takeHeader, hhost, hheader, hd]
        · exact absurd hhost hne
    | body total eof buf =>
      by_cases hnone : ∀ tx, s.chunks seq tx = []
      · refine ⟨.recv seq, rfl, ?_⟩
        obtain ⟨r', hr'⟩ := isSome_iff_exists.mp (hsound.recv_ready hhost htask hnone)
        simp [State.step, hr, hr']
      obtain ⟨tx, htx⟩ := not_forall.mp hnone
      refine ⟨.bulk tx, rfl, ?_⟩
      cases hqueue : s.lanes[tx]? with
      | none => simp [chunks, hqueue, chunksOf] at htx
      | some queue =>
        cases queue with
        | nil => simp [chunks, hqueue, chunksOf] at htx
        | cons msg rest => simp [State.step, hqueue]

def Read.range (r : Read) (f : File) : List UInt8 := (f.bytes.drop r.off).take r.len

section

variable {chunks : Nat → List (Bool × List UInt8)} {heads : List RpcResp} {file : Option File}
  {f : File} {result : Except SessionError (List UInt8 × Bool)}

theorem readPlan_regular (f : File) (off len : Nat) :
    (readPlan (.ok (.regular f)) off len).header =
      .readStart (min len (f.bytes.length - off)) (decide (f.bytes.length ≤ off + len)) := by
  have hsized := f.sized
  simp only [readPlan, RpcResp.readStart.injEq, decide_eq_decide]
  omega

section

variable (h : Sound chunks heads file r) (hlast : r.seen.getLast? = some f)
  (hhost : r.host = .returned result)
include h hlast hhost

theorem Sound.returned_out :
    ∃ g ∈ r.seen, result = .ok (r.out, decide (g.bytes.length ≤ r.off + r.len)) ∧
      r.out.length ≤ min r.len (g.bytes.length - r.off) ∧
      (r.out.length = min r.len (g.bytes.length - r.off) ∨
        ∃ e ∈ r.seen, e.bytes.length ≤ r.off + r.out.length) := by
  cases hp : r.plan with
  | none => cases (h.unplanned hp).host.symm.trans hhost
  | some p =>
    have hplan := h.planned p hp
    obtain ⟨hgot, htask⟩ := hplan.finished (by simp [Read.returned, hhost])
    rcases hplan.made with ⟨g, hg, rfl⟩ | ⟨hnil, -⟩
    · refine ⟨g, hg, ?_⟩
      have hanswers := hplan.answers
      rw [hhost, readPlan_regular] at hanswers
      rcases result with e | ⟨bytes, eof⟩
      · obtain ⟨e, he⟩ := hanswers
        cases he
      obtain ⟨total, hheader⟩ := hanswers
      obtain ⟨-, rfl⟩ := RpcResp.readStart.inj hheader
      have hbytes : bytes = r.out := by simpa [Read.got, hhost] using hgot
      refine ⟨by rw [hbytes], ?_⟩
      rcases hs : (readPlan (.ok (.regular g)) r.off r.len).stream with _ | ⟨off, n⟩
      · have hzero : min r.len (g.bytes.length - r.off) = 0 := by
          by_contra hne
          cases hs.symm.trans (readPlan_header (readPlan_regular ..) (by omega))
        rw [(hplan.idle hs).2.2, hzero]
        exact ⟨Nat.le_refl 0, .inl rfl⟩
      · obtain ⟨rfl, -, -, eof, hn⟩ := readPlan_stream hs
        obtain ⟨rfl, -⟩ := RpcResp.readStart.inj ((readPlan_regular ..).symm.trans hn)
        have hstreams := hplan.streams _ _ hs
        refine ⟨hstreams.fits, ?_⟩
        rcases hstreams.turn with ⟨ht, -⟩ | ⟨ht, -⟩ | ⟨-, hdone⟩
        · cases htask.symm.trans ht
        · cases htask.symm.trans ht
        · exact hdone
    · rw [hnil] at hlast
      cases hlast

theorem Sound.returned_steady (hsteady : ∀ g ∈ r.seen, g = f) :
    result = .ok (r.range f, decide (f.bytes.length ≤ r.off + r.len)) := by
  obtain ⟨g, hg, hresult, hfits, hdone⟩ := h.returned_out hlast hhost
  obtain rfl := hsteady g hg
  have hshrinks : r.Shrinks := pairwise_iff_forall_sublist.mpr fun {a b} hsub => by
    rw [hsteady a (hsub.subset (by simp)), hsteady b (hsub.subset (by simp))]
  have hout := h.content g hlast hshrinks
  have hfull : r.out.length = min r.len (g.bytes.length - r.off) := by
    rcases hdone with hdone | ⟨e, he, hshort⟩
    · exact hdone
    · rw [hsteady e he] at hshort
      omega
  have hrange : r.out = r.range g := by
    rw [hout, hfull, Read.range, take_eq_take_iff, length_drop, Nat.min_assoc, Nat.min_self]
  rw [hresult, hrange]

theorem Sound.returned_shrinks (hshrinks : r.Shrinks) :
    ∃ bytes eof, result = .ok (bytes, eof) ∧ bytes <+: r.range f := by
  obtain ⟨g, -, hresult, hfits, -⟩ := h.returned_out hlast hhost
  refine ⟨_, _, hresult, ?_⟩
  rw [h.content f hlast hshrinks]
  exact take_prefix_take_left (by omega)

end

end

theorem Tracked.reaches {guest : Guest}
    (h : Reaches State.step (fun _ _ => True) (.init guest) s) : Tracked s :=
  h.inv (Tracked.init guest) fun _ _ _ hs _ hstep => hs.step hstep

end

/-- A read that returns has the bytes it asked for if the file stayed as it was, and a beginning of
them if it shrank; with a lane attached every read returns after a bounded number of steps. -/
theorem read_end_to_end (guest : Guest) {s : State}
    (h : Runs.Reaches State.step (fun _ _ => True) (.init guest) s) :
    (∀ seq r f result, s.getRead seq = some r → r.seen.getLast? = some f →
      r.host = .returned result →
      ((∀ g ∈ r.seen, g = f) → result = .ok (r.range f, decide (f.bytes.length ≤ r.off + r.len))) ∧
      (r.Shrinks → ∃ bytes eof, result = .ok (bytes, eof) ∧ bytes <+: r.range f)) ∧
    (∀ seq r total eof buf, s.getRead seq = some r → r.host = .body total eof buf →
      r.task = .done → (∀ tx, s.chunks seq tx = []) → r.recv.isSome) ∧
    (s.bulks ≠ [] → (∀ a : Action, a.internal = true → s.step a = none) →
      ∀ seq r, s.getRead seq = some r → r.returned = true) ∧
    ∃ bound, ∀ (as : List Action) (t : State), (∀ a ∈ as, a.internal = true) →
      as.foldlM State.step s = some t → as.length ≤ bound := by
  have hinv := Tracked.reaches h
  refine ⟨fun seq r f result hr hlast hhost => ?_, fun seq r total eof buf hr hhost htask hchunks => ?_,
    fun hbulks hstuck seq r hr => ?_, s.cost, fun as t has hrun => ?_⟩
  · have hsound := hinv.sound seq r hr
    exact ⟨hsound.returned_steady hlast hhost, hsound.returned_shrinks hlast hhost⟩
  · exact (hinv.sound seq r hr).recv_ready hhost htask hchunks
  · by_contra hlive
    obtain ⟨a, ha, hstep⟩ := hinv.progress hbulks hr (by simpa using hlive)
    rw [hstuck a ha] at hstep
    cases hstep
  · exact length_le_of_decreasing cost (fun _ a _ ha => cost_step (has a ha)) hrun

def twoReads : List Action :=
  let node : NodeKey := ⟨2, 1⟩
  [.attach 0, .attach 1, .issue node 1 3, .issue node 0 9, .plan 2, .plan 1, .start 1, .start 2,
    .stream 2 1, .stream 1 1, .stream 2 8, .stream 1 8, .bulk 0, .bulk 1, .bulk 1, .resp, .resp,
    .header 1, .recv 1, .recv 1]

theorem read_end_to_end_middle :
    ∃ guest s r, Runs.Reaches State.step (fun _ _ => True) (.init guest) s ∧
      s.getRead 1 = some r ∧ r.host = .returned (.ok ([2, 3, 4], false)) := by
  let file : File := ⟨[1, 2, 3, 4, 5], by decide⟩
  let guest : Guest := fun _ => .ok (.regular file)
  obtain ⟨s, hs, hread⟩ : ∃ s, Reaches step (fun _ _ => True) (.init guest) s ∧
      ((s.getRead 1).any fun r =>
        decide (r.seen = [file] ∧ r.off = 1 ∧ r.len = 3 ∧ r.returned = true)) = true :=
    Reaches.exists_of_guarded twoReads (by decide +kernel)
  obtain ⟨r, hr, hr'⟩ := (Option.any_eq_true ..).mp hread
  obtain ⟨hseen, hoff, hlen, hret⟩ := of_decide_eq_true hr'
  cases hhost : r.host with
  | header | body => simp [Read.returned, hhost] at hret
  | returned result =>
    have hresult := ((read_end_to_end guest hs).1 1 r file result hr (by rw [hseen]; rfl) hhost).1
      (by simp [hseen])
    rw [Read.range, hoff, hlen] at hresult
    exact ⟨guest, s, r, hs, hr, hhost.trans (congrArg _ hresult)⟩

end Mist.BulkRead
