import Mist.Hostd.BulkRead
import Mist.Weigh

/-! The bytes of a read, followed from the guest's `pread` to the buffer of the call. -/

namespace Mist.BulkRead

open List Option

def chunksOf (seq : Nat) (queue : List BulkMsg) : List (Bool × List UInt8) :=
  queue.filterMap fun
    | .raw q more bytes => if q = seq then some (more, bytes) else none
    | .event => none

def headersOf (seq : Nat) (resps : List (Nat × RpcResp)) : List RpcResp :=
  resps.filterMap fun (q, h) => if q = seq then some h else none

def State.chunks (s : State) (seq tx : Nat) : List (Bool × List UInt8) :=
  chunksOf seq (s.lanes[tx]?.getD [])

def payload (chunks : List (Bool × List UInt8)) : List UInt8 := chunks.flatMap (·.2)

/-- The flags of the chunks under way: the sink is there when each of them arrives, and after the
last one it is gone exactly when the stream is over. -/
def Ends (ended : Bool) : Bool → List (Bool × List UInt8) → Prop
  | sink, [] => sink = !ended
  | sink, (more, _) :: chunks => sink = true ∧ Ends ended more chunks

theorem Ends.append {sink : Bool} {chunks : List (Bool × List UInt8)} (h : Ends false sink chunks)
    (ended : Bool) (bytes : List UInt8) : Ends ended sink (chunks ++ [(!ended, bytes)]) := by
  induction chunks generalizing sink with
  | nil => exact ⟨h, rfl⟩
  | cons c chunks ih => exact ⟨h.1, ih h.2⟩

theorem Ends.closed {ended : Bool} {chunks : List (Bool × List UInt8)} (h : Ends ended false chunks) :
    chunks = [] ∧ ended = true := by
  cases chunks with
  | nil => exact ⟨rfl, by simpa [Ends] using h⟩
  | cons c chunks => exact absurd h.1 (by decide)

namespace Read

def got (r : Read) : List UInt8 :=
  match r.host with
  | .header => []
  | .body _ _ buf => buf
  | .returned (.ok (buf, _)) => buf
  | .returned (.error _) => []

def line (r : Read) (chunks : Nat → List (Bool × List UInt8)) : List (Bool × List UInt8) :=
  (r.bulk.map chunks).getD []

def Shrinks (r : Read) : Prop := r.seen.Pairwise fun f g => f.bytes <+: g.bytes

end Read

def Answers (header : RpcResp) : Host → Prop
  | .header => True
  | .body total eof _ => header = .readStart total eof ∧ 0 < total
  | .returned (.ok (_, eof)) => ∃ total, header = .readStart total eof
  | .returned (.error _) => ∃ e, header = .err e

structure Streams (off n : Nat) (line : List (Bool × List UInt8)) (r : Read) : Prop where
  off_eq : off = r.off
  total : ∃ eof, (r.plan.map ReadPlan.header) = some (.readStart n eof)
  fits : r.out.length ≤ n
  turn : (r.task = .planned off n ∧ r.bulk = none ∧ r.out = []) ∨
    (r.task = .streaming off n r.out.length ∧ r.out.length < n ∧ r.bulk.isSome) ∨
    (r.task = .done ∧ (r.out.length = n ∨ ∃ f ∈ r.seen, f.bytes.length ≤ off + r.out.length))
  ends : Ends (decide (r.task = .done)) r.sink line

structure Planned (p : ReadPlan) (line : List (Bool × List UInt8)) (heads : List RpcResp)
    (r : Read) : Prop where
  made : (∃ f ∈ r.seen, p = readPlan (.ok (.regular f)) r.off r.len) ∨
    (r.seen = [] ∧ ∃ e, p = ⟨.err e, none⟩)
  head : (r.host = .header ∧ ((r.header = none ∧ heads = [p.header]) ∨
    (r.header = some p.header ∧ heads = []))) ∨ (r.host ≠ .header ∧ heads = [])
  answers : Answers p.header r.host
  whole : r.got ++ r.chan.flatten ++ payload line = r.out
  idle : p.stream = none → r.task = .done ∧ r.bulk = none ∧ r.out = []
  streams : ∀ off n, p.stream = some (off, n) → Streams off n line r
  finished : r.returned = true → r.got = r.out ∧ r.task = .done

structure Unplanned (heads : List RpcResp) (r : Read) : Prop where
  task : r.task = .requested
  bulk : r.bulk = none
  heads : heads = []
  header : r.header = none
  host : r.host = .header
  sink : r.sink = true
  chan : r.chan = []
  out : r.out = []

/-- What holds of a read, from what it sees of the lanes and of the file. -/
structure Sound (chunks : Nat → List (Bool × List UInt8)) (heads : List RpcResp)
    (file : Option File) (r : Read) : Prop where
  current : r.returned = false → r.seen.head? = file
  elsewhere : ∀ tx, r.bulk ≠ some tx → chunks tx = []
  content : ∀ f, r.seen.getLast? = some f → r.Shrinks →
    r.out = (f.bytes.drop r.off).take r.out.length
  unplanned : r.plan = none → Unplanned heads r
  planned : ∀ p, r.plan = some p → Planned p (r.line chunks) heads r

section

variable {chunks chunks' : Nat → List (Bool × List UInt8)} {heads : List RpcResp}
  {file : Option File} {r r' : Read} {p : ReadPlan}

theorem payload_append (a b : List (Bool × List UInt8)) :
    payload (a ++ b) = payload a ++ payload b := flatMap_append

variable {off tx n total : Nat} {eof more : Bool} {bytes : List UInt8}

theorem readPlan_stream {found : Except Int32 Inode} {len o : Nat}
    (h : (readPlan found off len).stream = some (o, n)) :
    o = off ∧ n ≤ len ∧ 0 < n ∧ ∃ eof, (readPlan found off len).header = .readStart n eof := by
  rcases found with errno | ⟨f⟩ | _
  · cases h
  · simp only [readPlan] at h ⊢
    split at h
    · cases h
      rename_i hpos
      exact ⟨rfl, by omega, hpos, _, rfl⟩
    · cases h
  · cases h

theorem readPlan_header {found : Except Int32 Inode} {len : Nat}
    (h : (readPlan found off len).header = .readStart total eof) (hpos : 0 < total) :
    (readPlan found off len).stream = some (off, total) := by
  rcases found with errno | ⟨f⟩ | _
  · cases h
  · simp only [readPlan, RpcResp.readStart.injEq] at h ⊢
    rw [h.1, if_pos hpos]
  · cases h

theorem Planned.header_stream (h : Planned p (r.line chunks) heads r)
    (hhead : p.header = .readStart total eof) (hpos : 0 < total) :
    p.stream = some (r.off, total) := by
  rcases h.made with ⟨f, -, rfl⟩ | ⟨-, e, rfl⟩
  · exact readPlan_header hhead hpos
  · cases hhead

theorem Planned.task_ne (h : Planned p (r.line chunks) heads r) : r.task ≠ .requested := by
  rcases hp : p.stream with _ | ⟨off, n⟩
  · rw [(h.idle hp).1]
    exact nofun
  · rcases (h.streams off n hp).turn with ⟨ht, -⟩ | ⟨ht, -⟩ | ⟨ht, -⟩ <;> rw [ht] <;> exact nofun

theorem Sound.not_planned (h : Sound chunks heads file r) (htask : r.task = .requested) :
    r.plan = none := by
  cases hp : r.plan with
  | none => rfl
  | some p => exact absurd htask (h.planned p hp).task_ne

theorem Sound.issued (guest : Guest) (node : NodeKey) (off len : Nat) :
    Sound (fun _ => []) [] (fileAt guest node) (.issued guest node off len) where
  current _ := by simp [Read.issued]
  elsewhere _ _ := rfl
  content f _ _ := rfl
  unplanned _ := ⟨rfl, rfl, rfl, rfl, rfl, rfl, rfl, rfl⟩
  planned p hp := nomatch hp

theorem made_of_current {guest : Guest} (h : r.seen.head? = fileAt guest r.node) :
    (∃ f ∈ r.seen, readPlan (guest r.node) r.off r.len = readPlan (.ok (.regular f)) r.off r.len) ∨
      (r.seen = [] ∧ ∃ e, readPlan (guest r.node) r.off r.len = ⟨.err e, none⟩) := by
  rcases hfound : guest r.node with errno | ⟨f⟩ | _
  · exact .inr ⟨by simpa [fileAt, hfound] using h, _, rfl⟩
  · exact .inl ⟨f, mem_of_mem_head? (by simp [h, fileAt, hfound]), rfl⟩
  · exact .inr ⟨by simpa [fileAt, hfound] using h, _, rfl⟩

theorem Sound.plan {guest : Guest} (h : Sound chunks heads (fileAt guest r.node) r)
    (htask : r.task = .requested) :
    Sound chunks (heads ++ [(readPlan (guest r.node) r.off r.len).header])
      (fileAt guest r.node) (r.planned (readPlan (guest r.node) r.off r.len)) := by
  have hun := h.unplanned (h.not_planned htask)
  have hline : (r.planned (readPlan (guest r.node) r.off r.len)).line chunks = [] := by
    simp [Read.line, Read.planned, hun.bulk]
  refine ⟨h.current, h.elsewhere, h.content, nofun, ?_⟩
  intro p hp
  obtain rfl : readPlan (guest r.node) r.off r.len = p := some.inj hp
  rw [hline]
  refine ⟨made_of_current (h.current ?_), .inl ⟨hun.host, .inl ⟨hun.header, by rw [hun.heads]; rfl⟩⟩,
    ?_, ?_, ?_, ?_, ?_⟩
  · simp [Read.returned, hun.host]
  · simp [Read.planned, hun.host, Answers]
  · simp [Read.planned, Read.got, hun.host, hun.chan, hun.out, payload]
  · intro hstream
    exact ⟨by simp [Read.planned, hstream], hun.bulk, hun.out⟩
  · intro off n hstream
    obtain ⟨rfl, -, -, eof, hhead⟩ := readPlan_stream hstream
    refine ⟨rfl, ⟨eof, by simp [Read.planned, hhead]⟩, ?_, .inl ⟨?_, hun.bulk, hun.out⟩, ?_⟩
    · simp [Read.planned, hun.out]
    · simp [Read.planned, hstream]
    · simp [Read.planned, hstream, Ends, hun.sink]
  · intro hret
    simp [Read.returned, Read.planned, hun.host] at hret

theorem Sound.has_stream (h : Sound chunks heads file r)
    (hbusy : (r.task ≠ .requested ∧ r.task ≠ .done) ∨ r.bulk ≠ none) :
    ∃ p off n, r.plan = some p ∧ p.stream = some (off, n) := by
  cases hp : r.plan with
  | none =>
    have hun := h.unplanned hp
    rcases hbusy with ⟨ht, -⟩ | hb
    · exact absurd hun.task ht
    · exact absurd hun.bulk hb
  | some p =>
    rcases hs : p.stream with _ | ⟨off, n⟩
    · obtain ⟨htask, hbulk, -⟩ := (h.planned p hp).idle hs
      rcases hbusy with ⟨-, ht⟩ | hb
      · exact absurd htask ht
      · exact absurd hbulk hb
    · exact ⟨p, off, n, rfl, hs⟩

theorem Sound.start (h : Sound chunks heads file r) (hstart : r.start tx = some r') :
    Sound chunks heads file r' := by
  cases htask : r.task with
  | requested | streaming | done => simp [Read.start, htask] at hstart
  | planned off n =>
    obtain rfl : { r with bulk := some tx, task := .streaming off n 0 } = r' := by
      simpa [Read.start, htask] using hstart
    obtain ⟨p, off', n', hp, hs⟩ := h.has_stream (.inl ⟨by simp [htask], by simp [htask]⟩)
    have hplan := h.planned p hp
    have hstreams := hplan.streams off' n' hs
    obtain ⟨rfl, rfl, hbulk, hout⟩ : off' = off ∧ n' = n ∧ r.bulk = none ∧ r.out = [] := by
      rcases hstreams.turn with ⟨ht, hb, ho⟩ | ⟨ht, -⟩ | ⟨ht, -⟩ <;> rw [htask] at ht <;> cases ht
      exact ⟨rfl, rfl, hb, ho⟩
    have hnone : ∀ t, chunks t = [] := fun t => h.elsewhere t (by rw [hbulk]; exact nofun)
    have hline : r.line chunks = [] := by simp [Read.line, hbulk]
    have hpos : 0 < n' := by
      obtain ⟨f, -, rfl⟩ | ⟨-, e, rfl⟩ := hplan.made
      · exact (readPlan_stream hs).2.2.1
      · cases hs
    refine ⟨h.current, fun t _ => hnone t, h.content, fun hp' => ?_, fun q hq => ?_⟩
    · exact nomatch hp.symm.trans hp'
    obtain rfl : p = q := mem_unique hp hq
    have hline' : Read.line { r with bulk := some tx, task := .streaming off' n' 0 } chunks = [] :=
      hnone tx
    rw [hline] at hplan hstreams
    rw [hline']
    refine { hplan with
      idle := fun hs' => ?_
      streams := fun o m hs' => ?_
      finished := fun hret => ?_ }
    · exact nomatch hs.symm.trans hs'
    · obtain ⟨rfl, rfl⟩ := Prod.mk.inj (mem_unique hs hs')
      refine { hstreams with turn := .inr (.inl ⟨?_, ?_, rfl⟩), ends := ?_ }
      · rw [hout]; rfl
      · rw [hout]; exact hpos
      · simpa [htask] using hstreams.ends
    · rw [(hplan.finished hret).2] at htask
      cases htask

theorem Read.Shrinks.head_prefix (h : r.Shrinks) {f f₀ : File} (hhead : r.seen.head? = some f)
    (hlast : r.seen.getLast? = some f₀) : f.bytes <+: f₀.bytes := by
  obtain ⟨rest, hseen⟩ := head?_eq_some_iff.mp hhead
  rw [Read.Shrinks, hseen, pairwise_cons] at h
  rw [hseen] at hlast
  rcases mem_cons.mp (mem_of_getLast? hlast) with rfl | hmem
  · exact prefix_rfl
  · exact h.1 f₀ hmem

theorem take_extend {f g out : List UInt8} (hpre : f <+: g)
    (hout : out = (g.drop off).take out.length) (j : Nat) :
    out ++ (f.drop (off + out.length)).take j =
      (g.drop off).take (out.length + ((f.drop (off + out.length)).take j).length) := by
  have hchunk : (f.drop (off + out.length)).take j <+: g.drop (off + out.length) :=
    ( take_prefix _ _).trans (hpre.drop _)
  rw [take_add, ← hout, drop_drop, ← prefix_iff_eq_take.mp hchunk]

theorem Sound.emit
    (h : Sound chunks heads file r) (hbulk : r.bulk = some tx)
    (htask : r.task = .streaming off n r.out.length)
    (hnew : chunks' tx = chunks tx ++ [(more, bytes)]) (hsame : ∀ t, t ≠ tx → chunks' t = chunks t)
    (hfits : r.out.length + bytes.length ≤ n)
    (hmore : more = true → r.out.length + bytes.length < n)
    (hend : more = false → r.out.length + bytes.length = n ∨
      ∃ f ∈ r.seen, f.bytes.length ≤ off + (r.out.length + bytes.length))
    (hcontent : ∀ f, r.seen.getLast? = some f → r.Shrinks →
      r.out ++ bytes = (f.bytes.drop r.off).take (r.out.length + bytes.length)) :
    Sound chunks' heads file { r with
      out := r.out ++ bytes
      task := if more then .streaming off n (r.out.length + bytes.length) else .done } := by
  obtain ⟨p, off', n', hp, hs⟩ := h.has_stream (.inr (by simp [hbulk]))
  have hplan := h.planned p hp
  have hstreams := hplan.streams off' n' hs
  obtain ⟨rfl, rfl⟩ : off' = off ∧ n' = n := by
    rcases hstreams.turn with ⟨ht, -⟩ | ⟨ht, -⟩ | ⟨ht, -⟩ <;> rw [htask] at ht <;> cases ht
    exact ⟨rfl, rfl⟩
  have hline : r.line chunks = chunks tx := by simp [Read.line, hbulk]
  have hlive : r.returned = false := by
    cases hret : r.returned with
    | false => rfl
    | true => rw [(hplan.finished hret).2] at htask; cases htask
  have hends := hstreams.ends
  rw [htask, hline] at hends
  refine ⟨h.current, fun t ht => ?_, fun f hf hshrinks => ?_, fun hp' => ?_, fun q hq => ?_⟩
  · have htx : t ≠ tx := fun heq => ht (heq ▸ hbulk)
    rw [hsame t htx]
    exact h.elsewhere t ht
  · rw [length_append]
    exact hcontent f hf hshrinks
  · exact nomatch hp.symm.trans hp'
  obtain rfl : p = q := mem_unique hp hq
  have hline' : Read.line { r with
      out := r.out ++ bytes
      task := if more then .streaming off' n' (r.out.length + bytes.length) else .done } chunks' =
      chunks tx ++ [(more, bytes)] := by
    simp [Read.line, hbulk, hnew]
  rw [hline']
  refine ⟨hplan.made, hplan.head, hplan.answers, ?_, fun hs' => ?_, fun o m hs' => ?_,
    fun hret => ?_⟩
  · have hwhole := hplan.whole
    rw [hline] at hwhole
    rw [payload_append, ← append_assoc]
    exact congrArg₂ (· ++ ·) hwhole (by simp [payload])
  · exact nomatch hs.symm.trans hs'
  · obtain ⟨rfl, rfl⟩ := Prod.mk.inj (mem_unique hs hs')
    refine ⟨hstreams.off_eq, hstreams.total, by simpa using hfits, ?_, ?_⟩
    · cases more with
      | true => exact .inr (.inl ⟨by simp, by simpa using hmore rfl, by simp [hbulk]⟩)
      | false => exact .inr (.inr ⟨rfl, by simpa using hend rfl⟩)
    · cases more with
      | true => exact hends.append false bytes
      | false => exact hends.append true bytes
  · exact absurd (hlive.symm.trans hret) nofun

theorem Sound.stream {seq k : Nat} {f : File} {msg : BulkMsg} (h : Sound chunks heads (some f) r)
    (hk : 0 < k) (hbulk : r.bulk = some tx) (hstream : r.stream f seq k = some (msg, r'))
    (hmsg : msg = .raw seq more bytes) (hnew : chunks' tx = chunks tx ++ [(more, bytes)])
    (hsame : ∀ t, t ≠ tx → chunks' t = chunks t) : Sound chunks' heads (some f) r' := by
  obtain ⟨p, off', n', hp, hs⟩ := h.has_stream (.inr (by simp [hbulk]))
  have hplan := h.planned p hp
  have hstreams := hplan.streams off' n' hs
  cases htask : r.task with
  | requested | planned | done => simp [Read.stream, htask] at hstream
  | streaming off n sent =>
    obtain ⟨rfl, rfl, rfl, hlt⟩ :
        off' = off ∧ n' = n ∧ sent = r.out.length ∧ r.out.length < n' := by
      rcases hstreams.turn with ⟨ht, -⟩ | ⟨ht, hl, -⟩ | ⟨ht, -⟩ <;> rw [htask] at ht <;> cases ht
      exact ⟨rfl, rfl, rfl, hl⟩
    have hoff := hstreams.off_eq
    have hlive : r.returned = false := by
      cases hret : r.returned with
      | false => rfl
      | true => rw [(hplan.finished hret).2] at htask; cases htask
    have hhead := h.current hlive
    have hcontent : ∀ f₀, r.seen.getLast? = some f₀ → r.Shrinks → ∀ j,
        r.out ++ (f.bytes.drop (off' + r.out.length)).take j = (f₀.bytes.drop r.off).take
          (r.out.length + ((f.bytes.drop (off' + r.out.length)).take j).length) := by
      intro f₀ hlast hshrinks j
      rw [hoff]
      exact take_extend (hshrinks.head_prefix hhead hlast) (h.content f₀ hlast hshrinks) j
    simp only [Read.stream, htask] at hstream
    split at hstream
    · rename_i hempty
      cases hstream
      obtain ⟨-, rfl, rfl⟩ := BulkMsg.raw.inj hmsg
      have := h.emit hbulk htask hnew hsame (by simpa using hlt.le) nofun (fun _ => .inr ?_) ?_
      · simpa using this
      · refine ⟨f, mem_of_mem_head? hhead, ?_⟩
        have hlen := congrArg length hempty
        simp only [preadChunk, READ_CHUNK, length_take, length_drop, length_nil]
          at hlen ⊢
        omega
      · intro f₀ hlast hshrinks
        simpa using h.content f₀ hlast hshrinks
    · rename_i hsome
      cases hstream
      obtain ⟨-, rfl, rfl⟩ := BulkMsg.raw.inj hmsg
      have hle : r.out.length + (preadChunk f (off' + r.out.length) (min (n' - r.out.length)
          READ_CHUNK) k).length ≤ n' := by
        simp only [preadChunk, length_take]
        omega
      have := h.emit hbulk htask hnew hsame hle of_decide_eq_true
        (fun hmore => .inl (by have := of_decide_eq_false hmore; omega))
        (fun f₀ hlast hshrinks => hcontent f₀ hlast hshrinks _)
      simpa using this

theorem Sound.resp {h : RpcResp} (hs : Sound chunks (h :: heads) file r) :
    Sound chunks heads file { r with header := some h } := by
  refine ⟨hs.current, hs.elsewhere, hs.content, fun hp => ?_, fun p hp => ?_⟩
  · exact nomatch (hs.unplanned hp).heads
  have hplan := hs.planned p hp
  refine { hplan with head := ?_, streams := fun off n hstream => ?_ }
  · rcases hplan.head with ⟨hhost, ⟨-, hh⟩ | ⟨-, hh⟩⟩ | ⟨-, hh⟩
    · obtain ⟨rfl, rfl⟩ := cons.inj hh
      exact .inl ⟨hhost, .inr ⟨rfl, rfl⟩⟩
    · cases hh
    · cases hh
  · have hstreams := hplan.streams off n hstream
    exact { hstreams with }

theorem Sound.bulk (h : Sound chunks heads file r)
    (hold : chunks tx = (more, bytes) :: chunks' tx) (hsame : ∀ t, t ≠ tx → chunks' t = chunks t) :
    Sound chunks' heads file (r.deliverChunk bytes more) := by
  have hbulk : r.bulk = some tx := by
    by_contra hne
    exact nomatch hold.symm.trans (h.elsewhere tx hne)
  obtain ⟨p, off, n, hp, hs⟩ := h.has_stream (.inr (by simp [hbulk]))
  have hplan := h.planned p hp
  have hstreams := hplan.streams off n hs
  have hline : r.line chunks = (more, bytes) :: chunks' tx := by simp [Read.line, hbulk, hold]
  obtain ⟨hsink, hends⟩ : r.sink = true ∧ Ends (decide (r.task = .done)) more (chunks' tx) := by
    have hends := hstreams.ends
    rw [hline] at hends
    exact hends
  rw [Read.deliverChunk, if_pos hsink]
  refine ⟨h.current, fun t ht => ?_, h.content, fun hp' => ?_, fun q hq => ?_⟩
  · have htx : t ≠ tx := fun heq => ht (heq ▸ hbulk)
    rw [hsame t htx]
    exact h.elsewhere t ht
  · exact nomatch hp.symm.trans hp'
  obtain rfl : p = q := mem_unique hp hq
  have hline' : Read.line { r with
      chan := if bytes = [] then r.chan else r.chan ++ [bytes]
      sink := more } chunks' = chunks' tx := by
    simp [Read.line, hbulk]
  rw [hline']
  have hchan : (if bytes = [] then r.chan else r.chan ++ [bytes]).flatten =
      r.chan.flatten ++ bytes := by
    split <;> simp_all
  have hwhole := hplan.whole
  rw [hline] at hwhole
  have hwhole' : r.got ++ (if bytes = [] then r.chan else r.chan ++ [bytes]).flatten ++
      payload (chunks' tx) = r.out := by
    rw [hchan, ← hwhole]
    simp [payload]
  refine { hplan with whole := hwhole', idle := fun hs' => ?_, streams := fun o m hs' => ?_ }
  · exact nomatch hs.symm.trans hs'
  · obtain ⟨rfl, rfl⟩ := Prod.mk.inj (mem_unique hs hs')
    exact { hstreams with ends := hends }

theorem Planned.stream_none (h : Planned p (r.line chunks) heads r)
    (hhead : ∀ total eof, p.header = .readStart total eof → total = 0) : p.stream = none := by
  rcases hs : p.stream with _ | ⟨off, n⟩
  · rfl
  rcases h.made with ⟨f, -, rfl⟩ | ⟨-, e, rfl⟩
  · obtain ⟨-, -, hpos, eof, hheader⟩ := readPlan_stream hs
    exact absurd (hhead n eof hheader) (by omega)
  · cases hs

theorem Planned.goOn (h : Planned p (r.line chunks) heads r) {host : Host} {sink : Bool}
    {chan : List (List UInt8)} (hheads : heads = []) (hhost : host ≠ .header)
    (hanswers : Answers p.header host)
    (hgot : ({ r with host := host } : Read).got ++ chan.flatten = r.got ++ r.chan.flatten)
    (hsink : sink = r.sink ∨ p.stream = none)
    (hover : ({ r with host := host } : Read).returned = true →
      ({ r with host := host } : Read).got = r.out ∧ r.task = .done) :
    Planned p (r.line chunks) heads { r with sink := sink, chan := chan, host := host } := by
  refine ⟨h.made, .inr ⟨hhost, hheads⟩, hanswers, ?_, h.idle, fun off n hs => ?_, hover⟩
  · rw [← h.whole, ← hgot]
    rfl
  · obtain rfl := hsink.resolve_right (by simp [hs])
    have hstreams := h.streams off n hs
    exact { hstreams with }

section

variable (h : Sound chunks heads file r)
include h

theorem Sound.goOn (hp : r.plan = some p)
    (hlive : r.returned = false) {host : Host} {sink : Bool} {chan : List (List UInt8)}
    (hnew : Planned p (r.line chunks) heads { r with sink := sink, chan := chan, host := host }) :
    Sound chunks heads file { r with sink := sink, chan := chan, host := host } :=
  ⟨fun _ => h.current hlive, h.elsewhere, h.content, fun hp' => (nomatch hp.symm.trans hp'),
    fun _ hq => mem_unique hp hq ▸ hnew⟩

theorem Sound.plan_of_header {hd : RpcResp} (hhost : r.host = .header)
    (hheader : r.header = some hd) : heads = [] ∧ ∃ p, r.plan = some p ∧ p.header = hd := by
  cases hp : r.plan with
  | none => exact nomatch (h.unplanned hp).header.symm.trans hheader
  | some p =>
    rcases (h.planned p hp).head with ⟨-, ⟨hnone, -⟩ | ⟨hsome, hh⟩⟩ | ⟨hne, -⟩
    · exact nomatch hnone.symm.trans hheader
    · exact ⟨hh, p, rfl, mem_unique hsome hheader⟩
    · exact absurd hhost hne

theorem Sound.header (htake : r.takeHeader = some r') : Sound chunks heads file r' := by
  simp only [Read.takeHeader] at htake
  split at htake
  · rename_i total eof hhost hheader
    obtain ⟨hheads, p, hp, hd⟩ := h.plan_of_header hhost hheader
    have hplan := h.planned p hp
    have hlive : r.returned = false := by simp [Read.returned, hhost]
    have hgot : r.got = [] := by simp [Read.got, hhost]
    cases htake
    split_ifs with hpos
    · exact h.goOn hp hlive
        (hplan.goOn hheads nofun ⟨hd, hpos⟩ (by rw [hgot]; rfl) (.inl rfl) nofun)
    have hnone : p.stream = none := hplan.stream_none fun total' eof' hh => by
      obtain ⟨rfl, -⟩ := RpcResp.readStart.inj (hd.symm.trans hh)
      omega
    obtain ⟨htask, -, hout⟩ := hplan.idle hnone
    exact h.goOn hp hlive (hplan.goOn hheads nofun ⟨total, hd⟩ (by rw [hgot]; rfl) (.inl rfl)
      fun _ => ⟨hout.symm, htask⟩)
  · rename_i e hhost hheader
    obtain ⟨hheads, p, hp, hd⟩ := h.plan_of_header hhost hheader
    have hplan := h.planned p hp
    have hgot : r.got = [] := by simp [Read.got, hhost]
    have hnone : p.stream = none := hplan.stream_none fun total eof hh => nomatch hd.symm.trans hh
    obtain ⟨htask, -, hout⟩ := hplan.idle hnone
    cases htake
    exact h.goOn hp (by simp [Read.returned, hhost]) (hplan.goOn hheads nofun ⟨e, hd⟩
      (by rw [hgot]; rfl) (.inr hnone) fun _ => ⟨hout.symm, htask⟩)
  · cases htake

end

theorem Streams.done_of_full {line : List (Bool × List UInt8)}
    (h : Streams off n line r) (hpos : 0 < n) (hfull : n ≤ r.out.length) : r.task = .done := by
  rcases h.turn with ⟨-, -, hout⟩ | ⟨-, hlt, -⟩ | ⟨hdone, -⟩
  · rw [hout, length_nil] at hfull
    omega
  · omega
  · exact hdone

theorem Sound.plan_of_body {buf : List UInt8}
    (h : Sound chunks heads file r) (hhost : r.host = .body total eof buf) :
    heads = [] ∧ 0 < total ∧ ∃ p, r.plan = some p ∧ p.header = .readStart total eof ∧
      Streams r.off total (r.line chunks) r := by
  cases hp : r.plan with
  | none => exact nomatch (h.unplanned hp).host.symm.trans hhost
  | some p =>
    have hplan := h.planned p hp
    obtain ⟨hd, hpos⟩ : p.header = .readStart total eof ∧ 0 < total := by
      simpa [Answers, hhost] using hplan.answers
    refine ⟨?_, hpos, p, rfl, hd, hplan.streams _ _ (hplan.header_stream hd hpos)⟩
    rcases hplan.head with ⟨hh, -⟩ | ⟨-, hh⟩
    · exact nomatch hh.symm.trans hhost
    · exact hh

theorem Sound.recv (h : Sound chunks heads file r) (hrecv : r.recv = some r') :
    Sound chunks heads file r' := by
  simp only [Read.recv] at hrecv
  split at hrecv
  · rename_i total eof buf hhost
    obtain ⟨hheads, hpos, p, hp, hd, hstreams⟩ := h.plan_of_body hhost
    have hplan := h.planned p hp
    have hlive : r.returned = false := by simp [Read.returned, hhost]
    have hgot : r.got = buf := by simp [Read.got, hhost]
    have hwhole := hplan.whole
    split at hrecv
    · rename_i chunk rest hchan
      rw [hgot, hchan] at hwhole
      have hsum : (buf ++ chunk) ++ (rest.flatten ++ payload (r.line chunks)) = r.out := by
        simpa using hwhole
      have htaken : (buf ++ chunk) ++ rest.flatten = r.got ++ r.chan.flatten := by
        rw [hgot, hchan]
        simp
      cases hrecv
      split_ifs with hfull
      · have hfits := hstreams.fits
        have hlen := congrArg length hsum
        rw [length_append] at hlen
        have hrest : rest.flatten ++ payload (r.line chunks) = [] :=
          eq_nil_of_length_eq_zero (by omega)
        rw [hrest, append_nil] at hsum
        have hdone := hstreams.done_of_full hpos (by omega)
        exact h.goOn hp hlive (hplan.goOn hheads nofun ⟨total, hd⟩ htaken (.inl rfl)
          fun _ => ⟨hsum, hdone⟩)
      · exact h.goOn hp hlive (hplan.goOn hheads nofun ⟨hd, hpos⟩ htaken (.inl rfl) nofun)
    · rename_i hchan
      obtain ⟨hsink, ⟨⟩⟩ := ite_none_left_eq_some.mp hrecv
      have hends := hstreams.ends
      rw [Bool.not_eq_true] at hsink
      rw [hsink] at hends
      -- Nothing is under way to a sink that is gone.
      obtain ⟨hline, hdone⟩ := hends.closed
      rw [hgot, hchan, hline] at hwhole
      have hout : buf = r.out := by simpa [payload] using hwhole
      exact h.goOn hp hlive (hplan.goOn hheads nofun ⟨total, hd⟩ (by rw [hgot]; rfl) (.inl rfl)
        fun _ => ⟨hout, of_decide_eq_true hdone⟩)
  · cases hrecv

theorem Sound.notice {g : File} (h : Sound chunks heads (some g) r) (f : File) :
    Sound chunks heads (some f) (r.notice r.node f) := by
  cases hret : r.returned with
  | true =>
    simp only [Read.notice, hret, Bool.true_eq_false, and_false, if_false]
    exact { h with current := fun hlive => (nomatch hret.symm.trans hlive) }
  | false =>
    obtain ⟨rest, hseen⟩ := head?_eq_some_iff.mp (h.current hret)
    have hmem : ∀ {q : File → Prop}, (∃ e ∈ r.seen, q e) → ∃ e ∈ f :: r.seen, q e :=
      fun ⟨e, he, hq⟩ => ⟨e, .tail _ he, hq⟩
    simp only [Read.notice, hret, and_self, if_true]
    refine ⟨fun _ => rfl, h.elsewhere, fun f₀ hlast hshrinks => ?_, fun hp => ?_, fun p hp => ?_⟩
    · refine h.content f₀ ?_ (pairwise_cons.mp hshrinks).2
      rw [← hlast, hseen]
      exact (getLast?_cons_cons ..).symm
    · have hun := h.unplanned hp
      exact { hun with }
    have hplan := h.planned p hp
    refine { hplan with made := .inl ?_, streams := fun off n hs => ?_ }
    · rcases hplan.made with hmade | ⟨hnil, -⟩
      · exact hmem hmade
      · exact nomatch hnil.symm.trans hseen
    · have hstreams := hplan.streams off n hs
      exact { hstreams with
        turn := hstreams.turn.imp_right (Or.imp_right (And.imp_right (Or.imp_right hmem))) }

end

end Mist.BulkRead
