import Mist.Nfs.Confinement

/-! How replies are put together. -/

namespace Mist.Nfs

open List XdrWriter Loop

structure OpResult where
  op : UInt32
  status : UInt32
  rest : List UInt8

def OpResult.bytes (x : OpResult) : List UInt8 := be32 x.op ++ be32 x.status ++ x.rest

/-- Every result but the last is OK, and `status` is the last one's. -/
structure Ordered (status : UInt32) (results : List OpResult) : Prop where
  ok : ∀ x ∈ results.dropLast, x.status = NFS4_OK
  last : status = (results.getLast?.map OpResult.status).getD NFS4_OK

theorem Ordered.cons {status : UInt32} {x : OpResult} {results : List OpResult}
    (h : Ordered status results) (hx : x.status = NFS4_OK) : Ordered status (x :: results) := by
  cases results with
  | nil => exact ⟨nofun, h.last.trans hx.symm⟩
  | cons y ys =>
    refine ⟨fun z hz => ?_, ?_⟩
    · rcases mem_cons.mp hz with rfl | hz
      · exact hx
      · exact h.ok z hz
    · exact h.last

section

variable {σ γ τ : Type} (E : Evaluator σ γ τ)

def Visit.result (v : Visit σ γ τ) : OpResult :=
  let o := E.eval v.op v.isLast v.loop.allowSendfile v.loop.reader v.loop.ctx v.loop.server
  ⟨v.op, o.status, (o.items.drop 2).flatMap XdrItem.bytes⟩

/-- The loop from `l` to `l'` has written `results`. -/
structure Loop.Adds (results : List OpResult) (l l' : Loop σ γ τ) : Prop where
  w : l'.w.buf = l.w.buf ++ results.flatMap OpResult.bytes
  nres : l'.nres = l.nres + .ofNat results.length
  ordered : Ordered l'.status results

variable {E} {nops n : Nat} {l l₁ l' : Loop σ γ τ} {x : OpResult} {results : List OpResult}

theorem Loop.Adds.single (hw : l'.w.buf = l.w.buf ++ x.bytes) (hnres : l'.nres = l.nres + 1)
    (hstatus : l'.status = x.status) : Adds [x] l l' :=
  ⟨by simpa using hw, hnres, nofun, hstatus⟩

theorem Loop.Adds.cons (h : Adds results l₁ l') (hw : l₁.w.buf = l.w.buf ++ x.bytes)
    (hnres : l₁.nres = l.nres + 1) (hx : x.status = NFS4_OK) : Adds (x :: results) l l' := by
  refine ⟨by rw [h.w, hw, append_assoc, flatMap_cons], ?_, h.ordered.cons hx⟩
  rw [h.nres, hnres, length_cons, Nat.add_comm results.length, UInt32.ofNat_add, ← UInt32.add_assoc]
  rfl

end

section

variable {ς : Type} (ex : Export) (answer : (q : Call) → ς → q.Answer × ς) (now : Ts) (conn : Nat)

end

def padTo4 (w : XdrWriter) : XdrWriter := ⟨w.buf ++ xdrPad w.buf.length⟩

/-- A READ whose payload is read into the reply: the head goes first, its flag and length are
patched afterwards. -/
def readFused (w : XdrWriter) (eof : Bool) (data : List UInt8) : XdrWriter :=
  let w := (w.u32 OP_READ).u32 NFS4_OK
  let eofPos := w.pos
  let w := w.u32 0
  let lenPos := w.pos
  let w := w.u32 0
  let payload := w.pos
  let w : XdrWriter := ⟨w.buf ++ data⟩
  let n := UInt32.ofNat (w.pos - payload)
  padTo4 ((w.patchU32 eofPos (if eof then 1 else 0)).patchU32 lenPos n)

theorem readFused_eq {w : XdrWriter} (h : w.pos % 4 = 0) (eof : Bool) (data : List UInt8) :
    readFused w eof data = w.items [.u32 OP_READ, .u32 NFS4_OK, .bool eof, .opaqueData data] := by
  generalize hhead : w.buf ++ be32 OP_READ ++ be32 NFS4_OK = head
  have hlen : head.length % 4 = 0 := by
    rw [pos] at h
    rw [← hhead]
    simp only [length_append, length_be32]
    omega
  have hn : (head ++ be32 0 ++ be32 0 ++ data).length - (head ++ be32 0 ++ be32 0).length =
      data.length := by
    rw [length_append, Nat.add_sub_cancel_left]
  simp only [readFused, u32, pos, hhead, hn]
  generalize hflag : (if eof then 1 else 0 : UInt32) = flag
  have heof : head ++ be32 0 ++ be32 0 ++ data = head ++ be32 0 ++ (be32 0 ++ data) := by simp
  have hcount : head ++ be32 flag ++ (be32 0 ++ data) = head ++ be32 flag ++ be32 0 ++ data := by
    simp
  have hpos : (head ++ be32 0).length = (head ++ be32 flag).length := by simp
  rw [patchU32_of_split heof, hpos, patchU32_of_split hcount, padTo4]
  have hpad : xdrPad (head ++ be32 flag ++ be32 (.ofNat data.length) ++ data).length =
      xdrPad data.length := by
    have hmod : (head.length + 4 + 4 + data.length) % 4 = data.length % 4 := by omega
    simp only [length_append, length_be32, xdrPad, hmod]
  rw [hpad, ← hhead, ← hflag]
  simp [items, XdrItem.bytes]

/-- `write_marked` with `n` more writes to a socket, which takes `accept k` bytes after `k`. -/
def writeMarked (accept : Nat → Nat) (marker payload : List UInt8) : Nat → Nat → List UInt8
  | 0, _ => []
  | n + 1, sent =>
    if sent < 4 + payload.length then
      let rest := if sent < 4 then marker.drop sent ++ payload else payload.drop (sent - 4)
      let taken := min (accept sent) rest.length
      rest.take taken ++ writeMarked accept marker payload n (sent + taken)
    else []

section

variable {accept accept' : Nat → Nat} (ha : ∀ k, 0 < accept k) (ha' : ∀ k, 0 < accept' k)

include ha in
theorem writeMarked_eq {marker payload : List UInt8} (hm : marker.length = 4) {n sent : Nat}
    (h : 4 + payload.length - sent ≤ n) :
    writeMarked accept marker payload n sent = (marker ++ payload).drop sent := by
  induction n generalizing sent with
  | zero => rw [writeMarked, drop_eq_nil_of_le (by rw [length_append]; omega)]
  | succ n ih =>
    rw [writeMarked]
    split
    · have hrest : (if sent < 4 then marker.drop sent ++ payload else payload.drop (sent - 4)) =
          (marker ++ payload).drop sent := by
        rw [drop_append, hm]
        split
        · rw [Nat.sub_eq_zero_of_le (by omega), drop_zero]
        · rw [drop_eq_nil_of_le (show marker.length ≤ sent by omega), nil_append]
      have hlen : ((marker ++ payload).drop sent).length = 4 + payload.length - sent := by
        rw [length_drop, length_append, hm]
      have hpos := ha sent
      dsimp only
      rw [hrest, ih (by omega), ← drop_drop, take_append_drop]
    · rw [drop_eq_nil_of_le (by rw [length_append]; omega)]

variable (file : SendableRead → List UInt8)

def marker (len : Nat) : List UInt8 := be32 (0x80000000 ||| (UInt32.ofNat len &&& 0x7fffffff))

def Reply.wire (accept : Nat → Nat) : Reply → List UInt8
  | .whole w =>
    if w.buf = [] then []
    else writeMarked accept (marker w.buf.length) w.buf (4 + w.buf.length) 0
  | .headAndFile head body pad =>
    writeMarked accept (marker (head.buf.length + body.len.toNat + pad)) head.buf
      (4 + head.buf.length) 0 ++ file body ++ List.replicate pad 0

include ha in
theorem wire_whole (w : XdrWriter) : (Reply.whole w).wire file accept =
    if w.buf = [] then [] else marker w.buf.length ++ w.buf := by
  rw [Reply.wire, writeMarked_eq ha rfl (by omega), drop_zero]

variable {sent : SendableRead} (hlen : sent.len.toNat = (file sent).length)

include ha ha' hlen

theorem wire_headAndFile {head w : XdrWriter} (hhead : head.buf ≠ [])
    (hw : w.buf = head.buf ++ (file sent ++ xdrPad (file sent).length)) :
    (Reply.headAndFile head sent ((4 - sent.len.toNat % 4) % 4)).wire file accept =
      (Reply.whole w).wire file accept' := by
  have hpad : xdrPad (file sent).length =
      replicate ((4 - sent.len.toNat % 4) % 4) (0 : UInt8) := by
    rw [xdrPad, hlen]
    split_ifs with h
    · rw [h]
      rfl
    · rw [Nat.mod_eq_of_lt (show 4 - (file sent).length % 4 < 4 by omega)]
  have hne : w.buf ≠ [] := by simp [hw, hhead]
  rw [wire_whole ha', Reply.wire, if_neg hne, writeMarked_eq ha rfl (by omega), hw, hpad]
  simp [hlen, Nat.add_assoc]

/-- A READ reply is the same on the wire whether the payload is copied, read into the reply or sent
from a file. -/
theorem read_replies_agree :
    (∀ (w v : XdrWriter) (tag body : List UInt8) (status nres : UInt32),
      v.buf = (bodyStart w tag).buf ++ body → v.pos % 4 = 0 →
      let finish (v : XdrWriter) := (v.patchU32 w.pos status).patchU32
        ((w.u32 NFS4_OK).opaqueData tag).pos nres
      let whole := v.items [.u32 OP_READ, .u32 NFS4_OK, .bool sent.eof, .opaqueData (file sent)]
      let head := v.items [.u32 OP_READ, .u32 NFS4_OK, .bool sent.eof, .u32 sent.len]
      readFused v sent.eof (file sent) = whole ∧
      (Reply.headAndFile (finish head) sent ((4 - sent.len.toNat % 4) % 4)).wire file accept =
        (Reply.whole (finish whole)).wire file accept') ∧
    ∀ (ex : Export) (args : XdrReader) (w : XdrWriter) (ς : Type)
      (viaFile viaCopy : (q : Call) → ς → q.Answer × ς) (s t : ς),
      (∀ n o c s, (viaFile (.readSendable n o c) s).1 = some sent) →
      (∀ n o c s, (viaCopy (.readSendable n o c) s).1 = none) →
      (∀ n o c s, (viaCopy (.read n o c) s).1 = .ok ⟨file sent, sent.eof⟩) →
      (∀ n s t, (viaFile (.getattr n) s).1 = (viaCopy (.getattr n) t).1) →
      ((dispatch ex args w PROC_READ).run viaFile s).result.wire file accept =
        ((dispatch ex args w PROC_READ).run viaCopy t).result.wire file accept' := by
  constructor
  · intro w v tag body status nres hv hpos finish whole head
    have hbuf : ∀ is, (finish (v.items is)).buf =
        w.buf ++ resultBytes status tag nres (body ++ is.flatMap XdrItem.bytes) := fun is =>
      patched (by rw [items, hv, append_assoc]) status nres
    refine ⟨readFused_eq hpos _ _, wire_headAndFile ha ha' file hlen ?_ ?_⟩
    · simp [head, hbuf, resultBytes, be32]
    · simp [head, whole, hbuf, resultBytes, XdrItem.bytes, ← hlen]
  · intro ex args w ς viaFile viaCopy s t hsend hnone hread hattr
    have hinner : dispatchInner ex args w PROC_READ = procRead ex args w := rfl
    simp only [dispatch, if_true, hinner, procRead, getattr?, MountSurface.readSendable]
    split
    · rename_i share node peek hfh
      simp only [Asks.query_bind, Asks.ask_bind, Asks.done_bind, Asks.pure_eq, Asks.run_ask,
        Asks.run_done, hsend, hnone, hread, hfh]
      rw [hattr node _ (viaCopy (.readSendable node (u64Or 0 peek).1
        (min (u32Or 0 (u64Or 0 peek).2).1 MAX_READ)) t).2]
      refine wire_headAndFile ha ha' file hlen ?_ ?_
      · simp [items, XdrItem.bytes, be32]
      · simp [items, XdrItem.bytes, ← hlen]
    · rename_i hfh
      simp only [hfh, Asks.pure_eq, Asks.done_bind, Asks.run_done, wire_whole ha, wire_whole ha']

end

def threeBytes : SendableRead → List UInt8 := fun _ => [1, 2, 3]

theorem read_replies_agree_three :
    let sent : SendableRead := ⟨0, 0, 3, true⟩
    readFused (bodyStart .new []) sent.eof (threeBytes sent) =
      (bodyStart .new []).items
        [.u32 OP_READ, .u32 NFS4_OK, .bool sent.eof, .opaqueData (threeBytes sent)] := by
  intro sent
  have hone : ∀ k : Nat, 0 < (fun _ : Nat => 1) k := fun _ => Nat.one_pos
  have hlen : sent.len.toNat = (threeBytes sent).length := rfl
  have hpos : (bodyStart .new []).pos % 4 = 0 := rfl
  exact ((read_replies_agree hone hone threeBytes hlen).1 .new (bodyStart .new []) [] [] NFS4_OK 1
    (append_nil _).symm hpos).1

end Mist.Nfs
