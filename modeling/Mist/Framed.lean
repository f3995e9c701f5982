import Mist.Nfs.Xdr
import Mist.Wire

/-! Frames on a lane: a header of 16 bytes and the payload. -/

namespace Mist

open Wire List

def KNOWN_FLAGS : UInt8 := 3

inductive FrameKind where
  | ctl
  | req
  | resp
  | event
  | bulk
  deriving DecidableEq

namespace FrameKind

def toU8 : FrameKind → UInt8
  | .ctl => 0
  | .req => 1
  | .resp => 2
  | .event => 3
  | .bulk => 4

def fromU8 : UInt8 → Option FrameKind
  | 0 => some .ctl
  | 1 => some .req
  | 2 => some .resp
  | 3 => some .event
  | 4 => some .bulk
  | _ => none

theorem fromU8_toU8 (k : FrameKind) : fromU8 k.toU8 = some k := by cases k <;> rfl

end FrameKind

structure FrameHeader where
  len : UInt32
  kind : FrameKind
  flags : UInt8
  seq : UInt64

namespace FrameHeader

/-- Little-endian, unlike XDR. -/
def encode (h : FrameHeader) : List UInt8 :=
  (be32 h.len).reverse ++ [h.kind.toU8, h.flags, 0, 0] ++ (be64 h.seq).reverse

def decode (b : List UInt8) (maxPayload : Nat) : Except String FrameHeader :=
  let len := fromBe32 (b.take 4).reverse
  match FrameKind.fromU8 (b.getD 4 0) with
  | none => .error "unknown frame kind"
  | some kind =>
    let flags := b.getD 5 0
    if flags &&& ~~~KNOWN_FLAGS ≠ 0 then .error "unknown frame flags"
    else if b.getD 6 0 ≠ 0 ∨ b.getD 7 0 ≠ 0 then .error "reserved header bytes nonzero"
    else if maxPayload < len.toNat then .error "frame exceeds lane cap"
    else .ok ⟨len, kind, flags, fromBe64 (b.drop 8).reverse⟩

theorem decode_encode (h : FrameHeader) (maxPayload : Nat) :
    decode h.encode maxPayload =
      if h.flags &&& ~~~KNOWN_FLAGS ≠ 0 then .error "unknown frame flags"
      else if maxPayload < h.len.toNat then .error "frame exceeds lane cap"
      else .ok h := by
  have hlen : (h.encode.take 4).reverse = be32 h.len := rfl
  have hseq : (h.encode.drop 8).reverse = be64 h.seq := reverse_reverse _
  have hkind : FrameKind.fromU8 (h.encode.getD 4 0) = some h.kind := h.kind.fromU8_toU8
  have hflags : h.encode.getD 5 0 = h.flags := rfl
  have hzero : ¬ (h.encode.getD 6 0 ≠ 0 ∨ h.encode.getD 7 0 ≠ 0) := by simp [encode, be32]
  simp only [decode, hlen, hseq, hkind, hflags, hzero, fromBe32_be32, fromBe64_be64, if_false]

end FrameHeader

inductive TransportError where
  | io
  | frame (e : String)
  | protocol (e : String)
  | closed
  deriving DecidableEq

structure RecvFrame where
  kind : FrameKind
  flags : UInt8
  seq : UInt64
  payload : List UInt8
  deriving DecidableEq

namespace RecvFrame

def header (f : RecvFrame) : FrameHeader := ⟨.ofNat f.payload.length, f.kind, f.flags, f.seq⟩

def encoded (f : RecvFrame) : List UInt8 := f.header.encode ++ f.payload

def known (f : RecvFrame) : Bool := f.flags &&& ~~~KNOWN_FLAGS = 0

end RecvFrame

section

variable (maxPayload : Nat)

def writeFrame (f : RecvFrame) : Except TransportError (List UInt8) :=
  if maxPayload < f.payload.length then .error (.protocol "frame exceeds lane cap")
  else .ok f.encoded

def readFrame (s : List (List UInt8)) : Except TransportError (RecvFrame × List (List UInt8)) :=
  match readExact 16 s with
  | none => .error .closed
  | some (hdr, s) =>
    match FrameHeader.decode hdr maxPayload with
    | .error e => .error (.frame e)
    | .ok h =>
      match readExact h.len.toNat s with
      | none => .error .io
      | some (payload, s) => .ok (⟨h.kind, h.flags, h.seq, payload⟩, s)

/-- Frames received one after the other, up to `n` of them or an error. -/
def readFrames : Nat → List (List UInt8) → List RecvFrame × Option TransportError
  | 0, _ => ([], none)
  | n + 1, s =>
    match readFrame maxPayload s with
    | .error e => ([], some e)
    | .ok (f, s) => (f :: (readFrames n s).1, (readFrames n s).2)

end

def FrameHeader.capForBulk (isBulkLane : Bool) : Nat := if isBulkLane then 4194304 else 2097152

/-- The frames that end before a cut after `n` bytes, and what there is of the next one. -/
def cutAt : List RecvFrame → Nat → List RecvFrame × Nat
  | [], _ => ([], 0)
  | f :: fs, n =>
    if n < f.encoded.length then ([], n)
    else (f :: (cutAt fs (n - f.encoded.length)).1, (cutAt fs (n - f.encoded.length)).2)

/-- The frames before the cut are received, and then a close if the cut is between two frames, or
another error. -/
def Classified (maxPayload : Nat) (fs : List RecvFrame) (n : Nat) (s : List (List UInt8)) : Prop :=
  let r := readFrames maxPayload (fs.length + 1) s
  r.1 = (cutAt fs n).1 ∧ ∃ e, r.2 = some e ∧ (e = .closed ↔ (cutAt fs n).2 = 0)

section

variable {maxPayload n : Nat} {f : RecvFrame} {fs : List RecvFrame} {s : List (List UInt8)}
  {tail : List UInt8}

theorem FrameHeader.length_encode (h : FrameHeader) : h.encode.length = 16 := rfl

theorem RecvFrame.header_len (hf : f.payload.length < 4294967296) :
    f.header.len.toNat = f.payload.length := UInt32.toNat_ofNat_of_lt' hf

theorem readFrame_whole (hmax : maxPayload < 4294967296) (hf : f.payload.length ≤ maxPayload)
    (h : Carries s (f.encoded ++ tail)) : ∃ s', Carries s' tail ∧ readFrame maxPayload s =
      if f.known then .ok (f, s') else .error (.frame "unknown frame flags") := by
  rw [RecvFrame.encoded, append_assoc] at h
  obtain ⟨s₁, hhdr, h₁⟩ := h.readExact
  obtain ⟨s', hbody, h'⟩ := h₁.readExact
  refine ⟨s', h', ?_⟩
  have hlen := RecvFrame.header_len (Nat.lt_of_le_of_lt hf hmax)
  rw [FrameHeader.length_encode] at hhdr
  simp only [readFrame, hhdr, FrameHeader.decode_encode, hlen, Nat.not_lt.mpr hf, if_false]
  by_cases hk : f.header.flags &&& ~~~KNOWN_FLAGS = 0
  · have hknown : f.known := decide_eq_true hk
    simp only [hk, hlen, hbody, hknown, ne_eq, not_true_eq_false, if_false, if_true]
    rfl
  · have hknown : f.known = false := decide_eq_false hk
    simp [hk, hknown]

theorem readFrame_cut (hmax : maxPayload < 4294967296) (hf : f.payload.length ≤ maxPayload)
    (hn : n < f.encoded.length) (h : Carries s (f.encoded.take n)) :
    ∃ e, readFrame maxPayload s = .error e ∧ (e = .closed ↔ n < 16) := by
  rcases Nat.lt_or_ge n 16 with hlt | hge
  · refine ⟨.closed, ?_, by simpa⟩
    rw [readFrame, h.readExact_short (by rw [length_take]; omega)]
  rw [RecvFrame.encoded, take_append, take_of_length_le hge] at h
  obtain ⟨s₁, hhdr, h₁⟩ := h.readExact
  have hlen := RecvFrame.header_len (Nat.lt_of_le_of_lt hf hmax)
  rw [RecvFrame.encoded, length_append, FrameHeader.length_encode] at hn
  have hshort : readExact f.payload.length s₁ = none :=
    h₁.readExact_short (by rw [length_take, FrameHeader.length_encode]; omega)
  rw [FrameHeader.length_encode] at hhdr
  simp only [readFrame, hhdr, FrameHeader.decode_encode, hlen, Nat.not_lt.mpr hf, if_false]
  by_cases hk : f.header.flags &&& ~~~KNOWN_FLAGS = 0
  · simp [hk, hlen, hshort, hge]
  · simp [hk, hge]

end

/-- Every cut of a sequence of frames is told from a close, however the bytes arrive, as long as the
frames have known flags and the cut is not in a header. -/
theorem frame_stream (bulk : Bool) (fs : List RecvFrame)
    (hfs : ∀ f ∈ fs, f.payload.length ≤ FrameHeader.capForBulk bulk) (n : Nat)
    (s : List (List UInt8)) (h : Carries s ((fs.flatMap RecvFrame.encoded).take n)) :
    (∀ f ∈ fs, writeFrame (FrameHeader.capForBulk bulk) f = .ok f.encoded) ∧
      (Classified (FrameHeader.capForBulk bulk) fs n s ↔
        (∀ f ∈ (cutAt fs n).1, f.known) ∧ ((cutAt fs n).2 = 0 ∨ 16 ≤ (cutAt fs n).2)) := by
  have hmax : FrameHeader.capForBulk bulk < 4294967296 := by cases bulk <;> decide
  refine ⟨fun f hf => if_neg (Nat.not_lt.mpr (hfs f hf)), ?_⟩
  induction fs generalizing n s with
  | nil =>
    have hclosed : readFrame (FrameHeader.capForBulk bulk) s = .error .closed := by
      rw [readFrame, h.readExact_short (by simp)]
    simp [Classified, readFrames, hclosed, cutAt]
  | cons f fs ih =>
    have hf := hfs f (.head _)
    rw [flatMap_cons] at h
    by_cases hn : n < f.encoded.length
    · rw [take_append_of_le_length (Nat.le_of_lt hn)] at h
      obtain ⟨e, hread, he⟩ := readFrame_cut hmax hf hn h
      have hiff : (n < 16 ↔ n = 0) ↔ n = 0 ∨ 16 ≤ n := by omega
      simpa [Classified, readFrames, hread, cutAt, hn, he] using hiff
    · rw [take_append, take_of_length_le (Nat.le_of_not_lt hn)] at h
      obtain ⟨s', hs', hread⟩ := readFrame_whole hmax hf h
      have hrest := ih (fun g hg => hfs g (.tail _ hg)) (n - f.encoded.length) s' hs'
      cases hk : f.known with
      | false => simp [Classified, readFrames, hread, cutAt, hn, hk]
      | true => simpa [Classified, readFrames, hread, cutAt, hn, hk] using hrest

theorem frame_stream_pieces : Classified 2097152 [⟨.ctl, 0, 1, [7]⟩] 16
    [[1, 0, 0, 0, 0], [0, 0, 0, 1, 0, 0, 0, 0, 0, 0, 0]] :=
  (frame_stream false [⟨.ctl, 0, 1, [7]⟩] (by simp [FrameHeader.capForBulk]) 16 _
    ⟨rfl, by simp⟩).2.mpr (by decide)

/-- Five bytes of a header are taken for a close, and a frame with an unknown flag is not read. -/
theorem header_cut_closes :
    ¬ Classified 2097152 [⟨.ctl, 0, 1, []⟩] 5 [[0, 0, 0, 0, 0]] ∧
      ¬ Classified 2097152 [⟨.ctl, 4, 1, []⟩] 16 [RecvFrame.encoded ⟨.ctl, 4, 1, []⟩] := by
  refine ⟨fun ⟨_, e, he, hclosed⟩ => ?_, fun ⟨hframes, _⟩ => ?_⟩
  · cases he
    exact absurd (hclosed.mp rfl) (by decide)
  · exact absurd hframes (by decide)

end Mist
