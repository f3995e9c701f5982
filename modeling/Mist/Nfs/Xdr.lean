import Mathlib.Data.List.Basic

/-! XDR as the NFS server writes and reads it. -/

namespace Mist

open List

def be32 (v : UInt32) : List UInt8 :=
  [.ofNat (v.toNat / 16777216), .ofNat (v.toNat / 65536), .ofNat (v.toNat / 256), .ofNat v.toNat]

def fromBe32 : List UInt8 → UInt32
  | [a, b, c, d] => .ofNat (((a.toNat * 256 + b.toNat) * 256 + c.toNat) * 256 + d.toNat)
  | _ => 0

theorem fromBe32_be32 (v : UInt32) : fromBe32 (be32 v) = v := by
  have hv := v.toNat_lt
  apply UInt32.toNat_inj.mp
  simp only [fromBe32, be32, UInt8.toNat_ofNat', UInt32.toNat_ofNat']
  omega

theorem be32_injective {v w : UInt32} (h : be32 v = be32 w) : v = w := by
  rw [← fromBe32_be32 v, h, fromBe32_be32]

@[simp] theorem length_be32 (v : UInt32) : (be32 v).length = 4 := rfl

def be64 (v : UInt64) : List UInt8 := be32 (.ofNat (v.toNat / 4294967296)) ++ be32 (.ofNat v.toNat)

def fromBe64 (b : List UInt8) : UInt64 :=
  .ofNat ((fromBe32 (b.take 4)).toNat * 4294967296 + (fromBe32 (b.drop 4)).toNat)

@[simp] theorem length_be64 (v : UInt64) : (be64 v).length = 8 := rfl

theorem fromBe64_be64 (v : UInt64) : fromBe64 (be64 v) = v := by
  have hv := v.toNat_lt
  have hhigh : (be64 v).take 4 = be32 (.ofNat (v.toNat / 4294967296)) := rfl
  have hlow : (be64 v).drop 4 = be32 (.ofNat v.toNat) := rfl
  apply UInt64.toNat_inj.mp
  rw [fromBe64, hhigh, hlow, fromBe32_be32, fromBe32_be32]
  simp only [UInt64.toNat_ofNat', UInt32.toNat_ofNat']
  omega

def xdrPad (len : Nat) : List UInt8 := if len % 4 = 0 then [] else List.replicate (4 - len % 4) 0

theorem length_xdrPad (len : Nat) : (len + (xdrPad len).length) % 4 = 0 := by
  unfold xdrPad
  split
  · simpa
  · rw [length_replicate]
    omega

theorem xdrPad_of_aligned {len : Nat} (h : len % 4 = 0) : xdrPad len = [] := if_pos h

structure XdrWriter where
  buf : List UInt8

namespace XdrWriter

def new : XdrWriter := ⟨[]⟩

def pos (w : XdrWriter) : Nat := w.buf.length

def u32 (w : XdrWriter) (v : UInt32) : XdrWriter := ⟨w.buf ++ be32 v⟩

def opaqueData (w : XdrWriter) (data : List UInt8) : XdrWriter :=
  ⟨w.buf ++ be32 (.ofNat data.length) ++ data ++ xdrPad data.length⟩

def fixed (w : XdrWriter) (data : List UInt8) : XdrWriter := ⟨w.buf ++ data ++ xdrPad data.length⟩

def patchU32 (w : XdrWriter) (pos : Nat) (v : UInt32) : XdrWriter :=
  ⟨w.buf.take pos ++ be32 v ++ w.buf.drop (pos + 4)⟩

def truncate (w : XdrWriter) (pos : Nat) : XdrWriter := ⟨w.buf.take pos⟩

def since (w : XdrWriter) (pos : Nat) : List UInt8 := w.buf.drop pos

theorem patchU32_of_split {w : XdrWriter} {before after : List UInt8} {old : UInt32}
    (h : w.buf = before ++ be32 old ++ after) (v : UInt32) :
    w.patchU32 before.length v = ⟨before ++ be32 v ++ after⟩ := by
  have hdrop : before.length + 4 = (before ++ be32 old).length := by simp
  rw [patchU32, h, hdrop, drop_left, append_assoc before (be32 old), take_left]

end XdrWriter

inductive XdrItem where
  | u32 (v : UInt32)
  | u64 (v : UInt64)
  | bool (b : Bool)
  | opaqueData (data : List UInt8)
  | fixed (data : List UInt8)

def XdrItem.bytes : XdrItem → List UInt8
  | .u32 v => be32 v
  | .u64 v => be64 v
  | .bool b => be32 (if b then 1 else 0)
  | .opaqueData data => be32 (.ofNat data.length) ++ data ++ xdrPad data.length
  | .fixed data => data ++ xdrPad data.length

theorem XdrItem.length_bytes (i : XdrItem) : i.bytes.length % 4 = 0 := by
  cases i with
  | u32 v => simp [bytes]
  | u64 v => simp [bytes, be64]
  | bool b => simp [bytes]
  | opaqueData data =>
    have := length_xdrPad data.length
    simp only [bytes, length_append, length_be32]
    omega
  | fixed data =>
    simpa only [bytes, length_append] using length_xdrPad data.length

def XdrWriter.items (w : XdrWriter) (is : List XdrItem) : XdrWriter :=
  ⟨w.buf ++ is.flatMap XdrItem.bytes⟩

theorem XdrWriter.length_items (w : XdrWriter) (is : List XdrItem) :
    (w.items is).buf.length % 4 = w.buf.length % 4 := by
  induction is generalizing w with
  | nil => simp [items]
  | cons i is ih =>
    have hi := i.length_bytes
    have hrest := ih ⟨w.buf ++ i.bytes⟩
    simp only [items, flatMap_cons, length_append] at hrest ⊢
    omega

structure XdrReader where
  rest : List UInt8
  deriving DecidableEq

namespace XdrReader

def take (r : XdrReader) (n : Nat) : Option (List UInt8 × XdrReader) :=
  if r.rest.length < n then none else some (r.rest.take n, ⟨r.rest.drop n⟩)

def u32 (r : XdrReader) : Option (UInt32 × XdrReader) :=
  (r.take 4).map fun (b, r) => (fromBe32 b, r)

def u64 (r : XdrReader) : Option (UInt64 × XdrReader) :=
  (r.take 8).map fun (b, r) => (fromBe64 b, r)

def bool (r : XdrReader) : Option (Bool × XdrReader) := r.u32.map fun (v, r) => (v != 0, r)

def fixed (r : XdrReader) (n : Nat) : Option (List UInt8 × XdrReader) :=
  (r.take n).bind fun (data, r) =>
    if n % 4 = 0 then some (data, r) else (r.take (4 - n % 4)).map fun (_, r) => (data, r)

/-- Data of at most `max` bytes after its length. -/
def opaqueData (r : XdrReader) (max : Nat) : Option (List UInt8 × XdrReader) :=
  r.u32.bind fun (len, r) => if len.toNat > max then none else r.fixed len.toNat

/-- A read whose failure is passed over: it leaves the reader where it was. -/
def attempt {α : Type} (f : XdrReader → Option (α × XdrReader)) (r : XdrReader) :
    Option α × XdrReader :=
  match f r with
  | some (a, r) => (some a, r)
  | none => (none, r)

/-- `opaqueData` with the place it failed at: the length, the data and the padding are read one after
the other. -/
def attemptOpaque (r : XdrReader) (max : Nat) : Option (List UInt8) × XdrReader :=
  match r.u32 with
  | none => (none, r)
  | some (len, r) =>
    if len.toNat > max then (none, r)
    else
      match r.take len.toNat with
      | none => (none, r)
      | some (data, r) =>
        if len.toNat % 4 = 0 then (some data, r)
        else
          match r.take (4 - len.toNat % 4) with
          | none => (none, r)
          | some (_, r) => (some data, r)

theorem u32_be32 (v : UInt32) (rest : List UInt8) : u32 ⟨be32 v ++ rest⟩ = some (v, ⟨rest⟩) := by
  have htake : take ⟨be32 v ++ rest⟩ 4 = some (be32 v, ⟨rest⟩) := by
    rfl
  simp only [u32, htake, Option.map_some, fromBe32_be32]

end XdrReader

end Mist
