import Mist.Nfs.Xdr

/-! What is written is read back, and no part of it is taken for the whole. -/

namespace Mist

open List Option

/-- `p` reads `bytes` as `v` and leaves what follows; of less than all of them it makes nothing. -/
structure Reads {α : Type} (p : XdrReader → Option (α × XdrReader)) (bytes : List UInt8) (v : α) :
    Prop where
  whole : ∀ rest, p ⟨bytes ++ rest⟩ = some (v, ⟨rest⟩)
  cut : ∀ n < bytes.length, p ⟨bytes.take n⟩ = none

namespace Reads

variable {α β : Type} {p : XdrReader → Option (α × XdrReader)} {bytes bytes' : List UInt8} {v : α}

theorem pure (v : α) : Reads (fun r => some (v, r)) [] v := ⟨fun _ => rfl, nofun⟩

theorem take {n : Nat} (hn : bytes.length = n) : Reads (·.take n) bytes bytes := by
  subst hn
  refine ⟨fun rest => ?_, fun n hn => if_pos ?_⟩
  · rw [XdrReader.take, if_neg (by simp), take_left, drop_left]
  · rwa [length_take, Nat.min_eq_left (Nat.le_of_lt hn)]

theorem map (h : Reads p bytes v) (f : α → β) :
    Reads (fun r => (p r).map fun u => (f u.1, u.2)) bytes (f v) :=
  ⟨fun rest => by rw [h.whole]; rfl, fun n hn => by rw [h.cut n hn]; rfl⟩

theorem bind {q : α → XdrReader → Option (β × XdrReader)} {w : β} (h : Reads p bytes v)
    (h' : Reads (q v) bytes' w) :
    Reads (fun r => (p r).bind fun u => q u.1 u.2) (bytes ++ bytes') w := by
  refine ⟨fun rest => ?_, fun n hn => ?_⟩
  · rw [append_assoc, h.whole, bind_some, h'.whole]
  · rw [length_append] at hn
    rcases Nat.lt_or_ge n bytes.length with hlt | hge
    · rw [take_append_of_le_length (Nat.le_of_lt hlt), h.cut n hlt, bind_none]
    · rw [take_append, take_of_length_le hge, h.whole, bind_some, h'.cut _ (by omega)]

theorem u32 (v : UInt32) : Reads XdrReader.u32 (be32 v) v := by
  have h := (take (length_be32 v)).map fromBe32
  rwa [fromBe32_be32] at h

theorem u64 (v : UInt64) : Reads XdrReader.u64 (be64 v) v := by
  have h := (take (length_be64 v)).map fromBe64
  rwa [fromBe64_be64] at h

theorem fixed (data : List UInt8) :
    Reads (·.fixed data.length) (data ++ xdrPad data.length) data := by
  refine (take rfl).bind (q := fun d r => if data.length % 4 = 0 then some (d, r) else
    (r.take (4 - data.length % 4)).map fun u => (d, u.2)) ?_
  unfold xdrPad
  split
  · exact pure data
  · exact (take (length_replicate ..)).map fun _ => data

theorem opaqueData {data : List UInt8} {max : Nat} (hlen : data.length < 4294967296)
    (hmax : data.length ≤ max) :
    Reads (·.opaqueData max) (be32 (.ofNat data.length) ++ data ++ xdrPad data.length) data := by
  have hsize : (UInt32.ofNat data.length).toNat = data.length := UInt32.toNat_ofNat_of_lt' hlen
  refine (u32 _).bind (q := fun len r => if len.toNat > max then none else r.fixed len.toNat) ?_
  simp only [hsize, gt_iff_lt, Nat.not_lt.mpr hmax, if_false]
  exact fixed data

end Reads

/-- The read that matches a write; `max` bounds the opaques. -/
def XdrItem.read (max : Nat) : XdrItem → XdrReader → Option (XdrItem × XdrReader)
  | .u32 _, r => r.u32.map fun u => (.u32 u.1, u.2)
  | .u64 _, r => r.u64.map fun u => (.u64 u.1, u.2)
  | .bool _, r => r.bool.map fun u => (.bool u.1, u.2)
  | .opaqueData _, r => (r.opaqueData max).map fun u => (.opaqueData u.1, u.2)
  | .fixed data, r => (r.fixed data.length).map fun u => (.fixed u.1, u.2)

def XdrReader.items (max : Nat) : List XdrItem → XdrReader → Option (List XdrItem × XdrReader)
  | [], r => some ([], r)
  | i :: is, r => (i.read max r).bind fun u =>
    (items max is u.2).map fun us => (u.1 :: us.1, us.2)

/-- An opaque has a length that can be written, and that the reader takes. -/
def XdrItem.Fits (max : Nat) : XdrItem → Prop
  | .opaqueData data => data.length < 4294967296 ∧ data.length ≤ max
  | _ => True

theorem XdrItem.reads {max : Nat} {i : XdrItem} (h : i.Fits max) : Reads (i.read max) i.bytes i := by
  cases i with
  | u32 v => exact (Reads.u32 v).map XdrItem.u32
  | u64 v => exact (Reads.u64 v).map XdrItem.u64
  | bool b =>
    have hread := ((Reads.u32 (if b then 1 else 0)).map (· != 0)).map XdrItem.bool
    cases b <;> exact hread
  | opaqueData data => exact (Reads.opaqueData h.1 h.2).map XdrItem.opaqueData
  | fixed data => exact (Reads.fixed data).map XdrItem.fixed

theorem XdrReader.items_reads {max : Nat} {is : List XdrItem} (h : ∀ i ∈ is, i.Fits max) :
    Reads (items max is) (is.flatMap XdrItem.bytes) is := by
  induction is with
  | nil => exact Reads.pure []
  | cons i is ih =>
    exact (XdrItem.reads (h i (.head _))).bind
      (q := fun v r => (items max is r).map fun us => (v :: us.1, us.2))
      ((ih fun j hj => h j (.tail _ hj)).map (i :: ·))

/-- Values are read back to the end of the buffer, which is aligned after each of them; a shorter
buffer is an error. -/
theorem xdr_round_trip (max : Nat) (is : List XdrItem) (h : ∀ i ∈ is, i.Fits max) :
    XdrReader.items max is ⟨(XdrWriter.new.items is).buf⟩ = some (is, ⟨[]⟩) ∧
      (∀ k, (XdrWriter.new.items (is.take k)).buf.length % 4 = 0) ∧
      ∀ n < (XdrWriter.new.items is).buf.length,
        XdrReader.items max is ⟨(XdrWriter.new.items is).buf.take n⟩ = none := by
  have hreads := XdrReader.items_reads h
  refine ⟨?_, fun k => XdrWriter.length_items .new _, hreads.cut⟩
  have hwhole := hreads.whole []
  rwa [append_nil] at hwhole

theorem xdr_round_trip_name :
    XdrReader.items 255 [.u32 7, .opaqueData [97]] ⟨be32 7 ++ [0, 0, 0, 1, 97, 0, 0]⟩ = none :=
  (xdr_round_trip 255 [.u32 7, .opaqueData [97]] (by simp [XdrItem.Fits])).2.2 11 (by decide)

end Mist
