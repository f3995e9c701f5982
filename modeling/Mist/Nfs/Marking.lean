import Mist.Nfs.Replies
import Mist.Wire

/-! RPC records on a stream: fragments, each after a marker of its length. -/

namespace Mist.Nfs

open Wire List UInt32

inductive RecordError where
  | unexpectedEof
  | exceedsCap

/-- `read_record` with `record` read, for `n` more fragments at most. -/
def readRecord : Nat → List UInt8 → List (List UInt8) →
    Option (Except RecordError (Option (List UInt8) × List (List UInt8)))
  | 0, _, _ => none
  | n + 1, record, s =>
    match readExact 4 s with
    | none => some (if record = [] then .ok (none, []) else .error .unexpectedEof)
    | some (hdr, s) =>
      let marker := fromBe32 hdr
      let len := (marker &&& 0x7fffffff).toNat
      if MAX_RECORD.toNat < record.length + len then some (.error .exceedsCap)
      else
        match readExact len s with
        | none => some (.error .unexpectedEof)
        | some (data, s) =>
          if marker &&& 0x80000000 ≠ 0 then some (.ok (some (record ++ data), s))
          else readRecord n (record ++ data) s

/-- The records up to the end of the stream. -/
def readRecords (fragments : Nat) : Nat → List (List UInt8) →
    Option (Except RecordError (List (List UInt8)))
  | 0, _ => none
  | n + 1, s =>
    (readRecord fragments [] s).bind fun
      | .error e => some (.error e)
      | .ok (none, _) => some (.ok [])
      | .ok (some record, s) => (readRecords fragments n s).map (·.map (record :: ·))

def fragment (last : Bool) (data : List UInt8) : List UInt8 :=
  (if last then marker data.length else be32 (.ofNat data.length)) ++ data

theorem fragment_eq (last : Bool) {data : List UInt8} (h : data.length < 2147483648) :
    ∃ v, fragment last data = be32 v ++ data ∧ (v &&& 0x7fffffff).toNat = data.length ∧
      (v &&& 0x80000000 ≠ 0 ↔ last = true) := by
  let w := ofNat data.length
  have hw : w.toNat = data.length := toNat_ofNat_of_lt' (Nat.lt_trans h (by decide))
  have hlow : w &&& 0x7fffffff = w := by
    apply UInt32.toNat_inj.mp
    exact (Nat.and_two_pow_sub_one_eq_mod w.toNat 31).trans (Nat.mod_eq_of_lt (hw ▸ h))
  have hhigh : w &&& 0x80000000 = 0 := by
    rw [← hlow, UInt32.and_assoc]
    exact UInt32.and_zero
  have hor : ∀ m, (0x80000000 ||| w) &&& m = (0x80000000 &&& m) ||| (w &&& m) := fun m => by
    apply UInt32.toNat_inj.mp
    exact Nat.and_or_distrib_right ..
  cases last with
  | false => exact ⟨w, rfl, by rw [hlow, hw], by simp [hhigh]⟩
  | true =>
    refine ⟨0x80000000 ||| w, by rw [← hlow]; rfl, ?_, ?_⟩
    · rw [hor, hlow, ← hw]
      exact congrArg UInt32.toNat UInt32.zero_or
    · rw [hor, hhigh]
      decide

variable {s : List (List UInt8)} {r data tail last : List UInt8} {frags : List (List UInt8)}

theorem readRecord_fragment {final : Bool} (h : Carries s (fragment final data ++ tail))
    (hdata : data.length < 2147483648) (n : Nat) (r : List UInt8) :
    ∃ s', Carries s' tail ∧ readRecord (n + 1) r s =
      if MAX_RECORD.toNat < r.length + data.length then some (.error .exceedsCap)
      else if final then some (.ok (some (r ++ data), s'))
      else readRecord n (r ++ data) s' := by
  obtain ⟨v, hfrag, hlen, hfinal⟩ := fragment_eq final hdata
  rw [hfrag, append_assoc] at h
  obtain ⟨s₁, hhdr, h₁⟩ := h.readExact
  obtain ⟨s', hbody, h'⟩ := h₁.readExact
  refine ⟨s', h', ?_⟩
  rw [length_be32] at hhdr
  simp only [readRecord, hhdr, fromBe32_be32, hlen, hbody, hfinal]

/-- The fragments of a record give the record, or the first of them that is too much an error. -/
theorem readRecord_fragments (hshort : ∀ d ∈ last :: frags, d.length < 2147483648)
    (h : Carries s (frags.flatMap (fragment false) ++ (fragment true last ++ tail))) (n : Nat) :
    if MAX_RECORD.toNat < (r ++ frags.flatten ++ last).length then
      readRecord (frags.length + n + 1) r s = some (.error .exceedsCap)
    else ∃ s', readRecord (frags.length + n + 1) r s =
      some (.ok (some (r ++ frags.flatten ++ last), s')) ∧ Carries s' tail := by
  induction frags generalizing r s with
  | nil =>
    obtain ⟨s', hs', hread⟩ := readRecord_fragment h (hshort last (.head _)) _ r
    rw [hread]
    simp only [flatten_nil, append_nil, length_append]
    split
    · rfl
    · exact ⟨s', rfl, hs'⟩
  | cons d frags ih =>
    rw [flatMap_cons, append_assoc] at h
    obtain ⟨s', hs', hread⟩ := readRecord_fragment h (hshort d (.tail _ (.head _)))
      (frags.length + n + 1) r
    have hrest := ih (r := r ++ d) (fun e he => hshort e
      ((mem_cons.mp he).elim (· ▸ .head _) fun he => .tail _ (.tail _ he))) hs'
    rw [length_cons, Nat.add_right_comm _ 1, hread, flatten_cons, ← append_assoc r]
    by_cases hcap : MAX_RECORD.toNat < r.length + d.length
    · rw [if_pos (by simp only [length_append]; omega), if_pos hcap]
    · rw [if_neg hcap]
      exact hrest

theorem readRecords_fragments {l : List (List UInt8)} (hl : ∀ r ∈ l, r.length ≤ MAX_RECORD.toNat)
    (h : Carries s (l.flatMap (fragment true))) (n : Nat) :
    readRecords (n + 1) (l.length + 1) s = some (.ok l) := by
  induction l generalizing s with
  | nil =>
    rw [readRecords, readRecord, h.readExact_short (by decide)]
    rfl
  | cons r l ih =>
    have hr := hl r (.head _)
    obtain ⟨s', hs', hread⟩ := readRecord_fragment h (Nat.lt_of_le_of_lt hr (by decide)) n []
    rw [if_neg (by simpa using hr), if_pos rfl] at hread
    rw [readRecords, hread, length_cons]
    simp only [Option.bind_some, ih (fun q hq => hl q (.tail _ hq)) hs']
    rfl

/-- Fragments are read as the record they make up, unless it is above the cap; a record is written
after its marker, however the socket takes it, and written records are read back. -/
theorem record_marking :
    (∀ (frags : List (List UInt8)) (last tail : List UInt8) (s : List (List UInt8)) (n : Nat),
      Carries s (frags.flatMap (fragment false) ++ (fragment true last ++ tail)) →
      ((frags.flatten ++ last).length ≤ MAX_RECORD.toNat →
        ∃ s', readRecord (frags.length + n + 1) [] s =
          some (.ok (some (frags.flatten ++ last), s')) ∧ Carries s' tail) ∧
      ((∀ d ∈ last :: frags, d.length < 2147483648) →
        MAX_RECORD.toNat < (frags.flatten ++ last).length →
        readRecord (frags.length + n + 1) [] s = some (.error .exceedsCap))) ∧
    (∀ (accept : Nat → Nat) (mark payload : List UInt8), (∀ k, 0 < accept k) → mark.length = 4 →
      writeMarked accept mark payload (4 + payload.length) 0 = mark ++ payload) ∧
    ∀ (records : List (List UInt8 × (Nat → Nat))) (s : List (List UInt8)) (n : Nat),
      (∀ r ∈ records, r.1.length ≤ MAX_RECORD.toNat ∧ ∀ k, 0 < r.2 k) →
      Carries s (records.flatMap fun r =>
        writeMarked r.2 (marker r.1.length) r.1 (4 + r.1.length) 0) →
      readRecords (n + 1) (records.length + 1) s = some (.ok (records.map Prod.fst)) := by
  refine ⟨fun frags last tail s n h => ⟨fun hcap => ?_, fun hlen hcap => ?_⟩, fun accept mark payload ha hm => ?_, fun records s n hrecords h => ?_⟩
  · have hread := readRecord_fragments (r := []) (fun d hd => ?_) h n
    · rwa [nil_append, if_neg (Nat.not_lt.mpr hcap)] at hread
    have hmax : MAX_RECORD.toNat = 2097152 := rfl
    have hle := (sublist_flatten_of_mem hd).length_le
    rw [flatten_cons, length_append] at hle
    rw [length_append] at hcap
    omega
  · have hread := readRecord_fragments (r := []) hlen h n
    rwa [nil_append, if_pos hcap] at hread
  · rw [writeMarked_eq ha hm (by omega), drop_zero]
  · have hwritten : (records.flatMap fun r =>
        writeMarked r.2 (marker r.1.length) r.1 (4 + r.1.length) 0) =
        (records.map Prod.fst).flatMap (fragment true) := by
      rw [flatMap_map]
      refine flatMap_congr fun r hr => ?_
      rw [writeMarked_eq (hrecords r hr).2 rfl (by omega)]
      rfl
    have hread := readRecords_fragments (l := records.map Prod.fst) (fun r hr => ?_)
      (hwritten ▸ h) n
    · rwa [length_map] at hread
    · obtain ⟨q, hq, rfl⟩ := mem_map.mp hr
      exact (hrecords q hq).1

theorem record_marking_split : ∃ s',
    readRecord 2 [] [[0, 0, 0, 1, 7, 128], [0, 0, 2, 8, 9, 5]] = some (.ok (some [7, 8, 9], s')) ∧
      Carries s' [5] :=
  (record_marking.1 [[7]] [8, 9] [5] _ 0 ⟨rfl, by simp⟩).1 (by decide)

end Mist.Nfs
