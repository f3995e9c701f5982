import Mist.Hostd.Reads

/-! The chunks that a write stash covers. -/

namespace Mist

open List Option UInt64

abbrev Stashed := UInt64 × List UInt8

namespace Stashed

def fin (w : Stashed) : UInt64 := w.1 + .ofNat w.2.length

def covers (w : Stashed) (p : Nat) : Bool := w.1.toNat ≤ p && p < w.1.toNat + w.2.length

end Stashed

def maxEnd (stash : List Stashed) : UInt64 := stash.foldl (fun m w => maxU64 m w.fin) 0

/-- The length of the chunk at an offset; the tail is only made when the file's size is known. -/
def stashChunkLen (size : Option UInt64) (fin cOff : UInt64) : Option UInt64 :=
  match size with
  | some sz => some (minU64 CAS_CHUNK (sz - cOff))
  | none => if cOff + CAS_CHUNK > fin then none else some CAS_CHUNK

def stashChunks (stash : List Stashed) (size : Option UInt64) : List (UInt64 × UInt64) :=
  let fin := minU64 (size.getD (maxEnd stash)) (maxEnd stash)
  (List.range ((fin.toNat + 4194303) / 4194304)).filterMap fun c =>
    (stashChunkLen size fin (.ofNat c * CAS_CHUNK)).map fun cLen => (.ofNat c * CAS_CHUNK, cLen)

/-- Copy what a write has of a chunk, and add to the number of bytes copied. -/
def copyStashed (cOff cLen : UInt64) (acc : List UInt8 × Nat) (w : Stashed) : List UInt8 × Nat :=
  if w.fin ≤ cOff ∨ cOff + cLen ≤ w.1 then acc
  else
    let s := maxU64 w.1 cOff
    let e := minU64 w.fin (cOff + cLen)
    let piece := (w.2.drop (s - w.1).toNat).take (e - s).toNat
    (acc.1.take (s - cOff).toNat ++ piece ++ acc.1.drop (e - cOff).toNat, acc.2 + (e - s).toNat)

/-- The content of a chunk as the stash has it, and the number of bytes copied. -/
def assembleChunk (stash : List Stashed) (cOff cLen : UInt64) : List UInt8 × Nat :=
  stash.foldl (copyStashed cOff cLen) (List.replicate cLen.toNat 0, 0)

def coveredChunks (stash : List Stashed) (size : Option UInt64) : List (UInt64 × List UInt8) :=
  (stashChunks stash size).filterMap fun c =>
    let made := assembleChunk stash c.1 c.2
    if made.2 = c.2.toNat then some (c.1, made.1) else none

/-- The byte of the last write that covers a position. -/
def lastStashed (stash : List Stashed) (p : Nat) : Option UInt8 :=
  (stash.reverse.find? fun w => w.covers p).bind fun w => w.2[p - w.1.toNat]?

def CoveredSound (stash : List Stashed) (size : Option UInt64) : Prop :=
  ∀ c ∈ coveredChunks stash size, c.1.toNat % 4194304 = 0 ∧
    ∀ i < c.2.length, lastStashed stash (c.1.toNat + i) = c.2[i]?

def stashDepth (stash : List Stashed) (p : Nat) : Nat := stash.countP fun w => w.covers p

/-- In a chunk that gets as many stashed bytes as it is long, no byte is in two writes. -/
def StashedOnce (stash : List Stashed) (size : Option UInt64) : Prop :=
  ∀ c ∈ stashChunks stash size,
    weigh (fun i => stashDepth stash (c.1.toNat + i)) (List.range c.2.toNat) = c.2.toNat →
      ∀ i < c.2.toNat, stashDepth stash (c.1.toNat + i) ≤ 1

def Stashed.Fits (w : Stashed) : Prop := w.1.toNat + w.2.length < 9223372036854775808

section

variable {stash : List Stashed} {cOff cLen : UInt64}

theorem Stashed.fin_toNat {w : Stashed} (h : w.Fits) : w.fin.toNat = w.1.toNat + w.2.length := by
  rw [Stashed.fin, UInt64.toNat_add, UInt64.toNat_ofNat', Nat.add_mod_mod]
  exact Nat.mod_eq_of_lt (Nat.lt_trans h (by decide))

theorem countP_interval (lo hi n : Nat) :
    (range n).countP (fun i => lo ≤ i && i < hi) = min hi n - lo := by
  induction n with
  | zero => simp
  | succ n ih =>
    rw [range_succ, countP_append, ih, countP_singleton]
    split_ifs with h
    · simp only [Bool.and_eq_true, decide_eq_true_eq] at h
      omega
    · simp only [Bool.and_eq_true, decide_eq_true_eq, not_and, Nat.not_lt] at h
      omega

/-- What has been copied from some writes: the buffer has the last of their bytes and zeros, and the
count is the number of pairs of a write and a byte of it in the chunk. -/
structure Copied (cOff cLen : UInt64) (stash : List Stashed) (acc : List UInt8 × Nat) : Prop where
  length : acc.1.length = cLen.toNat
  byte : ∀ i < cLen.toNat, acc.1[i]? = some ((lastStashed stash (cOff.toNat + i)).getD 0)
  count : acc.2 =
    weigh (fun w => (List.range cLen.toNat).countP fun i => w.covers (cOff.toNat + i)) stash

theorem lastStashed_append (stash : List Stashed) (w : Stashed) (p : Nat) :
    lastStashed (stash ++ [w]) p =
      if w.covers p then w.2[p - w.1.toNat]? else lastStashed stash p := by
  rw [lastStashed, reverse_append, reverse_singleton, singleton_append, find?_cons]
  split
  · rename_i h
    rw [if_pos h]
    rfl
  · rename_i h
    rw [if_neg (by rw [h]; decide)]
    rfl

theorem getElem?_splice {l piece : List UInt8} {a b i : Nat} (hpiece : a + piece.length = b)
    (hb : b ≤ l.length) : (l.take a ++ piece ++ l.drop b)[i]? =
      if i < a then l[i]? else if i < b then piece[i - a]? else l[i]? := by
  have htake : (l.take a).length = a := by
    rw [length_take]
    omega
  rw [append_assoc]
  split
  · rename_i hi
    rw [getElem?_append_left (by omega), getElem?_take_of_lt hi]
  rw [getElem?_append_right (by omega), htake]
  split
  · rw [getElem?_append_left (by omega)]
  · rw [getElem?_append_right (by omega), getElem?_drop]
    congr 1
    omega

theorem countP_covers (w : Stashed) (cOff cLen : UInt64) :
    (range cLen.toNat).countP (fun i => w.covers (cOff.toNat + i)) =
      min (w.1.toNat + w.2.length - cOff.toNat) cLen.toNat - (w.1.toNat - cOff.toNat) := by
  rw [← countP_interval]
  refine countP_congr fun i _ => ?_
  simp only [Stashed.covers, Bool.and_eq_true, decide_eq_true_eq]
  omega

theorem Copied.copy {acc : List UInt8 × Nat} (h : Copied cOff cLen stash acc) {w : Stashed}
    (hw : w.Fits) (hfits : cOff.toNat + cLen.toNat < 18446744073709551616) :
    Copied cOff cLen (stash ++ [w]) (copyStashed cOff cLen acc w) := by
  have hfin := Stashed.fin_toNat hw
  have hend : (cOff + cLen).toNat = cOff.toNat + cLen.toNat := by
    rw [UInt64.toNat_add]
    omega
  have hmore : weigh (fun w => (range cLen.toNat).countP fun i => w.covers (cOff.toNat + i))
      (stash ++ [w]) = acc.2 + (range cLen.toNat).countP fun i => w.covers (cOff.toNat + i) := by
    rw [weigh_append, ← h.count]
    rfl
  unfold copyStashed
  split_ifs with hskip
  · rw [le_iff_toNat_le, le_iff_toNat_le, hfin, hend] at hskip
    refine ⟨h.length, fun i hi => ?_, by rw [hmore, countP_covers]; omega⟩
    rw [lastStashed_append, if_neg, h.byte i hi]
    simp only [Stashed.covers, Bool.and_eq_true, decide_eq_true_eq]
    omega
  · rw [le_iff_toNat_le, le_iff_toNat_le, hfin, hend, not_or, Nat.not_le, Nat.not_le]
      at hskip
    have hs : (maxU64 w.1 cOff).toNat = max w.1.toNat cOff.toNat := maxU64_toNat ..
    have he : (minU64 w.fin (cOff + cLen)).toNat =
        min (w.1.toNat + w.2.length) (cOff.toNat + cLen.toNat) := by
      rw [minU64_toNat, hfin, hend]
    simp only
    generalize maxU64 w.1 cOff = s at hs ⊢
    generalize minU64 w.fin (cOff + cLen) = e at he ⊢
    have hcount : (range cLen.toNat).countP (fun i => w.covers (cOff.toNat + i)) =
        e.toNat - s.toNat := by
      rw [countP_covers]
      omega
    have hcovers : ∀ i < cLen.toNat,
        (w.covers (cOff.toNat + i) ↔ s.toNat ≤ cOff.toNat + i ∧ cOff.toNat + i < e.toNat) := by
      simp only [Stashed.covers, Bool.and_eq_true, decide_eq_true_eq]
      omega
    -- From here on only the order of the six places matters.
    have hle : s.toNat ≤ e.toNat ∧ w.1.toNat ≤ s.toNat ∧ cOff.toNat ≤ s.toNat ∧
        e.toNat ≤ w.1.toNat + w.2.length ∧ e.toNat ≤ cOff.toNat + cLen.toNat := by omega
    obtain ⟨hse, hws, hcs, hew, hec⟩ := hle
    rw [UInt64.toNat_sub_of_le _ _ (UInt64.le_iff_toNat_le.mpr hse),
      UInt64.toNat_sub_of_le _ _ (UInt64.le_iff_toNat_le.mpr hws),
      UInt64.toNat_sub_of_le _ _ (UInt64.le_iff_toNat_le.mpr hcs),
      UInt64.toNat_sub_of_le _ _ (UInt64.le_iff_toNat_le.mpr (by omega))]
    have hlen := h.length
    have hpiece : s.toNat - cOff.toNat +
        ((w.2.drop (s.toNat - w.1.toNat)).take (e.toNat - s.toNat)).length =
        e.toNat - cOff.toNat := by
      rw [length_take, length_drop]
      omega
    refine ⟨?_, fun i hi => ?_, by rw [hmore, hcount]⟩
    · rw [length_append, length_append, length_take, length_drop, hlen,
        Nat.min_eq_left (by omega), hpiece]
      omega
    simp only
    rw [getElem?_splice hpiece (by omega), lastStashed_append]
    split
    · rw [if_neg, h.byte i hi]
      rw [hcovers i hi]
      omega
    split
    · have hidx : cOff.toNat + i - w.1.toNat < w.2.length := by omega
      rw [if_pos, getElem?_take_of_lt (by omega), getElem?_drop,
        show s.toNat - w.1.toNat + (i - (s.toNat - cOff.toNat)) = cOff.toNat + i - w.1.toNat by
          omega, getElem?_eq_getElem hidx, getD_some]
      rw [hcovers i hi]
      omega
    · rw [if_neg, h.byte i hi]
      rw [hcovers i hi]
      omega

theorem assembleChunk_copied (hstash : ∀ w ∈ stash, w.Fits)
    (hfits : cOff.toNat + cLen.toNat < 18446744073709551616) :
    Copied cOff cLen stash (assembleChunk stash cOff cLen) := by
  suffices hfold : ∀ (before later : List Stashed) (acc : List UInt8 × Nat),
      (∀ w ∈ later, w.Fits) → Copied cOff cLen before acc →
      Copied cOff cLen (before ++ later) (later.foldl (copyStashed cOff cLen) acc) by
    refine hfold [] stash _ hstash ⟨length_replicate, fun i hi => ?_, rfl⟩
    rw [getElem?_replicate, if_pos hi]
    rfl
  intro before later
  induction later generalizing before with
  | nil =>
    intro acc _ h
    rwa [append_nil]
  | cons w later ih =>
    intro acc hlater h
    have hnext := ih (before ++ [w]) _ (fun v hv => hlater v (.tail _ hv))
      (h.copy (hlater w (.head _)) hfits)
    rwa [append_assoc] at hnext

theorem lastStashed_eq_getD_iff (stash : List Stashed) (p : Nat) :
    lastStashed stash p = some ((lastStashed stash p).getD 0) ↔ 0 < stashDepth stash p := by
  rw [stashDepth, countP_pos_iff]
  constructor
  · intro h
    obtain ⟨w, hw, -⟩ := bind_eq_some_iff.mp h
    have hcovers : w.covers p = true := find?_some (p := fun w : Stashed => w.covers p) hw
    exact ⟨w, mem_reverse.mp (mem_of_find?_eq_some hw), hcovers⟩
  · rintro ⟨w, hw, hcovers⟩
    cases hfind : stash.reverse.find? fun w => w.covers p with
    | none =>
      exact absurd hcovers (find?_eq_none.mp hfind w (mem_reverse.mpr hw))
    | some v =>
      have hv := find?_some hfind
      simp only [Stashed.covers, Bool.and_eq_true, decide_eq_true_eq] at hv
      have hbyte : lastStashed stash p = v.2[p - v.1.toNat]? := by
        rw [lastStashed, hfind]
        rfl
      rw [hbyte, getElem?_eq_getElem (by omega)]
      rfl

theorem maxEnd_lt (hstash : ∀ w ∈ stash, w.Fits) : (maxEnd stash).toNat < 9223372036854775808 := by
  refine foldlRecOn stash _ (motive := fun m : UInt64 => m.toNat < _) (by decide) fun m hm w hw => ?_
  rw [maxU64_toNat, Stashed.fin_toNat (hstash w hw)]
  exact Nat.max_lt.mpr ⟨hm, hstash w hw⟩

theorem mem_stashChunks {size : Option UInt64} (hstash : ∀ w ∈ stash, w.Fits)
    {c : UInt64 × UInt64} (hc : c ∈ stashChunks stash size) :
    c.1.toNat % 4194304 = 0 ∧ c.1.toNat + c.2.toNat < 18446744073709551616 := by
  obtain ⟨k, hk, hlen⟩ := mem_filterMap.mp hc
  obtain ⟨cLen, hcLen, rfl⟩ := map_eq_some_iff.mp hlen
  have hmax := maxEnd_lt hstash
  have hfin : (minU64 (size.getD (maxEnd stash)) (maxEnd stash)).toNat ≤ (maxEnd stash).toNat := by
    rw [minU64_toNat]
    exact Nat.min_le_right ..
  have hlt := mem_range.mp hk
  have hoff : (ofNat k * CAS_CHUNK).toNat = k * 4194304 := by
    have hkk : (UInt64.ofNat k).toNat = k := UInt64.toNat_ofNat_of_lt' (by simp [UInt64.size]; omega)
    rw [UInt64.toNat_mul, hkk, show CAS_CHUNK.toNat = 4194304 from rfl]
    omega
  have hlen : cLen.toNat ≤ 4194304 := by
    unfold stashChunkLen at hcLen
    split at hcLen
    · cases hcLen
      rw [minU64_toNat]
      exact Nat.min_le_left ..
    split at hcLen
    · cases hcLen
    · cases hcLen
      exact Nat.le_refl _
  simp only [hoff]
  omega

/-- `covered_chunks` is sound exactly if no chunk is filled up by counting a byte twice. -/
theorem covered_chunks_sound_iff (hstash : ∀ w ∈ stash, w.Fits) (size : Option UInt64) :
    CoveredSound stash size ↔ StashedOnce stash size := by
  have hcopied : ∀ c ∈ stashChunks stash size,
      Copied c.1 c.2 stash (assembleChunk stash c.1 c.2) := fun c hc =>
    assembleChunk_copied hstash (mem_stashChunks hstash hc).2
  have hcount : ∀ c ∈ stashChunks stash size, (assembleChunk stash c.1 c.2).2 =
      weigh (fun i => stashDepth stash (c.1.toNat + i)) (range c.2.toNat) := fun c hc => by
    rw [(hcopied c hc).count]
    exact weigh_countP_comm (fun w i => w.covers (c.1.toNat + i)) stash (range c.2.toNat)
  -- the bytes of a full chunk are right exactly if every position is covered
  have hbytes : ∀ c ∈ stashChunks stash size,
      weigh (fun i => stashDepth stash (c.1.toNat + i)) (range c.2.toNat) = c.2.toNat →
      ((∀ i < c.2.toNat, lastStashed stash (c.1.toNat + i) = (assembleChunk stash c.1 c.2).1[i]?) ↔
        ∀ i < c.2.toNat, stashDepth stash (c.1.toNat + i) ≤ 1) := by
    intro c hc hfull
    have honce := pos_iff_le_one (hfull.trans length_range.symm)
    simp only [mem_range] at honce
    rw [← honce]
    refine forall₂_congr fun i hi => ?_
    rw [(hcopied c hc).byte i hi, lastStashed_eq_getD_iff]
  constructor
  · intro hsound c hc hfull
    refine (hbytes c hc hfull).mp fun i hi => ?_
    have hmem : (c.1, (assembleChunk stash c.1 c.2).1) ∈ coveredChunks stash size := by
      refine mem_filterMap.mpr ⟨c, hc, ?_⟩
      simp only
      rw [if_pos ((hcount c hc).trans hfull)]
    exact (hsound _ hmem).2 i (by rwa [(hcopied c hc).length])
  · intro honce chunk hchunk
    obtain ⟨c, hc, hmade⟩ := mem_filterMap.mp hchunk
    simp only at hmade
    obtain ⟨hfull, rfl⟩ := ite_some_none_eq_some.mp hmade
    rw [hcount c hc] at hfull
    refine ⟨(mem_stashChunks hstash hc).1, fun i hi => ?_⟩
    rw [(hcopied c hc).length] at hi
    exact (hbytes c hc hfull).mpr (honce c hc hfull) i hi

end

instance Stashed.decidableFits (w : Stashed) : Decidable w.Fits :=
  inferInstanceAs (Decidable (w.1.toNat + w.2.length < 9223372036854775808))

theorem covered_chunks_sound_iff_adjacent :
    CoveredSound [(0, [1]), (1, [2, 3])] (some 3) ↔ StashedOnce [(0, [1]), (1, [2, 3])] (some 3) :=
  covered_chunks_sound_iff (by decide) (some 3)

/-- Two writes of the same first byte of a file of two bytes fill its chunk, with a zero that nobody
wrote. -/
theorem covered_chunks_overlap : ¬ CoveredSound [(0, [1]), (0, [2])] (some 2) := by
  intro h
  have hchunk : (0, [2, 0]) ∈ coveredChunks [(0, [1]), (0, [2])] (some 2) := by decide +kernel
  have hbyte := (h _ hchunk).2 1 (by decide)
  exact absurd hbyte (by decide +kernel)

end Mist
