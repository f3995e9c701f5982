import Mist.Hostd.Mutations

/-! A WRITE that asks for stable storage.  It is acknowledged once the guest has answered every piece
of it, whatever its `pwrite` calls have written. -/

namespace Mist.SyncWrite

open List Prod

abbrev Content := Nat → Option UInt8

/-- A gap before the bytes reads as zeros. -/
def Content.put (f : Content) (off : Nat) (bytes : List UInt8) : Content := fun i =>
  if off ≤ i ∧ i < off + bytes.length then bytes[i - off]?
  else if i < off ∧ bytes ≠ [] then some ((f i).getD 0) else f i

/-- How the guest's system calls end, by the offset of the piece they are for. -/
structure Calls where
  readonly : Bool
  fsyncs : Bool
  reopen : UInt64 → Option Int32
  pwrite : UInt64 → List UInt8 → Except Int32 Nat
  fdatasync : UInt64 → Option Int32
  stat : UInt64 → Except Int32 Attr

namespace Calls

/-- `applier::write`: one `pwrite`, whose count is not looked at. -/
def write (K : Calls) (f : Content) (off : UInt64) (sync : Bool) (data : List UInt8) :
    RpcResp × Content :=
  if K.readonly then (.err 30, f)
  else
    match K.reopen off with
    | some e => (.err e, f)
    | none =>
      match K.pwrite off data with
      | .error e => (.err e, f)
      | .ok n =>
        let f := f.put off.toNat (data.take n)
        match if sync && K.fsyncs then K.fdatasync off else none with
        | some e => (.err e, f)
        | none =>
          match K.stat off with
          | .error e => (.err e, f)
          | .ok a => (.attr a, f)

variable (K : Calls) (fates : UInt64 → Fate)

def rpc (sync : Bool) (f : Content) (p : UInt64 × List UInt8) : Except NfsError RpcResp × Content :=
  ((fates p.1).mutate (K.write f p.1 sync p.2).1,
    if (fates p.1).executes then (K.write f p.1 sync p.2).2 else f)

end Calls

def WRITE_CHUNK : Nat := 1048576

def piece (off : UInt64) (data : List UInt8) (k : Nat) : UInt64 × List UInt8 :=
  (off + (k * WRITE_CHUNK).toUInt64, (data.drop (k * WRITE_CHUNK)).take WRITE_CHUNK)

def chunks (off : UInt64) (data : List UInt8) : List (UInt64 × List UInt8) :=
  (List.range ((data.length + (WRITE_CHUNK - 1)) / WRITE_CHUNK)).map (piece off data)

/-- `write_through`: the pieces get to the guest in some order, and the first that failed fails it. -/
def writeThrough (K : Calls) (fates : UInt64 → Fate) (order pieces : List (UInt64 × List UInt8))
    (f : Content) : Option NfsError × Content :=
  (pieces.findSome? fun p =>
      match (K.rpc fates false f p).1 with
      | .error e => some e
      | .ok _ => none,
    order.foldl (fun f p => (K.rpc fates false f p).2) f)

/-- `ShareSurface::write` with the sync flag, after the drain of earlier writes: its error, and the
file.  Without an error the client is told that all bytes are written. -/
def write (K : Calls) (fates : UInt64 → Fate) (order : List (UInt64 × List UInt8))
    (drained committed : Option NfsError) (off : UInt64) (data : List UInt8) (f : Content) :
    Option NfsError × Content :=
  match drained with
  | some e => (some e, f)
  | none =>
    if data.length ≤ WRITE_CHUNK ∧ data ≠ [] then
      match K.rpc fates true f (off, data) with
      | (.ok (.attr _), f) => (none, f)
      | (.ok _, f) => (some .io, f)
      | (.error e, f) => (some e, f)
    else
      match writeThrough K fates order (chunks off data) f with
      | (some e, f) => (some e, f)
      | (none, f) => (committed, f)

def Stored (off : UInt64) (data : List UInt8) (f : Content) : Prop :=
  ∀ i b, data[i]? = some b → f (off.toNat + i) = some b

section

variable {f : Content} {l : List (Nat × List UInt8)} {i : Nat}

abbrev Covers (i : Nat) (p : Nat × List UInt8) : Prop := p.1 ≤ i ∧ i < p.1 + p.2.length

theorem put_keeps {b : UInt8} (h : f i = some b) {p : Nat × List UInt8} (hout : ¬ Covers i p) :
    f.put p.1 p.2 i = some b := by
  simp only [Content.put, if_neg hout, h]
  split <;> rfl

theorem foldl_keeps {b : UInt8} (h : f i = some b) (hout : ∀ p ∈ l, ¬ Covers i p) :
    l.foldl (fun f p => f.put p.1 p.2) f i = some b :=
  foldlRecOn l _ (motive := fun f : Content => f i = some b) h fun _ h p hp => put_keeps h (hout p hp)

theorem foldl_covers {p : Nat × List UInt8} (hp : p ∈ l) (hin : Covers i p)
    (honly : ∀ q ∈ l, Covers i q → q = p) :
    l.foldl (fun f p => f.put p.1 p.2) f i = p.2[i - p.1]? := by
  induction l generalizing f with
  | nil => cases hp
  | cons q l ih =>
    by_cases hrest : p ∈ l
    · exact ih hrest fun q hq => honly q (.tail _ hq)
    obtain rfl : p = q := (mem_cons.mp hp).resolve_right hrest
    have hlt : i - p.1 < p.2.length := by
      omega
    rw [getElem?_eq_getElem hlt]
    rw [foldl_cons]
    refine foldl_keeps ?_ fun q hq hcov => hrest (honly q (.tail _ hq) hcov ▸ hq)
    simp only [Content.put, if_pos hin, getElem?_eq_getElem hlt]

end

section

variable {off : UInt64} {data : List UInt8} {k k' i : Nat}

theorem chunks_single (hlen : data.length ≤ WRITE_CHUNK) (hne : data ≠ []) :
    chunks off data = [(off, data)] := by
  have hpos := length_pos_iff.mpr hne
  have hone : (data.length + (WRITE_CHUNK - 1)) / WRITE_CHUNK = 1 := by
    unfold WRITE_CHUNK at *
    omega
  simp [chunks, hone, piece, take_of_length_le hlen]

theorem mem_chunks {p : UInt64 × List UInt8} :
    p ∈ chunks off data ↔ ∃ k, k * WRITE_CHUNK < data.length ∧ piece off data k = p := by
  simp only [chunks, mem_map, mem_range]
  refine exists_congr fun k => and_congr_left fun _ => ?_
  unfold WRITE_CHUNK
  omega

variable (hoff : off.toNat < 9223372036854775808) (hlen : data.length < 9223372036854775808)
include hoff hlen

theorem piece_off (hk : k * WRITE_CHUNK < data.length) :
    (piece off data k).1.toNat = off.toNat + k * WRITE_CHUNK := by
  simp only [piece, UInt64.toNat_add, Nat.toUInt64, UInt64.toNat_ofNat']
  omega

theorem exists_piece (hi : i < data.length) : ∃ p ∈ chunks off data,
    Covers (off.toNat + i) (p.1.toNat, p.2) ∧ p.2[off.toNat + i - p.1.toNat]? = data[i]? := by
  have hmod := Nat.mod_lt i (show 0 < WRITE_CHUNK by decide)
  have hsplit := Nat.div_add_mod' i WRITE_CHUNK
  have hpiece := piece_off hoff hlen (k := i / WRITE_CHUNK) (by omega)
  refine ⟨_, mem_chunks.mpr ⟨i / WRITE_CHUNK, by omega, rfl⟩, ?_, ?_⟩
  · rw [hpiece]
    simp only [Covers, piece, length_take, length_drop]
    omega
  rw [hpiece]
  simp only [piece]
  rw [getElem?_take_of_lt (by omega), getElem?_drop]
  congr 1
  omega

theorem piece_unique {p q : UInt64 × List UInt8} (hp : p ∈ chunks off data) (hq : q ∈ chunks off data)
    (hpi : Covers i (p.1.toNat, p.2)) (hqi : Covers i (q.1.toNat, q.2)) : p = q := by
  obtain ⟨k, hk, rfl⟩ := mem_chunks.mp hp
  obtain ⟨j, hj, rfl⟩ := mem_chunks.mp hq
  rw [piece_off hoff hlen hk] at hpi
  rw [piece_off hoff hlen hj] at hqi
  simp only [Covers, piece, length_take, length_drop] at hpi hqi
  have hsame : k = j := by
    unfold WRITE_CHUNK at *
    omega
  rw [hsame]

end

section

variable {K : Calls} {fates : UInt64 → Fate} {off : UInt64} {data : List UInt8}

def wrote (K : Calls) (p : UInt64 × List UInt8) : Nat × List UInt8 :=
  (p.1.toNat, p.2.take ((K.pwrite p.1 p.2).toOption.getD 0))

theorem rpc_ok {sync : Bool} {f : Content} {p : UInt64 × List UInt8} {resp : RpcResp}
    (h : (K.rpc fates sync f p).1 = .ok resp) : (∃ n, K.pwrite p.1 p.2 = .ok n) ∧
      ∀ g, K.rpc fates sync g p = (.ok resp, g.put (wrote K p).1 (wrote K p).2) := by
  unfold Calls.rpc at h ⊢
  cases hf : fates p.1 with
  | answered =>
    rw [hf] at h
    unfold Calls.write at h ⊢
    split at h
    · cases h
    rename_i hro
    split at h
    · cases h
    split at h
    · cases h
    · rename_i n hwrite
      split at h
      · cases h
      split at h
      · cases h
      · cases h
        refine ⟨⟨n, hwrite⟩, fun g => ?_⟩
        simp [hro, hwrite, wrote, Fate.mutate, Fate.executes, Except.toOption]
  | unsent | timedOut | dropped =>
    rw [hf] at h
    cases h

theorem write_ok {order : List (UInt64 × List UInt8)} {drained committed : Option NfsError}
    {f : Content} (horder : order.Perm (chunks off data))
    (h : (write K fates order drained committed off data f).1 = none) :
    (∀ p ∈ chunks off data, ∃ n, K.pwrite p.1 p.2 = .ok n) ∧
      ∀ g, (write K fates order drained committed off data g).2 =
        (order.map (wrote K)).foldl (fun f p => f.put p.1 p.2) g := by
  unfold write at h ⊢
  cases drained with
  | some e => cases h
  | none =>
    by_cases hs : data.length ≤ WRITE_CHUNK ∧ data ≠ []
    · rw [chunks_single hs.1 hs.2] at horder ⊢
      obtain rfl := perm_singleton.mp horder
      simp only [if_pos hs] at h ⊢
      cases hr : (K.rpc fates true f (off, data)).1 with
      | error e =>
        rw [← eta (K.rpc fates true f (off, data)), hr] at h
        cases h
      | ok resp =>
        obtain ⟨hwrite, hrpc⟩ := rpc_ok hr
        rw [hrpc f] at h
        refine ⟨fun p hp => mem_singleton.mp hp ▸ hwrite, fun g => ?_⟩
        rw [hrpc g]
        cases resp with
        | attr a => rfl
        | ok | entry | err => cases h
    · simp only [if_neg hs] at h ⊢
      split at h
      · cases h
      rename_i f' hnone
      have hall : ∀ p ∈ chunks off data, ∃ resp, (K.rpc fates false f p).1 = .ok resp := by
        intro p hp
        have hp' := findSome?_eq_none_iff.mp (mk.inj hnone).1 p hp
        cases hr : (K.rpc fates false f p).1 with
        | ok resp => exact ⟨resp, rfl⟩
        | error e =>
          rw [hr] at hp'
          cases hp'
      refine ⟨fun p hp => (hall p hp).elim fun resp hr => (rpc_ok hr).1, fun g => ?_⟩
      have hfold : order.foldl (fun f p => (K.rpc fates false f p).2) g =
          (order.map (wrote K)).foldl (fun f p => f.put p.1 p.2) g := by
        rw [foldl_map]
        refine foldl_ext _ _ _ fun f p hp => ?_
        obtain ⟨resp, hr⟩ := hall p (horder.mem_iff.mp hp)
        rw [(rpc_ok hr).2]
      rw [← hfold]
      split
      · rename_i f'' heq
        exact (mk.inj heq).2.symm
      · rename_i f'' heq
        exact (mk.inj heq).2.symm

/-- A WRITE that is acknowledged as stable has stored its bytes, whatever was in the file, exactly if
every `pwrite` wrote all it was given. -/
theorem sync_write_iff (K : Calls) (fates : UInt64 → Fate) (order : List (UInt64 × List UInt8))
    (drained committed : Option NfsError) (off : UInt64) (data : List UInt8)
    (hlen : data.length < 9223372036854775808)
    (hposix : ∀ o d n, K.pwrite o d = .ok n → n ≤ d.length ∧ o.toNat < 9223372036854775808)
    (horder : order.Perm (chunks off data)) (f : Content)
    (hok : (write K fates order drained committed off data f).1 = none) :
    (∀ g, Stored off data (write K fates order drained committed off data g).2) ↔
      ∀ p ∈ chunks off data, K.pwrite p.1 p.2 = .ok p.2.length := by
  obtain ⟨hwritten, hcontent⟩ := write_ok horder hok
  cases data with
  | nil => exact ⟨nofun, nofun⟩
  | cons b₀ rest =>
    generalize hdata : b₀ :: rest = data at *
    have hoff : off.toNat < 9223372036854775808 := by
      obtain ⟨n, hn⟩ := hwritten (piece off data 0) (mem_chunks.mpr ⟨0, by simp [← hdata], rfl⟩)
      simpa [piece] using (hposix _ _ n hn).2
    have hsub : ∀ p ∈ chunks off data, ∀ i, Covers i (wrote K p) → Covers i (p.1.toNat, p.2) := by
      rintro p hp i ⟨hle, hlt⟩
      simp only [wrote, length_take] at hle hlt
      exact ⟨hle, by simp only; omega⟩
    simp only [hcontent]
    constructor
    · intro hstored p hp
      obtain ⟨n, hn⟩ := hwritten p hp
      by_contra hpart
      have hlt : n < p.2.length := by
        refine Nat.lt_of_le_of_ne (hposix _ _ n hn).1 fun heq => hpart ?_
        rw [hn, heq]
      have hcov : Covers (p.1.toNat + n) (p.1.toNat, p.2) := ⟨by simp only; omega, by simp only; omega⟩
      -- a file with other bytes keeps the one that was left out
      have hkept := foldl_keeps (f := fun _ => some (p.2[n] + 1)) (i := p.1.toNat + n) rfl
        (l := order.map (wrote K)) fun q hq hqi => by
          obtain ⟨q, hq', rfl⟩ := mem_map.mp hq
          have hq' := horder.mem_iff.mp hq'
          obtain rfl := piece_unique hoff hlen hq' hp (hsub q hq' _ hqi) hcov
          simp only [Covers, wrote, hn, Except.toOption, Option.getD_some, length_take] at hqi
          omega
      obtain ⟨k, hk, rfl⟩ := mem_chunks.mp hp
      have hval : data[k * WRITE_CHUNK + n]? = some ((piece off data k).2[n]) := by
        rw [← getElem?_eq_getElem hlt]
        simp only [piece, length_take] at hlt ⊢
        rw [getElem?_take_of_lt (by omega), getElem?_drop]
      have hbad := hstored (fun _ => some ((piece off data k).2[n] + 1)) _ _ hval
      rw [← Nat.add_assoc, ← piece_off hoff hlen hk, hkept] at hbad
      have hone : (piece off data k).2[n] + 1 = (piece off data k).2[n] := Option.some.inj hbad
      simp at hone
    · intro hfull g i b hb
      obtain ⟨hi, -⟩ := List.getElem?_eq_some_iff.mp hb
      obtain ⟨p, hp, hcov, hval⟩ := exists_piece hoff hlen hi
      have hwrote : wrote K p = (p.1.toNat, p.2) := by
        rw [wrote, hfull p hp]
        simp [Except.toOption]
      rw [foldl_covers (p := wrote K p) (mem_map_of_mem (horder.mem_iff.mpr hp))
        (hwrote ▸ hcov), hwrote, hval, hb]
      intro q hq hqi
      obtain ⟨q, hq', rfl⟩ := mem_map.mp hq
      have hq' := horder.mem_iff.mp hq'
      rw [piece_unique hoff hlen hq' hp (hsub q hq' _ hqi) hcov]

end

def writing (pwrite : UInt64 → List UInt8 → Except Int32 Nat) : Calls where
  readonly := false
  fsyncs := false
  reopen _ := none
  pwrite := pwrite
  fdatasync _ := none
  stat _ := .ok (placeholderAttr .reg)

theorem short_pwrite_acknowledged :
    let K := writing fun _ _ => .ok 1
    (write K (fun _ => .answered) [(0, [1, 2])] none none 0 [1, 2] fun _ => none).1 = none ∧
      ¬ Stored 0 [1, 2]
        (write K (fun _ => .answered) [(0, [1, 2])] none none 0 [1, 2] fun _ => none).2 := by
  refine ⟨by decide +kernel, fun h => ?_⟩
  have hsecond := h 1 2 rfl
  revert hsecond
  decide +kernel

theorem sync_write_iff_whole :
    let K := writing fun o d => if o.toNat < 9223372036854775808 then .ok d.length else .error 22
    ∀ g, Stored 0 [1, 2] (write K (fun _ => .answered) [(0, [1, 2])] none none 0 [1, 2] g).2 := by
  intro K
  refine (sync_write_iff K (fun _ => .answered) [(0, [1, 2])] none none 0 [1, 2] (by decide)
    (fun o d n hn => ?_) ?_ (fun _ => none) (by decide +kernel)).mpr (by decide +kernel)
  · change (if _ then _ else _) = _ at hn
    split at hn
    · cases hn
      exact ⟨Nat.le_refl _, ‹_›⟩
    · cases hn
  · rw [chunks_single (by decide) (by decide)]

end Mist.SyncWrite
