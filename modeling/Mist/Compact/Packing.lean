import Mist.Compact.Represents

/-! Compaction of a directory's entries, and the calls on the whole layout. -/

namespace Mist.Compact

open Returns List Compact.DirState Compact.CEnt

variable {hash : List UInt8 → UInt64} {d : DirState} {t : Mist.DirState}

/-- The entries with their names one after the other from `off` on. -/
def repack (off : Nat) : List CEnt → List CEnt
  | [] => []
  | e :: es => { e with nameOff := off } :: repack (off + e.nameLen) es

section

variable {arena : List UInt8} {l : List CEnt}

theorem map_repack {β : Type} {f : CEnt → β} (hf : ∀ e off, f { e with nameOff := off } = f e)
    (off : Nat) (l : List CEnt) : (repack off l).map f = l.map f := by
  induction l generalizing off with
  | nil => rfl
  | cons e l ih => rw [repack, map_cons, map_cons, hf, ih]

theorem length_flatMap_text (h : ∀ e ∈ l, e.nameOff + e.nameLen ≤ arena.length) :
    (l.flatMap (text arena)).length = (l.map CEnt.nameLen).sum := by
  rw [length_flatMap, map_congr_left fun e he => length_text (h e he)]

theorem text_place {front name back : List UInt8} {e : CEnt} (hlen : name.length = e.nameLen) :
    text (front ++ (name ++ back)) { e with nameOff := front.length } = name := by
  simp only [text, drop_left', ← hlen, take_left']

theorem image_repack (h : ∀ e ∈ l, e.nameOff + e.nameLen ≤ arena.length) (front : List UInt8) :
    (repack front.length l).map (image (front ++ l.flatMap (text arena))) = l.map (image arena) ∧
      ∀ e ∈ repack front.length l,
        e.nameOff + e.nameLen ≤ (front ++ l.flatMap (text arena)).length := by
  induction l generalizing front with
  | nil => exact ⟨rfl, nofun⟩
  | cons e l ih =>
    have hlen := length_text (h e (.head _))
    obtain ⟨himage, hrange⟩ := ih (fun a ha => h a (.tail _ ha))
      (front ++ text arena e)
    rw [length_append, hlen, append_assoc] at himage hrange
    rw [repack, flatMap_cons]
    refine ⟨?_, fun a ha => ?_⟩
    · rw [map_cons, map_cons, himage, image, text_place hlen]
      rfl
    rcases mem_cons.mp ha with rfl | ha
    · simp only [length_append, hlen]
      omega
    · exact hrange a ha

theorem foldlM_pack (h : ∀ e ∈ l, e.nameOff + e.nameLen ≤ d.arena.length) (front : List UInt8)
    (ents : List CEnt) (hroom : front.length + (l.map CEnt.nameLen).sum < u32Size) :
    l.foldlM (fun acc e => do
        let name ← d.nameOf e
        return (acc.1 ++ name, acc.2 ++ [{ e with nameOff := acc.1.length % u32Size }]))
        (front, ents) =
      Except.ok (ε := Stop) (front ++ l.flatMap (text d.arena), ents ++ repack front.length l) := by
  induction l generalizing front ents with
  | nil =>
    simp only [foldlM_nil, flatMap_nil, append_nil, repack]
    rfl
  | cons e l ih =>
    have hlen := length_text (h e (.head _))
    rw [map_cons, sum_cons] at hroom
    rw [foldlM_cons, DirState.nameOf, slice_eq (h e (.head _))]
    show l.foldlM _ (front ++ text d.arena e,
      ents ++ [{ e with nameOff := front.length % u32Size }]) = _
    rw [ih (fun a ha => h a (.tail _ ha)) _ _ (by
      rw [length_append, hlen]; omega), Nat.mod_eq_of_lt (by omega), length_append, hlen]
    simp [repack]

theorem foldlM_reindex (hash : List UInt8 → UInt64) {ents : List CEnt}
    (hrange : ∀ e ∈ ents, e.nameOff + e.nameLen ≤ arena.length)
    (hsmall : ents.length < u32Size) {l : List (CEnt × Nat)} (hl : ∀ p ∈ l, ents[p.2]? = some p.1)
    (t : HashTable) (ht : ∀ s ∈ t, ∃ e, ents[s.2]? = some e ∧ s.1 = hash (text arena e)) :
    l.foldlM (fun t e => do
        let name ← slice arena e.1
        t.insertUnique (hash name) (e.2 % u32Size) (rehash hash arena ents)) t =
      Except.ok (ε := Stop) (t ++ l.map fun p => (hash (text arena p.1), p.2)) := by
  induction l generalizing t with
  | nil =>
    simp only [foldlM_nil, map_nil, append_nil]
    rfl
  | cons p l ih =>
    have hp := hl p mem_cons_self
    have hrehash : ∀ s ∈ t, rehash hash arena ents s.2 = .ok s.1 := by
      intro s hs
      obtain ⟨e, he, hhash⟩ := ht s hs
      rw [rehash, entAt_eq he, hhash]
      show (slice arena e >>= fun name => Except.ok (hash name)) = _
      rw [slice_eq (hrange e (mem_of_getElem? he))]
      rfl
    have hidx : p.2 % u32Size = p.2 :=
      Nat.mod_eq_of_lt (Nat.lt_trans (Runs.lt_length hp) hsmall)
    rw [foldlM_cons, slice_eq (hrange p.1 (mem_of_getElem? hp))]
    show (t.insertUnique (hash (text arena p.1)) (p.2 % u32Size) _ >>= fun t => l.foldlM _ t) = _
    rw [HashTable.insertUnique_eq hrehash, hidx]
    show l.foldlM _ (t ++ [(hash (text arena p.1), p.2)]) = _
    rw [ih (fun q hq => hl q (.tail _ hq)), map_cons, append_assoc]
    · rfl
    intro s hs
    rcases Runs.mem_append_cases hs with hs | rfl
    · exact ht s hs
    · exact ⟨p.1, hp, rfl⟩

end

theorem mem_indexed {arena : List UInt8} {ents : List CEnt} (hlive : ∀ e ∈ ents, e.dead = false)
    (g : UInt64) (i : Nat) :
    (g, i) ∈ ents.zipIdx.map (fun p => (hash (text arena p.1), p.2)) ↔
      ∃ e, ents[i]? = some e ∧ e.dead = false ∧ g = hash (text arena e) := by
  simp only [mem_map, Prod.exists, mem_zipIdx_iff_getElem?, Prod.mk.injEq]
  constructor
  · rintro ⟨e, j, hj, rfl, rfl⟩
    exact ⟨e, hj, hlive e (mem_of_getElem? hj), rfl⟩
  · rintro ⟨e, hi, -, rfl⟩
    exact ⟨e, i, hi, rfl, rfl⟩

theorem nodup_indexed (arena : List UInt8) (ents : List CEnt) :
    (ents.zipIdx.map fun p => (hash (text arena p.1), p.2)).Nodup := by
  refine Nodup.of_map Prod.snd ?_
  rw [map_map]
  show (ents.zipIdx.map Prod.snd).Nodup
  rw [zipIdx_map_snd]
  exact nodup_range'

theorem Represents.packed (h : Represents hash d t) :
    Represents hash
      { d with
        arena := d.live.flatMap (text d.arena), ents := repack 0 d.live
        byName := (repack 0 d.live).zipIdx.map fun p =>
          (hash (text (d.live.flatMap (text d.arena)) p.1), p.2)
        dead := 0 } t := by
  have hrange : ∀ e ∈ d.live, e.nameOff + e.nameLen ≤ d.arena.length := fun e he =>
    h.range e (mem_live.mp he).1
  have hlen := length_flatMap_text hrange
  have hroom : (d.live.map nameLen).sum ≤ (d.ents.map nameLen).sum :=
    (filter_sublist.map _).sum_le_sum fun _ _ => Nat.zero_le _
  obtain ⟨himage, hplaced⟩ := image_repack hrange []
  rw [nil_append, length_nil] at himage hplaced
  -- what holds of a field of every live entry holds of it after packing
  have hfield : ∀ {β : Type} (f : CEnt → β) (P : β → Prop),
      (∀ e off, f { e with nameOff := off } = f e) → (∀ e ∈ d.live, P (f e)) →
      ∀ e ∈ repack 0 d.live, P (f e) := by
    intro β f P hf hP e he
    have hmem : f e ∈ d.live.map f := by
      rw [← map_repack hf 0]
      exact mem_map_of_mem he
    obtain ⟨e', he', heq⟩ := mem_map.mp hmem
    rw [← heq]
    exact hP e' he'
  have hlive : ∀ e ∈ repack 0 d.live, e.dead = false :=
    hfield CEnt.dead (· = false) (fun _ _ => rfl) fun e he => (mem_live.mp he).2
  have hall : (repack 0 d.live).filter (fun e => !e.dead) = repack 0 d.live :=
    filter_eq_self.mpr fun e he => by rw [hlive e he]; rfl
  constructor
  case toLaid =>
    constructor
    · exact hplaced
    · exact hfield nameLen (0 < ·) (fun _ _ => rfl) fun e he => h.named e (mem_live.mp he).1
    · rw [map_repack fun _ _ => rfl]
      exact Nat.le_of_eq hlen.symm
    · rw [hlen]
      exact Nat.lt_of_le_of_lt (Nat.le_trans hroom h.stored) h.bounded
    · rw [map_repack fun _ _ => rfl]
      exact h.sorted.sublist (filter_sublist.map _)
    · exact hfield cookie (· < d.nextCookie) (fun _ _ => rfl) fun e he =>
        h.below e (mem_live.mp he).1
  case image =>
    show ((repack 0 d.live).filter fun e => !e.dead).map _ = _
    rw [hall, himage, h.image]
  case dead =>
    show 0 + ((repack 0 d.live).filter fun e => !e.dead).length = (repack 0 d.live).length
    rw [hall, Nat.zero_add]
  case index => exact mem_indexed hlive
  case once => exact nodup_indexed _ _
  case nextCookie => exact h.nextCookie
  case dirgen => exact h.dirgen
  case complete => exact h.complete

theorem Represents.compact (h : Represents hash d t) :
    ∃ d', d.compact hash = .ok d' ∧ Represents hash d' t := by
  have hlen : d.liveLen = .ok d.live.length := by
    have := h.dead
    rw [liveLen, if_pos (by omega)]
    congr 1
    omega
  have hpacked := h.packed
  have hrange : ∀ e ∈ d.live, e.nameOff + e.nameLen ≤ d.arena.length := fun e he =>
    h.range e (mem_live.mp he).1
  have hpack : d.pack = .ok (d.live.flatMap (text d.arena), repack 0 d.live) := by
    refine foldlM_pack hrange [] [] ?_
    rw [← length_flatMap_text hrange, length_nil, Nat.zero_add]
    exact hpacked.bounded
  have hindex := foldlM_reindex hash (l := (repack 0 d.live).zipIdx) hpacked.range
    (Nat.lt_of_le_of_lt (length_le hpacked.toLaid) hpacked.bounded)
    (fun p hp => mem_zipIdx_iff_getElem?.mp hp) [] nofun
  refine ⟨_, ?_, hpacked⟩
  rw [DirState.compact, hlen]
  rw [hpack]
  show (reindex hash _ _ >>= fun byName => _) = _
  rw [reindex, hindex]
  rfl

namespace Represents

section

variable (h : Represents hash d t)
include h

theorem kill {i : Nat} {e : CEnt} {x : Name} (hi : d.ents[i]? = some e)
    (he : e.dead = false) (htext : text d.arena e = x.bytes) :
    ∃ d', d.kill hash i = .ok d' ∧ Represents hash d' (t.kill x) := by
  have htomb := h.tombstone hi he htext
  have hsmall : ¬ u32Size ≤ (d.tombstone hash i e (text d.arena e)).dead := by
    have h1 := htomb.dead
    have h2 := length_le htomb.toLaid
    have h3 := htomb.bounded
    omega
  have heq : d.kill hash i = if (d.tombstone hash i e (text d.arena e)).ents.length / 2 <
        (d.tombstone hash i e (text d.arena e)).dead ∧
        16 ≤ (d.tombstone hash i e (text d.arena e)).dead
      then (d.tombstone hash i e (text d.arena e)).compact hash
      else .ok (d.tombstone hash i e (text d.arena e)) := by
    rw [DirState.kill, entAt_eq hi]
    show (d.nameOf e >>= fun name => _) = _
    rw [DirState.nameOf, slice_eq (h.range e (mem_of_getElem? hi))]
    exact if_neg hsmall
  rw [heq]
  split
  · exact htomb.compact
  · exact ⟨_, rfl, htomb⟩

/-- `upsert` does to the layout what it does to the list, with the same result. -/
theorem upsert (x : Name) (node : NodeKey) (kind : Kind) :
    Meets (· = Stop.limit) (d.upsert hash x node kind) fun u =>
      Represents hash u.1 (t.upsert x node kind).1 ∧ u.2 = (t.upsert x node kind).2 := by
  rcases h.findIdx_cases x.bytes with ⟨hidx, hnone⟩ | ⟨i, e, hidx, hi, he, htext⟩
  · have hfree := h.findEnt_none hnone
    have heq : t.upsert x node kind = (t.insertNew x node kind hfree, ⟨true, none, 1⟩) := by
      unfold Mist.DirState.upsert
      split
      · simp_all
      · rfl
    rw [DirState.upsert, hidx, heq]
    exact (h.insertNew node kind hfree).bind fun d' hd' => ⟨hd', rfl⟩
  · obtain ⟨a, hfind, -, hnode, -⟩ := h.findEnt_some (mem_live_of_getElem? hi he) htext
    by_cases hsame : e.node = node
    · have heq : t.upsert x node kind = (t.setKind x kind, ⟨false, none, 0⟩) := by
        unfold Mist.DirState.upsert
        split
        · rename_i a' ha'
          obtain rfl : a = a' := Option.mem_unique hfind ha'
          rw [if_pos (hnode.trans hsame)]
        · simp_all
      rw [DirState.upsert, hidx, heq]
      show Meets _ (entAt d.ents i >>= fun e => _) _
      rw [entAt_eq hi]
      show Meets _ (if e.node = node then _ else _) _
      rw [if_pos hsame]
      exact ⟨h.setKind kind hi he htext, rfl⟩
    · have hfree : (t.kill x).findEnt x = none := by rw [DirState.findEnt_kill, if_pos rfl]
      have heq : t.upsert x node kind =
          ((t.kill x).insertNew x node kind hfree, ⟨true, some e.node, 0⟩) := by
        unfold Mist.DirState.upsert
        split
        · rename_i a' ha'
          obtain rfl : a = a' := Option.mem_unique hfind ha'
          rw [if_neg (hnode ▸ hsame), hnode]
        · simp_all
      obtain ⟨d', hkill, hd'⟩ := h.kill hi he htext
      rw [DirState.upsert, hidx, heq]
      show Meets _ (entAt d.ents i >>= fun e => _) _
      rw [entAt_eq hi]
      show Meets _ (if e.node = node then _ else _) _
      rw [if_neg hsame, hkill]
      exact (hd'.insertNew node kind hfree).bind fun d'' hd'' => ⟨hd'', rfl⟩

theorem remove (x : Name) :
    (d.remove hash x.bytes = .ok none ∧ t.remove x = none) ∨
      ∃ k d' t', d.remove hash x.bytes = .ok (some (k, d')) ∧ t.remove x = some (k, t') ∧
        Represents hash d' t' := by
  rcases h.findIdx_cases x.bytes with ⟨hidx, hnone⟩ | ⟨i, e, hidx, hi, he, htext⟩
  · refine .inl ⟨?_, ?_⟩
    · rw [DirState.remove, hidx]
      rfl
    · rw [Mist.DirState.remove, h.findEnt_none hnone]
      rfl
  · obtain ⟨a, hfind, -, hnode, -⟩ := h.findEnt_some (mem_live_of_getElem? hi he) htext
    have hbump : Represents hash { d with dirgen := d.dirgen + 1 } { t with dirgen := t.dirgen + 1 } :=
      { h with dirgen := congrArg (· + 1) h.dirgen }
    obtain ⟨d', hkill, hd'⟩ := hbump.kill hi he htext
    refine .inr ⟨e.node, d', _, ?_, ?_, hd'⟩
    · rw [DirState.remove, hidx]
      show (entAt d.ents i >>= fun e => _) = _
      rw [entAt_eq hi]
      rw [hkill]
      rfl
    · rw [Mist.DirState.remove, hfind, Option.map_some, hnode]
      rfl

end

/-- In cookie order, what comes after the cookies up to `after` is what has a cookie above it. -/
theorem drop_takeWhile {l : List CEnt} (hsorted : (l.map CEnt.cookie).Pairwise (· < ·)) (after : Nat) :
    l.drop (l.takeWhile fun e => e.cookie ≤ after).length = l.filter fun e => after < e.cookie := by
  induction l with
  | nil => rfl
  | cons e l ih =>
    obtain ⟨hhead, htail⟩ := pairwise_cons.mp hsorted
    by_cases he : e.cookie ≤ after
    · rw [takeWhile_cons_of_pos (by simpa using he), length_cons, drop_succ_cons,
        ih htail, filter_cons_of_neg (by simpa using he)]
    rw [takeWhile_cons_of_neg (by simpa using he), length_nil, drop_zero, eq_comm, filter_eq_self]
    intro a ha
    rcases mem_cons.mp ha with rfl | ha
    · simpa using he
    · have := hhead a.cookie (mem_map_of_mem ha)
      rw [decide_eq_true_eq]
      omega

theorem rangeAfter (h : Represents hash d t) (after : Nat) :
    ∃ es, d.rangeAfter after = .ok es ∧ (∀ e ∈ es, e ∈ d.live) ∧
      es.map (Compact.image d.arena) = (t.rangeAfter after).map Mist.CEnt.image := by
  have hpage : (d.ents.filter fun e => after < e.cookie).filter (fun e => !e.dead) =
      d.live.filter fun e => after < e.cookie := by
    rw [live, filter_filter, filter_filter]
    exact filter_congr fun e _ => Bool.and_comm ..
  refine ⟨d.live.filter fun e => after < e.cookie, ?_, fun e he => mem_of_mem_filter he, ?_⟩
  · rw [DirState.rangeAfter, drop_takeWhile h.sorted, hpage]
    exact if_pos ( takeWhile_prefix _).length_le
  have hfilter : ∀ {α : Type} (f : α → Nat × List UInt8 × NodeKey × Kind) (l : List α),
      (l.filter fun e => after < (f e).1).map f = (l.map f).filter fun p => after < p.1 :=
    fun f l => by rw [filter_map]; rfl
  exact (hfilter _ d.live).trans (h.image ▸ (hfilter _ t.ents).symm)

end Represents

/-- A call that changes a table. -/
inductive Call where
  | upsert (name : Name) (node : NodeKey) (kind : Kind)
  | remove (name : Name)

/-- What a call does to the list of live entries. -/
def Call.on (t : Mist.DirState) : Call → Mist.DirState
  | .upsert x node kind => (t.upsert x node kind).1
  | .remove x => ((t.remove x).map Prod.snd).getD t

namespace DirState

def call (hash : List UInt8 → UInt64) (d : DirState) : Call → Except Stop DirState
  | .upsert x node kind => do return (← d.upsert hash x node kind).1
  | .remove x => do return ((← d.remove hash x.bytes).map Prod.snd).getD d

/-- No more tombstones than compaction leaves alone. -/
def Sparse (d : DirState) : Prop := d.dead ≤ max 15 (d.ents.length / 2)

theorem kill_sparse (d : DirState) (i : Nat) : Meets (fun _ => True) (d.kill hash i) Sparse := by
  refine (Meets.any _).bind fun e _ => (Meets.any _).bind fun name _ =>
    .ite (fun _ => trivial) fun _ => .ite (fun _ => ?_) fun hnot => ?_
  · refine (Meets.any _).bind fun _ _ => (Meets.any _).bind fun _ _ =>
      (Meets.any _).bind fun _ _ => Nat.zero_le _
  · show _ ≤ _
    omega

theorem insertNew_sparse (h : d.Sparse) (b : List UInt8) (node : NodeKey) (kind : Kind) :
    Meets (fun _ => True) (d.insertNew hash b node kind) Sparse := by
  refine .ite (fun _ => trivial) fun _ => (Meets.any _).bind fun byName _ => ?_
  simp only [Sparse] at h
  show d.dead ≤ max 15 ((d.ents ++ [_]).length / 2)
  rw [length_append]
  omega

theorem call_sparse (h : d.Sparse) (c : Call) : Meets (fun _ => True) (d.call hash c) Sparse := by
  cases c with
  | upsert x node kind =>
    refine .bind (q := fun u => u.1.Sparse) ((Meets.any _).bind fun found _ => ?_) fun u hu => hu
    cases found with
    | none => exact (insertNew_sparse h ..).bind fun d' hd' => hd'
    | some i =>
      refine (Meets.any _).bind fun e _ => .ite (fun _ => ?_) fun _ => ?_
      · show d.dead ≤ max 15 ((d.ents.set i _).length / 2)
        rw [length_set]
        exact h
      · exact (kill_sparse ..).bind fun d' hd' => (insertNew_sparse hd' ..).bind fun _ hd => hd
  | remove x =>
    refine .bind (q := fun o => ∀ u ∈ o, u.2.Sparse) ((Meets.any _).bind fun found _ => ?_) ?_
    · cases found with
      | none => exact fun _ hu => absurd hu (Option.not_mem_none _)
      | some i =>
        refine (Meets.any _).bind fun e _ => (kill_sparse ..).bind fun d' hd' => ?_
        rintro _ ⟨⟩
        exact hd'
    · rintro (_ | u) hu
      · exact h
      · exact hu u rfl

end DirState

theorem Represents.call (h : Represents hash d t) (c : Call) :
    Meets (· = Stop.limit) (d.call hash c) (Represents hash · (c.on t)) := by
  cases c with
  | upsert x node kind => exact (h.upsert x node kind).bind fun u hu => hu.1
  | remove x =>
    rcases h.remove x with ⟨hd, ht⟩ | ⟨k, d', t', hd, ht, hrep⟩
    · rw [DirState.call, hd, Call.on, ht]
      exact h
    · rw [DirState.call, hd, Call.on, ht]
      exact hrep

/-- A table that stands for a list of live entries answers as the list does, and goes on to stand for
it when it is compacted. -/
structure Answers (hash : List UInt8 → UInt64) (d : DirState) (t : Mist.DirState) : Prop where
  represents : Represents hash d t
  find : ∀ x : Name, d.find hash x.bytes = .ok (t.find x)
  removes : ∀ x : Name,
    (d.remove hash x.bytes).map (·.map Prod.fst) = .ok ((t.remove x).map Prod.fst)
  listing : ∀ after, (d.rangeAfter after).map (·.map (image d.arena)) =
    .ok ((t.rangeAfter after).map Mist.CEnt.image)
  compact : ∃ d', d.compact hash = .ok d' ∧ Represents hash d' t

theorem Represents.answers (h : Represents hash d t) : Answers hash d t where
  represents := h
  find := h.find_eq
  removes x := by
    rcases h.remove x with ⟨hd, ht⟩ | ⟨k, d', t', hd, ht, -⟩ <;> rw [hd, ht] <;> rfl
  listing after := by
    obtain ⟨es, hes, -, himage⟩ := h.rangeAfter after
    rw [hes, ← himage]
    rfl
  compact := h.compact

/-- Until its names reach 2^32 bytes, a table is a map in the order of insertion. -/
theorem table_refines (hash : List UInt8 → UInt64) (calls : List Call) :
    Meets (· = Stop.limit) (calls.foldlM (DirState.call hash) .new) fun d =>
      Answers hash d (calls.foldl Call.on .new) ∧ d.Sparse := by
  suffices hrun : ∀ d t, Represents hash d t → d.Sparse →
      Meets (· = Stop.limit) (calls.foldlM (call hash) d) fun d' =>
        Answers hash d' (calls.foldl Call.on t) ∧ d'.Sparse from
    hrun _ _ .new (Nat.zero_le _)
  induction calls with
  | nil => exact fun d t h hsparse => ⟨h.answers, hsparse⟩
  | cons c calls ih =>
    intro d t h hsparse
    exact ((h.call c).and (call_sparse hsparse c)).bind fun d' hd' => ih _ _ hd'.1 hd'.2

end Mist.Compact
